import IvySync.Decoder.Run
import Mathlib.Logic.Function.Basic

/-!
# The process

The program as a whole: `main` after its command line, the thread of each decoder, the thread of the
UDP server and the flag `syncstart` that they share.  `main` also executes the remote commands, in
the loop of the daemon.  One action of `Process.machine` is one step of one of these threads, and
any of them may come next.  `exit` ends the process with all its threads.  The signal handler and
the graphical interface are left out.
-/

namespace IvySync

/-- What was compiled: the standalone player, the XMLRPC daemon or the UDP-Lite daemon. -/
inductive Build
  | player
  | xmlrpc
  | udplite
  deriving DecidableEq, Repr

/-- What is fixed when `main` has read its command line: the build, the options `-x` and `-b`, each
decoder with the files given for it, and the playlist that `load` finds for it. -/
structure Config (n : ℕ) where
  build : Build
  rpcdaemon : Bool
  videobuf : ℤ
  fd : Fin n → ℤ
  dummy : Fin n → Bool
  playmode : Fin n → Playmode
  files : Fin n → Playlist Name
  saved : Fin n → Playlist Name

/-- The control points of `main`. -/
inductive Main (n : ℕ)
  /-- The command line has been read. -/
  | begin
  /-- The UDP server is to be launched. -/
  | udpInit
  /-- `dec->setup`. -/
  | setup (i : Fin n)
  /-- `dec->launch`. -/
  | launch (i : Fin n)
  /-- `dec->load`, with `k` entries appended. -/
  | load (i : Fin n) (k : ℕ)
  /-- `dec->play`. -/
  | play (i : Fin n)
  /-- `if( ! rpcdaemon )` after all decoders have been launched. -/
  | syncing
  /-- `jsleep(0,500)` is over and `syncstart = 1` comes next. -/
  | raise
  /-- `if(!syncstart) jsleep(0,100)`. -/
  | wait
  /-- The loop of the daemon. -/
  | serve
  /-- `Quit::execute` stops and closes the decoder, up to the join. -/
  | quitting (i : Fin n)
  /-- The join in `close`, and what follows it. -/
  | join (i : Fin n)
  /-- The decoder is looked at in the loop that waits for the end of all channels. -/
  | count (i : Fin n) (stillRunning : ℕ)
  /-- The process has ended. -/
  | exited
  deriving DecidableEq

/-- The control points of `UdpLiteSrv::run`. -/
inductive Udp
  /-- The thread has not been created. -/
  | idle
  /-- `recvmsg`. -/
  | receiving
  /-- `if(syncstart) *syncstart = true`. -/
  | raise
  | done
  deriving DecidableEq, Repr

/-- The state of the process. -/
structure Process (n : ℕ) where
  main : Main n
  rpcdaemon : Bool
  syncstart : Bool
  udp : Udp
  /-- The static variable `quit` of the remote interface. -/
  quit : Bool
  decoders : Fin n → Decoder

/-- A remote command, once its parameters have been read. -/
inductive Command
  | play (decnum : ℤ)
  | stop (decnum : ℤ)
  | pause (decnum : ℤ)
  | getPos (decnum : ℤ)
  | setPos (decnum pos : ℤ)
  | getOffset (decnum : ℤ)
  | setOffset (decnum pos : ℤ)
  | open (decnum : ℤ) (path : Name)
  | quit
  deriving DecidableEq, Repr

namespace Command

/-- The request that the command makes of a decoder, and its number; `readable` tells whether
`fopen` of the path of an `Open` succeeds.  `GetPos` and `GetOffset` only read. -/
def request (readable : Bool) : Command → Option (ℤ × Request)
  | .play decnum => some (decnum, .play)
  | .stop decnum => some (decnum, .stop)
  | .pause decnum => some (decnum, .pause)
  | .getPos _ => none
  | .setPos decnum pos => some (decnum, .setpos pos)
  | .getOffset _ => none
  | .setOffset decnum pos => some (decnum, .setoffset pos)
  | .open decnum path => if readable then some (decnum, .open path) else none
  | .quit => none

end Command

/-- What the world answers during one step of `main`. -/
structure MainAnswers where
  /-- `bindAndListen` succeeds. -/
  bind : Bool := true
  /-- `calloc` succeeds. -/
  calloc : Bool := true
  /-- `pthread_create` succeeds. -/
  created : Bool := true
  /-- The command that `work` receives, if any. -/
  command : Option Command := none
  /-- The file of an `Open` can be read. -/
  readable : Bool := true

/-- What `recvmsg` returns. -/
inductive RecvResult
  | error
  | datagram
  deriving DecidableEq, Repr

namespace Process

/-- A step of one of the threads of the process. -/
inductive Action (n : ℕ)
  | main (a : MainAnswers)
  | thread (i : Fin n) (a : Answers)
  | udp (r : RecvResult)

/-- What can be seen of a step of the process. -/
inductive Event (n : ℕ)
  | silent
  /-- A step of the thread of a decoder. -/
  | thread (i : Fin n) (e : IvySync.Event)
  /-- A remote command or `main` makes a request of a decoder. -/
  | request (i : Fin n) (r : Request)
  /-- `main` raises `syncstart`. -/
  | raised
  /-- `recvmsg` has returned. -/
  | received (r : RecvResult)
  /-- The UDP server raises `syncstart`. -/
  | udpRaised
  deriving DecidableEq

variable {n : ℕ}

/-- The process after the command line. -/
def init (cfg : Config n) : Process n where
  main := .begin
  rpcdaemon := cfg.rpcdaemon
  syncstart := false
  udp := .idle
  quit := false
  decoders i := Decoder.new (cfg.fd i) (cfg.dummy i) (cfg.playmode i) (cfg.files i)

/-- The control point for the first decoder, if there is one. -/
def first (m : Fin n → Main n) : Main n := if h : 0 < n then m ⟨0, h⟩ else .exited

/-- The control point for the next decoder, `last` after the last one. -/
def following (m : Fin n → Main n) (last : Main n) (i : Fin n) : Main n :=
  if h : i.val + 1 < n then m ⟨i.val + 1, h⟩ else last

/-- The operator `decoders[decnum]`. -/
def pick (decnum : ℤ) : Option (Fin n) :=
  if h : 1 ≤ decnum ∧ decnum ≤ n then some ⟨(decnum - 1).toNat, by omega⟩ else none

/-- The process with another state of one decoder. -/
def set (s : Process n) (i : Fin n) (d : Decoder) : Process n :=
  { s with decoders := Function.update s.decoders i d }

/-- `main` goes on at another control point. -/
def goto (s : Process n) (m : Main n) : Process n := { s with main := m }

/-- A command is executed. -/
def execute (readable : Bool) (c : Command) (s : Process n) : Process n × Event n :=
  if c = .quit then (s.goto (first .quitting), .silent)
  else match c.request readable with
    | none => (s, .silent)
    | some (decnum, r) =>
      match pick decnum with
      | none => (s, .silent)
      | some i => (s.set i ((s.decoders i).apply r), .request i r)

/-- One step of `main`; `none` while it waits for a thread to end and after `exit`. -/
def mainStep (cfg : Config n) (a : MainAnswers) (s : Process n) : Option (Process n × Event n) :=
  match s.main with
  | .begin =>
    if n = 0 then some (s.goto .exited, .silent)
    else
      let daemon := s.rpcdaemon && (cfg.build ≠ .xmlrpc || a.bind)
      some ({ s with rpcdaemon := daemon, main := .udpInit }, .silent)
  | .udpInit =>
    let udp := if cfg.build = .udplite ∧ a.created then .receiving else s.udp
    some ({ s with udp := udp, main := first .setup }, .silent)
  | .setup i =>
    some ((s.set i ((s.decoders i).setup a.calloc cfg.videobuf).1).goto (.launch i), .silent)
  | .launch i =>
    some ((s.set i ((s.decoders i).launch a.created)).goto
      (if s.rpcdaemon then following .setup .syncing i else .load i 0), .silent)
  | .load i k =>
    match (cfg.saved i)[k]? with
    | some line =>
      some ((s.set i ((s.decoders i).append line)).goto (.load i (k + 1)),
        .request i (.append line))
    | none => some (s.goto (.play i), .silent)
  | .play i =>
    some ((s.set i (s.decoders i).play).goto (following .setup .syncing i), .request i .play)
  | .syncing =>
    some (s.goto (if s.rpcdaemon ∨ cfg.build = .udplite then .wait else .raise), .silent)
  | .raise => some ({ s with syncstart := true, main := .wait }, .raised)
  | .wait =>
    some (s.goto (if cfg.build = .xmlrpc ∧ s.rpcdaemon then .serve else first (.count · 0)),
      .silent)
  | .serve =>
    if s.quit then some (s.goto .exited, .silent)
    else match a.command with
      | none => some (s, .silent)
      | some c => some (execute a.readable c s)
  | .quitting i =>
    some ((s.set i ((s.decoders i).apply .stop |>.apply .quit)).goto (.join i), .request i .quit)
  | .join i =>
    if (s.decoders i).running ∧ (s.decoders i).alive then none
    else
      let s' := s.set i ((s.decoders i).apply .close)
      if h : i.val + 1 < n then some (s'.goto (.quitting ⟨i.val + 1, h⟩), .request i .close)
      else some ({ s' with quit := true, main := .serve }, .request i .close)
  | .count i stillRunning =>
    let stillRunning := stillRunning + if (s.decoders i).playing then 1 else 0
    some (s.goto (following (.count · stillRunning)
      (if stillRunning = 0 then .exited else first (.count · 0)) i), .silent)
  | .exited => none

/-- One step of the thread of the UDP server. -/
def udpStep (r : RecvResult) (s : Process n) : Option (Process n × Event n) :=
  match s.udp with
  | .idle => none
  | .receiving => some ({ s with udp := .raise }, .received r)
  | .raise => some ({ s with syncstart := true, udp := .done }, .udpRaised)
  | .done => none

/-- One step of the thread of a decoder, which reads `syncstart` from the process. -/
def threadStep (i : Fin n) (a : Answers) (s : Process n) : Option (Process n × Event n) :=
  if (s.decoders i).alive then
    let r := (s.decoders i).step { a with syncstart := s.syncstart }
    some (s.set i r.1, .thread i r.2)
  else none

/-- The process with its threads interleaved. -/
def machine (cfg : Config n) : Machine (Process n) (Action n) (Event n) where
  next s x :=
    if s.main = .exited then none
    else match x with
      | .main a => s.mainStep cfg a
      | .thread i a => s.threadStep i a
      | .udp r => s.udpStep r

/-- A file system answers every `fopen64` of the run. -/
def Reads (fopen64 : Name → FopenResult) (s : Process n) : Action n → Prop
  | .thread i a => (s.decoders i).pc = .open →
    ∀ name ∈ (s.decoders i).playlist.pick (s.decoders i).position, a.fopen64 = fopen64 name
  | _ => True

instance (fopen64 : Name → FopenResult) (s : Process n) (x : Action n) :
    Decidable (s.Reads fopen64 x) :=
  match x with
  | .thread i a => inferInstanceAs (Decidable ((s.decoders i).pc = .open →
      ∀ name ∈ (s.decoders i).playlist.pick (s.decoders i).position, a.fopen64 = fopen64 name))
  | .main _ => inferInstanceAs (Decidable True)
  | .udp _ => inferInstanceAs (Decidable True)

/-- A command line with one decoder and a playlist of one entry. -/
def solo (build : Build) (rpcdaemon : Bool) : Config 1 where
  build := build
  rpcdaemon := rpcdaemon
  videobuf := 1
  fd _ := 3
  dummy _ := false
  playmode _ := .single
  files _ := [[97]]
  saved _ := []

/-- The steps of the thread of the decoder up to its first `write`. -/
def toWrite (movie : List UInt8) : List (Action 1) :=
  List.replicate 11 (.thread 0 { fopen64 := .stream movie })

end Process

end IvySync
