import IvySync.Decoder.Playmode
import IvySync.Saved.Defs

/-!
# The command line

`cmdline` asks `getopt_long` for one option after the other.  As its `short_options` begin with a
`-`, the operands come in their places among the options, as if each of them were the argument of an
option with the character code 1.

The variable `dec` points to the decoder that files and playmodes are given to.  It is NULL at first
and after an option `-d` whose device cannot be opened; `CHECK_DECODER` then takes the first
decoder, or opens one.
-/

namespace IvySync

namespace Cmdline

/-! ### The options -/

/-- The options that are compiled in only with the interface they are for. -/
structure Features where
  xmlrpc : Bool
  gui : Bool
  deriving DecidableEq, Repr

/-- `short_options`. -/
def shortOptions : Name := bytesOf "-hd:sb:x:p:gtD:"

/-- An entry of `long_options`. -/
structure LongOption where
  name : Name
  hasArg : Bool
  val : UInt8
  deriving DecidableEq, Repr

/-- `long_options`. -/
def longOptions (f : Features) : List LongOption :=
  [⟨bytesOf "help", false, 'h'.toUInt8⟩, ⟨bytesOf "device", true, 'd'.toUInt8⟩,
    ⟨bytesOf "scan", false, 's'.toUInt8⟩, ⟨bytesOf "buffer", true, 'b'.toUInt8⟩] ++
  (if f.xmlrpc then [⟨bytesOf "xmlrpc", true, 'x'.toUInt8⟩] else []) ++
  [⟨bytesOf "playmode", true, 'p'.toUInt8⟩] ++
  (if f.gui then [⟨bytesOf "gui", false, 'g'.toUInt8⟩] else []) ++
  [⟨bytesOf "test", false, 't'.toUInt8⟩, ⟨bytesOf "debug", true, 'D'.toUInt8⟩]

/-- Whether the short option takes an argument, `none` for a character that is no option. -/
def takesArgument (c : UInt8) : Option Bool :=
  match shortOptions.tail.dropWhile (· ≠ c) with
  | [] => none
  | _ :: rest => if c = ':'.toUInt8 then none else some (rest.head? = some ':'.toUInt8)

/-- The long option with the name, or else the one that the name is the beginning of; `none` when
there is none or when several differ. -/
def findLong (f : Features) (name : Name) : Option LongOption :=
  match (longOptions f).find? (·.name = name) with
  | some o => some o
  | none =>
    match (longOptions f).filter (name.isPrefixOf ·.name) with
    | [] => none
    | o :: os => if os.all fun o' => o'.hasArg = o.hasArg ∧ o'.val = o.val then some o else none

/-- What `getopt_long` returns, with `optarg`, which is empty for an option without an argument. -/
abbrev Result := UInt8 × Name

/-- It returns a `?` for an option that is not known or lacks its argument. -/
def unknown : Result := ('?'.toUInt8, [])

/-- The results for an element with short options, and the option that waits for the next element
as its argument. -/
def shortElement : Name → List Result × Option UInt8
  | [] => ([], none)
  | c :: rest =>
    match takesArgument c with
    | none => (unknown :: (shortElement rest).1, (shortElement rest).2)
    | some false => ((c, []) :: (shortElement rest).1, (shortElement rest).2)
    | some true => if rest = [] then ([], some c) else ([(c, rest)], none)

/-- The same for an element with a long option. -/
def longElement (f : Features) (text : Name) : List Result × Option UInt8 :=
  match findLong f (text.takeWhile (· ≠ '='.toUInt8)), text.dropWhile (· ≠ '='.toUInt8) with
  | none, _ => ([unknown], none)
  | some o, [] => if o.hasArg then ([], some o.val) else ([(o.val, [])], none)
  | some o, _ :: optarg => if o.hasArg then ([(o.val, optarg)], none) else ([unknown], none)

/-- The results of the calls of `getopt_long` up to the one that returns -1, for the arguments after
the name of the program; `waiting` is the option that waits for its argument. -/
def getoptLong (f : Features) : (waiting : Option UInt8) → List Name → List Result
  | none, [] => []
  | some _, [] => [unknown]
  | some c, optarg :: argv => (c, optarg) :: getoptLong f none argv
  | none, [45, 45] :: _ => []
  | none, (45 :: 45 :: text) :: argv =>
    (longElement f text).1 ++ getoptLong f (longElement f text).2 argv
  | none, (45 :: c :: cs) :: argv =>
    (shortElement (c :: cs)).1 ++ getoptLong f (shortElement (c :: cs)).2 argv
  | none, operand :: argv => (1, operand) :: getoptLong f none argv

/-- The cases of the `switch` in `cmdline`. -/
inductive Opt
  | help
  | device (optarg : Name)
  | scan
  | playmode (optarg : Name)
  | xmlrpc (optarg : Name)
  | gui
  | test
  | debug (optarg : Name)
  | buffer (optarg : Name)
  | file (optarg : Name)
  /-- The default. -/
  | other
  deriving DecidableEq, Repr

/-- The case that a result leads to. -/
def Opt.of (r : Result) : Opt :=
  if r.1 = 'h'.toUInt8 then .help
  else if r.1 = 'd'.toUInt8 then .device r.2
  else if r.1 = 's'.toUInt8 then .scan
  else if r.1 = 'p'.toUInt8 then .playmode r.2
  else if r.1 = 'x'.toUInt8 then .xmlrpc r.2
  else if r.1 = 'g'.toUInt8 then .gui
  else if r.1 = 't'.toUInt8 then .test
  else if r.1 = 'D'.toUInt8 then .debug r.2
  else if r.1 = 'b'.toUInt8 then .buffer r.2
  else if r.1 = 1 then .file r.2
  else .other

/-- The options of an argument vector, in the order in which `cmdline` gets them. -/
def options (f : Features) (argv : List Name) : List Opt := (getoptLong f none argv).map Opt.of

/-! ### cmdline -/

/-- What the system answers: the descriptor that `open` returns for the path of a device, negative
when it cannot be opened, and whether `fopen` can open a file. -/
structure World where
  fd : Name → ℤ
  readable : Name → Bool

/-- The local `dec`, by its place in the list of the decoders, and the global variables. -/
structure State where
  dec : Option ℕ
  decoders : List Channel
  graphical : Bool
  dummytest : Bool
  rpcdaemon : Bool
  rpcdaemonport : ℤ
  videobuf : ℤ
  verbosity : ℤ
  deriving DecidableEq, Repr

/-- The state in which `main` calls `cmdline`. -/
def State.start : State where
  dec := none
  decoders := []
  graphical := false
  dummytest := false
  rpcdaemon := false
  rpcdaemonport := 2640
  videobuf := 64
  verbosity := 1

/-- How `cmdline` goes on after a case. -/
inductive Outcome
  | proceeds (s : State)
  /-- `exit(1)`. -/
  | exits (s : State)
  /-- A member of a decoder is reached through NULL. -/
  | crashes
  deriving DecidableEq, Repr

/-- `set_debug`. -/
def setDebug (lev : ℤ) (s : State) : State := { s with verbosity := min (max lev 0) 3 }

/-- A new decoder whose `init` has been called. -/
def newDecoder (w : World) (dummy : Bool) (dev : Name) : Option Channel :=
  Channel.init dev (w.fd dev) (Decoder.new 0 dummy .single [])

/-- The device that `CHECK_DECODER` opens. -/
def defaultDevice : Name := bytesOf "/dev/video16"

/-- `CHECK_DECODER`. -/
def checkDecoder (w : World) (s : State) : State :=
  if s.dec ≠ none then s
  else if s.decoders ≠ [] then { s with dec := some 0 }
  else
    match newDecoder w false defaultDevice with
    | some c => { s with dec := some s.decoders.length, decoders := s.decoders ++ [c] }
    | none => s

/-- Change the decoder that `dec` points to. -/
def modify (g : Decoder → Decoder) (s : State) : Outcome :=
  match s.dec with
  | some i =>
    .proceeds { s with decoders := s.decoders.modify i fun c => { c with decoder := g c.decoder } }
  | none => .crashes

/-- The argument of `-p` is one of the names it is compared with. -/
def recognized (optarg : Name) : Bool :=
  strncasecmp optarg Playmode.playName 4 || strncasecmp optarg Playmode.contName 4 ||
    strncasecmp optarg Playmode.loopName 4 || strncasecmp optarg Playmode.randName 4 ||
    strncasecmp optarg Playmode.singleName 6

/-- One pass through the loop of `cmdline`. -/
def step (w : World) (s : State) : Opt → Outcome
  | .help => .exits s
  | .device optarg =>
    match newDecoder w s.dummytest optarg with
    | some c =>
      .proceeds { s with dec := some s.decoders.length, decoders := s.decoders ++ [c] }
    | none => .proceeds { s with dec := none }
  | .scan => .exits s
  | .playmode optarg =>
    if recognized optarg then modify (IvySync.cmdline optarg) (checkDecoder w s)
    else .proceeds (checkDecoder w s)
  | .xmlrpc optarg => .proceeds { s with rpcdaemon := true, rpcdaemonport := atoi32 optarg }
  | .gui => .proceeds { s with graphical := true }
  | .test => .proceeds { s with dummytest := true }
  | .debug optarg => .proceeds (setDebug (atoi32 optarg) s)
  | .buffer optarg => .proceeds { s with videobuf := atoi32 optarg }
  | .file optarg =>
    if w.readable optarg then modify (Decoder.append optarg) (checkDecoder w s) else .proceeds s
  | .other => .proceeds s

/-- The loop of `cmdline`. -/
def loop (w : World) : State → List Opt → Outcome
  | s, [] => .proceeds s
  | s, o :: opts =>
    match step w s o with
    | .proceeds s' => loop w s' opts
    | .exits s' => .exits s'
    | .crashes => .crashes

/-- `cmdline`, for the arguments after the name of the program. -/
def cmdline (f : Features) (w : World) (argv : List Name) : Outcome :=
  loop w State.start (options f argv)

end Cmdline

end IvySync
