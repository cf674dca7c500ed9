import IvySync.Decoder.Defs
import IvySync.Foundation.Machine

/-!
# The thread of a decoder

`Decoder.step` is one step of `Decoder::run`: from one control point to the next, with what the
world answers there (the shared flag `*syncstart`, and the results of `fopen64`, `write`, `poll` and
`open`).  A step ends where the source tests a flag that another thread may set, where it calls the
kernel on the device or the stream, and between the two halves of the seek in `flush`.

`Decoder.machine` adds the requests of the other threads, which may come between any two steps.
-/

namespace IvySync

/-- What `fopen64` and its fallback for large files give. -/
inductive FopenResult
  /-- A stream on a file with this content. -/
  | stream (movie : List UInt8)
  /-- No stream, with an `errno` other than 27. -/
  | failed
  /-- No stream, with `errno` 27; then the descriptor that `open` gives and the stream that
  `fdopen` gives on it. -/
  | tooLarge (tmpfd : ℤ) (movie : Option (List UInt8))
  deriving DecidableEq, Repr

namespace FopenResult

/-- A stream is opened. -/
def opens : FopenResult → Bool
  | .stream _ => true
  | .failed => false
  | .tooLarge tmpfd movie => tmpfd ≠ 0 && movie.isSome

/-- No stream is opened, and the thread goes on to the next entry. -/
def skipped : FopenResult → Bool
  | .stream _ => false
  | .failed => true
  | .tooLarge tmpfd _ => tmpfd = 0

end FopenResult

/-- What `write` returns: an error, or how many bytes it was ready to accept. -/
inductive WriteResult
  | error
  | accepted (count : ℕ)
  deriving DecidableEq, Repr

/-- At least one byte was accepted. -/
def WriteResult.positive : WriteResult → Bool
  | .error => false
  | .accepted count => 0 < count

/-- What `poll` returns, and whether `revents` has `POLLOUT`. -/
structure PollResult where
  ret : ℤ
  pollout : Bool
  deriving DecidableEq, Repr

/-- What the world answers during one step of the thread; each step looks at one answer at most. -/
structure Answers where
  /-- The value read from `*syncstart`. -/
  syncstart : Bool := true
  fopen64 : FopenResult := .failed
  write : WriteResult := .error
  poll : PollResult := ⟨1, true⟩
  /-- The descriptor of the device opened again. -/
  reopen : ℤ := 1
  deriving DecidableEq, Repr

/-- What can be seen of a step of a thread. -/
inductive Event
  /-- Nothing but the state. -/
  | silent
  /-- A stream was opened on the entry `name`. -/
  | opened (name : Name)
  /-- A chunk was read and is to be written. -/
  | chunk (bytes : List UInt8)
  /-- The end of the file was met; what this `fread` brought is not written. -/
  | endOfFile (dropped : List UInt8)
  /-- `*syncstart` was tested. -/
  | sync (raised : Bool)
  /-- `write` was given `asked` bytes from the index `buf` of `buffo` and took `bytes`, with `none`
  for memory outside of `buffo`. -/
  | wrote (buf : ℤ) (asked : ℕ) (bytes : List (Option UInt8))
  /-- `write` failed. -/
  | writeError (buf : ℤ) (asked : ℕ)
  /-- The stream was closed. -/
  | closed
  deriving DecidableEq, Repr

/-- The bytes that the device accepted in a step, with `none` for memory outside of the buffer. -/
def Event.bytes : Event → List (Option UInt8)
  | .wrote _ _ bytes => bytes
  | _ => []

/-- Where `flush` returns to. -/
def Caller.resume : Caller → Control
  | .writing => .writing
  | .clear e => .reopen e

namespace Decoder

/-- The bytes of memory at the indices `buf` to `buf + n` of `buffo`. -/
def memory (buffo : List UInt8) (buf : ℤ) (n : ℕ) : List (Option UInt8) :=
  (List.range n).map fun i : ℕ => if buf + i < 0 then none else buffo[(buf + i).toNat]?

/-- `movie = playlist[position]` and the opening of its stream. -/
def openMovie (r : FopenResult) (d : Decoder) : Decoder × Event :=
  match d.playlist.pick d.position with
  | none => ({ d with playing := false, pc := .loop }, .silent)
  | some name =>
    match r with
    | .stream movie =>
      ({ d with playlistFd := some ⟨movie, 0, false⟩, pc := .length }, .opened name)
    | .failed => ({ d with playlistFd := none, pc := .loop }, .silent)
    | .tooLarge tmpfd movie =>
      if tmpfd = 0 then ({ d with playlistFd := none, pc := .loop }, .silent)
      else match movie with
        | none => ({ d with playlistFd := none, pc := .length }, .silent)
        | some movie =>
          ({ d with playlistFd := some ⟨movie, 0, false⟩, pc := .length }, .opened name)

/-- The length of the movie is read and the position set to its beginning. -/
def measure (d : Decoder) : Decoder :=
  match d.playlistFd with
  | none => { d with pc := .fault }
  | some f =>
    { d with
      filesize := f.movie.length
      filepos := 0
      playlistFd := some (f.fseek 0)
      pc := .readTop }

/-- `fread` into `buffo`, then the test for the end of the file. -/
def readChunk (d : Decoder) : Decoder × Event :=
  match d.playlistFd with
  | none => ({ d with pc := .fault }, .silent)
  | some f =>
    let r := f.fread (sizeT d.buffoSize)
    let d' := { d with
      inBytes := r.1.length
      buffo := r.1 ++ d.buffo.drop r.1.length
      playlistFd := some r.2 }
    if r.2.eof ∨ r.1.length < 1 then ({ d' with pc := .clear .movie }, .endOfFile r.1)
    else ({ d' with written := 0, writing := r.1.length, buf := 0, pc := .syncWait }, .chunk r.1)

/-- One pass of the writing loop up to `flush`.  After an error the loop goes on at once, with
`written` at `-1`. -/
def writeChunk (r : WriteResult) (d : Decoder) : Decoder × Event :=
  if d.writing = 0 then ({ d with pc := .readNext }, .silent)
  else
    let buf := d.buf + d.written
    if d.dummy then
      ({ d with buf := buf, written := d.writing, filepos := d.filepos + d.writing,
                writing := 0, pc := .poll .writing }, .silent)
    else match r with
      | .error => ({ d with buf := buf, written := -1 }, .writeError buf d.writing)
      | .accepted count =>
        let n := min count d.writing
        ({ d with buf := buf, written := n, filepos := d.filepos + n,
                  writing := d.writing - n, pc := .poll .writing },
          .wrote buf d.writing (memory d.buffo buf n))

/-- One turn of the loop around `poll` in `flush`. -/
def pollDevice (r : PollResult) (k : Caller) (d : Decoder) : Decoder :=
  if r.ret < 1 then
    if r.pollout then { d with pc := k.resume }
    else if d.quit then { d with pc := k.resume }
    else d
  else { d with pc := .seek k }

/-- The test for a pending seek in `flush`, and its `fseeko64`. -/
def seekStream (k : Caller) (d : Decoder) : Decoder :=
  match d.playlistFd with
  | none => { d with pc := k.resume }
  | some f =>
    if 0 < d.newfilepos then
      { d with playlistFd := some (f.fseek d.newfilepos.toNat), pc := .seekSet k }
    else { d with pc := k.resume }

/-- One step of the thread. -/
def step (a : Answers) (d : Decoder) : Decoder × Event :=
  match d.pc with
  | .idle => (d, .silent)
  | .start =>
    if d.fd = 0 ∧ d.dummy = false then ({ d with pc := .done }, .silent)
    else ({ d with running := true, pc := .loop }, .silent)
  | .loop =>
    if d.quit then ({ d with pc := .clear .thread }, .silent)
    else ({ d.update with pc := .quitCheck }, .silent)
  | .quitCheck =>
    if d.quit then ({ d with pc := .clear .thread }, .silent)
    else ({ d with pc := .stopCheck }, .silent)
  | .stopCheck =>
    if d.stopped then ({ d with stopped := false, playing := false, pc := .playWait }, .silent)
    else ({ d with pc := .playWait }, .silent)
  | .playWait => (if !d.playing && !d.quit then d else { d with pc := .open }, .silent)
  | .open => d.openMovie a.fopen64
  | .length => (d.measure, .silent)
  | .readTop =>
    (if d.quit || d.stopped then { d with pc := .clear .movie } else { d with pc := .pauseWait },
      .silent)
  | .pauseWait => (if !d.playing && !d.quit then d else { d with pc := .read }, .silent)
  | .read => d.readChunk
  | .syncWait => (if a.syncstart then { d with pc := .writing } else d, .sync a.syncstart)
  | .writing => d.writeChunk a.write
  | .poll k => (d.pollDevice a.poll k, .silent)
  | .seek k => (d.seekStream k, .silent)
  | .seekSet k =>
    ({ d with filepos := d.newfilepos, newfilepos := 0, pc := k.resume }, .silent)
  | .readNext =>
    (if 0 < d.inBytes && !d.quit then { d with pc := .readTop } else { d with pc := .clear .movie },
      .silent)
  | .clear e => (if d.fd = 0 then { d with pc := .fclose e } else { d with pc := .poll (.clear e) },
      .silent)
  | .reopen e => ({ d with fd := a.reopen, pc := .fclose e }, .silent)
  | .fclose .movie => ({ d with playlistFd := none, pc := .loop }, .closed)
  | .fclose .thread => ({ d with playlistFd := none, pc := .done }, .closed)
  | .done => (d, .silent)
  | .fault => (d, .silent)

/-- The thread has been created and has a step to take. -/
def alive (d : Decoder) : Bool :=
  match d.pc with
  | .idle => false
  | .done => false
  | .fault => false
  | _ => true

end Decoder

/-- An action on a decoder: a step of its thread, or a request of another thread. -/
inductive Action
  | thread (a : Answers)
  | request (r : Request)
  deriving DecidableEq, Repr

namespace Decoder

/-- A decoder among the other threads.  The second half of `close` waits for the thread, unless it
has not begun to run. -/
def machine : Machine Decoder Action Event where
  next d
    | .thread a => if d.alive then some (d.step a) else none
    | .request .close => if d.running ∧ d.alive then none else some (d.apply .close, .silent)
    | .request r => some (d.apply r, .silent)

/-- A decoder just after `setup` with a buffer of `bufsize` KB and `launch`. -/
def Started (bufsize : ℤ) (d : Decoder) : Prop :=
  ∃ fd dummy playmode files,
    ((new fd dummy playmode files).setup true bufsize).2 = true ∧
      d = ((new fd dummy playmode files).setup true bufsize).1.launch true

/-- The fields of a decoder that has just been launched. -/
theorem Started.exists_eq {bufsize : ℤ} {d : Decoder} (h : Started bufsize d) :
    ∃ fd dummy playmode files buffo,
      d = { new fd dummy playmode files with
        locked := true
        pc := .start
        buffo := buffo
        buffoSize := int32 (bufsize * 1024)
        quit := false } := by
  obtain ⟨fd, dummy, playmode, files, hok, rfl⟩ := h
  simp only [setup] at hok ⊢
  split_ifs at hok ⊢
  exact ⟨fd, dummy, playmode, files, _, rfl⟩

/-- A decoder with a device and a buffer of 1 KB that has been launched on a playlist. -/
def launched (files : Playlist Name) : Decoder :=
  ((new 3 false .single files).setup true 1).1.launch true

theorem started_launched (files : Playlist Name) : Started 1 (launched files) :=
  ⟨3, false, .single, files, by rw [setup, if_pos ⟨rfl, by decide⟩], rfl⟩

/-- From the launch to a stream on `movie` at the control point `length`. -/
def opening (movie : List UInt8) : List Action :=
  .request .play :: List.replicate 5 (.thread {}) ++ [.thread { fopen64 := .stream movie }]

end Decoder

end IvySync
