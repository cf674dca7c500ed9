import IvySync.Decoder.Playlist
import Mathlib.Data.Int.Init
import Mathlib.Data.UInt

/-!
# The decoder: its state and the operations other threads call

`Decoder` carries the fields of the class of that name together with the local variables of the
thread body `run` and its control point.  This module holds the operations that `main`, the remote
interface and the signal handler perform on a decoder; the thread body itself is in `Decoder/Run`.
A stream is a regular file that keeps its content while it is open.
-/

namespace IvySync

/-- The playlist modes `PLAY`, `CONT`, `LOOP`, `RAND` and `SINGLE`. -/
inductive Playmode
  | play
  | cont
  | loop
  | rand
  | single
  deriving DecidableEq, Repr

/-- A stdio stream open for reading. -/
structure FILE where
  /-- The content of the file. -/
  movie : List UInt8
  /-- Where the next read starts. -/
  offset : ℕ
  /-- The end-of-file indicator. -/
  eof : Bool
  deriving DecidableEq, Repr

namespace FILE

/-- `fread` of `count` bytes: fewer come, with the end-of-file indicator set, exactly when the file
ends before. -/
def fread (f : FILE) (count : ℕ) : List UInt8 × FILE :=
  let chunk := (f.movie.drop f.offset).take count
  (chunk, { f with offset := f.offset + chunk.length, eof := f.eof || chunk.length < count })

/-- `fseeko64` from the start of the file; it clears the end-of-file indicator. -/
def fseek (f : FILE) (pos : ℕ) : FILE := { f with offset := pos, eof := false }

end FILE

/-- The conversion of an `int` to `size_t`. -/
def sizeT (n : ℤ) : ℕ := (n % 2 ^ 64).toNat

/-- The value of an `int` expression, wrapped to 32 bits. -/
def int32 (n : ℤ) : ℤ := n.bmod (2 ^ 32)

/-- The value of an `off64_t` expression, wrapped to 64 bits. -/
def int64 (n : ℤ) : ℤ := n.bmod (2 ^ 64)

/-- Where `clear` was called: at the end of a movie or at the end of the thread. -/
inductive Ending
  | movie
  | thread
  deriving DecidableEq, Repr

/-- Where `flush` was called: in the writing loop or in `clear`. -/
inductive Caller
  | writing
  | clear (e : Ending)
  deriving DecidableEq, Repr

/-- The control points of `Decoder::run`, with those of `update`, `flush` and `clear`. -/
inductive Control
  /-- The thread has not been created. -/
  | idle
  /-- The first test of `run`, for a device. -/
  | start
  /-- `while(!quit)`, then `update()`. -/
  | loop
  /-- `if(quit) break;`. -/
  | quitCheck
  /-- `if(stopped)`. -/
  | stopCheck
  /-- `while(!playing && !quit)` before a movie is taken from the playlist. -/
  | playWait
  /-- `movie = playlist[position]` and `fopen64`. -/
  | open
  /-- The length of the movie is measured. -/
  | length
  /-- The head of the reading loop, `if(quit || stopped) break;`. -/
  | readTop
  /-- `while(!playing && !quit)` inside the reading loop. -/
  | pauseWait
  /-- `fread` and the end-of-file test. -/
  | read
  /-- `while(!*syncstart)`. -/
  | syncWait
  /-- The head of the writing loop, `while(writing)`. -/
  | writing
  /-- The `poll` of `flush`. -/
  | poll (k : Caller)
  /-- The test for a pending seek in `flush`. -/
  | seek (k : Caller)
  /-- `filepos = newfilepos; newfilepos = 0;`. -/
  | seekSet (k : Caller)
  /-- `while(in>0 && !quit)` at the foot of the reading loop. -/
  | readNext
  /-- `clear()`. -/
  | clear (e : Ending)
  /-- The device is closed and opened again in `clear`. -/
  | reopen (e : Ending)
  /-- `fclose(playlist_fd)` after `clear`. -/
  | fclose (e : Ending)
  /-- `run` has returned. -/
  | done
  /-- A NULL stream has been used. -/
  | fault
  deriving DecidableEq, Repr

/-- A decoder and the frame of its thread. -/
structure Decoder where
  /-- The device, `0` when none was opened. -/
  fd : ℤ
  /-- No device is used, for a test run. -/
  dummy : Bool
  playmode : Playmode
  /-- The current position in the playlist, counted from one. -/
  position : ℤ
  playing : Bool
  stopped : Bool
  quit : Bool
  running : Bool
  /-- The mutex of `Thread` is held. -/
  locked : Bool
  /-- The size in bytes of the movie that plays. -/
  filesize : ℤ
  /-- The position in bytes in the movie that plays. -/
  filepos : ℤ
  /-- The position to skip to, when positive. -/
  newfilepos : ℤ
  playlist : Playlist Name
  playlistFd : Option FILE
  /-- The memory allocated for `buffo`. -/
  buffo : List UInt8
  buffoSize : ℤ
  /-- The control point of the thread. -/
  pc : Control
  /-- The local `in`: what the last `fread` returned. -/
  inBytes : ℕ
  /-- The local `written`: what the last `write` returned. -/
  written : ℤ
  /-- The local `writing`: how many bytes of the chunk are still to be written. -/
  writing : ℕ
  /-- The local `buf`, as an index into `buffo`. -/
  buf : ℤ
  deriving DecidableEq, Repr

namespace Decoder

/-- A decoder as the constructor and the command line leave it, before `setup`. -/
def new (fd : ℤ) (dummy : Bool) (playmode : Playmode) (files : Playlist Name) : Decoder where
  fd := fd
  dummy := dummy
  playmode := playmode
  position := -1
  playing := false
  stopped := false
  quit := true
  running := false
  locked := false
  filesize := 0
  filepos := 0
  newfilepos := 0
  playlist := files
  playlistFd := none
  buffo := []
  buffoSize := 0
  pc := .idle
  inBytes := 0
  written := 0
  writing := 0
  buf := 0

/-- `Decoder::setup` with a buffer of `bufsize` KB; `calloc` tells whether memory could be had. -/
def setup (calloc : Bool) (bufsize : ℤ) (d : Decoder) : Decoder × Bool :=
  let bytes := sizeT (int32 (bufsize + 1)) * 1024
  if calloc ∧ bytes < 2 ^ 64 then
    ({ d with
        buffo := List.replicate bytes 0
        buffoSize := int32 (bufsize * 1024)
        quit := false }, true)
  else ({ d with buffo := [] }, false)

/-- `Thread::launch`: the mutex is taken, the thread is created and `launch` returns; `created`
tells whether `pthread_create` succeeded.  The lines after the `return` are never reached. -/
def launch (created : Bool) (d : Decoder) : Decoder :=
  { d with locked := true, pc := if created then .start else d.pc }

/-- `Decoder::play`. -/
def play (d : Decoder) : Decoder := { d with playing := true, stopped := false }

/-- `Decoder::stop`. -/
def stop (d : Decoder) : Decoder := { d with stopped := true }

/-- `Decoder::pause`. -/
def pause (d : Decoder) : Decoder := { d with playing := false }

/-- `Decoder::getpos`; `none` is the use of a NULL playlist entry. -/
def getpos (d : Decoder) : Option ℤ :=
  if d.playlistFd.isNone ∨ d.filesize = 0 then some 0
  else (d.playlist.pick d.position).map fun _ =>
    int32 ((int64 (d.filepos * 100)).tdiv d.filesize)

/-- `Decoder::setpos`. -/
def setpos (pos : ℤ) (d : Decoder) : Decoder :=
  if d.playlistFd.isNone ∨ d.filesize = 0 then d
  else { d with newfilepos := (int64 (d.filesize * pos)).tdiv 100 }

/-- `Decoder::getoffset`. -/
def getoffset (d : Decoder) : ℤ := d.filepos

/-- `Decoder::setoffset`. -/
def setoffset (pos : ℤ) (d : Decoder) : Decoder :=
  { d with newfilepos := if pos < d.filesize then pos else d.filesize }

/-- `Decoder::append`. -/
def append (file : Name) (d : Decoder) : Decoder := { d with playlist := d.playlist.append file }

/-- `Decoder::prepend`. -/
def prepend (file : Name) (d : Decoder) : Decoder := { d with playlist := d.playlist.prepend file }

/-- `Decoder::insert`. -/
def insert (file : Name) (pos : ℤ) (d : Decoder) : Decoder :=
  { d with playlist := d.playlist.insert file pos }

/-- `Decoder::remove`. -/
def remove (pos : ℤ) (d : Decoder) : Decoder × Bool :=
  ({ d with playlist := (d.playlist.remove pos).1 }, (d.playlist.remove pos).2)

/-- `Decoder::empty`. -/
def empty (d : Decoder) : Decoder := { d with playlist := [], position := 1 }

/-- `Decoder::update`: move to the next entry of the playlist. -/
def update (d : Decoder) : Decoder :=
  if d.position < 0 then { d with position := 1 }
  else match d.playmode with
    | .play =>
      if (d.playlist.length : ℤ) < d.position + 1 then { d with position := 1 }
      else { d with position := d.position + 1 }
    | .cont =>
      if (d.playlist.length : ℤ) ≤ d.position then { d with position := 1 }
      else { d with position := d.position + 1 }
    | .loop => d
    | .rand => d
    | .single => d.stop

end Decoder

/-- What the other threads do to a decoder: the remote commands once their parameters are read, the
editing of the playlist, and the two halves of `Decoder::close` around its join. -/
inductive Request
  | play
  | stop
  | pause
  | setpos (pos : ℤ)
  | setoffset (pos : ℤ)
  | append (file : Name)
  | prepend (file : Name)
  | insert (file : Name) (pos : ℤ)
  | remove (pos : ℤ)
  | empty
  /-- `Open::execute` on a file that can be read. -/
  | open (path : Name)
  | setPlaymode (mode : Playmode)
  /-- `close` up to the join. -/
  | quit
  /-- `close` from the join on. -/
  | close
  deriving DecidableEq, Repr

namespace Request

/-- The request is one for a new position in the movie. -/
def seeks : Request → Bool
  | .setpos _ => true
  | .setoffset _ => true
  | _ => false

end Request

namespace Decoder

/-- The effect of a request. -/
def apply (d : Decoder) : Request → Decoder
  | .play => d.play
  | .stop => d.stop
  | .pause => d.pause
  | .setpos pos => d.setpos pos
  | .setoffset pos => d.setoffset pos
  | .append file => d.append file
  | .prepend file => d.prepend file
  | .insert file pos => d.insert file pos
  | .remove pos => (d.remove pos).1
  | .empty => d.empty
  | .open path => (d.stop.empty).append path
  | .setPlaymode mode => { d with playmode := mode }
  | .quit => { d with playing := false, quit := true }
  | .close => ({ d with position := -1 } : Decoder).empty

end Decoder

end IvySync
