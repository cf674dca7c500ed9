import IvySync.Decoder.Run

/-!
# What a step of the thread can do

`Decoder.Step a d d' e` lists the branches of `Decoder.step`, each with its guards and with the
fields it changes; `step_spec` says that the step is one of them.  Every invariant of the thread is
proved by cases on this list.
-/

namespace IvySync

/-- A read that does not meet the end of the file is a full one. -/
theorem FILE.fread_full {f f' : FILE} {count : ℕ} {chunk : List UInt8}
    (hr : f.fread count = (chunk, f')) (he : f'.eof = false) :
    chunk.length = count ∧ count ≤ f.movie.length - f.offset ∧ f'.movie = f.movie ∧
      f'.offset = f.offset + count := by
  simp only [fread, Prod.mk.injEq] at hr
  obtain ⟨hchunk, rfl⟩ := hr
  simp only [Bool.or_eq_false_iff, decide_eq_false_iff_not, not_lt] at he
  have hlength := List.length_take (i := count) (l := f.movie.drop f.offset)
  rw [List.length_drop] at hlength
  have hfull : ((f.movie.drop f.offset).take count).length = count := by omega
  refine ⟨hchunk ▸ hfull, by omega, rfl, ?_⟩
  dsimp only
  rw [hfull]

namespace Decoder

/-- The branches of one step of the thread from `d` with the answers `a`. -/
inductive Step (a : Answers) (d : Decoder) : Decoder → Event → Prop
  | noDevice (hpc : d.pc = .start) (hfd : d.fd = 0) (hd : d.dummy = false) :
      Step a d { d with pc := .done } .silent
  | start (hpc : d.pc = .start) (hfd : d.fd = 0 → d.dummy = true) :
      Step a d { d with running := true, pc := .loop } .silent
  | loopQuit (hpc : d.pc = .loop) (hq : d.quit = true) :
      Step a d { d with pc := .clear .thread } .silent
  | update (hpc : d.pc = .loop) (hq : d.quit = false) (position : ℤ) (stopped : Bool)
      (hp : d.update.position = position) (hs : d.update.stopped = stopped) :
      Step a d { d with position := position, stopped := stopped, pc := .quitCheck } .silent
  | quitBreak (hpc : d.pc = .quitCheck) (hq : d.quit = true) :
      Step a d { d with pc := .clear .thread } .silent
  | quitPass (hpc : d.pc = .quitCheck) (hq : d.quit = false) :
      Step a d { d with pc := .stopCheck } .silent
  | stopTaken (hpc : d.pc = .stopCheck) (hs : d.stopped = true) :
      Step a d { d with stopped := false, playing := false, pc := .playWait } .silent
  | stopPass (hpc : d.pc = .stopCheck) (hs : d.stopped = false) :
      Step a d { d with pc := .playWait } .silent
  | playWaiting (hpc : d.pc = .playWait) (hp : d.playing = false) (hq : d.quit = false) :
      Step a d d .silent
  | playPass (hpc : d.pc = .playWait) (hp : d.playing = false → d.quit = true) :
      Step a d { d with pc := .open } .silent
  | noMovie (hpc : d.pc = .open) (hm : d.playlist.pick d.position = none) :
      Step a d { d with playing := false, pc := .loop } .silent
  | opened (hpc : d.pc = .open) (name : Name) (movie : List UInt8)
      (hm : d.playlist.pick d.position = some name)
      (hr : a.fopen64 = .stream movie ∨ ∃ tmpfd ≠ 0, a.fopen64 = .tooLarge tmpfd (some movie)) :
      Step a d { d with playlistFd := some ⟨movie, 0, false⟩, pc := .length } (.opened name)
  | notOpened (hpc : d.pc = .open) (name : Name) (hm : d.playlist.pick d.position = some name)
      (hr : a.fopen64 = .failed ∨ ∃ movie, a.fopen64 = .tooLarge 0 movie) :
      Step a d { d with playlistFd := none, pc := .loop } .silent
  | nullStream (hpc : d.pc = .open) (name : Name) (hm : d.playlist.pick d.position = some name)
      (hr : ∃ tmpfd ≠ 0, a.fopen64 = .tooLarge tmpfd none) :
      Step a d { d with playlistFd := none, pc := .length } .silent
  | measured (hpc : d.pc = .length) (f : FILE) (hf : d.playlistFd = some f) :
      Step a d { d with filesize := f.movie.length, filepos := 0, playlistFd := some (f.fseek 0),
                        pc := .readTop } .silent
  | measureFault (hpc : d.pc = .length) (hf : d.playlistFd = none) :
      Step a d { d with pc := .fault } .silent
  | readBreak (hpc : d.pc = .readTop) (hq : d.quit = true ∨ d.stopped = true) :
      Step a d { d with pc := .clear .movie } .silent
  | readPass (hpc : d.pc = .readTop) (hq : d.quit = false) (hs : d.stopped = false) :
      Step a d { d with pc := .pauseWait } .silent
  | pauseWaiting (hpc : d.pc = .pauseWait) (hp : d.playing = false) (hq : d.quit = false) :
      Step a d d .silent
  | pausePass (hpc : d.pc = .pauseWait) (hp : d.playing = false → d.quit = true) :
      Step a d { d with pc := .read } .silent
  | readFault (hpc : d.pc = .read) (hf : d.playlistFd = none) :
      Step a d { d with pc := .fault } .silent
  | endOfFile (hpc : d.pc = .read) (f f' : FILE) (chunk : List UInt8) (hf : d.playlistFd = some f)
      (hr : f.fread (sizeT d.buffoSize) = (chunk, f')) (he : f'.eof = true ∨ chunk.length < 1) :
      Step a d { d with inBytes := chunk.length, buffo := chunk ++ d.buffo.drop chunk.length,
                        playlistFd := some f', pc := .clear .movie } (.endOfFile chunk)
  | chunk (hpc : d.pc = .read) (f f' : FILE) (chunk : List UInt8) (hf : d.playlistFd = some f)
      (hr : f.fread (sizeT d.buffoSize) = (chunk, f')) (he : f'.eof = false)
      (hc : 1 ≤ chunk.length) :
      Step a d { d with inBytes := chunk.length, buffo := chunk ++ d.buffo.drop chunk.length,
                        playlistFd := some f', written := 0, writing := chunk.length, buf := 0,
                        pc := .syncWait } (.chunk chunk)
  | syncPass (hpc : d.pc = .syncWait) (hs : a.syncstart = true) :
      Step a d { d with pc := .writing } (.sync true)
  | syncWaiting (hpc : d.pc = .syncWait) (hs : a.syncstart = false) : Step a d d (.sync false)
  | chunkDone (hpc : d.pc = .writing) (hw : d.writing = 0) :
      Step a d { d with pc := .readNext } .silent
  | emulated (hpc : d.pc = .writing) (hw : d.writing ≠ 0) (hd : d.dummy = true) :
      Step a d { d with buf := d.buf + d.written, written := d.writing,
                        filepos := d.filepos + d.writing, writing := 0, pc := .poll .writing }
        .silent
  | writeError (hpc : d.pc = .writing) (hw : d.writing ≠ 0) (hd : d.dummy = false)
      (hr : a.write = .error) :
      Step a d { d with buf := d.buf + d.written, written := -1 }
        (.writeError (d.buf + d.written) d.writing)
  | wrote (hpc : d.pc = .writing) (hw : d.writing ≠ 0) (hd : d.dummy = false) (count n : ℕ)
      (hr : a.write = .accepted count) (hn : min count d.writing = n) :
      Step a d { d with buf := d.buf + d.written, written := n, filepos := d.filepos + n,
                        writing := d.writing - n, pc := .poll .writing }
        (.wrote (d.buf + d.written) d.writing (memory d.buffo (d.buf + d.written) n))
  | pollReturn (k : Caller) (hpc : d.pc = .poll k) (hr : a.poll.ret < 1)
      (hq : a.poll.pollout = true ∨ d.quit = true) :
      Step a d { d with pc := k.resume } .silent
  | pollWaiting (k : Caller) (hpc : d.pc = .poll k) (hr : a.poll.ret < 1)
      (hp : a.poll.pollout = false) (hq : d.quit = false) : Step a d d .silent
  | pollReady (k : Caller) (hpc : d.pc = .poll k) (hr : 1 ≤ a.poll.ret) :
      Step a d { d with pc := .seek k } .silent
  | noSeek (k : Caller) (hpc : d.pc = .seek k)
      (hn : d.playlistFd = none ∨ d.newfilepos ≤ 0) :
      Step a d { d with pc := k.resume } .silent
  | seek (k : Caller) (hpc : d.pc = .seek k) (f : FILE) (hf : d.playlistFd = some f)
      (hn : 0 < d.newfilepos) :
      Step a d { d with playlistFd := some (f.fseek d.newfilepos.toNat), pc := .seekSet k } .silent
  | seekSet (k : Caller) (hpc : d.pc = .seekSet k) :
      Step a d { d with filepos := d.newfilepos, newfilepos := 0, pc := k.resume } .silent
  | readAgain (hpc : d.pc = .readNext) (hi : 0 < d.inBytes) (hq : d.quit = false) :
      Step a d { d with pc := .readTop } .silent
  | readLast (hpc : d.pc = .readNext) (hi : d.inBytes = 0 ∨ d.quit = true) :
      Step a d { d with pc := .clear .movie } .silent
  | clearNone (e : Ending) (hpc : d.pc = .clear e) (hfd : d.fd = 0) :
      Step a d { d with pc := .fclose e } .silent
  | clear (e : Ending) (hpc : d.pc = .clear e) (hfd : d.fd ≠ 0) :
      Step a d { d with pc := .poll (.clear e) } .silent
  | reopen (e : Ending) (hpc : d.pc = .reopen e) :
      Step a d { d with fd := a.reopen, pc := .fclose e } .silent
  | fcloseMovie (hpc : d.pc = .fclose .movie) :
      Step a d { d with playlistFd := none, pc := .loop } .closed
  | fcloseThread (hpc : d.pc = .fclose .thread) :
      Step a d { d with playlistFd := none, pc := .done } .closed

/-- `update` changes the position and the flag `stopped` only. -/
theorem update_eq (d : Decoder) :
    d.update = { d with position := d.update.position, stopped := d.update.stopped } := by
  obtain ⟨_, _, playmode, _, _, _, _, _, _, _, _, _, _, _, _, _, _, _, _, _, _⟩ := d
  cases playmode <;> simp only [update, stop] <;> split_ifs <;> rfl

variable (a : Answers) (d : Decoder)

/-- Opening a movie is one of the four branches for it. -/
theorem openMovie_spec (hpc : d.pc = .open) :
    Step a d (d.openMovie a.fopen64).1 (d.openMovie a.fopen64).2 := by
  unfold openMovie
  cases hm : d.playlist.pick d.position with
  | none => exact Step.noMovie hpc hm
  | some name =>
    cases hr : a.fopen64 with
    | stream movie => exact Step.opened hpc name movie hm (Or.inl hr)
    | failed => exact Step.notOpened hpc name hm (Or.inl hr)
    | tooLarge tmpfd movie =>
      by_cases h0 : tmpfd = 0
      · subst h0
        exact Step.notOpened hpc name hm (Or.inr ⟨movie, hr⟩)
      · cases movie with
        | none => simpa [h0] using Step.nullStream hpc name hm ⟨tmpfd, h0, hr⟩
        | some movie => simpa [h0] using Step.opened hpc name movie hm (Or.inr ⟨tmpfd, h0, hr⟩)

/-- Measuring a movie is one of the two branches for it. -/
theorem measure_spec (hpc : d.pc = .length) : Step a d d.measure .silent := by
  unfold measure
  split
  case h_1 hf => exact Step.measureFault hpc hf
  case h_2 f hf => exact Step.measured hpc f hf

/-- Reading a chunk is one of the three branches for it. -/
theorem readChunk_spec (hpc : d.pc = .read) : Step a d d.readChunk.1 d.readChunk.2 := by
  unfold readChunk
  split
  case h_1 hf => exact Step.readFault hpc hf
  case h_2 f hf =>
    dsimp only
    split_ifs with he
    · exact Step.endOfFile hpc f _ _ hf rfl he
    · push Not at he
      exact Step.chunk hpc f _ _ hf rfl (by simpa using he.1) he.2

/-- A pass of the writing loop is one of the four branches for it. -/
theorem writeChunk_spec (hpc : d.pc = .writing) :
    Step a d (d.writeChunk a.write).1 (d.writeChunk a.write).2 := by
  unfold writeChunk
  dsimp only
  split_ifs with hw hd
  · exact Step.chunkDone hpc hw
  · exact Step.emulated hpc hw hd
  · have hd' : d.dummy = false := by simpa using hd
    cases hr : a.write with
    | error => exact Step.writeError hpc hw hd' hr
    | accepted count => exact Step.wrote hpc hw hd' count _ hr rfl

/-- A turn of the loop around `poll` is one of the three branches for it. -/
theorem pollDevice_spec {k : Caller} (hpc : d.pc = .poll k) :
    Step a d (d.pollDevice a.poll k) .silent := by
  unfold pollDevice
  split_ifs with hr hp hq
  · exact Step.pollReturn k hpc hr (Or.inl hp)
  · exact Step.pollReturn k hpc hr (Or.inr hq)
  · exact Step.pollWaiting k hpc hr (by simpa using hp) (by simpa using hq)
  · exact Step.pollReady k hpc (by omega)

/-- The test for a pending seek is one of the two branches for it. -/
theorem seekStream_spec {k : Caller} (hpc : d.pc = .seek k) :
    Step a d (d.seekStream k) .silent := by
  unfold seekStream
  split
  case h_1 hf => exact Step.noSeek k hpc (Or.inl hf)
  case h_2 f hf =>
    split_ifs with hn
    · exact Step.seek k hpc f hf hn
    · exact Step.noSeek k hpc (Or.inr (by omega))

/-- A step of a thread that is alive is one of the branches. -/
theorem step_spec (h : d.alive = true) : Step a d (d.step a).1 (d.step a).2 := by
  unfold step
  cases hpc : d.pc with
  | idle => simp [alive, hpc] at h
  | done => simp [alive, hpc] at h
  | fault => simp [alive, hpc] at h
  | start =>
    dsimp only
    split_ifs with hfd
    · exact Step.noDevice hpc hfd.1 hfd.2
    · exact Step.start hpc (by simpa using hfd)
  | loop =>
    dsimp only
    split_ifs with hq
    · exact Step.loopQuit hpc hq
    · have hu := Step.update (a := a) hpc (by simpa using hq) _ _ rfl rfl
      rw [update_eq d]
      exact hu
  | quitCheck =>
    dsimp only
    split_ifs with hq
    · exact Step.quitBreak hpc hq
    · exact Step.quitPass hpc (by simpa using hq)
  | stopCheck =>
    dsimp only
    split_ifs with hs
    · exact Step.stopTaken hpc hs
    · exact Step.stopPass hpc (by simpa using hs)
  | playWait =>
    dsimp only
    split_ifs with hp
    · simp only [Bool.and_eq_true, Bool.not_eq_true'] at hp
      exact Step.playWaiting hpc hp.1 hp.2
    · exact Step.playPass hpc (by simpa using hp)
  | «open» => exact openMovie_spec a d hpc
  | length => exact measure_spec a d hpc
  | readTop =>
    dsimp only
    split_ifs with hq
    · exact Step.readBreak hpc (by simpa using hq)
    · simp only [Bool.or_eq_true, not_or, Bool.not_eq_true] at hq
      exact Step.readPass hpc hq.1 hq.2
  | pauseWait =>
    dsimp only
    split_ifs with hp
    · simp only [Bool.and_eq_true, Bool.not_eq_true'] at hp
      exact Step.pauseWaiting hpc hp.1 hp.2
    · exact Step.pausePass hpc (by simpa using hp)
  | read => exact readChunk_spec a d hpc
  | syncWait =>
    cases hs : a.syncstart with
    | true => exact Step.syncPass hpc hs
    | false => exact Step.syncWaiting hpc hs
  | writing => exact writeChunk_spec a d hpc
  | poll k => exact pollDevice_spec a d hpc
  | seek k => exact seekStream_spec a d hpc
  | seekSet k => exact Step.seekSet k hpc
  | readNext =>
    dsimp only
    split_ifs with hi
    · simp only [Bool.and_eq_true, decide_eq_true_eq, Bool.not_eq_true'] at hi
      exact Step.readAgain hpc hi.1 hi.2
    · refine Step.readLast hpc ?_
      by_cases h0 : d.inBytes = 0
      · exact Or.inl h0
      · exact Or.inr (by simpa [Nat.pos_of_ne_zero h0] using hi)
  | clear e =>
    dsimp only
    split_ifs with hfd
    · exact Step.clearNone e hpc hfd
    · exact Step.clear e hpc hfd
  | reopen e => exact Step.reopen e hpc
  | fclose e =>
    cases e with
    | movie => exact Step.fcloseMovie hpc
    | thread => exact Step.fcloseThread hpc

/-- A request changes the flags, the playlist and the pending seek only, and the pending seek only
when it asks for one. -/
theorem exists_apply_eq (d : Decoder) (r : Request) :
    ∃ playmode position playing stopped quit newfilepos playlist,
      d.apply r = { d with
        playmode := playmode, position := position, playing := playing, stopped := stopped,
        quit := quit, newfilepos := newfilepos, playlist := playlist } ∧
      (r.seeks = false → newfilepos = d.newfilepos) := by
  cases r with
  | setpos pos =>
    simp only [apply, setpos, Request.seeks]
    split_ifs
    · exact ⟨_, _, _, _, _, _, _, rfl, fun _ => rfl⟩
    · exact ⟨_, _, _, _, _, _, _, rfl, by simp⟩
  | setoffset pos => exact ⟨_, _, _, _, _, _, _, rfl, by simp [Request.seeks]⟩
  | _ => exact ⟨_, _, _, _, _, _, _, rfl, fun _ => rfl⟩

/-- A step leaves the size of the buffer and the emulation mode as they are. -/
theorem Step.frame {a : Answers} {d d' : Decoder} {e : Event} (h : Step a d d' e) :
    d'.buffoSize = d.buffoSize ∧ d'.dummy = d.dummy := by
  cases h <;> exact ⟨rfl, rfl⟩

/-- A step leaves the playlist and the playmode as they are, and does not start to play. -/
theorem Step.playlist {a : Answers} {d d' : Decoder} {e : Event} (h : Step a d d' e) :
    d'.playlist = d.playlist ∧ d'.playmode = d.playmode ∧
      (d.playing = false → d'.playing = false) := by
  cases h
  case stopTaken => exact ⟨rfl, rfl, fun _ => rfl⟩
  case noMovie => exact ⟨rfl, rfl, fun _ => rfl⟩
  all_goals exact ⟨rfl, rfl, id⟩

/-- A thread that has not been created takes no step. -/
theorem Step.pc_ne_idle {a : Answers} {d d' : Decoder} {e : Event} (h : Step a d d' e) :
    d.pc ≠ .idle := by
  intro hidle
  cases h <;> simp_all

/-- A step leaves the flag `quit` as it is. -/
theorem Step.quit {a : Answers} {d d' : Decoder} {e : Event} (h : Step a d d' e) :
    d'.quit = d.quit := by
  cases h <;> rfl

/-- A request leaves the control point, the stream, the buffer and the position as they are. -/
theorem apply_frame (d : Decoder) (r : Request) :
    (d.apply r).pc = d.pc ∧ (d.apply r).playlistFd = d.playlistFd ∧
      (d.apply r).buffoSize = d.buffoSize ∧ (d.apply r).dummy = d.dummy ∧
      (d.apply r).filepos = d.filepos ∧ (d.apply r).filesize = d.filesize := by
  obtain ⟨_, _, _, _, _, _, _, heq, -⟩ := exists_apply_eq d r
  rw [heq]
  exact ⟨rfl, rfl, rfl, rfl, rfl, rfl⟩

/-- `setup` changes the buffer, and clears `quit` when it succeeds. -/
theorem exists_setup_eq (calloc : Bool) (bufsize : ℤ) (d : Decoder) :
    ∃ buffo buffoSize quit,
      (d.setup calloc bufsize).1 =
        { d with buffo := buffo, buffoSize := buffoSize, quit := quit } ∧
      (quit = d.quit ∨ sizeT (int32 (bufsize + 1)) * 1024 < 2 ^ 64) := by
  simp only [setup]
  split_ifs with h
  · exact ⟨_, _, _, rfl, Or.inr h.2⟩
  · exact ⟨_, _, _, rfl, Or.inl rfl⟩

/-- A request that is no seek leaves the pending seek as it is. -/
theorem apply_newfilepos {d : Decoder} {r : Request} (h : r.seeks = false) :
    (d.apply r).newfilepos = d.newfilepos := by
  obtain ⟨_, _, _, _, _, newfilepos, _, heq, hn⟩ := exists_apply_eq d r
  rw [heq]
  exact hn h

/-- What an action of the machine of a decoder can be: a branch of a step of the thread, or a
request. -/
theorem machine_cases {d d' : Decoder} {x : Action} {e : Event}
    (h : machine.next d x = some (d', e)) :
    (∃ a, x = .thread a ∧ d.alive = true ∧ Step a d d' e) ∨
      (∃ r, x = .request r ∧ d' = d.apply r ∧ e = .silent) := by
  cases x with
  | thread a =>
    simp only [machine] at h
    split_ifs at h with hal
    · have hs := step_spec a d hal
      rw [Option.some.inj h] at hs
      exact Or.inl ⟨a, rfl, hal, hs⟩
  | request r =>
    refine Or.inr ⟨r, rfl, ?_⟩
    cases r <;> simp only [machine] at h
    case close =>
      split_ifs at h
      simp only [Option.some.injEq, Prod.mk.injEq] at h
      exact ⟨h.1.symm, h.2.symm⟩
    all_goals
      simp only [Option.some.injEq, Prod.mk.injEq] at h
      exact ⟨h.1.symm, h.2.symm⟩

end Decoder

end IvySync
