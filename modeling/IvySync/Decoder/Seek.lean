import IvySync.Decoder.Step

/-!
# Seeks that take effect

A request for a new position goes through the field `newfilepos`, and `flush` applies it only if
that field is positive: nought is the mark that nothing is asked for.  So a seek to the start of the
movie is accepted and never made, and neither is one to a percentage of less than a byte.

`Flushed d u` says that `u` is where the next `flush` that finds the device ready returns.
-/

namespace IvySync

namespace Control

/-- Here the stream is opened or closed, or `flush` tests for a pending seek and applies it. -/
def disturbs : Control → Bool
  | .open | .seek _ | .seekSet _ | .fclose _ => true
  | _ => false

end Control

/-- `flush` does not return to one of its own control points. -/
theorem Caller.resume_ne (k l : Caller) : k.resume ≠ .seek l ∧ k.resume ≠ .seekSet l := by
  cases k <;> simp [resume]

namespace Decoder

/-- A movie is open, and its size has been measured. -/
def Showing (movie : List UInt8) (d : Decoder) : Prop :=
  ∃ f, d.playlistFd = some f ∧ f.movie = movie ∧ d.filesize = movie.length

/-- The movie stays open, and no other seek is requested or applied. -/
def SeekWaits (d : Decoder) : Action → Prop
  | .thread _ => d.pc.disturbs = false
  | .request r => r.seeks = false

/-- `flush` goes on from its test for a pending seek, and no other seek is requested. -/
def Flushing (k : Caller) (d : Decoder) : Action → Prop
  | .thread _ => d.pc = .seek k ∨ d.pc = .seekSet k
  | .request r => r.seeks = false

instance (d : Decoder) (x : Action) : Decidable (d.SeekWaits x) :=
  match x with
  | .thread _ => inferInstanceAs (Decidable (d.pc.disturbs = false))
  | .request r => inferInstanceAs (Decidable (r.seeks = false))

instance (k : Caller) (d : Decoder) (x : Action) : Decidable (d.Flushing k x) :=
  match x with
  | .thread _ => inferInstanceAs (Decidable (d.pc = .seek k ∨ d.pc = .seekSet k))
  | .request r => inferInstanceAs (Decidable (r.seeks = false))

/-- From `d` on, with the movie left open and no other seek, the next `flush` that finds the device
ready returns in the state `u`. -/
def Flushed (d u : Decoder) : Prop :=
  ∃ (k : Caller) (t : Decoder) (tr tr' : List (Action × Event)),
    machine.RunOn SeekWaits d tr t ∧ t.pc = .seek k ∧
      machine.RunOn (Flushing k) t tr' u ∧ u.pc = k.resume

/-- In every reachable state with a movie of this size open, the request `r` for the position
`target` takes effect: the next `flush` that finds the device ready moves `filepos` and the stream
there. -/
def TakesEffect (size : ℕ) (r : Request) (target : ℤ) : Prop :=
  ∀ (bufsize : ℤ) (d₀ d u : Decoder) (tr : List (Action × Event)) (movie : List UInt8),
    Started bufsize d₀ → machine.Run d₀ tr d → d.Showing movie → movie.length = size →
      Flushed (d.apply r) u →
        u.filepos = target ∧ ∃ f, u.playlistFd = some f ∧ f.movie = movie ∧ f.offset = target

/-! ### The way of a request -/

variable {movie : List UInt8} {d t u : Decoder} {k : Caller}

/-- A request leaves the movie open. -/
theorem Showing.apply (h : d.Showing movie) (r : Request) : (d.apply r).Showing movie := by
  obtain ⟨-, hfd, -, -, -, hsize⟩ := apply_frame d r
  obtain ⟨f, hf, hmovie, hlen⟩ := h
  exact ⟨f, hfd.trans hf, hmovie, hsize.trans hlen⟩

/-- The rest of the thread leaves the movie and the pending seek alone. -/
theorem Showing.waits_step {a : Answers} {e : Event} (h : d.Showing movie)
    (hc : d.pc.disturbs = false) (hs : Step a d t e) :
    t.Showing movie ∧ t.newfilepos = d.newfilepos := by
  obtain ⟨f, hf, hmovie, hlen⟩ := h
  cases hs
  case measured hpc g hg =>
    obtain rfl : f = g := by simpa [hf] using hg
    exact ⟨⟨_, rfl, hmovie, by rw [hmovie]⟩, rfl⟩
  case endOfFile hpc g g' chunk hg hr he =>
    obtain rfl : f = g := by simpa [hf] using hg
    simp only [FILE.fread, Prod.mk.injEq] at hr
    exact ⟨⟨_, rfl, by rw [← hr.2]; exact hmovie, hlen⟩, rfl⟩
  case chunk hpc g g' chunk hg hr he hlt =>
    obtain rfl : f = g := by simpa [hf] using hg
    simp only [FILE.fread, Prod.mk.injEq] at hr
    exact ⟨⟨_, rfl, by rw [← hr.2]; exact hmovie, hlen⟩, rfl⟩
  all_goals first
    | exact ⟨⟨f, hf, hmovie, hlen⟩, rfl⟩
    | simp_all [Control.disturbs]

/-- As long as nothing disturbs it, a request waits in `newfilepos` for the movie that is open. -/
theorem Showing.waits {tr : List (Action × Event)} (h : d.Showing movie)
    (hrun : machine.RunOn SeekWaits d tr t) :
    t.Showing movie ∧ t.newfilepos = d.newfilepos := by
  refine hrun.invariant (I := fun t => t.Showing movie ∧ t.newfilepos = d.newfilepos) ?_ ⟨h, rfl⟩
  rintro s x s' e ⟨hs, hn⟩ hC hnext
  rcases machine_cases hnext with ⟨a, rfl, -, hstep⟩ | ⟨r, rfl, rfl, -⟩
  · obtain ⟨hs', hn'⟩ := hs.waits_step hC hstep
    exact ⟨hs', hn'.trans hn⟩
  · exact ⟨hs.apply r, (apply_newfilepos hC).trans hn⟩

/-- The stream is open on the movie, and its next read starts at `pos`. -/
def ReadsFrom (movie : List UInt8) (pos : ℤ) (d : Decoder) : Prop :=
  ∃ f, d.playlistFd = some f ∧ f.movie = movie ∧ f.offset = pos

/-- The three places of a `flush` that applies the seek to `pos`: at its test, between the two
halves of the seek, and where it returns. -/
inductive Applying (movie : List UInt8) (k : Caller) (pos : ℤ) (d : Decoder) : Prop
  | test (hpc : d.pc = .seek k) (hn : d.newfilepos = pos)
  | set (hpc : d.pc = .seekSet k) (hn : d.newfilepos = pos) (hf : d.ReadsFrom movie pos)
  | returned (hpc : d.pc = k.resume) (hp : d.filepos = pos) (hf : d.ReadsFrom movie pos)

/-- Each step of `flush` keeps to these places. -/
theorem Applying.step {pos : ℤ} {a : Answers} {e : Event} (h : Applying movie k pos d)
    (hpos : 0 < pos) (hd : d.Showing movie) (hc : d.pc = .seek k ∨ d.pc = .seekSet k)
    (hs : Step a d t e) : Applying movie k pos t ∧ t.Showing movie := by
  obtain ⟨f, hf, hmovie, hsize⟩ := hd
  cases hs
  case noSeek l hpc hn =>
    cases h with
    | test _ hn' => rcases hn with hn | hn <;> [simp [hf] at hn; omega]
    | set hpc' => simp [hpc] at hpc'
    | returned hpc' => exact absurd (hpc'.symm.trans hpc) (Caller.resume_ne k l).1
  case seek l hpc g hg hn =>
    obtain rfl : f = g := by simpa [hf] using hg
    obtain rfl : l = k := by simpa [hpc] using hc
    cases h with
    | test _ hn' =>
      refine ⟨Applying.set rfl hn' ⟨_, rfl, hmovie, ?_⟩, _, rfl, hmovie, hsize⟩
      simp only [FILE.fseek]
      omega
    | set hpc' => simp [hpc] at hpc'
    | returned hpc' => exact absurd (hpc'.symm.trans hpc) (Caller.resume_ne l l).1
  case seekSet l hpc =>
    obtain rfl : l = k := by simpa [hpc] using hc
    cases h with
    | test hpc' => simp [hpc] at hpc'
    | set _ hn hg => exact ⟨Applying.returned rfl hn hg, f, hf, hmovie, hsize⟩
    | returned hpc' => exact absurd (hpc'.symm.trans hpc) (Caller.resume_ne l l).2
  all_goals simp_all

/-- A request that is no seek leaves `flush` where it is. -/
theorem Applying.apply {pos : ℤ} {r : Request} (h : Applying movie k pos d)
    (hr : r.seeks = false) : Applying movie k pos (d.apply r) := by
  obtain ⟨hpc, hfd, -, -, hfp, -⟩ := apply_frame d r
  have hn := apply_newfilepos (d := d) hr
  cases h with
  | test hpc' hn' => exact Applying.test (hpc.trans hpc') (hn.trans hn')
  | set hpc' hn' hf =>
    exact Applying.set (hpc.trans hpc') (hn.trans hn') (by simpa [ReadsFrom, hfd] using hf)
  | returned hpc' hp hf =>
    exact Applying.returned (hpc.trans hpc') (hfp.trans hp) (by simpa [ReadsFrom, hfd] using hf)

/-- A pending seek to a positive position is applied by the next `flush` that finds the device
ready. -/
theorem Showing.flushed (h : d.Showing movie) (hu : Flushed d u) (hpos : 0 < d.newfilepos) :
    u.Showing movie ∧ u.filepos = d.newfilepos ∧ u.ReadsFrom movie d.newfilepos := by
  obtain ⟨k, t, tr, tr', hrun, hpc, hflush, hret⟩ := hu
  obtain ⟨ht, hn⟩ := h.waits hrun
  have key : Applying movie k d.newfilepos u ∧ u.Showing movie := by
    refine hflush.invariant (I := fun u => Applying movie k d.newfilepos u ∧ u.Showing movie) ?_
      ⟨Applying.test hpc hn, ht⟩
    rintro s x s' e ⟨hap, hs⟩ hC hnext
    rcases machine_cases hnext with ⟨a, rfl, -, hstep⟩ | ⟨r, rfl, rfl, -⟩
    · exact hap.step hpos hs hC hstep
    · exact ⟨hap.apply hC, hs.apply r⟩
  obtain ⟨hap, hshow⟩ := key
  cases hap with
  | test hpc' => exact absurd (hret.symm.trans hpc') (Caller.resume_ne k k).1
  | set hpc' => exact absurd (hret.symm.trans hpc') (Caller.resume_ne k k).2
  | returned _ hp hf => exact ⟨hshow, hp, hf⟩

/-! ### The position that is asked for -/

/-- What `setpos` leaves pending: the product is an `off64_t`. -/
theorem Showing.setpos (h : d.Showing movie) (hne : movie ≠ []) (p : ℤ) :
    (d.setpos p).newfilepos = (int64 (movie.length * p)).tdiv 100 := by
  obtain ⟨f, hf, -, hsize⟩ := h
  rw [Decoder.setpos, if_neg (by simp [hf, hsize, hne]), hsize]

/-- What `setoffset` leaves pending, for an offset in the movie. -/
theorem Showing.setoffset (h : d.Showing movie) {o : ℤ} (ho : o ≤ movie.length) :
    (d.setoffset o).newfilepos = o := by
  obtain ⟨f, -, -, hsize⟩ := h
  simp only [Decoder.setoffset, hsize]
  split_ifs <;> omega

/-- Up to 64 bits the percentage is that of the size. -/
theorem int64_tdiv {n : ℤ} (h0 : 0 ≤ n) (hn : n < 2 ^ 63) : (int64 n).tdiv 100 = n / 100 := by
  have h64 : int64 n = n := by
    unfold int64
    rw [Int.bmod_eq_of_le] <;> omega
  rw [h64, Int.tdiv_eq_ediv_of_nonneg h0]

/-- Beyond 64 bits it is not. -/
theorem int64_tdiv_ne {n : ℤ} (hn : 2 ^ 63 ≤ n) : (int64 n).tdiv 100 ≠ n / 100 := by
  have hlt : int64 n < 2 ^ 63 := by
    have h := Int.bmod_lt (x := n) (m := 2 ^ 64) (by decide)
    unfold int64
    omega
  have hwrap : int64 n + 2 ^ 64 * n.bdiv (2 ^ 64) = n := by
    unfold int64
    exact_mod_cast Int.bmod_add_bdiv n (2 ^ 64)
  rcases Int.le_total 0 (int64 n) with h0 | h0
  · rw [Int.tdiv_eq_ediv_of_nonneg h0]
    omega
  · have hle : (int64 n).tdiv 100 ≤ (0 : ℤ).tdiv 100 := Int.tdiv_le_tdiv (by decide) h0
    rw [Int.zero_tdiv] at hle
    omega

/-! ### Coming to a flush -/

/-- A step on the way to `flush`. -/
theorem Flushed.of_step {x : Action} {e : Event} (hu : Flushed t u) (hC : SeekWaits d x)
    (hn : machine.next d x = some (t, e)) : Flushed d u := by
  obtain ⟨k, v, tr, tr', hrun, hpc, hflush, hret⟩ := hu
  exact ⟨k, v, _, tr', Machine.RunOn.cons hC hn hrun, hpc, hflush, hret⟩

/-- Where a `flush` returns is reached. -/
theorem Flushed.exists_run (hu : Flushed d u) : ∃ tr, machine.Run d tr u := by
  obtain ⟨k, t, tr, tr', hrun, -, hflush, -⟩ := hu
  exact ⟨_, hrun.run.append hflush.run⟩

/-- From its test on `flush` returns, at once if nothing is pending. -/
theorem Showing.exists_returned (h : d.Showing movie) (hpc : d.pc = .seek k) :
    ∃ tr u, machine.RunOn (Flushing k) d tr u ∧ u.pc = k.resume ∧
      u.writing = d.writing ∧ u.dummy = d.dummy ∧
      (d.newfilepos ≤ 0 → u.filepos = d.filepos ∧ u.playlistFd = d.playlistFd) := by
  obtain ⟨f, hf, -, -⟩ := h
  have hC : Flushing k d (.thread {}) := Or.inl hpc
  by_cases hn : 0 < d.newfilepos
  · have h1 : machine.next d (.thread {}) =
        some ({ d with playlistFd := some (f.fseek d.newfilepos.toNat), pc := .seekSet k },
          .silent) := by
      simp [machine, alive, Decoder.step, seekStream, hpc, hf, hn]
    have h2 : machine.next { d with playlistFd := some (f.fseek d.newfilepos.toNat),
                                    pc := .seekSet k } (.thread {}) =
        some ({ d with playlistFd := some (f.fseek d.newfilepos.toNat), filepos := d.newfilepos,
                       newfilepos := 0, pc := k.resume }, .silent) := rfl
    refine ⟨_, _, (Machine.RunOn.single hC h1).snoc ?_ h2, rfl, rfl, rfl, ?_⟩
    · exact Or.inr rfl
    · intro hn'
      omega
  · have h1 : machine.next d (.thread {}) = some ({ d with pc := k.resume }, .silent) := by
      simp [machine, alive, Decoder.step, seekStream, hpc, hf, hn]
    exact ⟨_, _, Machine.RunOn.single hC h1, rfl, rfl, rfl, fun _ => ⟨rfl, rfl⟩⟩

/-- A `flush` finds the device ready. -/
theorem Showing.exists_flushed_poll (h : d.Showing movie) (hpc : d.pc = .poll k) :
    ∃ u, Flushed d u ∧ u.pc = k.resume ∧ u.writing = d.writing ∧ u.dummy = d.dummy ∧
      (d.newfilepos ≤ 0 → u.filepos = d.filepos ∧ u.playlistFd = d.playlistFd) := by
  have h1 : machine.next d (.thread {}) = some ({ d with pc := .seek k }, .silent) := by
    simp [machine, alive, Decoder.step, pollDevice, hpc]
  have hC : SeekWaits d (.thread {}) := by simp [SeekWaits, Control.disturbs, hpc]
  obtain ⟨tr, u, hflush, hret, hframe⟩ :=
    Showing.exists_returned (d := { d with pc := .seek k }) h rfl
  exact ⟨u, ⟨k, _, _, tr, Machine.RunOn.single hC h1, rfl, hflush, hret⟩, hret, hframe⟩

/-- In the writing loop the device takes some bytes, and `flush` finds it ready. -/
theorem Showing.exists_flushed_writing (h : d.Showing movie) (hpc : d.pc = .writing)
    (hd : d.dummy = false) (hw : d.writing ≠ 0) (count : ℕ) (hcount : count ≤ d.writing) :
    ∃ u, Flushed d u ∧ u.pc = .writing ∧ u.writing = d.writing - count ∧ u.dummy = false ∧
      (d.newfilepos ≤ 0 → u.filepos = d.filepos + count ∧ u.playlistFd = d.playlistFd) := by
  have h1 : machine.next d (.thread { write := .accepted count }) =
      some ({ d with pc := .poll .writing, buf := d.buf + d.written, written := count,
                     filepos := d.filepos + count, writing := d.writing - count },
        .wrote (d.buf + d.written) d.writing (memory d.buffo (d.buf + d.written) count)) := by
    simp [machine, alive, Decoder.step, writeChunk, hpc, hw, hd, hcount]
  have hC : SeekWaits d (.thread { write := .accepted count }) := by
    simp [SeekWaits, Control.disturbs, hpc]
  obtain ⟨u, hu, hret, hwriting, hdummy, hnone⟩ := Showing.exists_flushed_poll
    (d := { d with pc := .poll .writing, buf := d.buf + d.written, written := count,
                   filepos := d.filepos + count, writing := d.writing - count }) h rfl
  exact ⟨u, hu.of_step hC h1, hret, hwriting, hdummy.trans hd, hnone⟩

/-! ### A movie that has begun -/

/-- The thread is about to read the first chunk of a movie, from the playlist of one entry. -/
def atRead (movie : List UInt8) : Decoder :=
  { launched [[97]] with
    position := 1, playing := true, running := true, filesize := movie.length
    playlistFd := some ⟨movie, 0, false⟩, pc := .read }

/-- That state is reached. -/
theorem exists_run_atRead (movie : List UInt8) :
    ∃ tr, machine.Run (launched [[97]]) tr (atRead movie) := by
  have h : machine.execOn (fun _ _ => True) (launched [[97]])
      (opening movie ++ List.replicate 3 (.thread {})) =
        some (List.replicate 6 .silent ++ .opened [97] :: List.replicate 3 .silent,
          atRead movie) := rfl
  exact ⟨_, Machine.runOn_of_execOn h⟩

/-- The first chunk of the movie has been read, into a buffer of 1 KB, and nothing has been
played. -/
structure Loaded (movie : List UInt8) (d : Decoder) : Prop where
  showing : d.Showing movie
  device : d.fd = 3 ∧ d.dummy = false
  filepos : d.filepos = 0
  read : ∃ f, d.playlistFd = some f ∧ 0 < f.offset
  pc : d.pc = .clear .movie ∧ movie.length < 1024 ∨ d.pc = .writing ∧ d.writing ≠ 0

/-- Every movie that is not empty can be begun. -/
theorem exists_loaded (hne : movie ≠ []) : ∃ tr d, machine.Run (launched [[97]]) tr d ∧
    Loaded movie d := by
  obtain ⟨tr, hrun⟩ := exists_run_atRead movie
  have hlen : 0 < movie.length := List.length_pos_of_ne_nil hne
  have hs : Step {} (atRead movie) (atRead movie).readChunk.1 (atRead movie).readChunk.2 :=
    readChunk_spec {} (atRead movie) rfl
  have hnext : machine.next (atRead movie) (.thread {}) = some (atRead movie).readChunk := rfl
  generalize (atRead movie).readChunk = q at hs hnext
  obtain ⟨t, e⟩ := q
  have hread {f' : FILE} {chunk : List UInt8}
      (hr : FILE.fread ⟨movie, 0, false⟩ (sizeT (atRead movie).buffoSize) = (chunk, f')) :
      f'.movie = movie ∧ 0 < f'.offset ∧
        (f'.eof = true ∨ chunk.length < 1 → movie.length < 1024) := by
    have hsize : sizeT (atRead movie).buffoSize = 1024 := rfl
    simp only [FILE.fread, hsize, List.drop_zero, Prod.mk.injEq] at hr
    obtain ⟨rfl, rfl⟩ := hr
    refine ⟨rfl, ?_, ?_⟩
    · simp only [List.length_take]
      omega
    · intro he
      simp only [List.length_take, Bool.false_or, decide_eq_true_eq] at he
      omega
  cases hs
  case endOfFile hpc f f' chunk hf hr he =>
    obtain rfl : ⟨movie, 0, false⟩ = f := by simpa [atRead] using hf
    obtain ⟨hmovie, hoff, hshort⟩ := hread hr
    exact ⟨_, _, hrun.snoc trivial hnext,
      ⟨f', rfl, hmovie, rfl⟩, ⟨rfl, rfl⟩, rfl, ⟨f', rfl, hoff⟩, Or.inl ⟨rfl, hshort he⟩⟩
  case chunk hpc f f' chunk hf hr he hc =>
    obtain rfl : ⟨movie, 0, false⟩ = f := by simpa [atRead] using hf
    obtain ⟨hmovie, hoff, -⟩ := hread hr
    have hw : chunk.length ≠ 0 := by omega
    exact ⟨_, _, (hrun.snoc trivial hnext).snoc (a := .thread {}) trivial rfl,
      ⟨f', rfl, hmovie, rfl⟩, ⟨rfl, rfl⟩, rfl, ⟨f', rfl, hoff⟩, Or.inr ⟨rfl, hw⟩⟩
  all_goals simp_all [atRead]

/-- A request leaves the movie where it is. -/
theorem Loaded.apply (h : Loaded movie d) (r : Request) : Loaded movie (d.apply r) := by
  have hs := h.showing.apply r
  obtain ⟨-, hdev, hfp, hr, hpc⟩ := h
  obtain ⟨_, _, _, _, _, _, _, heq, -⟩ := exists_apply_eq d r
  rw [heq] at hs ⊢
  exact ⟨hs, hdev, hfp, hr, hpc⟩

/-- From a movie that has begun a `flush` is come to; if there is no positive target it leaves the
position at nought and the stream behind the first chunk. -/
theorem Loaded.exists_flushed (h : Loaded movie d) : ∃ u, Flushed d u ∧
    (d.newfilepos ≤ 0 → u.filepos = 0 ∧ ∀ f, u.playlistFd = some f → 0 < f.offset) := by
  obtain ⟨hd, ⟨hfd, hdummy⟩, hfp, ⟨f, hf, hoff⟩, hpc⟩ := h
  have key : ∃ u, Flushed d u ∧
      (d.newfilepos ≤ 0 → u.filepos = d.filepos ∧ u.playlistFd = d.playlistFd) := by
    rcases hpc with ⟨hpc, -⟩ | ⟨hpc, hw⟩
    · have h1 : machine.next d (.thread {}) =
          some ({ d with pc := .poll (.clear .movie) }, .silent) := by
        simp [machine, alive, Decoder.step, hpc, hfd]
      have hC : SeekWaits d (.thread {}) := by simp [SeekWaits, Control.disturbs, hpc]
      obtain ⟨u, hu, -, -, -, hnone⟩ :=
        Showing.exists_flushed_poll (d := { d with pc := .poll (.clear .movie) }) hd rfl
      exact ⟨u, hu.of_step hC h1, hnone⟩
    · obtain ⟨u, hu, -, -, -, hnone⟩ := hd.exists_flushed_writing hpc hdummy hw 0 (Nat.zero_le _)
      exact ⟨u, hu, by simpa using hnone⟩
  obtain ⟨u, hu, hnone⟩ := key
  refine ⟨u, hu, ?_⟩
  intro hle
  obtain ⟨hfp', hfd'⟩ := hnone hle
  refine ⟨hfp'.trans hfp, ?_⟩
  intro g hg
  obtain rfl : f = g := by simpa [hfd', hf] using hg
  exact hoff

/-! ### Which seeks take effect -/

/-- A request that leaves `n` pending takes effect if `n` is positive and what was asked for. -/
theorem takesEffect_iff_pending {size : ℕ} (hpos : 0 < size) {r : Request} {n target : ℤ}
    (hn : ∀ (movie : List UInt8) (d : Decoder), movie.length = size → d.Showing movie →
      (d.apply r).newfilepos = n) :
    TakesEffect size r target ↔ 0 < n ∧ n = target := by
  constructor
  · intro h
    have hlen : (List.replicate size (0 : UInt8)).length = size := List.length_replicate
    have hne : List.replicate size (0 : UInt8) ≠ [] :=
      List.ne_nil_of_length_pos (hlen.symm ▸ hpos)
    obtain ⟨tr, d, hrun, hd⟩ := exists_loaded hne
    obtain ⟨u, hu, hstart⟩ := (hd.apply r).exists_flushed
    obtain ⟨hfp, f, hf, -, hoff⟩ :=
      h 1 _ d u tr _ (started_launched _) hrun hd.showing hlen hu
    have hpend := hn _ d hlen hd.showing
    rw [hpend] at hstart
    have hn0 : 0 < n := by
      by_contra hle
      obtain ⟨hfp', hoff'⟩ := hstart (by omega)
      have := hoff' f hf
      omega
    obtain ⟨-, hfp', -⟩ := (hd.apply r).showing.flushed hu (by omega)
    exact ⟨hn0, by omega⟩
  · rintro ⟨hn0, rfl⟩ bufsize d₀ d u tr movie - - hd hlen hu
    have hpend := hn movie d hlen hd
    obtain ⟨-, hfp, hread⟩ := (hd.apply r).flushed hu (by omega)
    rw [hpend] at hfp hread
    exact ⟨hfp, hread⟩

/-- A seek to a percentage takes effect if its target is at least one byte and the product is an
`off64_t`, and a seek to an offset if it is not one to the start. -/
theorem takesEffect_iff {size : ℕ} (hpos : 0 < size) :
    (∀ p : ℤ, 0 ≤ p → p ≤ 100 →
      (TakesEffect size (.setpos p) (size * p / 100) ↔ 100 ≤ size * p ∧ size * p < 2 ^ 63)) ∧
    ∀ o : ℤ, 0 ≤ o → o ≤ size → (TakesEffect size (.setoffset o) o ↔ 0 < o) := by
  constructor
  · intro p hp0 hp1
    have h0 : 0 ≤ (size : ℤ) * p := Int.mul_nonneg (by omega) hp0
    rw [takesEffect_iff_pending hpos (n := (int64 (size * p)).tdiv 100)]
    · constructor
      · rintro ⟨hn, htarget⟩
        have hlt : (size : ℤ) * p < 2 ^ 63 := by
          by_contra hge
          exact int64_tdiv_ne (by omega) htarget
        exact ⟨by omega, hlt⟩
      · rintro ⟨h100, hlt⟩
        rw [int64_tdiv h0 hlt]
        exact ⟨by omega, rfl⟩
    · intro movie d hlen hd
      have hne : movie ≠ [] := List.ne_nil_of_length_pos (by omega)
      rw [← hlen]
      exact hd.setpos hne p
  · intro o ho0 ho1
    rw [takesEffect_iff_pending hpos (n := o)]
    · simp
    · intro movie d hlen hd
      exact hd.setoffset (by omega)

/-- In a movie of 2 KB the seek to its middle takes effect. -/
theorem takesEffect_middle : TakesEffect 2048 (.setpos 50) 1024 :=
  ((takesEffect_iff (show 0 < 2048 by decide)).1 50 (by decide) (by decide)).2 (by decide)

/-- When the first chunk of a movie of 2 KB has been played, a seek to the start leaves the position
behind that chunk. -/
theorem not_takesEffect_start :
    ¬ ∀ size : ℕ, 0 < size →
      (∀ p : ℤ, 0 ≤ p → p ≤ 100 → TakesEffect size (.setpos p) (size * p / 100)) ∧
      ∀ o : ℤ, 0 ≤ o → o ≤ size → TakesEffect size (.setoffset o) o := by
  have hexec : machine.Reaches (fun _ _ => True) (launched [[97]])
      (opening (List.replicate 2048 0) ++ List.replicate 5 (.thread {}) ++
        [.thread { write := .accepted 1024 }])
      fun _ d => d.playlistFd = some ⟨List.replicate 2048 0, 1024, false⟩ ∧ d.filesize = 2048 ∧
        machine.Reaches SeekWaits (d.apply (.setoffset 0)) [.thread {}] fun _ t =>
          t.pc = .seek .writing ∧
            machine.Reaches (Flushing .writing) t [.thread {}] fun _ u =>
              u.pc = .writing ∧ u.filepos = 1024 := by
    decide +kernel
  obtain ⟨tr, d, hrun, hf, hsize, hwaits⟩ := hexec.exists_runOn
  obtain ⟨tr', t, hrun', hpc, hflush⟩ := hwaits.exists_runOn
  obtain ⟨tr'', u, hrun'', hret, hfp⟩ := hflush.exists_runOn
  intro hall
  have hd : d.Showing (List.replicate 2048 0) :=
    ⟨_, hf, rfl, by rw [hsize, List.length_replicate]; rfl⟩
  have hseek := ((hall 2048 (by decide)).2 0 (by decide) (by decide) 1 _ d u tr _
    (started_launched _) hrun hd List.length_replicate
      ⟨.writing, t, tr', tr'', hrun', hpc, hrun'', hret⟩).1
  omega

end Decoder

end IvySync
