import IvySync.Decoder.Step
import Mathlib.Data.Stream.Init

/-!
# Leaving the thread

`close` sets `quit` and joins the thread.  With `quit` set the thread runs on alone, against a
`World` that answers each call with the next element of a sequence.  It leaves `run` exactly when it
does not have to wait for syncstart on its way and the device takes the rest of the chunk at some
time (`ReturnsWithin`): the sync wait and the writing loop are the two loops that do not look at
`quit`.
-/

namespace IvySync

/-- How many bytes a call of `write` was ready to accept. -/
def WriteResult.count : WriteResult → ℕ
  | .error => 0
  | .accepted count => count

/-- What the calls of the thread answer from now on, with `*syncstart` as it is. -/
structure World where
  syncstart : Bool
  fopens : Stream' FopenResult
  writes : Stream' WriteResult
  polls : Stream' PollResult
  reopens : Stream' ℤ

namespace World

/-- The answers to the next step. -/
def answers (w : World) : Answers where
  syncstart := w.syncstart
  fopen64 := w.fopens.head
  write := w.writes.head
  poll := w.polls.head
  reopen := w.reopens.head

/-- What is left of the sequences after a step of `d`. -/
def after (w : World) (d : Decoder) : World :=
  match d.pc with
  | .open => { w with fopens := w.fopens.tail }
  | .writing => if d.writing ≠ 0 ∧ d.dummy = false then { w with writes := w.writes.tail } else w
  | .poll _ => { w with polls := w.polls.tail }
  | .reopen _ => { w with reopens := w.reopens.tail }
  | _ => w

/-- `n` bytes are written in `m` passes of the writing loop at most. -/
def Takes (w : World) (m : ℕ) (dummy : Bool) (n : ℕ) : Prop :=
  if dummy then n = 0 ∨ 0 < m else n ≤ ((w.writes.take m).map WriteResult.count).sum

variable {w : World} {m n : ℕ}

/-- What the next call of `write` accepts. -/
theorem count_of_write {r : WriteResult} (h : w.answers.write = r) :
    w.writes.head.count = r.count := by
  rw [← h]
  rfl

/-- Without a device one pass is enough. -/
theorem takes_dummy : w.Takes m true n ↔ n = 0 ∨ 0 < m := by simp [Takes]

/-- Without a pass nothing is written. -/
theorem takes_zero : w.Takes 0 false n ↔ n = 0 := by simp [Takes]

/-- What one pass leaves is written in the other passes. -/
theorem takes_succ : w.Takes (m + 1) false n ↔
    World.Takes { w with writes := w.writes.tail } m false (n - min w.writes.head.count n) := by
  simp only [Takes, Bool.false_eq_true, if_false, Stream'.take_succ, List.map_cons, List.sum_cons]
  omega

/-- What is written does not depend on the results of `poll`. -/
@[simp] theorem takes_polls {polls : Stream' PollResult} {dummy : Bool} :
    World.Takes { w with polls := polls } m dummy n ↔ w.Takes m dummy n :=
  Iff.rfl

end World

namespace Decoder

/-- A step of the thread alone. -/
def own (x : World × Decoder) : World × Decoder := (x.1.after x.2, (x.2.step x.1.answers).1)

/-- The thread leaves `run` after finitely many of its own steps. -/
def Leaves (w : World) (d : Decoder) : Prop := ∃ k, (own^[k] (w, d)).2.pc = .done

/-- The thread can leave `run` with at most `m` passes of the writing loop: no NULL stream is used,
a chunk that comes to the sync test finds syncstart raised, and the device takes the chunk. -/
def ReturnsWithin (m : ℕ) (w : World) (d : Decoder) : Prop :=
  match d.pc with
  | .idle | .fault => False
  | .stopCheck | .playWait | .open =>
    d.playlist.pick d.position = none ∨ ∀ tmpfd ≠ 0, w.fopens.head ≠ .tooLarge tmpfd none
  | .length => d.playlistFd.isSome
  | .pauseWait | .read =>
    ∃ f chunk f', d.playlistFd = some f ∧ f.fread (sizeT d.buffoSize) = (chunk, f') ∧
      (f'.eof = true ∨ chunk.length < 1 ∨
        w.syncstart = true ∧ w.Takes m d.dummy chunk.length)
  | .syncWait => w.syncstart = true ∧ w.Takes m d.dummy d.writing
  | .writing | .poll .writing | .seek .writing | .seekSet .writing => w.Takes m d.dummy d.writing
  | _ => True

end Decoder

/-! ### The order of the control points -/

namespace Ending

/-- How many steps there are from the end of a movie to that of the thread. -/
def rank : Ending → ℕ
  | .movie => 7
  | .thread => 0

end Ending

namespace Control

/-- A bound on the steps from a control point to the end of `run` when `quit` is set, passes of the
writing loop apart. -/
def rank : Control → ℕ
  | .fclose e => e.rank + 1
  | .reopen e => e.rank + 2
  | .seekSet (.clear e) => e.rank + 3
  | .seek (.clear e) => e.rank + 4
  | .poll (.clear e) => e.rank + 5
  | .clear e => e.rank + 6
  | .loop | .quitCheck => 7
  | .start => 8
  | .readTop | .readNext => 14
  | .length | .writing => 15
  | .open | .syncWait | .seekSet .writing => 16
  | .playWait | .read | .seek .writing => 17
  | .stopCheck | .pauseWait | .poll .writing => 18
  | .idle | .done | .fault => 0

end Control

namespace Decoder

/-- Before the thread has left `run`, leaving it takes one step more than from the next state. -/
theorem leaves_iff_own {w : World} {d : Decoder} (h : d.pc ≠ .done) :
    Leaves w d ↔ Leaves (own (w, d)).1 (own (w, d)).2 := by
  constructor
  · rintro ⟨k, hk⟩
    cases k with
    | zero => exact absurd hk h
    | succ k => exact ⟨k, by rwa [Function.iterate_succ_apply] at hk⟩
  · rintro ⟨k, hk⟩
    exact ⟨k + 1, by rwa [Function.iterate_succ_apply]⟩

/-- A thread whose own steps change nothing does not leave `run`. -/
theorem not_leaves_of_fixed {w : World} {d : Decoder} (h : own (w, d) = (w, d))
    (hpc : d.pc ≠ .done) : ¬ Leaves w d := by
  rintro ⟨k, hk⟩
  rw [Function.iterate_fixed h k] at hk
  exact hpc hk

/-- With `quit` set, one step of the thread leaves fewer passes of the writing loop or a lower
control point. -/
theorem ReturnsWithin.step {m : ℕ} {w : World} {d d' : Decoder} {e : Event}
    (h : d.ReturnsWithin m w) (hq : d.quit = true) (hs : Step w.answers d d' e) :
    ∃ m', d'.ReturnsWithin m' (w.after d) ∧ (m' < m ∨ m' = m ∧ d'.pc.rank < d.pc.rank) := by
  cases hs
  case emulated hpc hw hd =>
    simp only [ReturnsWithin, hpc, hd, World.takes_dummy] at h
    refine ⟨m - 1, ?_, Or.inl (by omega)⟩
    simp [ReturnsWithin, World.takes_dummy, hd]
  case writeError hpc hw hd hr =>
    have hc : w.writes.head.count = 0 := World.count_of_write hr
    simp only [ReturnsWithin, hpc, hd] at h
    cases m with
    | zero => exact absurd (World.takes_zero.mp h) hw
    | succ m =>
      rw [World.takes_succ, hc] at h
      exact ⟨m, by simpa [ReturnsWithin, hpc, World.after, hd, hw] using h,
        Or.inl (Nat.lt_succ_self m)⟩
  case wrote hpc hw hd count n hr hn =>
    have hc : w.writes.head.count = count := World.count_of_write hr
    simp only [ReturnsWithin, hpc, hd] at h
    cases m with
    | zero => exact absurd (World.takes_zero.mp h) hw
    | succ m =>
      rw [World.takes_succ, hc, hn] at h
      exact ⟨m, by simpa [ReturnsWithin, hpc, World.after, hd, hw] using h,
        Or.inl (Nat.lt_succ_self m)⟩
  case chunk hpc f f' chunk hf hr he hc =>
    simp only [ReturnsWithin, hpc] at h
    obtain ⟨g, bytes, g', hg, hread, hrest⟩ := h
    obtain rfl : f = g := by simpa [hf] using hg
    obtain ⟨rfl, rfl⟩ : chunk = bytes ∧ f' = g' := by simpa [hr] using hread
    refine ⟨m, ?_, Or.inr ⟨rfl, by simp [hpc, Control.rank]⟩⟩
    rcases hrest with heof | hlen | htakes
    · simp [he] at heof
    · omega
    · simpa [ReturnsWithin, hpc, World.after] using htakes
  case pausePass hpc hp =>
    simp only [ReturnsWithin, hpc] at h
    exact ⟨m, by simpa [ReturnsWithin, hpc, World.after] using h,
      Or.inr ⟨rfl, by simp [hpc, Control.rank]⟩⟩
  case nullStream hpc name hm hr =>
    simp only [ReturnsWithin, hpc, hm] at h
    obtain ⟨tmpfd, h0, hr⟩ := hr
    exact absurd hr (h.resolve_left (by simp) tmpfd h0)
  all_goals
    refine ⟨m, ?_, Or.inr ⟨rfl, ?_⟩⟩
    all_goals
      (try cases ‹Caller›) <;> (try cases ‹Ending›) <;>
      simp_all [ReturnsWithin, World.after, Control.rank, Ending.rank, Caller.resume, World.answers]

/-- With `quit` set, a thread that can leave `run` after a step can leave it before. -/
theorem ReturnsWithin.of_step {m : ℕ} {w : World} {d d' : Decoder} {e : Event}
    (h : d'.ReturnsWithin m (w.after d)) (hq : d.quit = true) (hs : Step w.answers d d' e) :
    ∃ m', d.ReturnsWithin m' w := by
  cases hs
  case emulated hpc hw hd =>
    exact ⟨1, by simp [ReturnsWithin, hpc, hd, World.takes_dummy]⟩
  case writeError hpc hw hd hr =>
    have hc : w.writes.head.count = 0 := World.count_of_write hr
    refine ⟨m + 1, ?_⟩
    simp only [ReturnsWithin, hpc, World.after, hd] at h ⊢
    rw [World.takes_succ, hc]
    simpa [hw] using h
  case wrote hpc hw hd count n hr hn =>
    have hc : w.writes.head.count = count := World.count_of_write hr
    refine ⟨m + 1, ?_⟩
    simp only [ReturnsWithin, hpc, World.after, hd] at h ⊢
    rw [World.takes_succ, hc, hn]
    simpa [hw] using h
  case chunkDone hpc hw =>
    exact ⟨0, by simp [ReturnsWithin, hpc, hw, World.Takes]⟩
  case endOfFile hpc f f' chunk hf hr he =>
    refine ⟨m, ?_⟩
    simp only [ReturnsWithin, hpc]
    exact ⟨f, chunk, f', hf, hr, he.imp_right Or.inl⟩
  case chunk hpc f f' chunk hf hr he hc =>
    refine ⟨m, ?_⟩
    simp only [ReturnsWithin, hpc, World.after] at h ⊢
    exact ⟨f, chunk, f', hf, hr, Or.inr (Or.inr h)⟩
  case pausePass hpc hp =>
    refine ⟨m, ?_⟩
    simp only [ReturnsWithin, hpc, World.after] at h ⊢
    exact h
  case opened hpc name movie hm hr =>
    refine ⟨m, ?_⟩
    simp only [ReturnsWithin, hpc]
    refine Or.inr ?_
    intro tmpfd h0 hnull
    have hhead : w.answers.fopen64 = w.fopens.head := rfl
    rw [hhead, hnull] at hr
    rcases hr with hr | ⟨_, _, hr⟩ <;> cases hr
  case notOpened hpc name hm hr =>
    refine ⟨m, ?_⟩
    simp only [ReturnsWithin, hpc]
    refine Or.inr ?_
    intro tmpfd h0 hnull
    have hhead : w.answers.fopen64 = w.fopens.head := rfl
    rw [hhead, hnull] at hr
    rcases hr with hr | ⟨_, hr⟩
    · cases hr
    · exact h0 (by injection hr)
  all_goals
    refine ⟨m, ?_⟩
    (try cases ‹Caller›) <;> (try cases ‹Ending›) <;>
      simp_all [ReturnsWithin, World.after, Caller.resume, World.answers]

/-- A thread that is not alive does nothing. -/
theorem own_of_not_alive {w : World} {d : Decoder} (h : d.alive = false) : own (w, d) = (w, d) := by
  unfold Decoder.alive at h
  split at h <;> simp_all [own, World.after, Decoder.step]

/-- The own step of a thread that is alive is one of the branches. -/
theorem step_own {w : World} {d : Decoder} (h : d.alive = true) :
    ∃ e, Step w.answers d (own (w, d)).2 e :=
  ⟨_, step_spec w.answers d h⟩

/-- A thread that can leave `run` and has not left it is alive. -/
theorem ReturnsWithin.alive {m : ℕ} {w : World} {d : Decoder} (h : d.ReturnsWithin m w)
    (hdone : d.pc ≠ .done) : d.alive = true := by
  unfold ReturnsWithin at h
  unfold Decoder.alive
  split <;> simp_all

/-- A thread with `quit` set that can leave `run` leaves it: by induction on the passes of the
writing loop, then on the control point. -/
theorem ReturnsWithin.leaves {m : ℕ} {w : World} {d : Decoder} (h : d.ReturnsWithin m w)
    (hq : d.quit = true) : Leaves w d := by
  by_cases hdone : d.pc = .done
  · exact ⟨0, hdone⟩
  · obtain ⟨e, hs⟩ := step_own (w := w) (h.alive hdone)
    obtain ⟨m', h', hlt⟩ := h.step hq hs
    exact (leaves_iff_own hdone).mpr (ReturnsWithin.leaves h' (hs.quit.trans hq))
termination_by (m, d.pc.rank)
decreasing_by
  rcases hlt with hlt | ⟨rfl, hlt⟩
  · exact Prod.Lex.left _ _ hlt
  · exact Prod.Lex.right _ hlt

/-- A thread with `quit` set that leaves `run` could leave it: by induction on the steps. -/
theorem Leaves.returnsWithin {w : World} {d : Decoder} (h : Leaves w d) (hq : d.quit = true) :
    ∃ m, d.ReturnsWithin m w := by
  obtain ⟨k, hk⟩ := h
  induction k generalizing w d with
  | zero => exact ⟨0, by simp [ReturnsWithin, show d.pc = .done from hk]⟩
  | succ k ih =>
    by_cases hal : d.alive = true
    · obtain ⟨e, hs⟩ := step_own (w := w) hal
      rw [Function.iterate_succ_apply] at hk
      obtain ⟨m, h'⟩ := ih (hs.quit.trans hq) hk
      exact h'.of_step hq hs
    · rw [Function.iterate_fixed (own_of_not_alive (by simpa using hal))] at hk
      exact ⟨0, by simp [ReturnsWithin, show d.pc = .done from hk]⟩

/-- With `quit` set, the thread leaves `run` after finitely many of its own steps exactly when no
NULL stream is used, no chunk comes to a sync test that holds it, and the device takes the rest of
the chunk. -/
theorem leaves_iff_returnsWithin {w : World} {d : Decoder} (hq : d.quit = true) :
    Leaves w d ↔ ∃ m, d.ReturnsWithin m w :=
  ⟨fun h => h.returnsWithin hq, fun ⟨_, h⟩ => h.leaves hq⟩

/-- In a chunk of which three bytes are left, an error, a call that takes nothing and two calls that
take two bytes each are followed by the end of the thread. -/
theorem leaves_after_short_writes :
    Leaves
      { syncstart := false
        fopens := Stream'.const .failed
        writes := Stream'.cons .error (Stream'.cons (.accepted 0) (Stream'.const (.accepted 2)))
        polls := Stream'.const ⟨0, false⟩
        reopens := Stream'.const 3 }
      { launched [] with pc := .writing, writing := 3, quit := true } :=
  (leaves_iff_returnsWithin rfl).mpr ⟨4, World.takes_succ.mpr (by simp [World.Takes,
    Stream'.take_succ, WriteResult.count])⟩

/-- A thread that waits for syncstart with a chunk in its buffer does not leave `run`. -/
theorem not_leaves :
    ¬ ∀ (bufsize : ℤ) (d₀ d : Decoder) (tr : List (Action × Event)) (w : World),
      Started bufsize d₀ → machine.Run d₀ tr d → d.quit = true → Leaves w d := by
  have hexec : machine.Reaches (fun _ _ => True) (launched [[97]])
      (opening (List.replicate 1024 7) ++ List.replicate 4 (.thread {}) ++ [.request .quit])
      fun _ d => d.pc = .syncWait ∧ d.quit = true := by decide +kernel
  obtain ⟨tr, d, h, hpc, hq⟩ := hexec.exists_runOn
  let w : World :=
    ⟨false, Stream'.const .failed, Stream'.const (.accepted 1024), Stream'.const ⟨1, true⟩,
      Stream'.const 3⟩
  have hfix : own (w, d) = (w, d) := by
    simp [own, World.after, World.answers, Decoder.step, hpc, w]
  intro hall
  exact not_leaves_of_fixed hfix (by simp [hpc]) (hall 1 _ d tr w (started_launched _) h hq)

end Decoder

end IvySync
