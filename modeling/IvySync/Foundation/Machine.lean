import Mathlib.Data.List.Basic
import Mathlib.Order.Basic

/-!
# Labelled machines and their runs

A `Machine` takes an action in a state and yields the next state together with what can be
observed of the step, or `none` when the action is not enabled there.  `Machine.RunOn C` is the
set of finite runs all of whose steps satisfy the condition `C` on the state before the step and
the action taken; `Machine.Run` puts no condition on the steps.  A run carries its trace, the list
of the actions taken with the observation of each.

`Seen P tr` says that the trace has an observation of which `P` holds.  `Machine.track` puts a
history beside the state, which no step depends on; every run can be taken with its history
(`RunOn.track`).

The rules: `RunOn.invariant` (what one step keeps, a whole run keeps), `RunOn.invariant_trace`
(the same with the trace so far), `RunOn.exists_of_mem_split` (the state in which a given step of a
run was taken), `RunOn.simulation` (a run of one machine matched step by step by a run of another)
and `Reaches.exists_runOn` (executing a list of actions yields a run).
-/

/-- A machine with states `σ`, actions `α` and observations `ε`. -/
structure Machine (σ α ε : Type*) where
  /-- The state after the action and what is observed, `none` when the action is not enabled. -/
  next : σ → α → Option (σ × ε)

namespace Machine

variable {σ α ε : Type*}

/-- The runs from `s` whose every step meets the condition `C`, with their traces. -/
inductive RunOn (M : Machine σ α ε) (C : σ → α → Prop) (s : σ) : List (α × ε) → σ → Prop
  | nil : RunOn M C s [] s
  | snoc {tr : List (α × ε)} {t u : σ} {a : α} {e : ε} :
      RunOn M C s tr t → C t a → M.next t a = some (u, e) → RunOn M C s (tr ++ [(a, e)]) u

/-- All runs of a machine. -/
abbrev Run (M : Machine σ α ε) : σ → List (α × ε) → σ → Prop := M.RunOn fun _ _ => True

/-- Something of which `P` holds has been observed. -/
def Seen (P : ε → Prop) (tr : List (α × ε)) : Prop := ∃ y ∈ tr, P y.2

@[simp] theorem seen_nil (P : ε → Prop) : ¬ Seen P ([] : List (α × ε)) := by simp [Seen]

@[simp] theorem seen_snoc (P : ε → Prop) (tr : List (α × ε)) (a : α) (e : ε) :
    Seen P (tr ++ [(a, e)]) ↔ Seen P tr ∨ P e := by
  simp only [Seen, List.mem_append, List.mem_singleton]
  constructor
  · rintro ⟨y, hy | rfl, hP⟩
    · exact Or.inl ⟨y, hy, hP⟩
    · exact Or.inr hP
  · rintro (⟨y, hy, hP⟩ | hP)
    · exact ⟨y, Or.inl hy, hP⟩
    · exact ⟨_, Or.inr rfl, hP⟩

instance (P : ε → Prop) [DecidablePred P] (tr : List (α × ε)) : Decidable (Seen P tr) :=
  inferInstanceAs (Decidable (∃ y ∈ tr, P y.2))

/-- Execute a list of actions, collecting the observations; `none` when an action is not enabled or
does not meet the condition. -/
def execOn (M : Machine σ α ε) (C : σ → α → Prop) [∀ s a, Decidable (C s a)] :
    σ → List α → Option (List ε × σ)
  | s, [] => some ([], s)
  | s, a :: as =>
    if C s a then (M.next s a).bind fun r => (execOn M C r.1 as).map fun q => (r.2 :: q.1, q.2)
    else none

variable {M : Machine σ α ε} {C D : σ → α → Prop} {s t u : σ}

namespace RunOn

/-- A run of one step. -/
theorem single {a : α} {e : ε} (hC : C s a) (h : M.next s a = some (t, e)) :
    M.RunOn C s [(a, e)] t :=
  RunOn.snoc RunOn.nil hC h

/-- Two runs that meet compose. -/
theorem append {tr tr' : List (α × ε)} (h : M.RunOn C s tr t) (h' : M.RunOn C t tr' u) :
    M.RunOn C s (tr ++ tr') u := by
  induction h' with
  | nil => simpa using h
  | snoc _ hC hn ih => simpa [List.append_assoc] using RunOn.snoc ih hC hn

/-- A run may be extended at its front. -/
theorem cons {a : α} {e : ε} {tr : List (α × ε)} (hC : C s a) (h : M.next s a = some (t, e))
    (h' : M.RunOn C t tr u) : M.RunOn C s ((a, e) :: tr) u :=
  (single hC h).append h'

/-- A run under a condition is a run under every weaker one. -/
theorem mono {tr : List (α × ε)} (hCD : ∀ s a, C s a → D s a) (h : M.RunOn C s tr t) :
    M.RunOn D s tr t := by
  induction h with
  | nil => exact RunOn.nil
  | snoc _ hC hn ih => exact RunOn.snoc ih (hCD _ _ hC) hn

/-- A run under a condition is a run. -/
theorem run {tr : List (α × ε)} (h : M.RunOn C s tr t) : M.Run s tr t :=
  h.mono fun _ _ _ => trivial

/-- The invariant rule: what every step under the condition keeps holds at the end of every run
that starts with it. -/
theorem invariant {I : σ → Prop} {tr : List (α × ε)}
    (hstep : ∀ s a t e, I s → C s a → M.next s a = some (t, e) → I t)
    (h : M.RunOn C s tr t) (hs : I s) : I t := by
  induction h with
  | nil => exact hs
  | snoc _ hC hn ih => exact hstep _ _ _ _ ih hC hn

/-- The invariant rule with a history: a relation between the trace so far and the state. -/
theorem invariant_trace {I : List (α × ε) → σ → Prop} {tr : List (α × ε)}
    (hstep : ∀ tr s a t e, I tr s → C s a → M.next s a = some (t, e) → I (tr ++ [(a, e)]) t)
    (h : M.RunOn C s tr t) (hs : I [] s) : I tr t := by
  induction h with
  | nil => exact hs
  | snoc _ hC hn ih => exact hstep _ _ _ _ _ ih hC hn

/-- A run splits wherever its trace does. -/
theorem split {tr tr' : List (α × ε)} (h : M.RunOn C s (tr ++ tr') u) :
    ∃ t, M.RunOn C s tr t ∧ M.RunOn C t tr' u := by
  generalize hq : tr ++ tr' = q at h
  induction h generalizing tr' with
  | nil =>
    obtain ⟨rfl, rfl⟩ := List.append_eq_nil_iff.mp hq
    exact ⟨s, RunOn.nil, RunOn.nil⟩
  | @snoc q t u a e hr hC hn ih =>
    rcases List.eq_nil_or_concat tr' with rfl | ⟨r, x, rfl⟩
    · rw [List.append_nil] at hq
      exact ⟨u, hq ▸ RunOn.snoc hr hC hn, RunOn.nil⟩
    · rw [List.concat_eq_append, ← List.append_assoc] at hq
      obtain ⟨hq', hx⟩ := List.append_inj' hq rfl
      obtain ⟨v, h1, h2⟩ := ih hq'
      rw [List.concat_eq_append, hx]
      exact ⟨v, h1, RunOn.snoc h2 hC hn⟩

/-- The step of a run at a given place of its trace: the state it was taken in, the state it led
to, and the two halves of the run around it. -/
theorem exists_of_mem_split {a : α} {e : ε} {tr tr' : List (α × ε)}
    (h : M.RunOn C s (tr ++ (a, e) :: tr') u) :
    ∃ t t', M.RunOn C s tr t ∧ C t a ∧ M.next t a = some (t', e) ∧ M.RunOn C t' tr' u := by
  have h' : M.RunOn C s ((tr ++ [(a, e)]) ++ tr') u := by simpa using h
  obtain ⟨t', h1, h2⟩ := split h'
  generalize hq : tr ++ [(a, e)] = q at h1
  cases h1 with
  | nil => simp at hq
  | @snoc q t _ b f hr hC hn =>
    obtain ⟨rfl, hbf⟩ := List.append_inj' hq rfl
    obtain ⟨rfl, rfl⟩ : a = b ∧ e = f := by simpa using hbf
    exact ⟨t, t', hr, hC, hn, h2⟩

/-- A property of single steps that follows from an invariant holds of every step of a run. -/
theorem forall_steps {I : σ → Prop} {P : α × ε → Prop} {tr : List (α × ε)}
    (hstep : ∀ s a t e, I s → C s a → M.next s a = some (t, e) → I t ∧ P (a, e))
    (h : M.RunOn C s tr t) (hs : I s) : ∀ x ∈ tr, P x := by
  have key : I t ∧ ∀ x ∈ tr, P x := by
    refine h.invariant_trace (I := fun tr t => I t ∧ ∀ x ∈ tr, P x) ?_ ⟨hs, by simp⟩
    intro tr v a w e hv hC hn
    obtain ⟨hv, htr⟩ := hv
    obtain ⟨hw, hP⟩ := hstep v a w e hv hC hn
    refine ⟨hw, ?_⟩
    intro x hx
    rcases List.mem_append.mp hx with hx | hx
    · exact htr x hx
    · rw [List.mem_singleton] at hx
      exact hx ▸ hP
  exact key.2

/-- The simulation rule: when every step of `M` under its condition is matched, between related
states, by the step of `N` with the image of the action and of the observation, every run of `M` is
matched by a run of `N`. -/
theorem simulation {τ β δ : Type*} {N : Machine τ β δ} {D : τ → β → Prop} {R : σ → τ → Prop}
    (f : α → β) (g : ε → δ) {tr : List (α × ε)} {v : τ}
    (hstep : ∀ s v a t e, R s v → C s a → M.next s a = some (t, e) →
      ∃ w, D v (f a) ∧ N.next v (f a) = some (w, g e) ∧ R t w)
    (h : M.RunOn C s tr t) (hs : R s v) :
    ∃ w, N.RunOn D v (tr.map (Prod.map f g)) w ∧ R t w := by
  induction h with
  | nil => exact ⟨v, RunOn.nil, hs⟩
  | @snoc tr t u a e _ hC hn ih =>
    obtain ⟨w, hrun, hR⟩ := ih
    obtain ⟨w', hD, hnext, hR'⟩ := hstep t w a u e hR hC hn
    refine ⟨w', ?_, hR'⟩
    rw [List.map_append, List.map_singleton]
    exact RunOn.snoc hrun hD hnext

end RunOn

/-! ### Histories -/

/-- The machine with a history beside its state: `f` writes on in it what each step was. -/
def track {γ : Type*} (M : Machine σ α ε) (f : γ → σ → α → ε → γ) : Machine (σ × γ) α ε where
  next s a := (M.next s.1 a).map fun r => ((r.1, f s.2 s.1 a r.2), r.2)

section Track

variable {γ : Type*} {f : γ → σ → α → ε → γ}

/-- A step with its history. -/
theorem track_next {s t : σ × γ} {a : α} {e : ε} :
    (M.track f).next s a = some (t, e) ↔
      M.next s.1 a = some (t.1, e) ∧ t.2 = f s.2 s.1 a e := by
  obtain ⟨t, g⟩ := t
  simp only [track, Option.map_eq_some_iff, Prod.mk.injEq, Prod.exists]
  constructor
  · rintro ⟨u, e', hn, ⟨rfl, rfl⟩, rfl⟩
    exact ⟨hn, rfl⟩
  · rintro ⟨hn, rfl⟩
    exact ⟨t, e, hn, ⟨rfl, rfl⟩, rfl⟩

/-- Every run has a history. -/
theorem RunOn.track (f : γ → σ → α → ε → γ) {tr : List (α × ε)} (h : M.RunOn C s tr t) (g : γ) :
    ∃ g', (M.track f).RunOn (fun s a => C s.1 a) (s, g) tr (t, g') := by
  induction h with
  | nil => exact ⟨g, RunOn.nil⟩
  | @snoc tr t u a e _ hC hn ih =>
    obtain ⟨g', hrun⟩ := ih
    exact ⟨_, hrun.snoc hC (track_next.mpr ⟨hn, rfl⟩)⟩

end Track

/-! ### Executing -/

/-- Executing a list of actions is a run, with the observations made on the way. -/
theorem runOn_of_execOn [∀ s a, Decidable (C s a)] {as : List α} {es : List ε}
    (h : M.execOn C s as = some (es, t)) : M.RunOn C s (as.zip es) t := by
  induction as generalizing s es with
  | nil =>
    obtain ⟨rfl, rfl⟩ : es = [] ∧ s = t := by
      simpa [execOn, eq_comm] using h
    exact RunOn.nil
  | cons a as ih =>
    unfold execOn at h
    split_ifs at h with hC
    simp only [Option.bind_eq_some_iff, Option.map_eq_some_iff, Prod.mk.injEq] at h
    obtain ⟨⟨v, e⟩, hn, ⟨es', w⟩, hw, rfl, rfl⟩ := h
    exact RunOn.cons hC hn (ih hw)

/-- Executing the actions from `s` leads to a trace and a state of which `P` holds. -/
def Reaches (M : Machine σ α ε) (C : σ → α → Prop) [∀ s a, Decidable (C s a)] (s : σ) (as : List α)
    (P : List (α × ε) → σ → Prop) : Prop :=
  ∃ q, M.execOn C s as = some q ∧ P (as.zip q.1) q.2

instance [∀ s a, Decidable (C s a)] {as : List α} {P : List (α × ε) → σ → Prop}
    [∀ tr t, Decidable (P tr t)] : Decidable (M.Reaches C s as P) :=
  match h : M.execOn C s as with
  | none => isFalse fun ⟨_, hq, _⟩ => by simp [h] at hq
  | some q =>
    if hP : P (as.zip q.1) q.2 then isTrue ⟨q, h, hP⟩
    else isFalse fun ⟨_, hr, hP'⟩ => hP (Option.some.inj (h.symm.trans hr) ▸ hP')

/-- What executing a list of actions leads to is led to by a run. -/
theorem Reaches.exists_runOn [∀ s a, Decidable (C s a)] {as : List α}
    {P : List (α × ε) → σ → Prop} (h : M.Reaches C s as P) :
    ∃ tr t, M.RunOn C s tr t ∧ P tr t := by
  obtain ⟨q, hq, hP⟩ := h
  exact ⟨_, _, runOn_of_execOn hq, hP⟩

end Machine
