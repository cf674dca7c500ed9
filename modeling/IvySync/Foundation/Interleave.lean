import IvySync.Foundation.Machine
import Mathlib.Logic.Function.Basic

/-!
# Parties that share a state

`interleave step` is the machine of a family of parties.  Each has a state of its own, and they take
steps one at a time, in any order, on a state that they share.  `history i` is what has been
observed of the steps of the party `i`.

The rules: what every step of a single party keeps, with its history, holds of all parties after
every run (`RunOn.party_invariant`); and where the steps of the parties touch the shared state only
as some machine does, every run of the parties has a run of that machine in it (`RunOn.shared_run`).
-/

namespace Machine

/-- The states of the parties, and the state that they share. -/
structure Shared (ι τ σ : Type*) where
  party : ι → τ
  shared : σ

section Interleave

variable {ι τ σ α ε : Type*} [DecidableEq ι]

/-- One step of one party. -/
def interleave (step : τ → σ → α → Option (τ × σ × ε)) : Machine (Shared ι τ σ) (ι × α) ε where
  next s a := (step (s.party a.1) s.shared a.2).map fun r =>
    (⟨Function.update s.party a.1 r.1, r.2.1⟩, r.2.2)

/-- What has been observed of one party. -/
def history (i : ι) (tr : List ((ι × α) × ε)) : List ε :=
  (tr.filter fun x => x.1.1 = i).map Prod.snd

variable {step : τ → σ → α → Option (τ × σ × ε)} {s t : Shared ι τ σ} {i : ι}
  {tr : List ((ι × α) × ε)}

@[simp] theorem history_nil : history i ([] : List ((ι × α) × ε)) = [] := rfl

theorem history_append (tr tr' : List ((ι × α) × ε)) :
    history i (tr ++ tr') = history i tr ++ history i tr' := by
  simp [history]

theorem history_cons (x : (ι × α) × ε) (tr : List ((ι × α) × ε)) :
    history i (x :: tr) = if x.1.1 = i then x.2 :: history i tr else history i tr := by
  unfold history
  split_ifs with h <;> simp [h]

theorem history_snoc (x : (ι × α) × ε) :
    history i (tr ++ [x]) = if x.1.1 = i then history i tr ++ [x.2] else history i tr := by
  rw [history_append, history_cons]
  split_ifs <;> simp

/-- What has been observed of a party was observed somewhere in the trace. -/
theorem history_eq_append {es es' : List ε} {e : ε} (h : history i tr = es ++ e :: es') :
    ∃ u a v, tr = u ++ ((i, a), e) :: v ∧ history i u = es ∧ history i v = es' := by
  induction tr generalizing es with
  | nil => simp at h
  | cons x tr ih =>
    rw [history_cons] at h
    split_ifs at h with hx
    · cases es with
      | nil =>
        obtain ⟨rfl, htail⟩ := List.cons.inj h
        exact ⟨[], x.1.2, tr, by rw [← hx]; rfl, rfl, htail⟩
      | cons e' es =>
        obtain ⟨rfl, htail⟩ := List.cons.inj h
        obtain ⟨u, a, v, rfl, hu, hv⟩ := ih htail
        exact ⟨x :: u, a, v, rfl, by rw [history_cons, if_pos hx, hu], hv⟩
    · obtain ⟨u, a, v, rfl, hu, hv⟩ := ih h
      exact ⟨x :: u, a, v, rfl, by rw [history_cons, if_neg hx, hu], hv⟩

/-- A step of a party is one of its own steps, and leaves the other parties alone. -/
theorem interleave_next {a : ι × α} {e : ε} :
    (interleave step).next s a = some (t, e) ↔
      ∃ p, step (s.party a.1) s.shared a.2 = some (p, t.shared, e) ∧
        t.party = Function.update s.party a.1 p := by
  obtain ⟨parties, shared⟩ := t
  simp only [interleave, Option.map_eq_some_iff, Prod.mk.injEq, Shared.mk.injEq, Prod.exists]
  constructor
  · rintro ⟨p, u, f, hstep, ⟨rfl, rfl⟩, rfl⟩
    exact ⟨p, hstep, rfl⟩
  · rintro ⟨p, hstep, rfl⟩
    exact ⟨p, shared, e, hstep, ⟨rfl, rfl⟩, rfl⟩

/-- The invariant rule for the parties. -/
theorem RunOn.party_invariant {D : α → Prop} {I : List ε → τ → Prop}
    (hstep : ∀ es p u a p' u' e, I es p → D a → step p u a = some (p', u', e) → I (es ++ [e]) p')
    (h : (interleave step).RunOn (fun _ a => D a.2) s tr t) (hs : ∀ i, I [] (s.party i)) :
    ∀ i, I (history i tr) (t.party i) := by
  refine h.invariant_trace (I := fun tr (t : Shared ι τ σ) => ∀ i, I (history i tr) (t.party i))
    ?_ hs
  intro tr s a t e hI hD hnext i
  obtain ⟨p, hp, hparty⟩ := interleave_next.mp hnext
  rw [history_snoc, hparty]
  split_ifs with hi
  · subst hi
    rw [Function.update_self]
    exact hstep _ _ _ _ _ _ _ (hI a.1) hD hp
  · rw [Function.update_of_ne (Ne.symm hi)]
    exact hI i

/-- A run of the machine that the parties share, in which the steps are taken that can be seen. -/
theorem RunOn.shared_run {β δ : Type*} {M : Machine σ β δ} {C : Shared ι τ σ → ι × α → Prop}
    (visible : α → ε → Option (β × δ))
    (hstep : ∀ p u a p' u' e, step p u a = some (p', u', e) →
      (visible a e = none → u' = u) ∧ ∀ b d, visible a e = some (b, d) → M.next u b = some (u', d))
    (h : (interleave step).RunOn C s tr t) :
    M.Run s.shared (tr.filterMap fun x => visible x.1.2 x.2) t.shared := by
  induction h with
  | nil => exact RunOn.nil
  | @snoc tr t u a e _ _ hn ih =>
    obtain ⟨p, hp, -⟩ := interleave_next.mp hn
    obtain ⟨hsilent, hvisible⟩ := hstep _ _ _ _ _ _ hp
    rw [List.filterMap_append]
    cases he : visible a.2 e with
    | none =>
      simp only [List.filterMap_cons, he, List.filterMap_nil, List.append_nil]
      rw [hsilent he]
      exact ih
    | some bd =>
      simp only [List.filterMap_cons, he, List.filterMap_nil]
      exact ih.snoc trivial (hvisible bd.1 bd.2 he)

end Interleave

end Machine
