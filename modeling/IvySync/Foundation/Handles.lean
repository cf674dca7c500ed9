import Mathlib.Data.Finset.Dedup
import Mathlib.Data.Finset.Erase
import Mathlib.Data.Finset.Insert
import Mathlib.Data.Finset.SDiff

/-!
# Handles that are opened, used and closed

A `Call` opens, uses or closes a handle of any type.  It is `Allowed` to open a handle that is not
open, and to use and close one that is, and `after` takes the set of the handles that are open
through a call that is allowed.  A sequence of calls that has an `afterAll` uses no handle that is
closed and closes none twice: `count_opened` states the balance, and `count_opened_before` that a
handle is open where it is used or closed.
-/

namespace Handles

variable {ι : Type*}

/-- What is done to a handle. -/
inductive Call (ι : Type*)
  | opened (i : ι)
  | used (i : ι)
  | closed (i : ι)
  deriving DecidableEq, Repr

variable [DecidableEq ι] {o o' : Finset ι} {c : Call ι} {cs cs' : List (Call ι)}

/-- The call may be made when these handles are open. -/
def Allowed (o : Finset ι) : Call ι → Prop
  | .opened i => i ∉ o
  | .used i => i ∈ o
  | .closed i => i ∈ o

instance : Decidable (Allowed o c) :=
  match c with
  | .opened i => inferInstanceAs (Decidable (i ∉ o))
  | .used i => inferInstanceAs (Decidable (i ∈ o))
  | .closed i => inferInstanceAs (Decidable (i ∈ o))

/-- What a call makes of the handles that are open. -/
def effect (o : Finset ι) : Call ι → Finset ι
  | .opened i => insert i o
  | .used _ => o
  | .closed i => o.erase i

/-- The handles that are open after a call that may be made. -/
def after (o : Finset ι) (c : Call ι) : Option (Finset ι) :=
  if Allowed o c then some (effect o c) else none

theorem after_opened {i : ι} (h : i ∉ o) : after o (.opened i) = some (insert i o) := if_pos h

theorem after_used {i : ι} (h : i ∈ o) : after o (.used i) = some o := if_pos h

theorem after_closed {i : ι} (h : i ∈ o) : after o (.closed i) = some (o.erase i) := if_pos h

/-- The handles that are open after a sequence of calls. -/
def afterAll (o : Finset ι) (cs : List (Call ι)) : Option (Finset ι) := cs.foldlM after o

@[simp] theorem afterAll_nil : afterAll o [] = some o := rfl

@[simp] theorem afterAll_cons : afterAll o (c :: cs) = (after o c).bind (afterAll · cs) := rfl

/-- Two sequences of calls, one after the other. -/
theorem afterAll_append : afterAll o (cs ++ cs') = (afterAll o cs).bind (afterAll · cs') :=
  List.foldlM_append

/-- The handles that are open are those that the calls have made so. -/
theorem foldl_effect (h : afterAll o cs = some o') : cs.foldl effect o = o' := by
  induction cs generalizing o with
  | nil => exact Option.some.inj h
  | cons c cs ih =>
    rw [afterAll_cons] at h
    obtain ⟨o₁, h₁, h⟩ := Option.bind_eq_some_iff.mp h
    unfold after at h₁
    split_ifs at h₁
    rw [List.foldl_cons, Option.some.inj h₁, ih h]

/-- A call that is made under a condition, and may be made then. -/
theorem afterAll_ite {p : Prop} [Decidable p] (h : p → Allowed o c) :
    afterAll o (if p then [c] else []) = some ((if p then [c] else []).foldl effect o) := by
  split_ifs with hp
  · simp [after, h hp]
  · rfl

/-- Handles that are open may be used. -/
theorem afterAll_used {is : List ι} (h : ∀ i ∈ is, i ∈ o) : afterAll o (is.map .used) = some o := by
  induction is with
  | nil => rfl
  | cons i is ih =>
    obtain ⟨hi, his⟩ := List.forall_mem_cons.mp h
    rw [List.map_cons, afterAll_cons, after_used hi, Option.bind_some, ih his]

/-- Handles that are open may be closed, each once. -/
theorem afterAll_closed {is : List ι} (hnodup : is.Nodup) (h : ∀ i ∈ is, i ∈ o) :
    afterAll o (is.map .closed) = some (o \ is.toFinset) := by
  induction is generalizing o with
  | nil => simp
  | cons i is ih =>
    obtain ⟨hi, his⟩ := List.forall_mem_cons.mp h
    obtain ⟨hnotin, hnodup⟩ := List.nodup_cons.mp hnodup
    have hrest : ∀ j ∈ is, j ∈ o.erase i := fun j hj =>
      Finset.mem_erase.mpr ⟨fun heq => hnotin (heq ▸ hj), his j hj⟩
    rw [List.map_cons, afterAll_cons, after_closed hi, Option.bind_some, ih hnodup hrest]
    congr 1
    ext j
    simp only [Finset.mem_sdiff, Finset.mem_erase, List.mem_toFinset, List.mem_cons, not_or]
    tauto

/-- How a call changes whether a handle is open. -/
theorem count_after (h : after o c = some o') (i : ι) :
    [c].count (.opened i) + (if i ∈ o then 1 else 0) =
      [c].count (.closed i) + if i ∈ o' then 1 else 0 := by
  unfold after at h
  split_ifs at h with hc
  obtain rfl := Option.some.inj h
  cases c with
  | opened j =>
    have hj : j ∉ o := hc
    by_cases hij : i = j
    · subst hij
      simp [effect, hj]
    · simp [effect, hij, Ne.symm hij]
  | used j =>
    have hsame : effect o (.used j) = o := rfl
    rw [hsame]
    simp
  | closed j =>
    have hj : j ∈ o := hc
    by_cases hij : i = j
    · subst hij
      simp [effect, hj]
    · simp [effect, hij, Ne.symm hij]

/-- Each handle has been opened as often as it has been closed, and once more if it is open. -/
theorem count_opened (h : afterAll o cs = some o') (i : ι) :
    cs.count (.opened i) + (if i ∈ o then 1 else 0) =
      cs.count (.closed i) + if i ∈ o' then 1 else 0 := by
  induction cs generalizing o with
  | nil =>
    obtain rfl := Option.some.inj h
    simp
  | cons c cs ih =>
    rw [afterAll_cons] at h
    obtain ⟨o₁, h₁, h⟩ := Option.bind_eq_some_iff.mp h
    have hfirst := count_after h₁ i
    have hrest := ih h
    rw [List.count_cons (l := cs) (a := Call.opened i),
      List.count_cons (l := cs) (a := Call.closed i)]
    simp only [List.count_cons, List.count_nil] at hfirst
    omega

/-- Where a handle is used or closed it has been opened once more than closed. -/
theorem count_opened_before {i : ι} (h : afterAll ∅ (cs ++ c :: cs') = some o)
    (hc : c = .used i ∨ c = .closed i) : cs.count (.opened i) = cs.count (.closed i) + 1 := by
  rw [afterAll_append] at h
  obtain ⟨o₁, h₁, h⟩ := Option.bind_eq_some_iff.mp h
  rw [afterAll_cons] at h
  obtain ⟨o₂, h₂, -⟩ := Option.bind_eq_some_iff.mp h
  have hopen : i ∈ o₁ := by
    unfold after at h₂
    split_ifs at h₂ with hallowed
    rcases hc with rfl | rfl <;> exact hallowed
  simpa [hopen] using count_opened h₁ i

end Handles
