import Mathlib.Data.List.Infix
import Mathlib.Data.List.TakeWhile

/-!
# Finding a word in a text

`indexOf` is the first place of a word in a text (`indexOf_eq_some_iff`).  It does not change when
the text goes on (`indexOf_append`), and a part of the text without the first letter of the word is
passed over (`indexOf_skip`).
-/

namespace Text

variable {α : Type*} [DecidableEq α] {c : α} {w s t gap : List α} {i : ℕ}

/-- Where a word stands in a text for the first time. -/
def indexOf (w : List α) : List α → Option ℕ
  | [] => if w = [] then some 0 else none
  | c :: s => if w <+: c :: s then some 0 else (indexOf w s).map (· + 1)

/-- A word at the front is found there. -/
theorem indexOf_of_prefix (h : w <+: s) : indexOf w s = some 0 := by
  cases s with
  | nil => simp [indexOf, List.prefix_nil.mp h]
  | cons c s => rw [indexOf, if_pos h]

/-- A word is found where it stands and nowhere before. -/
theorem indexOf_eq_some_iff :
    indexOf w s = some i ↔ w <+: s.drop i ∧ i ≤ s.length ∧ ∀ j < i, ¬ w <+: s.drop j := by
  induction s generalizing i with
  | nil =>
    simp only [indexOf, List.drop_nil, List.prefix_nil, List.length_nil, Nat.le_zero]
    split_ifs with hw
    · constructor
      · rintro h
        obtain rfl := Option.some.inj h
        simp [hw]
      · rintro ⟨-, rfl, -⟩
        rfl
    · simp [hw]
  | cons c s ih =>
    rw [indexOf]
    split_ifs with hw
    · constructor
      · intro h
        obtain rfl := Option.some.inj h
        exact ⟨hw, by omega, by omega⟩
      · rintro ⟨-, -, hfirst⟩
        cases i with
        | zero => rfl
        | succ i => exact absurd hw (hfirst 0 (by omega))
    · cases i with
      | zero => simp [hw]
      | succ i =>
        rw [Option.map_eq_some_iff]
        simp only [Nat.add_right_cancel_iff, exists_eq_right, ih, List.drop_succ_cons,
          List.length_cons, Nat.add_le_add_iff_right]
        refine and_congr_right fun _ => and_congr_right fun _ => ?_
        constructor
        · intro hfirst j hj
          cases j with
          | zero => exact hw
          | succ j => exact hfirst j (by omega)
        · intro hfirst j hj
          exact hfirst (j + 1) (by omega)

/-- A word that is found lies in the text. -/
theorem indexOf_add_length_le (h : indexOf w s = some i) : i + w.length ≤ s.length := by
  obtain ⟨hw, hi, -⟩ := indexOf_eq_some_iff.mp h
  have hle := hw.length_le
  rw [List.length_drop] at hle
  omega

/-- The first place of a word stays the first when the text goes on. -/
theorem indexOf_append (t : List α) (h : indexOf w s = some i) : indexOf w (s ++ t) = some i := by
  have hin := indexOf_add_length_le h
  obtain ⟨hw, hi, hfirst⟩ := indexOf_eq_some_iff.mp h
  refine indexOf_eq_some_iff.mpr ⟨?_, by simp; omega, ?_⟩
  · rw [List.drop_append_of_le_length hi]
    exact hw.trans (List.prefix_append _ _)
  · intro j hj hearly
    rw [List.drop_append_of_le_length (by omega)] at hearly
    exact hfirst j hj (List.prefix_of_prefix_length_le hearly (List.prefix_append _ _)
      (by rw [List.length_drop]; omega))

/-- Where its first letter is not, a word does not begin. -/
theorem indexOf_skip (hc : c ∉ gap) (s : List α) :
    indexOf (c :: w) (gap ++ s) = (indexOf (c :: w) s).map (gap.length + ·) := by
  induction gap with
  | nil => simp
  | cons d gap ih =>
    have hd : c ≠ d := fun h => hc (by simp [h])
    have hgap : c ∉ gap := fun h => hc (by simp [h])
    rw [List.cons_append, indexOf, if_neg (by simp [hd]), ih hgap, Option.map_map]
    congr 1
    funext n
    simp only [Function.comp_apply, List.length_cons]
    omega

/-- A word behind a part of the text without its first letter. -/
theorem indexOf_word (hc : c ∉ gap) (t : List α) :
    indexOf (c :: w) (gap ++ (c :: w ++ t)) = some gap.length := by
  rw [indexOf_skip hc, indexOf_of_prefix (List.prefix_append _ _)]
  simp

end Text
