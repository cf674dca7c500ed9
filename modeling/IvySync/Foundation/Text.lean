import Mathlib.Data.Finset.Sort
import Mathlib.Data.List.DropRight
import Mathlib.Data.List.Infix
import Mathlib.Data.List.TakeWhile

/-!
# Texts and their parts

A text is a list over any alphabet.  `trim` drops unwanted letters from both ends (`trim_eq_self_iff`
says when there are none), `joined` writes lines one behind another, each with its end, and
`takeWhile_line` and `dropWhile_line` take such a text apart again.  `lines` are the lines of any
text, the last of which need not be ended (`exists_joined_append`).  `infix_iff_of_unique` finds a
word in a text by a letter that occurs once in it, and `sort_filter` says that a selection of a
sorted set may be made before or after it is sorted.
-/

namespace Text

variable {α : Type*} {p q : α → Bool} {l m : List α}

/-! ### Trimming -/

/-- Drop the letters of which `p` holds from both ends. -/
def trim (p : α → Bool) (l : List α) : List α := (l.dropWhile p).rdropWhile p

/-- A text is trimmed exactly if neither its first letter nor its last one is unwanted. -/
theorem trim_eq_self_iff :
    trim p l = l ↔ (∀ x ∈ l.head?, p x = false) ∧ ∀ x ∈ l.getLast?, p x = false := by
  have hfront : l.dropWhile p = l ↔ ∀ x ∈ l.head?, p x = false := by
    cases l with
    | nil => simp
    | cons x l => simp [List.dropWhile_eq_self_iff]
  have hback : l.rdropWhile p = l ↔ ∀ x ∈ l.getLast?, p x = false := by
    rw [List.rdropWhile_eq_self_iff]
    constructor
    · intro h x hx
      obtain ⟨hne, rfl⟩ := List.mem_getLast?_eq_getLast hx
      simpa using h hne
    · intro h hne
      simpa using h _ (List.getLast?_eq_some_getLast hne)
  rw [← hfront, ← hback]
  constructor
  · intro h
    have h1 := (List.rdropWhile_prefix p (l := l.dropWhile p)).length_le
    have h2 := (List.dropWhile_suffix p (l := l)).length_le
    unfold trim at h
    rw [h] at h1
    have hdrop : l.dropWhile p = l := (List.dropWhile_suffix p).eq_of_length (by omega)
    rw [hdrop] at h
    exact ⟨hdrop, h⟩
  · rintro ⟨h1, h2⟩
    rw [trim, h1, h2]

/-- Dropping from the end depends on the predicate on the letters of the text only. -/
theorem rdropWhile_congr (h : ∀ x ∈ l, p x = q x) : l.rdropWhile p = l.rdropWhile q := by
  induction l using List.reverseRecOn with
  | nil => rfl
  | append_singleton l x ih =>
    rw [List.rdropWhile_concat, List.rdropWhile_concat, h x (by simp),
      ih fun y hy => h y (by simp [hy])]

/-- A letter that stays is kept by dropping from the front. -/
theorem dropWhile_append_of_not {x : α} (hx : p x = false) :
    (l ++ x :: m).dropWhile p = l.dropWhile p ++ x :: m := by
  induction l with
  | nil => simp [hx]
  | cons y l ih =>
    rw [List.cons_append, List.dropWhile_cons, List.dropWhile_cons]
    split
    · exact ih
    · rfl

/-! ### Lines -/

variable {sep : α}

/-- The text of some lines, each with the separator behind it. -/
def joined (sep : α) (lines : List (List α)) : List α := lines.flatMap (· ++ [sep])

@[simp] theorem joined_nil : joined sep [] = [] := rfl

@[simp] theorem joined_cons (lines : List (List α)) :
    joined sep (l :: lines) = l ++ sep :: joined sep lines := by
  simp [joined]

/-- A line goes up to the first separator. -/
theorem takeWhile_line [DecidableEq α] (h : sep ∉ l) : (l ++ sep :: m).takeWhile (· ≠ sep) = l := by
  induction l with
  | nil => simp
  | cons x l ih =>
    have hx : x ≠ sep := fun hx => h (by simp [hx])
    have hl : sep ∉ l := fun hl => h (by simp [hl])
    simpa [hx] using ih hl

/-- Behind a line comes its separator. -/
theorem dropWhile_line [DecidableEq α] (h : sep ∉ l) :
    (l ++ sep :: m).dropWhile (· ≠ sep) = sep :: m := by
  have hsplit := List.takeWhile_append_dropWhile (p := (· ≠ sep)) (l := l ++ sep :: m)
  rw [takeWhile_line h] at hsplit
  exact List.append_cancel_left hsplit

/-- The lines of a text: what stands before each separator, and what is left behind the last one. -/
def lines [DecidableEq α] (sep : α) : List α → List (List α)
  | [] => []
  | c :: l =>
    if c = sep then [] :: lines sep l
    else match lines sep l with
      | [] => [[c]]
      | x :: xs => (c :: x) :: xs

/-- The lines of a text without the separator. -/
theorem lines_of_notMem [DecidableEq α] (h : sep ∉ l) :
    lines sep l = if l = [] then [] else [l] := by
  induction l with
  | nil => rfl
  | cons c l ih =>
    have hc : c ≠ sep := fun hc => h (by simp [hc])
    have hl : sep ∉ l := fun hl => h (by simp [hl])
    rw [lines, if_neg hc, ih hl]
    cases l <;> simp

/-- The first line of a text. -/
theorem lines_line [DecidableEq α] (h : sep ∉ l) :
    lines sep (l ++ sep :: m) = l :: lines sep m := by
  induction l with
  | nil => simp [lines]
  | cons c l ih =>
    have hc : c ≠ sep := fun hc => h (by simp [hc])
    have hl : sep ∉ l := fun hl => h (by simp [hl])
    rw [List.cons_append, lines, if_neg hc, ih hl]

/-- Any text is some lines with their ends and a rest without one, which is a line if there is
any. -/
theorem exists_joined_append [DecidableEq α] (sep : α) (l : List α) :
    ∃ ls rest, l = joined sep ls ++ rest ∧ (∀ x ∈ ls, sep ∉ x) ∧ sep ∉ rest ∧
      lines sep l = ls ++ if rest = [] then [] else [rest] := by
  induction hn : l.length using Nat.strongRecOn generalizing l with
  | ind n ih =>
    by_cases hmem : sep ∈ l
    · obtain ⟨a, b, rfl, ha⟩ := List.eq_append_cons_of_mem hmem
      obtain ⟨ls, rest, rfl, hls, hrest, hlines⟩ := ih b.length (by subst hn; simp; omega) b rfl
      refine ⟨a :: ls, rest, by simp, by simpa using ⟨ha, hls⟩, hrest, ?_⟩
      rw [lines_line ha, hlines, List.cons_append]
    · exact ⟨[], l, rfl, by simp, hmem, by rw [lines_of_notMem hmem]; rfl⟩

/-- A text has no rest behind its lines exactly if it does not end in another letter. -/
theorem getLast?_joined_append {ls : List (List α)} {rest : List α} (h : sep ∉ rest) :
    (∀ c ∈ (joined sep ls ++ rest).getLast?, c = sep) ↔ rest = [] := by
  constructor
  · intro hlast
    by_contra hne
    have hc := hlast (rest.getLast hne)
      (by simp [List.getLast?_append, List.getLast?_eq_some_getLast hne])
    exact h (hc ▸ List.getLast_mem hne)
  · rintro rfl c hc
    rw [List.append_nil] at hc
    rcases List.eq_nil_or_concat ls with rfl | ⟨ls', l, rfl⟩
    · simp at hc
    · simpa [joined, eq_comm] using hc

/-! ### Words in a text -/

/-- A word with a letter that the text has only once can stand there only. -/
theorem infix_iff_of_unique {c : α} {a b u w : List α} (ha : c ∉ a) (hb : c ∉ b) :
    (u ++ c :: w) <:+: (a ++ c :: b) ↔ u <:+ a ∧ w <+: b := by
  constructor
  · rintro ⟨s, t, h⟩
    have heq : a ++ c :: b = (s ++ u) ++ c :: (w ++ t) := by simpa using h.symm
    obtain ⟨rfl, -, rfl⟩ := (List.append_cons_inj_of_notMem ha hb).mp heq
    exact ⟨⟨s, rfl⟩, ⟨t, rfl⟩⟩
  · rintro ⟨⟨s, rfl⟩, ⟨t, rfl⟩⟩
    exact ⟨s, t, by simp⟩

/-! ### Sorted sets -/

/-- A set may be sorted before or after a selection is made. -/
theorem sort_filter (r : α → α → Prop) [DecidableRel r] [IsTrans α r] [Std.Antisymm r]
    [Std.Total r] (s : Finset α) (p : α → Bool) :
    (s.sort r).filter p = (s.filter (p ·)).sort r := by
  refine @List.Perm.eq_of_pairwise _ r _ _ (fun a b _ _ => antisymm) ?_ ?_ ?_
  · exact (s.pairwise_sort r).filter p
  · exact Finset.pairwise_sort _ r
  · refine (List.perm_ext_iff_of_nodup ((s.sort_nodup r).filter p) (Finset.sort_nodup _ r)).mpr ?_
    intro x
    simp

end Text
