import IvySync.Foundation.Machine
import Mathlib.Data.List.InsertIdx
import Mathlib.Data.List.Nodup
import Mathlib.Data.Int.Notation

/-!
# The playlist as a plain list

What the operations of `Decoder` on its playlist mean, as functions on the list of its entries.
Positions count from one, as in the source.  What an entry is stays open: the decoder takes the
name of an entry for the entry itself, and `Linklist/Refinement` shows, for entries that are
addresses with names, that the pointer structure of `linklist.cpp` behaves like these functions.
-/

namespace IvySync

/-- A path, without its terminating NUL. -/
abbrev Name := List UInt8

/-- A playlist, entry by entry. -/
abbrev Playlist (α : Type) := List α

namespace Playlist

variable {α β : Type}

/-- `playlist[pos]`: the entry at `pos`, counted from one, `none` for NULL. -/
def pick (l : Playlist α) (pos : ℤ) : Option α :=
  if (l.length : ℤ) < pos ∨ pos < 1 then none else l[(pos - 1).toNat]?

/-- `Decoder::append`: a new entry at the end. -/
def append (l : Playlist α) (file : α) : Playlist α := l ++ [file]

/-- `Decoder::prepend`: a new entry at the front. -/
def prepend (l : Playlist α) (file : α) : Playlist α := file :: l

/-- `Decoder::insert`: a position not below the length adds at the end, one not above the first
adds at the front, any other puts the entry where the one at `pos` was. -/
def insert (l : Playlist α) (file : α) (pos : ℤ) : Playlist α :=
  if (l.length : ℤ) ≤ pos then l.append file
  else if pos ≤ 1 then l.prepend file
  else l.insertIdx (pos - 1).toNat file

/-- `Decoder::remove`: drop the entry at `pos`; `false` and no change when there is none. -/
def remove (l : Playlist α) (pos : ℤ) : Playlist α × Bool :=
  if (l.length : ℤ) < pos ∨ pos < 1 then (l, false) else (l.eraseIdx (pos - 1).toNat, true)

/-- An entry is found exactly at the positions from one to the length. -/
theorem pick_eq_none_iff {l : Playlist α} {pos : ℤ} :
    l.pick pos = none ↔ (l.length : ℤ) < pos ∨ pos < 1 := by
  unfold pick
  split
  · simpa
  · rename_i h
    push Not at h
    have hlt : (pos - 1).toNat < l.length := by omega
    simp only [List.getElem?_eq_getElem hlt, reduceCtorEq, false_iff]
    omega

/-- There is an entry at each of them. -/
theorem exists_pick {l : Playlist α} {pos : ℤ} (h1 : 1 ≤ pos) (h2 : pos ≤ l.length) :
    ∃ x, l.pick pos = some x := by
  refine Option.ne_none_iff_exists'.mp ?_
  rw [Ne, pick_eq_none_iff]
  omega

/-- The entry behind `k` others is the one at `k + 1`. -/
theorem pick_append_cons (before after : Playlist α) (name : α) :
    Playlist.pick (before ++ name :: after) (before.length + 1) = some name := by
  unfold pick
  rw [if_neg (by simp only [List.length_append, List.length_cons]; omega)]
  simp

/-- What is found at a position cuts the playlist in two. -/
theorem exists_split_of_pick {l : Playlist α} {pos : ℤ} {x : α} (h : l.pick pos = some x) :
    ∃ before after : Playlist α, l = before ++ x :: after ∧ pos = before.length + 1 := by
  unfold pick at h
  split at h
  · simp at h
  · rename_i hpos
    push Not at hpos
    obtain ⟨hlt, hx⟩ := List.getElem?_eq_some_iff.mp h
    refine ⟨l.take (pos - 1).toNat, l.drop ((pos - 1).toNat + 1), ?_, ?_⟩
    · rw [← hx, List.getElem_cons_drop, List.take_append_drop]
    · rw [List.length_take]
      omega

variable {xs ys : Playlist α} {x : α} {i j : ℤ}

/-- What is found behind the first entry is found one position earlier in the rest. -/
theorem pick_cons (a : α) (hi : i ≠ 1) : Playlist.pick (a :: xs) i = xs.pick (i - 1) := by
  unfold pick
  rw [List.length_cons]
  split_ifs with hout hin hin
  · rfl
  · omega
  · omega
  · obtain ⟨k, hk⟩ : ∃ k : ℕ, i = k + 2 := ⟨(i - 2).toNat, by omega⟩
    have h1 : (i - 1).toNat = k + 1 := by omega
    have h2 : (i - 1 - 1).toNat = k := by omega
    rw [h1, h2, List.getElem?_cons_succ]

/-- What is found in a first part is found in the whole. -/
theorem pick_append_left (h : i ≤ xs.length) : Playlist.pick (xs ++ ys) i = xs.pick i := by
  unfold pick
  rw [List.length_append]
  split_ifs with hout hin hin
  · rfl
  · omega
  · omega
  · exact List.getElem?_append_left (by omega)

/-- What is found behind a first part is found that much earlier in the rest. -/
theorem pick_append_right (h : (xs.length : ℤ) < i) :
    Playlist.pick (xs ++ ys) i = ys.pick (i - xs.length) := by
  unfold pick
  rw [List.length_append]
  split_ifs with hout hin hin
  · rfl
  · omega
  · omega
  · rw [List.getElem?_append_right (by omega)]
    congr 1
    omega

/-- What is found in a playlist with one more entry in it. -/
theorem pick_middle (l r : Playlist α) (x : α) (i : ℤ) :
    Playlist.pick (l ++ x :: r) i =
      if i ≤ l.length then Playlist.pick (l ++ r) i
      else if i = l.length + 1 then some x
      else Playlist.pick (l ++ r) (i - 1) := by
  split_ifs with hfront hhere
  · rw [pick_append_left hfront, pick_append_left hfront]
  · rw [hhere, pick_append_cons]
  · rw [pick_append_right (by omega), pick_cons x (by omega), pick_append_right (by omega)]
    congr 1
    omega

/-- The first position. -/
theorem pick_one (l : Playlist α) : l.pick 1 = l.head? := by
  cases l with
  | nil => rfl
  | cons a l => exact pick_append_cons [] l a

/-- What is found in a playlist with one more entry at its end. -/
theorem pick_concat (l : Playlist α) (a : α) (pos : ℤ) :
    Playlist.pick (l ++ [a]) pos = if pos = l.length + 1 then some a else l.pick pos := by
  split_ifs with hpos
  · have hlast := pick_append_cons l [] a
    rwa [hpos]
  · rcases Int.lt_or_le l.length pos with hlt | hle
    · have hout : l.pick pos = none := pick_eq_none_iff.mpr (Or.inl hlt)
      have hout' : Playlist.pick (l ++ [a]) pos = none := by
        rw [pick_eq_none_iff, List.length_append, List.length_singleton]
        omega
      rw [hout, hout']
    · exact pick_append_left hle

/-- An entry that occurs once is found at one position. -/
theorem pick_inj (hnodup : xs.Nodup) (hi : xs.pick i = some x) (hj : xs.pick j = some x) :
    i = j := by
  obtain ⟨l, r, rfl, rfl⟩ := exists_split_of_pick hi
  obtain ⟨l', r', heq, rfl⟩ := exists_split_of_pick hj
  have hx : x ∉ l ++ r := (List.nodup_cons.mp (List.nodup_middle.mp hnodup)).1
  rw [List.mem_append, not_or] at hx
  obtain ⟨rfl, -, -⟩ := (List.append_cons_inj_of_notMem hx.1 hx.2).mp heq
  rfl

/-- Changing the entry found at a position changes what is found there, and nothing else. -/
theorem pick_modify {l : Playlist α} {pos : ℤ} {x : α} (h : l.pick pos = some x) (f : α → α)
    (i : ℤ) :
    Playlist.pick (l.modify (pos - 1).toNat f) i = if i = pos then some (f x) else l.pick i := by
  unfold pick at h ⊢
  split at h
  · simp at h
  · rename_i hpos
    rw [List.length_modify]
    by_cases hi : i = pos
    · rw [if_pos hi, hi, if_neg hpos]
      generalize (pos - 1).toNat = k at h
      simp [h]
    · rw [if_neg hi]
      split
      · rfl
      · rename_i hout
        have hne : (pos - 1).toNat ≠ (i - 1).toNat := by omega
        generalize (pos - 1).toNat = j at hne
        generalize (i - 1).toNat = k at hne
        simp [hne]

/-- How many entries stay in front of a new one that is inserted at a position. -/
def slot (l : Playlist α) (pos : ℤ) : ℕ :=
  if (l.length : ℤ) ≤ pos then l.length else (pos - 1).toNat

/-- What is inserted behind a first part stands between the two. -/
theorem insertIdx_length_append (before after : List α) (file : α) :
    (before ++ after).insertIdx before.length file = before ++ file :: after := by
  induction before with
  | nil => simp
  | cons b before ih => simpa using ih

/-- There is room for the new entry behind those that stay in front. -/
theorem slot_le (l : Playlist α) (pos : ℤ) : l.slot pos ≤ l.length := by
  unfold slot
  split <;> omega

/-- Inserting is the one of lists, at the number of those that stay in front. -/
theorem insert_eq_insertIdx (l : Playlist α) (file : α) (pos : ℤ) :
    l.insert file pos = l.insertIdx (l.slot pos) file := by
  unfold insert slot
  split_ifs with hlast hfirst
  · simp [append]
  · rw [Int.toNat_of_nonpos (by omega), List.insertIdx_zero]
    rfl
  · rfl

/-- Inserting puts the new entry behind those that stay in front. -/
theorem insert_eq (l : Playlist α) (file : α) (pos : ℤ) :
    l.insert file pos = l.take (l.slot pos) ++ file :: l.drop (l.slot pos) := by
  have hinsert := insertIdx_length_append (l.take (l.slot pos)) (l.drop (l.slot pos)) file
  rwa [List.take_append_drop, List.length_take_of_le (l.slot_le pos),
    ← insert_eq_insertIdx] at hinsert

/-- Inserting adds exactly one entry and keeps the others, in their order. -/
theorem exists_insert_eq (l : Playlist α) (file : α) (pos : ℤ) :
    ∃ before after : Playlist α,
      l = before ++ after ∧ l.insert file pos = before ++ file :: after :=
  ⟨l.take (l.slot pos), l.drop (l.slot pos), by simp, l.insert_eq file pos⟩

-- At the position of the last entry the new one goes behind it.
example : Playlist.insert [1, 2, 3] 4 3 = [1, 2, 3, 4] := by decide

/-- Removing is the one of lists; behind the end there is nothing to remove. -/
theorem remove_eq_eraseIdx (l : Playlist α) {pos : ℤ} (hpos : 1 ≤ pos) :
    (l.remove pos).1 = l.eraseIdx (pos - 1).toNat := by
  unfold remove
  split_ifs with hout
  · rw [List.eraseIdx_of_length_le (by omega)]
  · rfl

/-- Removing adds no entry. -/
theorem remove_sublist (l : Playlist α) (pos : ℤ) : List.Sublist (l.remove pos).1 l := by
  unfold remove
  split_ifs
  · exact List.Sublist.refl l
  · exact List.eraseIdx_sublist ..

/-- Removing the entry at a position joins the two parts. -/
theorem remove_append_cons (before after : Playlist α) (x : α) :
    Playlist.remove (before ++ x :: after) (before.length + 1) = (before ++ after, true) := by
  unfold remove
  rw [if_neg (by simp only [List.length_append, List.length_cons]; omega)]
  simp [List.eraseIdx_append_of_length_le]

/-! ### Editing -/

/-- The edits of a playlist. -/
inductive Edit (α : Type)
  | append (file : α)
  | prepend (file : α)
  | insert (file : α) (pos : ℤ)
  | remove (pos : ℤ)
  | empty
  deriving DecidableEq, Repr

namespace Edit

/-- The same edit with another representation of the entry it adds. -/
def map (f : α → β) : Edit α → Edit β
  | append file => append (f file)
  | prepend file => prepend (f file)
  | insert file pos => insert (f file) pos
  | remove pos => remove pos
  | empty => empty

/-- The entry that an edit adds. -/
def added : Edit α → Option α
  | append file => some file
  | prepend file => some file
  | insert file _ => some file
  | remove _ => none
  | empty => none

end Edit

/-- The effect of an edit and what it returns. -/
def edit (l : Playlist α) : Edit α → Playlist α × Bool
  | .append file => (l.append file, true)
  | .prepend file => (l.prepend file, true)
  | .insert file pos => (l.insert file pos, true)
  | .remove pos => l.remove pos
  | .empty => ([], true)

/-- The playlist as a machine that is edited; each edit returns a truth value. -/
def machine (α : Type) : Machine (Playlist α) (Edit α) Bool where
  next l a := some (l.edit a)

/-- Looking up does not look at the entries. -/
theorem pick_map (f : α → β) (l : Playlist α) (pos : ℤ) :
    Playlist.pick (l.map f) pos = (l.pick pos).map f := by
  unfold pick
  rw [List.length_map]
  split_ifs
  · rfl
  · rw [List.getElem?_map]

/-- The edits do not look at the entries. -/
theorem edit_map (f : α → β) (l : Playlist α) (a : Edit α) :
    edit (l.map f) (a.map f) = ((l.edit a).1.map f, (l.edit a).2) := by
  cases a with
  | append file => simp [edit, Edit.map, append]
  | prepend file => simp [edit, Edit.map, prepend]
  | insert file pos =>
    simp only [edit, Edit.map, insert, List.length_map]
    split_ifs <;> simp [append, prepend, List.map_insertIdx]
  | remove pos =>
    simp only [edit, Edit.map, remove, List.length_map]
    split_ifs <;> simp [List.eraseIdx_map]
  | empty => rfl

end Playlist

end IvySync
