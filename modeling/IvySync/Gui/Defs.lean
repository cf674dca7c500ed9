import IvySync.Linklist.Refinement
import IvySync.Saved.Devices

/-!
# The playlist in the graphical interface

`Playlist::refresh` shows a row for each entry: a number, with an arrow in front of it when the
movie is to be the current one, and the name of the file.  The handlers take the number out of the
text again and use it as a position in the playlist of the decoder.

What GTK does is left out: a handler gets the rows that are selected, or the texts that are dragged
and the row they are dropped on.
-/

namespace IvySync

namespace Gui

/-- The texts in a row of the tree view, in the columns `POSITION` and `FILENAME`. -/
structure Row where
  position : Name
  filename : Name
  deriving DecidableEq, Repr

/-- The text that marks the current movie. -/
def arrow : Name := bytesOf "->"

/-- What `refresh` prints in the first column for its counter `c`. -/
def positionText (position c : ℤ) : Name :=
  snprintf 15 ((if position + 1 = c then arrow else bytesOf "  ") ++ printU c)

/-- The loop of `Playlist::refresh`, given up after a number of rounds. -/
def refreshLoop (h : Heap) (position : ℤ) : ℕ → Option Addr → (c : ℤ) → Option (List Row)
  | 0, _, _ => none
  | _ + 1, none, _ => some []
  | fuel + 1, some ent, c =>
    (refreshLoop h position fuel (h.next ent) (c + 1)).map fun rows =>
      ⟨positionText position c, cString (h.name ent)⟩ :: rows

/-- `Playlist::refresh` for the decoder with the playlist at `L`. -/
def refresh (L : ListId) (position : ℤ) (fuel : ℕ) (h : Heap) : Option (List Row) :=
  refreshLoop h position fuel (h.first L) 0

/-- The handlers write a blank over everything that is no digit. -/
def strip (text : Name) : Name := text.map fun c => if isdigit c then c else 32

/-- The loop of `on_delete_button` over these rows. -/
def deleteLoop (L : ListId) (rows : List Row) : (rowlist : List ℕ) → Heap → Heap
  | [], h => h
  | i :: rowlist, h =>
    match rows[i]? with
    | some row =>
      deleteLoop L rows rowlist (Linklist.Decoder.remove L h (atoi (strip row.position))).1
    | none => deleteLoop L rows rowlist h

/-- `on_delete_button`, when GTK returns these rows as selected. -/
def onDeleteButton (L : ListId) (rows : List Row) (selected : List ℕ) (h : Heap) : Heap :=
  deleteLoop L rows selected.reverse h

/-- One round of `DND_drop` for a row to move to: the new `row`, and the entries then; `none` when
an entry that is looked up is missing.  The memory for the new entry is what `malloc` finds. -/
def dropOne (malloc : Heap → Addr × List UInt8) (L : ListId) (row : ℤ) (data : Name) (h : Heap) :
    Option (ℤ × Heap) :=
  let numpos := atoi (strip data)
  (Linklist.pick L h (numpos - 1)).bind fun _ =>
    let numpos := numpos - 1
    let row := if numpos < row then row + 1 else row
    (Linklist.pick L h numpos).bind fun ent =>
      let x : Arrival := ⟨(malloc h).1, (malloc h).2, cString (h.name ent)⟩
      (Linklist.Decoder.insert L h x row).map fun r =>
        let numpos := if row < numpos then numpos + 1 else numpos
        (row, (Linklist.Decoder.remove L r.1 (numpos + 1)).1)

/-- The loop of `DND_drop`. -/
def dndDrop (malloc : Heap → Addr × List UInt8) (L : ListId) : (row : ℤ) →
    (draglist : List Name) → Heap → Option Heap
  | _, [], h => some h
  | row, data :: draglist, h =>
    if row = 0 then dndDrop malloc L row draglist h
    else (dropOne malloc L row data h).bind fun r => dndDrop malloc L r.1 draglist r.2

/-! ### The numbers in the rows -/

/-- A digit is neither a space nor a sign. -/
theorem isspace_of_isdigit {c : UInt8} (hc : isdigit c = true) :
    isspace c = false ∧ c ≠ 45 ∧ c ≠ 43 := by
  unfold isdigit at hc
  unfold isspace
  grind

/-- `atoi` skips the blanks in front of a number. -/
theorem atoi_decimal (n : ℕ) : atoi (32 :: 32 :: decimal n) = n := by
  have hvalue := leadingNumber_decimal n
  have hdrop : (32 :: 32 :: decimal n).dropWhile isspace = (decimal n).dropWhile isspace := rfl
  unfold atoi
  rw [hdrop]
  cases hn : decimal n with
  | nil =>
    rw [hn] at hvalue
    exact congrArg Nat.cast hvalue
  | cons c rest =>
    have hc := isspace_of_isdigit (isdigit_of_mem_decimal (n := n) (c := c) (by simp [hn])).1
    rw [hn] at hvalue
    rw [List.dropWhile_cons_of_neg (by simp [hc.1])]
    simp [hc.2, hvalue]

/-- The handlers read the number back that `refresh` has printed. -/
theorem atoi_strip (position c : ℤ) : atoi (strip (positionText position c)) = c % 2 ^ 32 := by
  have hblank : ∀ mark ∈ [arrow, bytesOf "  "], strip mark = [32, 32] ∧ mark.length = 2 := by
    decide +kernel
  have hmark : strip (if position + 1 = c then arrow else bytesOf "  ") = [32, 32] ∧
      (if position + 1 = c then arrow else bytesOf "  ").length = 2 := by
    split_ifs
    · exact hblank arrow (by simp)
    · exact hblank (bytesOf "  ") (by simp)
  have hdigits : strip (printU c) = printU c := by
    unfold strip printU
    rw [List.map_congr_left (g := id), List.map_id]
    intro x hx
    rw [if_pos (isdigit_of_mem_decimal hx).1, id]
  have hlength := length_printU c
  unfold positionText snprintf
  rw [List.take_of_length_le (by rw [List.length_append, hmark.2]; omega)]
  have hsplit : strip ((if position + 1 = c then arrow else bytesOf "  ") ++ printU c) =
      32 :: 32 :: printU c := by
    rw [strip, List.map_append]
    exact congrArg₂ (· ++ ·) hmark.1 hdigits
  rw [hsplit, printU, atoi_decimal]
  omega

end Gui

end IvySync
