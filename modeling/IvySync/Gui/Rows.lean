import IvySync.Gui.Defs
import IvySync.Linklist.Exchange

/-!
# The rows and the positions

`refresh` counts the rows from nought, the playlist its entries from one.  So the number in a row is
the position of the entry in the row above, and the arrow is two rows below the current movie.  The
button that deletes takes the numbers for positions.
-/

namespace IvySync

namespace Gui

open Linklist (names threeEntries)

variable {h h' : Heap} {L : ListId} {xs ys : Playlist Addr} {position : ℤ} {fuel : ℕ}
  {selected : List ℕ} {α : Type}

/-- The rows for these names. -/
def rowsOf (position c : ℤ) (files : Playlist Name) : List Row :=
  files.mapIdx fun i name => ⟨positionText position (c + i), name⟩

theorem refreshLoop_eq {o : Option Addr} {c : ℤ} (hvisits : Linked.Visits h.next o xs)
    (hfuel : xs.length < fuel) :
    refreshLoop h position fuel o c = some (rowsOf position c (names h xs)) := by
  induction xs generalizing o c fuel with
  | nil =>
    obtain rfl : o = none := hvisits
    obtain ⟨fuel, rfl⟩ := Nat.exists_eq_succ_of_ne_zero (Nat.ne_of_gt hfuel)
    rfl
  | cons a xs ih =>
    obtain ⟨rfl, hvisits⟩ := hvisits
    obtain ⟨fuel, rfl⟩ := Nat.exists_eq_succ_of_ne_zero (Nat.ne_of_gt (Nat.zero_lt_of_lt hfuel))
    have hrest := ih (c := c + 1) hvisits (Nat.lt_of_succ_lt_succ hfuel)
    rw [refreshLoop, hrest, Option.map_some]
    simp only [rowsOf, names, List.map_cons, List.mapIdx_cons, Nat.cast_zero, add_zero,
      Nat.cast_add, Nat.cast_one, add_assoc, add_comm (1 : ℤ)]

/-- `refresh` shows a row for each entry, in their order. -/
theorem refresh_eq (hw : WellFormed h L xs) (hfuel : xs.length < fuel) :
    refresh L position fuel h = some (rowsOf position 0 (names h xs)) :=
  refreshLoop_eq hw.forward hfuel

theorem filename_rowsOf (position c : ℤ) (files : Playlist Name) :
    (rowsOf position c files).map Row.filename = files := by
  refine List.ext_getElem? fun i => ?_
  simp [rowsOf, Function.comp_def]

/-- The number that a handler reads in a row. -/
theorem position_rowsOf {row : Row} {i : ℕ} {files : Playlist Name}
    (hrow : (rowsOf position 0 files)[i]? = some row) :
    row.position = positionText position i := by
  unfold rowsOf at hrow
  rw [List.getElem?_mapIdx, Option.map_eq_some_iff] at hrow
  obtain ⟨name, -, rfl⟩ := hrow
  rw [zero_add]

/-! ### What the rows show -/

/-- The rows show the entries of the playlist in their order, with the arrow at the current one and
each with the position at which it is found. -/
structure Shows (h : Heap) (L : ListId) (xs : Playlist Addr) (position : ℤ) (rows : List Row) :
    Prop where
  filenames : rows.map Row.filename = names h xs
  current : ∀ (i : ℕ) (row : Row) (a : Addr), rows[i]? = some row → xs[i]? = some a →
    (arrow <+: row.position ↔ Linklist.pick L h position = some a)
  numbers : ∀ (i : ℕ) (row : Row) (a : Addr), rows[i]? = some row → xs[i]? = some a →
    Linklist.pick L h (atoi (strip row.position)) = some a

/-- For no playlist and no position in it does `refresh` mark the current movie and print the
positions; it does show every entry in its place. -/
theorem not_shows_rows (hw : WellFormed h L xs) (h1 : 1 ≤ position) (h2 : position ≤ xs.length)
    (hfuel : xs.length < fuel) :
    ∃ rows, refresh L position fuel h = some rows ∧ rows.map Row.filename = names h xs ∧
      ¬ Shows h L xs position rows := by
  refine ⟨_, refresh_eq hw hfuel, filename_rowsOf .., ?_⟩
  intro hshows
  obtain ⟨a, as, rfl⟩ : ∃ a as, xs = a :: as := by
    cases xs with
    | nil =>
      rw [List.length_nil] at h2
      omega
    | cons a as => exact ⟨a, as, rfl⟩
  have hrow : (rowsOf position 0 (names h (a :: as)))[0]? =
      some ⟨positionText position 0, cString (h.name a)⟩ := by
    simp [rowsOf, names]
  have hnumber := hshows.numbers 0 _ a hrow rfl
  rw [atoi_strip, hw.pick] at hnumber
  cases hnumber

/-- Three entries, of which the second is the current one. -/
theorem not_shows_three : ∃ rows, refresh 0 2 4 threeEntries = some rows ∧
    ¬ Shows threeEntries 0 [1, 2, 3] 2 rows := by
  have hw : WellFormed threeEntries 0 [1, 2, 3] := by decide +kernel
  obtain ⟨rows, hrows, -, hnot⟩ : ∃ rows, refresh 0 2 4 threeEntries = some rows ∧
      rows.map Row.filename = names threeEntries [1, 2, 3] ∧
      ¬ Shows threeEntries 0 [1, 2, 3] 2 rows :=
    not_shows_rows hw (by decide) (by decide) (by decide)
  exact ⟨rows, hrows, hnot⟩

/-- The first of three rows prints a nought. -/
theorem not_shows_positions : ¬ ∀ (h : Heap) (L : ListId) (xs : Playlist Addr) (position : ℤ)
    (fuel : ℕ), WellFormed h L xs → 1 ≤ position → position ≤ xs.length → xs.length < fuel →
    ∃ rows, refresh L position fuel h = some rows ∧ Shows h L xs position rows := by
  intro hall
  have hw : WellFormed threeEntries 0 [1, 2, 3] := by decide +kernel
  obtain ⟨rows, hrows, hshows⟩ := hall threeEntries 0 [1, 2, 3] 2 4 hw (by decide) (by decide)
    (by decide)
  have hfirst : (refresh 0 2 4 threeEntries).bind (fun rows => rows[0]?) =
      some ⟨bytesOf "  0", bytesOf "noname"⟩ := by decide +kernel
  rw [hrows, Option.bind_some] at hfirst
  have hnumber := hshows.numbers 0 _ 1 hfirst rfl
  have hpick : Linklist.pick 0 threeEntries (atoi (strip (bytesOf "  0"))) = none := by
    decide +kernel
  rw [hpick] at hnumber
  cases hnumber

/-- The rows of three entries of which the first is the current one. -/
theorem refresh_threeEntries : refresh 0 1 4 threeEntries = some [⟨bytesOf "  0", bytesOf "noname"⟩,
    ⟨bytesOf "  1", bytesOf "noname"⟩, ⟨bytesOf "->2", bytesOf "noname"⟩] := by decide +kernel

/-! ### Deleting -/

/-- The entries in the rows that are not selected. -/
def kept (selected : List ℕ) (xs : Playlist α) : Playlist α :=
  (xs.zipIdx.filter fun p => p.2 ∉ selected).map Prod.fst

/-- An entry at or behind a position moves up by at most one when the position is removed, and is
not removed itself. -/
theorem survives_remove {l : Playlist α} {j : ℕ} {x : α} {pos : ℤ} (hx : l[j]? = some x)
    (hpos : pos ≤ j) : ∃ k, (l.remove pos).1[k]? = some x ∧ j ≤ k + 1 := by
  unfold Playlist.remove
  split_ifs with hout
  · exact ⟨j, hx, Nat.le_succ j⟩
  · obtain ⟨i, rfl⟩ : ∃ i, j = i + 1 := ⟨j - 1, by omega⟩
    refine ⟨i, ?_, le_rfl⟩
    rw [List.getElem?_eraseIdx_of_ge (by omega)]
    exact hx

/-- Deleting rows from below removes no entry that is behind the row above the first of them. -/
theorem exists_deleteLoop {cs : List ℕ} {j : ℕ} {x : Addr} {files : Playlist Name}
    (hw : WellFormed h L xs) (hcs : cs.Pairwise (· > ·)) (hle : ∀ c ∈ cs, c ≤ j)
    (hx : xs[j]? = some x) :
    ∃ ys, WellFormed (deleteLoop L (rowsOf position 0 files) cs h) L ys ∧ x ∈ ys := by
  induction cs generalizing h xs j with
  | nil => exact ⟨xs, hw, List.mem_of_getElem? hx⟩
  | cons c cs ih =>
    obtain ⟨hlt, hcs⟩ := List.pairwise_cons.1 hcs
    have hc := hle c List.mem_cons_self
    rw [deleteLoop]
    cases hrow : (rowsOf position 0 files)[c]? with
    | none => exact ih hw hcs (fun d hd => hle d (List.mem_cons_of_mem c hd)) hx
    | some row =>
      have hnumber : atoi (strip row.position) ≤ j := by
        rw [position_rowsOf hrow, atoi_strip]
        omega
      obtain ⟨-, hedited⟩ := Linklist.remove_edited hw (atoi (strip row.position))
      obtain ⟨k, hk, hjk⟩ := survives_remove hx hnumber
      refine ih hedited.wellFormed hcs ?_ hk
      intro d hd
      have hdc := hlt d hd
      omega

theorem not_mem_kept {zs : Playlist α} {i : ℕ} {x : α} (hnodup : zs.Nodup) (hx : zs[i]? = some x)
    (hi : i ∈ selected) : x ∉ kept selected zs := by
  intro hmem
  obtain ⟨⟨y, j⟩, hj, rfl⟩ := List.mem_map.1 hmem
  obtain ⟨hzip, hout⟩ := List.mem_filter.1 hj
  rw [List.mem_zipIdx_iff_getElem?] at hzip
  have hlt : i < zs.length := (List.getElem?_eq_some_iff.1 hx).1
  obtain rfl := (List.getElem?_inj hlt hnodup).1 (hx.trans hzip.symm)
  simp [hi] at hout

/-- For every playlist as `refresh` shows it and every selection of some of its rows, the button
does not leave the entries of the other rows: the one in the last row that is selected stays. -/
theorem not_deleted (hw : WellFormed h L xs) (hfuel : xs.length < fuel) (hne : selected ≠ [])
    (hascending : selected.Pairwise (· < ·)) (hrows : ∀ i ∈ selected, i < xs.length) :
    ∃ rows, refresh L position fuel h = some rows ∧
      ¬ WellFormed (onDeleteButton L rows selected h) L (kept selected xs) := by
  refine ⟨_, refresh_eq hw hfuel, ?_⟩
  intro hkept
  obtain ⟨before, m, rfl⟩ := (List.eq_nil_or_concat selected).resolve_left hne
  rw [List.concat_eq_append] at hascending hrows hkept
  have hm : m < xs.length := hrows m (by simp)
  have hx : xs[m]? = some xs[m] := List.getElem?_eq_getElem hm
  have hdescending := List.pairwise_reverse.2 hascending
  have hle : ∀ c ∈ (before ++ [m]).reverse, c ≤ m := by
    intro c hc
    rw [List.mem_reverse, List.mem_append, List.mem_singleton] at hc
    rcases hc with hc | rfl
    · exact ((List.pairwise_append.1 hascending).2.2 c hc m (by simp)).le
    · exact le_rfl
  obtain ⟨ys, hys, hmem⟩ : ∃ ys, WellFormed
      (deleteLoop L (rowsOf position 0 (names h xs)) (before ++ [m]).reverse h) L ys ∧ xs[m] ∈ ys :=
    exists_deleteLoop hw hdescending hle hx
  obtain rfl := hys.forward.unique hkept.forward
  exact not_mem_kept hw.nodup hx (by simp) hmem

/-- The last of three rows. -/
theorem not_deleted_last : ∃ rows, refresh 0 1 4 threeEntries = some rows ∧
    ¬ WellFormed (onDeleteButton 0 rows [2] threeEntries) 0 (kept [2] [1, 2, 3]) := by
  have hw : WellFormed threeEntries 0 [1, 2, 3] := by decide +kernel
  exact not_deleted hw (by decide) (by decide) (by decide) (by decide)

/-- With the last of three rows selected, the entry in front of it is deleted. -/
theorem not_deleted_entries : ¬ ∀ (h : Heap) (L : ListId) (xs : Playlist Addr) (position : ℤ)
    (fuel : ℕ) (rows : List Row) (selected : List ℕ), WellFormed h L xs → xs.length < fuel →
    refresh L position fuel h = some rows → selected ≠ [] → selected.Pairwise (· < ·) →
    (∀ i ∈ selected, i < xs.length) →
    WellFormed (onDeleteButton L rows selected h) L (kept selected xs) := by
  intro hall
  have hw : WellFormed threeEntries 0 [1, 2, 3] := by decide +kernel
  have hkept := hall threeEntries 0 [1, 2, 3] 1 4 _ [2] hw (by decide) refresh_threeEntries
    (by decide) (by decide) (by decide)
  revert hkept
  decide +kernel

end Gui

end IvySync
