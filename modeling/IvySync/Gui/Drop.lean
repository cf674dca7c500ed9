import IvySync.Gui.Rows

/-!
# Dragging rows

For each text that is dragged `DND_drop` inserts a copy of an entry and removes an entry.  The text
is the number of the row counted from nought, but it is used as if it counted from two: the copy is
of the entry two rows above, and what is removed is one of the two entries above the dragged one.

The handler works on the pointer structure; it does there what it does on the plain list of names
(`dndDrop_rel`), which is where it is followed.  To tell entries apart, each is given the row in
which it is shown (`Item`).  A drop that removes no entry of another row leaves the last dragged
entry where it is, with an entry that is not dragged between it and the copies (`Astride`).
-/

namespace IvySync

namespace Playlist

/-- One round of `DND_drop` on a plain list; `Decoder::insert` makes a copy of an entry. -/
def dropOne {α : Type} (copy : α → α) (row : ℤ) (data : Name) (l : Playlist α) :
    Option (ℤ × Playlist α) :=
  let numpos := atoi (Gui.strip data)
  (l.pick (numpos - 1)).bind fun _ =>
    let numpos := numpos - 1
    let row := if numpos < row then row + 1 else row
    (l.pick numpos).map fun ent =>
      let l := l.insert (copy ent) row
      let numpos := if row < numpos then numpos + 1 else numpos
      (row, (l.remove (numpos + 1)).1)

/-- The loop of `DND_drop` on a plain list. -/
def dndDrop {α : Type} (copy : α → α) : (row : ℤ) → (draglist : List Name) → Playlist α →
    Option (Playlist α)
  | _, [], l => some l
  | row, data :: draglist, l =>
    if row = 0 then dndDrop copy row draglist l
    else (dropOne copy row data l).bind fun r => dndDrop copy r.1 draglist r.2

end Playlist

namespace Gui

variable {α : Type} {position : ℤ} {files : Playlist Name} {drag : List ℕ}

/-- An entry with the row in which it was shown; a copy has not been shown. -/
structure Item where
  name : Name
  shown : Option ℕ
  deriving DecidableEq, Repr

/-- `Decoder::insert` makes a new entry with the name. -/
def Item.copy (x : Item) : Item := ⟨x.name, none⟩

/-- The entries as they are shown. -/
def items (files : Playlist Name) : Playlist Item := files.mapIdx fun i name => ⟨name, some i⟩

/-- The texts of these rows. -/
def texts (position : ℤ) (drag : List ℕ) : List Name :=
  drag.map fun c : ℕ => positionText position c

/-- The entry that was shown in the row, or a copy of it. -/
def Stands (files : Playlist Name) (c : ℕ) (x : Item) : Prop :=
  files[c]? = some x.name ∧ (x.shown = none ∨ x.shown = some c)

/-- The other entries are in their order, and at the slot between them are the dragged ones in the
order in which they were dragged. -/
def Dropped (files : Playlist Name) (drag : List ℕ) (slot : ℕ) (l : Playlist Item) : Prop :=
  ∃ dragged, List.Forall₂ (Stands files) drag dragged ∧
    l = (kept drag (items files)).take slot ++ dragged ++ (kept drag (items files)).drop slot

/-! ### The names -/

theorem map_items (files : Playlist Name) : (items files).map Item.name = files := by
  refine List.ext_getElem? fun i => ?_
  simp [items, Function.comp_def]

theorem dropOne_map {β : Type} (copy : α → α) (copy' : β → β) (f : α → β)
    (hf : ∀ x, f (copy x) = copy' (f x)) (row : ℤ) (data : Name) (l : Playlist α) :
    Playlist.dropOne copy' row data (l.map f) =
      (Playlist.dropOne copy row data l).map (Prod.map id (List.map f)) := by
  have hinsert := fun x pos => congrArg Prod.fst (Playlist.edit_map f l (.insert x pos))
  have hremove := fun (l : Playlist α) pos =>
    congrArg Prod.fst (Playlist.edit_map f l (.remove pos))
  unfold Playlist.dropOne
  dsimp only [Playlist.edit, Playlist.Edit.map] at hinsert hremove ⊢
  simp only [Playlist.pick_map]
  cases l.pick (atoi (strip data) - 1) with
  | none => rfl
  | some x =>
    simp only [Option.map_some, Option.bind_some, Prod.map, id, ← hf, hinsert, hremove]

/-- What a drop does does not depend on the rows in which the entries were shown. -/
theorem dndDrop_items (row : ℤ) (draglist : List Name) (files : Playlist Name) :
    Playlist.dndDrop id row draglist files =
      (Playlist.dndDrop Item.copy row draglist (items files)).map (List.map Item.name) := by
  have hdrop : ∀ l : Playlist Item, Playlist.dndDrop id row draglist (l.map Item.name) =
      (Playlist.dndDrop Item.copy row draglist l).map (List.map Item.name) := by
    intro l
    induction draglist generalizing row l with
    | nil => rfl
    | cons data draglist ih =>
      rw [Playlist.dndDrop, Playlist.dndDrop]
      split_ifs
      · exact ih row l
      · have hround : Playlist.dropOne id row data (l.map Item.name) =
            (Playlist.dropOne Item.copy row data l).map (Prod.map id (List.map Item.name)) :=
          dropOne_map Item.copy id Item.name (fun _ => rfl) row data l
        rw [hround]
        cases Playlist.dropOne Item.copy row data l with
        | none => rfl
        | some r => exact ih r.1 r.2
  rw [← hdrop, map_items]

/-- The list at `L` has entries with these names, which fit. -/
def Holds (h : Heap) (L : ListId) (files : Playlist Name) : Prop :=
  ∃ xs, WellFormed h L xs ∧ Linklist.names h xs = files ∧
    ∀ name ∈ files, name.length < maxEntryName - 1

variable {malloc : Heap → Addr × List UInt8} {h : Heap} {L : ListId}

/-- A round on the pointer structure is the one on the names. -/
theorem dropOne_rel (hmalloc : ∀ h : Heap, h.live (malloc h).1 = false) (hh : Holds h L files)
    (row : ℤ) (data : Name) :
    Option.Rel (fun r q => r.1 = q.1 ∧ Holds r.2 L q.2) (dropOne malloc L row data h)
      (Playlist.dropOne id row data files) := by
  obtain ⟨xs, hw, rfl, hfits⟩ := hh
  unfold dropOne Playlist.dropOne
  dsimp only
  generalize atoi (strip data) - 1 = numpos
  generalize (if numpos < row then row + 1 else row) = row
  generalize (if row < numpos then numpos + 1 else numpos) + 1 = pos
  have hnames : Playlist.pick (Linklist.names h xs) numpos =
      (xs.pick numpos).map fun a => cString (h.name a) := Playlist.pick_map ..
  rw [hw.pick, hnames]
  cases hpick : xs.pick numpos with
  | none => exact .none
  | some ent =>
    have hx : (malloc h).1 ∉ xs := by
      intro hmem
      have hlive := hw.live _ hmem
      rw [hmalloc] at hlive
      cases hlive
    have hent : cString (h.name ent) ∈ Linklist.names h xs := by
      obtain ⟨l, r, rfl, -⟩ := Playlist.exists_split_of_pick hpick
      simp [Linklist.names]
    have hnul : 0 ∉ cString (h.name ent) := zero_notMem_cString _
    rw [Option.map_some, Option.bind_some, Option.bind_some, Option.map_some]
    generalize cString (h.name ent) = name at hent hnul ⊢
    obtain ⟨h₁, hinsert, hinserted⟩ := Linklist.insert_edited
      (x := ⟨(malloc h).1, (malloc h).2, name⟩) hw hx row
    obtain ⟨-, hremoved⟩ := Linklist.remove_edited hinserted.wellFormed pos
    have hfresh : Linklist.Fresh h (.insert ⟨(malloc h).1, (malloc h).2, name⟩ row) := by
      intro y hy
      obtain rfl := Option.some.inj hy
      exact hmalloc h
    have hfit : Linklist.Fits (.insert ⟨(malloc h).1, (malloc h).2, name⟩ row) := by
      intro y hy
      obtain rfl := Option.some.inj hy
      exact ⟨hnul, hfits name hent⟩
    have hnames₁ := Linklist.names_edit hw hfresh hfit hinserted
    have hfresh₁ : Linklist.Fresh h₁ (.remove pos) := by
      intro y hy
      cases hy
    have hfit₁ : Linklist.Fits (.remove pos) := by
      intro y hy
      cases hy
    have hnames₂ := Linklist.names_edit hinserted.wellFormed hfresh₁ hfit₁ hremoved
    rw [hinsert]
    refine .some ⟨rfl, _, hremoved.wellFormed, hnames₂.trans ?_, ?_⟩
    · exact congrArg (fun l => (Playlist.remove l pos).1) hnames₁
    · intro name' hname'
      have hmem := (Playlist.remove_sublist _ pos).subset hname'
      rw [Playlist.insert_eq, List.mem_append, List.mem_cons] at hmem
      rcases hmem with hmem | rfl | hmem
      · exact hfits name' (List.mem_of_mem_take hmem)
      · exact hfits name' hent
      · exact hfits name' (List.mem_of_mem_drop hmem)

/-- `DND_drop` on the pointer structure is the one on the names. -/
theorem dndDrop_rel (hmalloc : ∀ h : Heap, h.live (malloc h).1 = false) (hh : Holds h L files)
    (row : ℤ) (draglist : List Name) :
    Option.Rel (fun h' files' => Holds h' L files') (dndDrop malloc L row draglist h)
      (Playlist.dndDrop id row draglist files) := by
  induction draglist generalizing row h files with
  | nil => exact .some hh
  | cons data draglist ih =>
    rw [dndDrop, Playlist.dndDrop]
    split_ifs
    · exact ih hh row
    · have hround := dropOne_rel hmalloc hh row data
      generalize dropOne malloc L row data h = r at hround ⊢
      generalize Playlist.dropOne id row data files = q at hround ⊢
      cases hround with
      | none => exact .none
      | some hr =>
        obtain ⟨hrow, hh'⟩ := hr
        rw [Option.bind_some, Option.bind_some, hrow]
        exact ih hh' _

/-! ### One round -/

/-- The entries of a playlist after one has been put in and one behind it taken out. -/
theorem getElem?_exchange (l : List α) {q d : ℕ} (x : α) (i : ℕ) (hq : q ≤ l.length)
    (hlt : q < d) : ((l.insertIdx q x).eraseIdx d)[i]? =
      if i < q then l[i]? else if i = q then some x else if i < d then l[i - 1]? else l[i]? := by
  rw [List.getElem?_eraseIdx]
  split_ifs <;> rw [List.getElem?_insertIdx] <;> grind

/-- Taking out the entry in front of the new one or the one behind it. -/
theorem exchange_comm (l : List α) {q : ℕ} (x : α) (hq : q < l.length) :
    (l.insertIdx (q + 1) x).eraseIdx q = (l.insertIdx q x).eraseIdx (q + 1) := by
  refine List.ext_getElem? fun i => ?_
  rw [List.getElem?_eraseIdx, List.getElem?_eraseIdx]
  split_ifs <;> rw [List.getElem?_insertIdx, List.getElem?_insertIdx] <;> grind

/-- The position at which a round for the text of a row puts the copy in, and the index at which it
then takes an entry out: in front of the copy for a move down, behind it for a move up. -/
def Round (c row r d : ℕ) : Prop :=
  c ≤ row ∧ r = row + 1 ∧ d = c - 1 ∨ c = row + 1 ∧ r = row ∧ d = row ∨
    row + 1 < c ∧ r = row ∧ d = c

/-- One round finds an entry, puts a copy in and takes an entry out. -/
theorem exists_of_dropOne {l l' : Playlist Item} {row c : ℕ} {row' : ℤ} (hc : c < 2 ^ 32)
    (h : Playlist.dropOne Item.copy row (positionText position c) l = some (row', l')) :
    ∃ (x : Item) (r d : ℕ), x.shown = none ∧ row' = r ∧ 2 ≤ c ∧
      l' = (l.insert x r).eraseIdx d ∧ Round c row r d := by
  have hnumber : atoi (strip (positionText position c)) = c := by
    rw [atoi_strip]
    omega
  unfold Playlist.dropOne at h
  dsimp only at h
  rw [hnumber] at h
  obtain ⟨y, hy, h⟩ := Option.bind_eq_some_iff.1 h
  rw [hy, Option.map_some] at h
  obtain ⟨hr, hl⟩ := Prod.mk.inj (Option.some.inj h)
  have h2 : 2 ≤ c := by
    by_contra hlt
    rw [Playlist.pick_eq_none_iff.2 (.inr (by omega))] at hy
    cases hy
  by_cases hle : c ≤ row
  · have hif : (c : ℤ) - 1 < row := by omega
    rw [if_pos hif] at hr hl
    rw [if_neg (by omega), Playlist.remove_eq_eraseIdx _ (by omega)] at hl
    refine ⟨y.copy, row + 1, c - 1, rfl, by omega, h2, ?_, .inl ⟨hle, rfl, rfl⟩⟩
    rw [← hl]
    congr 1
    omega
  · have hif : ¬ (c : ℤ) - 1 < row := by omega
    rw [if_neg hif] at hr hl
    by_cases heq : c = row + 1
    · rw [if_neg (by omega), Playlist.remove_eq_eraseIdx _ (by omega)] at hl
      refine ⟨y.copy, row, row, rfl, hr.symm, h2, ?_, .inr (.inl ⟨heq, rfl, rfl⟩)⟩
      rw [← hl]
      congr 1
      omega
    · rw [if_pos (by omega), Playlist.remove_eq_eraseIdx _ (by omega)] at hl
      refine ⟨y.copy, row, c, rfl, hr.symm, h2, ?_, .inr (.inr ⟨by omega, rfl, rfl⟩)⟩
      rw [← hl]
      congr 1
      omega

/-- A drop of one more row: one round, and the rest of the loop. -/
theorem exists_of_dndDrop {l l' : Playlist Item} {row c : ℕ} (hrow : 1 ≤ row) (hc : c < 2 ^ 32)
    (h : Playlist.dndDrop Item.copy row (texts position (c :: drag)) l = some l') :
    ∃ (x : Item) (r d : ℕ), x.shown = none ∧ 2 ≤ c ∧ Round c row r d ∧
      Playlist.dndDrop Item.copy r (texts position drag) ((l.insert x r).eraseIdx d) = some l' := by
  rw [texts, List.map_cons, Playlist.dndDrop, if_neg (by omega)] at h
  obtain ⟨⟨row', m⟩, hone, hrest⟩ := Option.bind_eq_some_iff.1 h
  obtain ⟨x, r, d, hx, rfl, h2, rfl, hround⟩ := exists_of_dropOne hc hone
  exact ⟨x, r, d, hx, h2, hround, hrest⟩

/-- The row to move to stays, or is the next one for a move down. -/
theorem Round.le {c row r d : ℕ} (h : Round c row r d) :
    row ≤ r ∧ (r = row ∨ c ≤ row ∧ r = row + 1) := by
  unfold Round at h
  omega

/-! ### The entries of other rows -/

/-- The rows whose entries are still there. -/
def remaining (l : Playlist Item) : List ℕ := l.filterMap Item.shown

theorem remaining_items (files : Playlist Name) :
    remaining (items files) = List.range files.length := by
  have hshown : Item.shown ∘ (fun p : Name × ℕ => Item.mk p.1 (some p.2)) = some ∘ Prod.snd := rfl
  rw [remaining, items, List.mapIdx_eq_zipIdx_map, List.filterMap_map, hshown,
    List.filterMap_eq_map, List.zipIdx_map_snd, List.range_eq_range']

/-- A copy was not shown. -/
theorem remaining_insert (l : Playlist Item) {x : Item} (hx : x.shown = none) (pos : ℤ) :
    remaining (l.insert x pos) = remaining l := by
  rw [Playlist.insert_eq, remaining, List.filterMap_append, List.filterMap_cons_none hx,
    ← List.filterMap_append, List.take_append_drop, remaining]

/-- A drop does not bring an entry back. -/
theorem remaining_dndDrop {l l' : Playlist Item} {row : ℕ} (hrow : 1 ≤ row)
    (hdrag : ∀ c ∈ drag, c < 2 ^ 32)
    (h : Playlist.dndDrop Item.copy row (texts position drag) l = some l') :
    List.Sublist (remaining l') (remaining l) := by
  induction drag generalizing row l with
  | nil =>
    obtain rfl := Option.some.inj h
    exact List.Sublist.refl _
  | cons c drag ih =>
    obtain ⟨x, r, d, hx, -, hround, hrest⟩ :=
      exists_of_dndDrop hrow (hdrag c List.mem_cons_self) h
    have hsub := ih (hrow.trans hround.le.1) (fun c hc => hdrag c (List.mem_cons_of_mem _ hc)) hrest
    have herase := (List.eraseIdx_sublist (l.insert x r) d).filterMap Item.shown
    rw [← remaining, ← remaining, remaining_insert l hx] at herase
    exact hsub.trans herase

/-- An entry that is taken out is gone. -/
theorem not_mem_remaining {l : Playlist Item} {i d : ℕ} {y : Item} (hnodup : (remaining l).Nodup)
    (hy : l[d]? = some y) (hi : y.shown = some i) : i ∉ remaining (l.eraseIdx d) := by
  obtain ⟨hd, rfl⟩ := List.getElem?_eq_some_iff.1 hy
  have hsplit : l.take d ++ l[d] :: l.drop (d + 1) = l := by
    rw [List.getElem_cons_drop, List.take_append_drop]
  rw [← hsplit, remaining, List.filterMap_append, List.filterMap_cons_some hi] at hnodup
  rw [List.eraseIdx_eq_take_drop_succ, remaining, List.filterMap_append]
  exact (List.nodup_cons.1 (List.nodup_middle.1 hnodup)).1

/-- The entries in front of a slot. -/
theorem getElem?_insert {l : Playlist Item} {i r : ℕ} (x : Item) (hi : i < l.length)
    (hr : i + 1 < r) : i < l.slot r ∧ (l.insert x r)[i]? = l[i]? := by
  have hslot : i < l.slot r := by
    unfold Playlist.slot
    split_ifs <;> omega
  rw [Playlist.insert_eq_insertIdx, List.getElem?_insertIdx_of_lt hslot]
  exact ⟨hslot, rfl⟩

/-! ### Dropping below the first of the dragged rows -/

/-- The entries in front of the first dragged one stay in their places until it is its turn; then
the one above it is removed. -/
theorem not_mem_of_below {l l' : Playlist Item} {row m : ℕ} (hrow : m < row) (hm : m ∈ drag)
    (hmin : ∀ c ∈ drag, m ≤ c) (hdrag : ∀ c ∈ drag, c < 2 ^ 32) (hnodup : (remaining l).Nodup)
    (hfront : ∀ i < m, ∃ y, l[i]? = some y ∧ y.shown = some i)
    (h : Playlist.dndDrop Item.copy row (texts position drag) l = some l') :
    1 ≤ m ∧ m - 1 ∉ remaining l' := by
  induction drag generalizing row l with
  | nil => cases hm
  | cons c drag ih =>
    obtain ⟨x, r, d, hx, h2, hround, hrest⟩ :=
      exists_of_dndDrop (by omega) (hdrag c List.mem_cons_self) h
    unfold Round at hround
    have hdrag' : ∀ c ∈ drag, c < 2 ^ 32 := fun c hc => hdrag c (List.mem_cons_of_mem _ hc)
    have hc := hmin c List.mem_cons_self
    rw [← remaining_insert l hx r] at hnodup
    rcases Nat.eq_or_lt_of_le hc with rfl | hlt
    · obtain ⟨y, hy, hshown⟩ := hfront (m - 1) (by omega)
      obtain ⟨-, hinsert⟩ :=
        getElem?_insert (r := r) x (List.getElem?_eq_some_iff.1 hy).1 (by omega)
      obtain rfl : d = m - 1 := by omega
      have hgone := not_mem_remaining hnodup (hinsert.trans hy) hshown
      have hsub := remaining_dndDrop (by omega) hdrag' hrest
      exact ⟨by omega, fun hmem => hgone (hsub.subset hmem)⟩
    · have hm' : m ∈ drag := (List.mem_cons.1 hm).resolve_left (by omega)
      refine ih (by omega) hm' (fun c hc => hmin c (List.mem_cons_of_mem _ hc)) hdrag' ?_ ?_ hrest
      · exact hnodup.sublist ((List.eraseIdx_sublist (l.insert x r) d).filterMap Item.shown)
      · intro i hi
        obtain ⟨y, hy, hshown⟩ := hfront i hi
        obtain ⟨-, hinsert⟩ :=
          getElem?_insert (r := r) x (List.getElem?_eq_some_iff.1 hy).1 (by omega)
        refine ⟨y, ?_, hshown⟩
        rw [List.getElem?_eraseIdx_of_lt (by omega), hinsert, hy]

/-! ### Dropping at the first of the dragged rows or above it -/

/-- From the row `k` on there are some copies and behind them its own entry, and the last dragged
entry is still further down, in its own row. -/
structure Astride (k last row copies : ℕ) (l : Playlist Item) : Prop where
  nodup : (remaining l).Nodup
  copied : ∀ i, k ≤ i → i < k + copies → ∃ x, l[i]? = some x ∧ x.shown = none
  other : ∃ x, l[k + copies]? = some x ∧ x.shown = some k
  dragged : ∃ x, l[last]? = some x ∧ x.shown = some last
  lt_last : k + copies < last
  row_mem : k < row ∧ row ≤ k + copies + 1

variable {k last row copies d : ℕ} {l l' : Playlist Item} {x : Item}

theorem insert_of_lt {row : ℕ} (x : Item) (hrow : row < l.length) :
    l.insert x row = l.insertIdx (row - 1) x := by
  rw [Playlist.insert_eq_insertIdx, Playlist.slot, if_neg (by omega)]
  congr 1
  omega

/-- When a copy is put in front of the row and an entry taken out behind it, the entry of the row
`k` goes or the copies are still in front of it. -/
theorem Astride.exchange (ha : Astride k last row copies l) (hx : x.shown = none) (hd : row ≤ d)
    (hlast : d ≤ last) :
    k ∉ remaining ((l.insert x row).eraseIdx d) ∨
      ∃ copies', copies ≤ copies' ∧ 1 ≤ copies' ∧
        Astride k last row copies' ((l.insert x row).eraseIdx d) := by
  obtain ⟨y, hy, hyk⟩ := ha.other
  obtain ⟨e, he, hel⟩ := ha.dragged
  obtain ⟨hlt, hrow⟩ := ha.row_mem
  have hlen := (List.getElem?_eq_some_iff.1 he).1
  have hnodup := ha.nodup
  have hltlast := ha.lt_last
  rw [← remaining_insert l hx row] at hnodup
  have hnodup' := hnodup.sublist ((List.eraseIdx_sublist (l.insert x row) d).filterMap Item.shown)
  rw [← remaining] at hnodup'
  rw [insert_of_lt x (by omega)] at hnodup hnodup' ⊢
  have hget := fun i => getElem?_exchange l x i (q := row - 1) (d := d) (by omega) (by omega)
  have hdragged : ∃ x', ((l.insertIdx (row - 1) x).eraseIdx d)[last]? = some x' ∧
      x'.shown = some last := by
    refine ⟨e, ?_, hel⟩
    rw [hget, if_neg (by omega), if_neg (by omega), if_neg (by omega), he]
  rcases Nat.lt_trichotomy d (k + copies + 1) with hbefore | rfl | hbehind
  · -- one of the copies is taken out
    refine .inr ⟨copies, le_rfl, by omega, hnodup', ?_, ⟨y, ?_, hyk⟩, hdragged, hltlast, hlt, hrow⟩
    · intro i hki hi
      rw [hget]
      split_ifs with h1 h2 h3
      · exact ha.copied i hki hi
      · exact ⟨x, rfl, hx⟩
      · exact ha.copied (i - 1) (by omega) (by omega)
      · exact ha.copied i hki hi
    · rw [hget, if_neg (by omega), if_neg (by omega), if_neg (by omega), hy]
  · -- the entry between is taken out
    left
    refine not_mem_remaining hnodup (y := y) ?_ hyk
    rw [List.getElem?_insertIdx_of_gt (by omega), Nat.add_sub_cancel, hy]
  · -- an entry further down is taken out
    refine .inr ⟨copies + 1, by omega, by omega, hnodup', ?_, ⟨y, ?_, hyk⟩, hdragged, by omega, hlt,
      by omega⟩
    · intro i hki hi
      rw [hget]
      split_ifs with h1 h2 h3
      · exact ha.copied i hki (by omega)
      · exact ⟨x, rfl, hx⟩
      · exact ha.copied (i - 1) (by omega) (by omega)
      · omega
    · rw [hget, if_neg (by omega), if_neg (by omega), if_pos (by omega), Nat.add_succ_sub_one, hy]

/-- One round for a row between the one to move to and the last one dragged. -/
theorem Astride.round {c r : ℕ} (ha : Astride k last row copies l) (hx : x.shown = none)
    (hc : row ≤ c) (hlast : c ≤ last) (hround : Round c row r d) :
    k ∉ remaining ((l.insert x r).eraseIdx d) ∨
      ∃ copies', copies ≤ copies' ∧ 1 ≤ copies' ∧
        Astride k last r copies' ((l.insert x r).eraseIdx d) := by
  obtain ⟨hlt, hrow⟩ := ha.row_mem
  rcases hround with ⟨hle, rfl, rfl⟩ | ⟨rfl, rfl, rfl⟩ | ⟨-, rfl, rfl⟩
  · obtain rfl : row = c := Nat.le_antisymm hc hle
    obtain ⟨y, hy, hyk⟩ := ha.other
    have hltlast := ha.lt_last
    have hlen := (List.getElem?_eq_some_iff.1 ha.dragged.choose_spec.1).1
    rcases Nat.eq_or_lt_of_le hrow with rfl | hmore
    · left
      have hnodup := ha.nodup
      rw [← remaining_insert l hx (k + copies + 1 + 1 : ℕ)] at hnodup
      refine not_mem_remaining hnodup (y := y) ?_ hyk
      rw [Nat.add_sub_cancel, (getElem?_insert x (by omega) (by omega)).2, hy]
    · have hswap : (l.insert x (row + 1 : ℕ)).eraseIdx (row - 1) =
          (l.insert x row).eraseIdx row := by
        have hcomm := exchange_comm l x (q := row - 1) (by omega)
        rw [Nat.sub_add_cancel (by omega)] at hcomm
        rw [insert_of_lt x (by omega), insert_of_lt x (by omega), Nat.add_sub_cancel, hcomm]
      rw [hswap]
      rcases ha.exchange hx le_rfl hlast with hgone | ⟨copies', hcopies, h1, ha'⟩
      · exact .inl hgone
      · exact .inr ⟨copies', hcopies, h1, { ha' with row_mem := by omega }⟩
  · exact ha.exchange hx le_rfl (by omega)
  · exact ha.exchange hx hc hlast

/-- The rounds of a drop. -/
theorem Astride.dndDrop (ha : Astride k last row copies l) (hcs : ∀ c ∈ drag, row ≤ c ∧ c ≤ last)
    (hdrag : ∀ c ∈ drag, c < 2 ^ 32) (hnodup : drag.Nodup)
    (h : Playlist.dndDrop Item.copy row (texts position drag) l = some l') :
    k ∉ remaining l' ∨ ∃ row' copies', copies ≤ copies' ∧ (drag ≠ [] → 1 ≤ copies') ∧
      Astride k last row' copies' l' := by
  induction drag generalizing row copies l with
  | nil =>
    obtain rfl := Option.some.inj h
    exact .inr ⟨row, copies, le_rfl, fun hne => (hne rfl).elim, ha⟩
  | cons c drag ih =>
    have hrow := ha.row_mem.1
    obtain ⟨hc, hlast⟩ := hcs c List.mem_cons_self
    obtain ⟨hfirst, hnodup⟩ := List.nodup_cons.1 hnodup
    have hdrag' : ∀ c ∈ drag, c < 2 ^ 32 := fun c hc => hdrag c (List.mem_cons_of_mem _ hc)
    obtain ⟨x, r, d, hx, -, hround, hrest⟩ :=
      exists_of_dndDrop (by omega) (hdrag c List.mem_cons_self) h
    have hle := hround.le
    rcases ha.round hx hc hlast hround with hgone | ⟨copies', hcopies, h1, ha'⟩
    · have hsub := remaining_dndDrop (by omega) hdrag' hrest
      exact .inl fun hmem => hgone (hsub.subset hmem)
    · have hcs' : ∀ c' ∈ drag, r ≤ c' ∧ c' ≤ last := by
        intro c' hc'
        have hne : c' ≠ c := fun heq => hfirst (heq ▸ hc')
        have hc'' := hcs c' (List.mem_cons_of_mem _ hc')
        omega
      rcases ih ha' hcs' hdrag' hnodup hrest with hgone | ⟨row', copies'', hle, -, ha''⟩
      · exact .inl hgone
      · exact .inr ⟨row', copies'', hcopies.trans hle, fun _ => h1.trans hle, ha''⟩

/-- The entries of the other rows. -/
theorem mem_kept_items {y : Item} :
    y ∈ kept drag (items files) ↔
      ∃ i, (items files)[i]? = some y ∧ y.shown = some i ∧ i ∉ drag := by
  unfold kept items
  simp only [List.mem_map, List.mem_filter, List.mem_zipIdx_iff_getElem?, List.getElem?_mapIdx,
    decide_eq_true_eq, Prod.exists, Option.map_eq_some_iff]
  grind

/-- No entry of another row is missing after a drop. -/
theorem not_dropped_of_not_mem {slot : ℕ} (hlt : k < files.length) (hk : k ∉ drag)
    (hgone : k ∉ remaining l) : ¬ Dropped files drag slot l := by
  rintro ⟨dragged, -, rfl⟩
  have hitem : (items files)[k]? = some ⟨files[k], some k⟩ := by
    simp [items, hlt]
  have hmem : (⟨files[k], some k⟩ : Item) ∈ kept drag (items files) :=
    mem_kept_items.2 ⟨k, hitem, rfl, hk⟩
  rw [← List.take_append_drop slot (kept drag (items files)), List.mem_append] at hmem
  refine hgone (List.mem_filterMap.2 ⟨⟨files[k], some k⟩, ?_, rfl⟩)
  rw [List.mem_append, List.mem_append]
  tauto

/-- An entry of another row between the copies and the last dragged one stands among the dragged. -/
theorem not_dropped_of_astride {slot : ℕ} (ha : Astride k last row copies l) (h1 : 1 ≤ copies)
    (hk : k ∉ drag) (hlast : last ∈ drag) : ¬ Dropped files drag slot l := by
  rintro ⟨dragged, hdragged, rfl⟩
  obtain ⟨y, hy, hyk⟩ := ha.other
  obtain ⟨x, hx, hxnone⟩ := ha.copied k le_rfl (by omega)
  obtain ⟨e, he, hel⟩ := ha.dragged
  have hltlast := ha.lt_last
  have hbehind : ((kept drag (items files)).take slot).length ≤ k := by
    by_contra hlt
    rw [List.append_assoc, List.getElem?_append_left (by omega)] at hx
    obtain ⟨i, -, hi, -⟩ := mem_kept_items.1 (List.mem_of_mem_take (List.mem_of_getElem? hx))
    rw [hxnone] at hi
    cases hi
  have hfront : last < ((kept drag (items files)).take slot ++ dragged).length := by
    by_contra hle
    rw [List.getElem?_append_right (by omega)] at he
    obtain ⟨i, -, hi, hout⟩ := mem_kept_items.1 (List.mem_of_mem_drop (List.mem_of_getElem? he))
    rw [hel] at hi
    exact hout (Option.some.inj hi ▸ hlast)
  rw [List.getElem?_append_left (by omega), List.getElem?_append_right (by omega)] at hy
  obtain ⟨c, hc, -, hshown⟩ : ∃ c ∈ drag, Stands files c y := by
    obtain ⟨hi, rfl⟩ := List.getElem?_eq_some_iff.1 hy
    exact ⟨_, List.getElem_mem (hdragged.length_eq ▸ hi), hdragged.get _ hi⟩
  rcases hshown with hnone | hsome
  · rw [hyk] at hnone
    cases hnone
  · rw [hyk] at hsome
    exact hk (Option.some.inj hsome ▸ hc)

/-! ### The drop -/

/-- The texts that are dragged from the rows as `refresh` shows them. -/
theorem draglist_rowsOf (hdrag : ∀ c ∈ drag, c < files.length) :
    drag.filterMap (fun c => (rowsOf position 0 files)[c]?.map Row.position) =
      texts position drag := by
  rw [texts, ← List.filterMap_eq_map]
  refine List.filterMap_congr fun c hc => ?_
  simp [rowsOf, hdrag c hc]

theorem shown_items {i : ℕ} (hi : i < files.length) :
    ∃ y, (items files)[i]? = some y ∧ y.shown = some i :=
  ⟨⟨files[i], some i⟩, by simp [items, hi], rfl⟩

variable {h : Heap} {L : ListId} {xs : Playlist Addr} {fuel : ℕ}

open Linklist (names threeEntries)

/-- What a drop leaves of the entries is not what was to be moved. -/
theorem not_dropped_of_dndDrop (hint : files.length < 2 ^ 31) (hrow : 1 ≤ row) (hne : drag ≠ [])
    (hnodup : drag.Nodup) (hdrag : ∀ c ∈ drag, c < files.length)
    (hl : Playlist.dndDrop Item.copy row (texts position drag) (items files) = some l) (slot : ℕ) :
    ¬ Dropped files drag slot l := by
  intro hdropped
  have hsmall : ∀ c ∈ drag, c < 2 ^ 32 := fun c hc => by
    have hc' := hdrag c hc
    omega
  have hfresh : (remaining (items files)).Nodup := by
    rw [remaining_items]
    exact List.nodup_range
  obtain ⟨first, hfirst, hmin⟩ : ∃ m ∈ drag, ∀ c ∈ drag, m ≤ c :=
    ⟨drag.min hne, List.min_mem hne, fun c hc => List.min_le_of_mem hc⟩
  obtain ⟨last, hlast, hmax⟩ : ∃ m ∈ drag, ∀ c ∈ drag, c ≤ m :=
    ⟨drag.max hne, List.max_mem hne, fun c hc => List.le_max_of_mem hc⟩
  have hfirst' := hdrag first hfirst
  rcases Nat.lt_or_ge first row with hbelow | habove
  · obtain ⟨h1, hgone⟩ := not_mem_of_below hbelow hfirst hmin hsmall hfresh
      (fun i hi => shown_items (hi.trans hfirst')) hl
    refine not_dropped_of_not_mem (by omega) ?_ hgone hdropped
    intro hmem
    have hle := hmin _ hmem
    omega
  · have hout : row - 1 ∉ drag := by
      intro hmem
      have hle := hmin _ hmem
      omega
    have hle := hmin last hlast
    have ha : Astride (row - 1) last row 0 (items files) := {
      nodup := hfresh
      copied := fun i hi hlt => by omega
      other := shown_items (by omega)
      dragged := shown_items (hdrag last hlast)
      lt_last := by omega
      row_mem := by omega }
    rcases ha.dndDrop (fun c hc => ⟨habove.trans (hmin c hc), hmax c hc⟩) hsmall hnodup hl with
      hgone | ⟨row', copies, -, h1, ha'⟩
    · exact not_dropped_of_not_mem (by omega) hout hgone hdropped
    · exact not_dropped_of_astride ha' (h1 hne) hout hlast hdropped

/-- Where the handler follows no NULL pointer, it leaves on the pointer structure the names of
entries of which the dragged ones are not together or the others not in their order. -/
theorem dndDrop_not_dropped (hmalloc : ∀ h : Heap, h.live (malloc h).1 = false)
    (hh : Holds h L files) (hint : files.length < 2 ^ 31) (hrow : 1 ≤ row) (hne : drag ≠ [])
    (hnodup : drag.Nodup) (hdrag : ∀ c ∈ drag, c < files.length) {h' : Heap}
    (hdrop : dndDrop malloc L row (texts position drag) h = some h') :
    ∃ l, Playlist.dndDrop Item.copy row (texts position drag) (items files) = some l ∧
      Holds h' L (l.map Item.name) ∧ ∀ slot, ¬ Dropped files drag slot l := by
  have hrel := dndDrop_rel hmalloc hh row (texts position drag)
  rw [hdrop, dndDrop_items] at hrel
  generalize hl : Playlist.dndDrop Item.copy row (texts position drag) (items files) = o at hrel
  cases o with
  | none => cases hrel
  | some l =>
    cases hrel with
    | some hholds =>
      exact ⟨l, rfl, hholds, not_dropped_of_dndDrop hint hrow hne hnodup hdrag hl⟩

/-- For every playlist as `refresh` shows it, all rows that are dragged and every row but the first
to which they are moved, a drop looks up an entry that is missing, or does not leave the dragged
entries together and the others in their order. -/
theorem not_dropped (hw : WellFormed h L xs) (hfuel : xs.length < fuel)
    (hint : xs.length < 2 ^ 31) (hrow : 1 ≤ row) (hne : drag ≠ []) (hnodup : drag.Nodup)
    (hdrag : ∀ c ∈ drag, c < xs.length) :
    ∃ rows, refresh L position fuel h = some rows ∧
      ¬ ∃ slot l, Playlist.dndDrop Item.copy row (drag.filterMap fun c => rows[c]?.map Row.position)
        (items (names h xs)) = some l ∧ Dropped (names h xs) drag slot l := by
  have hlength : (names h xs).length = xs.length := by simp [names]
  refine ⟨_, refresh_eq hw hfuel, ?_⟩
  rintro ⟨slot, l, hl, hdropped⟩
  rw [draglist_rowsOf (by rwa [hlength])] at hl
  rw [← hlength] at hdrag hint
  exact not_dropped_of_dndDrop hint hrow hne hnodup hdrag hl slot hdropped

/-- The third of three rows is moved to the second. -/
theorem not_dropped_third : ∃ rows, refresh 0 1 4 threeEntries = some rows ∧
    ¬ ∃ slot l, Playlist.dndDrop Item.copy 1 ([2].filterMap fun c => rows[c]?.map Row.position)
      (items (names threeEntries [1, 2, 3])) = some l ∧
      Dropped (names threeEntries [1, 2, 3]) [2] slot l := by
  have hw : WellFormed threeEntries 0 [1, 2, 3] := by decide +kernel
  exact not_dropped hw (by decide) (by decide) le_rfl (by decide) (by decide) (by decide)

/-- Where the second of three rows is moved to the third, the entry above it is looked up for its
name and there is none. -/
theorem not_dropped_missing : ¬ ∀ (h : Heap) (L : ListId) (xs : Playlist Addr) (position : ℤ)
    (fuel : ℕ) (rows : List Row) (row : ℕ) (drag : List ℕ), WellFormed h L xs → xs.length < fuel →
    xs.length < 2 ^ 31 → refresh L position fuel h = some rows → 1 ≤ row → row < xs.length →
    drag ≠ [] → drag.Nodup → (∀ c ∈ drag, c < xs.length) →
    ∃ slot l, Playlist.dndDrop Item.copy row (drag.filterMap fun c => rows[c]?.map Row.position)
      (items (names h xs)) = some l ∧ Dropped (names h xs) drag slot l := by
  intro hall
  have hw : WellFormed threeEntries 0 [1, 2, 3] := by decide +kernel
  obtain ⟨slot, l, hl, -⟩ := hall threeEntries 0 [1, 2, 3] 1 4 _ 2 [1] hw (by decide) (by decide)
    refresh_threeEntries (by decide) (by decide) (by decide) (by decide) (by decide)
  have hmissing : Playlist.dndDrop Item.copy 2 [bytesOf "  1"]
      (items (names threeEntries [1, 2, 3])) = none := by decide +kernel
  exact Option.some_ne_none l (hl.symm.trans hmissing)

end Gui

end IvySync
