import IvySync.Linklist.WellFormed

/-!
# Inserting at a position

The comment of `Linklist::insert` says where the new entry is to stand: at the position given, where
the entry that has occupied it slides down, or at one of the ends when the position is out of
bounds.  `Inserted` says what this makes of the list.  The test for the end of the list comes one
position too early, so that an entry for the position of the last one goes behind it:
`inserted_iff`.
-/

namespace IvySync

namespace Playlist

variable {α : Type}

/-- The position that the comment of `insert` gives to a new entry, in a list of `n` entries. -/
def destination (n : ℕ) (pos : ℤ) : ℤ := if pos < 1 then 1 else if n < pos then n + 1 else pos

/-- `ys` is `xs` with the new entry at a position: the entries from there on have slid down, those
in front have stayed. -/
structure Slid (xs ys : Playlist α) (x : α) (pos : ℤ) : Prop where
  placed : ys.pick pos = some x
  before : ∀ i < pos, ys.pick i = xs.pick i
  after : ∀ i, pos ≤ i → ys.pick (i + 1) = xs.pick i

/-- An entry between two parts stands behind the first one. -/
theorem slid_middle (l r : Playlist α) (x : α) : Slid (l ++ r) (l ++ x :: r) x (l.length + 1) where
  placed := pick_append_cons l r x
  before i hi := by
    rw [pick_append_left (by omega), pick_append_left (by omega)]
  after i hi := by
    rw [pick_append_right (by omega), pick_append_right (by omega), pick_cons _ (by omega)]
    congr 1
    omega

end Playlist

namespace Linklist

variable {h : Heap} {L : ListId} {e : Addr} {xs : Playlist Addr}

/-- The list at `L`, which was made of the entries `xs`, has the entry `e` at a position, and the
others around it as before. -/
def Inserted (h' : Heap) (L : ListId) (e : Addr) (xs : Playlist Addr) (pos : ℤ) : Prop :=
  ∃ ys : Playlist Addr, WellFormed h' L ys ∧ xs.Slid ys e pos

/-- `insert` leaves the entry behind those that stay in front. -/
theorem insert_inserted (hw : WellFormed h L xs) (hlist : h.list e = none)
    (hlive : h.live e = true) (pos : ℤ) :
    ∃ h', insert L e h pos = some h' ∧
      WellFormed h' L (xs.insert e pos) ∧ xs.Slid (xs.insert e pos) e (xs.slot pos + 1) := by
  have he : e ∉ xs := by
    intro he
    rw [hw.owner e he] at hlist
    cases hlist
  have hsplit : xs.take (xs.slot pos) ++ xs.drop (xs.slot pos) = xs := List.take_append_drop ..
  obtain ⟨h', hinsert, hs⟩ := hw.exists_insert_spliced hlist pos
  rw [Playlist.insert_eq]
  refine ⟨h', hinsert, ?_, ?_⟩
  · rw [← hsplit] at hw he
    exact hw.splice he hlive hs
  · have hslid := Playlist.slid_middle (xs.take (xs.slot pos)) (xs.drop (xs.slot pos)) e
    rwa [hsplit, List.length_take_of_le (xs.slot_le pos)] at hslid

/-- For every well-formed list, every entry in no list and every position, `insert` puts the entry
where its comment says, unless the position is that of the last entry. -/
theorem inserted_iff (hw : WellFormed h L xs) (hlist : h.list e = none) (hlive : h.live e = true)
    (pos : ℤ) :
    (∃ h', insert L e h pos = some h' ∧
        Inserted h' L e xs (Playlist.destination xs.length pos)) ↔
      ¬ (1 ≤ xs.length ∧ pos = xs.length) := by
  obtain ⟨h', hinsert, hw', hslid⟩ := insert_inserted hw hlist hlive pos
  have hplace : Playlist.destination xs.length pos = xs.slot pos + 1 ↔
      ¬ (1 ≤ xs.length ∧ pos = xs.length) := by
    unfold Playlist.destination Playlist.slot
    split_ifs <;> omega
  rw [← hplace]
  constructor
  · rintro ⟨h'', hinsert', ys, hys, hslid'⟩
    obtain rfl := Option.some.inj (hinsert.symm.trans hinsert')
    obtain rfl := hw'.forward.unique hys.forward
    exact Playlist.pick_inj hw'.nodup hslid'.placed hslid.placed
  · intro heq
    exact ⟨h', hinsert, _, hw', heq ▸ hslid⟩

/-- A list of the entries 1 and 2, and the entry 3 in no list. -/
def twoAndOne : Heap :=
  let h := Entry.new 3 (Entry.new 2 (Entry.new 1 (new 0 unused) []) []) []
  append 0 2 (append 0 1 h)

/-- At the first position the two entries slide down. -/
theorem inserted_first :
    ∃ h', insert 0 3 twoAndOne 1 = some h' ∧ Inserted h' 0 3 [1, 2] 1 := by
  have hw : WellFormed twoAndOne 0 [1, 2] := by decide +kernel
  exact (inserted_iff hw rfl rfl 1).mpr (by decide)

/-- At the second position, which is occupied, the new entry ends up third. -/
theorem not_inserted_second :
    ¬ ∀ (h : Heap) (L : ListId) (e : Addr) (xs : Playlist Addr) (pos : ℤ),
      WellFormed h L xs → h.list e = none → h.live e = true →
      ∃ h', insert L e h pos = some h' ∧
        Inserted h' L e xs (Playlist.destination xs.length pos) := by
  intro hall
  have hw : WellFormed twoAndOne 0 [1, 2] := by decide +kernel
  obtain ⟨h', hinsert, ys, hys, hslid⟩ := hall twoAndOne 0 3 _ 2 hw rfl rfl
  have hend : ∃ h', insert 0 3 twoAndOne 2 = some h' ∧ WellFormed h' 0 [1, 2, 3] :=
    ⟨_, rfl, by decide +kernel⟩
  obtain ⟨h'', hinsert', hw'⟩ := hend
  obtain rfl := Option.some.inj (hinsert.symm.trans hinsert')
  obtain rfl := hys.forward.unique hw'.forward
  exact absurd hslid.placed (by decide)

end Linklist

end IvySync
