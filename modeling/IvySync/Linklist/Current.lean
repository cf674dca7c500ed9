import IvySync.Linklist.Exchange
import IvySync.Linklist.Select
import IvySync.Saved.Roundtrip

/-!
# The current movie while the playlist is edited

The decoder remembers the current movie as a position.  An edit behind the current entry leaves it
at its position, and `update` then goes on to the entry that follows it.  An edit in front of it
moves it, and the position does not follow: `keeps_iff`.
-/

namespace IvySync

namespace Playlist

variable {α : Type}

variable {l r : Playlist α} {x : α} {position : ℤ}

/-- An entry keeps its position exactly if the new one is put in behind it. -/
theorem pick_insert_iff (hnodup : (l ++ x :: r).Nodup) (h1 : 1 ≤ position)
    (h2 : position ≤ (l ++ r).length) :
    Playlist.pick (l ++ x :: r) position = Playlist.pick (l ++ r) position ↔
      position ≤ l.length := by
  obtain ⟨hx, hnodup⟩ := List.nodup_cons.mp (List.nodup_middle.mp hnodup)
  obtain ⟨e, he⟩ := exists_pick h1 h2
  rw [pick_middle]
  refine ⟨fun hkept => ?_, fun hle => if_pos hle⟩
  by_contra hlt
  rw [if_neg hlt, he] at hkept
  split_ifs at hkept with hhere
  · obtain rfl := Option.some.inj hkept
    obtain ⟨before, after, hsplit, -⟩ := exists_split_of_pick he
    exact hx (by simp [hsplit])
  · have heq := pick_inj hnodup hkept he
    omega

/-- An entry keeps its position exactly if the one that is taken out is behind it. -/
theorem pick_remove_iff (hnodup : (l ++ x :: r).Nodup) (h1 : 1 ≤ position)
    (h2 : position ≤ (l ++ x :: r).length) :
    Playlist.pick (l ++ r) position = Playlist.pick (l ++ x :: r) position ↔
      position ≤ l.length := by
  refine ⟨fun hkept => ?_, fun hle => by rw [pick_middle, if_pos hle]⟩
  by_contra hlt
  obtain ⟨e, he⟩ := exists_pick h1 h2
  have hmoved := pick_middle l r x (position + 1)
  rw [if_neg (by omega), if_neg (by omega), add_sub_cancel_right, hkept, he] at hmoved
  have heq := pick_inj hnodup hmoved he
  omega

end Playlist

namespace Linklist

variable {h h' : Heap} {L : ListId} {xs ys l r : Playlist Addr} {e : Addr} {position : ℤ}
  {a : Playlist.Edit Arrival}

/-- The entry behind another one, and the first one behind the last. -/
def following (xs : Playlist Addr) (e : Addr) : Option Addr :=
  (xs.dropWhile (· ≠ e)).tail.head?.or xs.head?

theorem following_eq (he : e ∉ l) :
    following (l ++ e :: r) e = r.head?.or (l ++ e :: r).head? := by
  unfold following
  rw [Text.dropWhile_line he, List.tail_cons]

/-- After the edit the current entry is where it was, and in the mode `CONT` the next update moves
on to the entry behind it. -/
structure Keeps (h h' : Heap) (L : ListId) (ys : Playlist Addr) (position : ℤ)
    (a : Playlist.Edit Arrival) : Prop where
  current : Linklist.pick L h' position = Linklist.pick L h position
  next : ∀ (d : Decoder) (e : Addr), d.playmode = .cont → d.position = position →
    (d.apply (request a)).playlist = names h' ys → Linklist.pick L h position = some e →
    Linklist.pick L h' (d.apply (request a)).update.position = following ys e

/-- The edit is behind the current entry. -/
def Behind (length position : ℤ) : Playlist.Edit Arrival → Prop
  | .append _ => True
  | .prepend _ => False
  | .insert _ pos => length ≤ pos ∨ position < pos
  | .remove pos => position < pos ∨ pos < 1
  | .empty => False

instance (length position : ℤ) : DecidablePred (Behind length position) := fun a =>
  match a with
  | .append _ => inferInstanceAs (Decidable True)
  | .prepend _ => inferInstanceAs (Decidable False)
  | .insert _ pos => inferInstanceAs (Decidable (length ≤ pos ∨ position < pos))
  | .remove pos => inferInstanceAs (Decidable (position < pos ∨ pos < 1))
  | .empty => inferInstanceAs (Decidable False)

/-- An edit of one entry leaves the position and the mode alone. -/
theorem apply_request_position (d : Decoder) (hempty : a ≠ .empty) :
    (d.apply (request a)).position = d.position ∧
      (d.apply (request a)).playmode = d.playmode := by
  cases a with
  | empty => exact (hempty rfl).elim
  | _ => exact ⟨rfl, rfl⟩

/-- Where the current entry is found again, the next update moves on to the one behind it. -/
theorem keeps_of_current (hw' : WellFormed h' L ys) (h1 : 1 ≤ position) (hempty : a ≠ .empty)
    (hcurrent : Linklist.pick L h' position = Linklist.pick L h position) :
    Keeps h h' L ys position a where
  current := hcurrent
  next d e hmode hposition hplaylist he := by
    obtain ⟨hposition', hmode'⟩ := apply_request_position d hempty
    rw [hposition] at hposition'
    rw [hmode] at hmode'
    generalize d.apply (request a) = d at hposition' hmode' hplaylist ⊢
    rw [← hcurrent, hw'.pick] at he
    obtain ⟨l, r, rfl, hpos⟩ := Playlist.exists_split_of_pick he
    have hlength : d.playlist.length = l.length + (r.length + 1) := by
      simp [hplaylist, names]
    rw [following_eq hw'.not_mem_front, hw'.pick]
    unfold Decoder.update
    rw [if_neg (by omega), hmode']
    dsimp only
    cases r with
    | nil =>
      rw [if_pos (by rw [hlength, List.length_nil]; omega)]
      exact Playlist.pick_one _
    | cons b r =>
      have hbehind := Playlist.pick_append_cons (l ++ [e]) r b
      rw [List.append_assoc, List.length_append] at hbehind
      rw [if_neg (by rw [hlength, List.length_cons]; omega), hposition', hpos]
      exact hbehind

/-- What an edit that finds the current entry again makes of the position. -/
theorem keeps_iff_current (hw : WellFormed h L xs) (hw' : WellFormed h' L ys) (h1 : 1 ≤ position)
    (hempty : a ≠ .empty) :
    Keeps h h' L ys position a ↔ ys.pick position = xs.pick position := by
  rw [← hw.pick, ← hw'.pick]
  exact ⟨Keeps.current, keeps_of_current hw' h1 hempty⟩

/-- A new entry. -/
theorem keeps_added (hw : WellFormed h L (l ++ r)) (hw' : WellFormed h' L (l ++ e :: r))
    (h1 : 1 ≤ position) (h2 : position ≤ (l ++ r).length) (hempty : a ≠ .empty) :
    Keeps h h' L (l ++ e :: r) position a ↔ position ≤ l.length :=
  (keeps_iff_current hw hw' h1 hempty).trans (Playlist.pick_insert_iff hw'.nodup h1 h2)

/-- How many entries are in front of a new one. -/
theorem le_slot_iff {pos : ℤ} (h1 : 1 ≤ position) (h2 : position ≤ xs.length) :
    position ≤ xs.slot pos ↔ (xs.length : ℤ) ≤ pos ∨ position < pos := by
  unfold Playlist.slot
  split_ifs <;> omega

/-- For every playlist, every position in it and every edit of one entry, the position stays with
the current entry exactly if the edit is behind it. -/
theorem keeps_iff (fuel : ℕ) (hw : WellFormed h L xs) (h1 : 1 ≤ position)
    (h2 : position ≤ xs.length) (hfresh : Fresh h a) (hempty : a ≠ .empty) :
    ∃ h' b ys, edit L fuel h a = some (h', b) ∧ WellFormed h' L ys ∧
      (Keeps h h' L ys position a ↔ Behind xs.length position a) := by
  cases a with
  | append x =>
    have hw' := (append_edited hw (hfresh.not_mem hw x rfl)).wellFormed
    refine ⟨_, _, _, rfl, hw', ?_⟩
    have hadded := keeps_added (r := []) (by rwa [List.append_nil]) hw' h1 (by simpa)
      hempty
    exact hadded.trans (iff_true_intro h2)
  | prepend x =>
    have hw' := (prepend_edited hw (hfresh.not_mem hw x rfl)).wellFormed
    refine ⟨_, _, _, rfl, hw', ?_⟩
    have hadded := keeps_added (l := []) (r := xs) hw hw' h1 h2 hempty
    exact hadded.trans (iff_false_intro (Int.not_le.mpr h1))
  | insert x pos =>
    obtain ⟨h', hinsert, hedited⟩ := insert_edited hw (hfresh.not_mem hw x rfl) pos
    refine ⟨h', true, _, hinsert, hedited.wellFormed, ?_⟩
    have hw' := hedited.wellFormed
    have hsplit : xs.take (xs.slot pos) ++ xs.drop (xs.slot pos) = xs := List.take_append_drop ..
    rw [Playlist.insert_eq] at hw' ⊢
    have hadded := keeps_added (by rwa [hsplit]) hw' h1 (by rwa [hsplit]) hempty
    rw [List.length_take_of_le (xs.slot_le pos), le_slot_iff h1 h2] at hadded
    exact hadded
  | remove pos =>
    have hw' := (remove_edited hw pos).2.wellFormed
    refine ⟨(Decoder.remove L h pos).1, (Decoder.remove L h pos).2, _, rfl, hw', ?_⟩
    rw [keeps_iff_current hw hw' h1 hempty, Behind]
    cases hpick : xs.pick pos with
    | none =>
      have hout := Playlist.pick_eq_none_iff.mp hpick
      rw [Playlist.remove, if_pos hout]
      refine iff_of_true rfl ?_
      omega
    | some e =>
      obtain ⟨l, r, rfl, rfl⟩ := Playlist.exists_split_of_pick hpick
      rw [Playlist.remove_append_cons, Playlist.pick_remove_iff hw.nodup h1 h2]
      omega
  | empty => exact (hempty rfl).elim

/-- The second of three entries is the current one, and a file goes in front of the third. -/
theorem keeps_inserted : ∃ h' b ys,
    edit 0 0 threeEntries (.insert ⟨4, [], [97]⟩ 3) = some (h', b) ∧ WellFormed h' 0 ys ∧
      Keeps threeEntries h' 0 ys 2 (.insert ⟨4, [], [97]⟩ 3) := by
  have hw : WellFormed threeEntries 0 [1, 2, 3] := by decide +kernel
  have hfresh : Fresh threeEntries (.insert ⟨4, [], [97]⟩ 3) := by
    intro x hx
    obtain rfl := Option.some.inj hx
    decide +kernel
  have h1 : (1 : ℤ) ≤ 2 := by decide
  obtain ⟨h', b, ys, hedit, hw', hkeeps⟩ := keeps_iff 0 hw h1 (by decide) hfresh (by decide)
  exact ⟨h', b, ys, hedit, hw', hkeeps.mpr (by decide)⟩

/-- A file that goes to the front becomes the current one. -/
theorem not_keeps : ¬ ∀ (h h' : Heap) (L : ListId) (xs ys : Playlist Addr) (position : ℤ)
    (a : Playlist.Edit Arrival) (fuel : ℕ) (b : Bool), WellFormed h L xs → 1 ≤ position →
    position ≤ xs.length → Fresh h a → a ≠ .remove position → a ≠ .empty →
    edit L fuel h a = some (h', b) → WellFormed h' L ys → Keeps h h' L ys position a := by
  intro hall
  have hw : WellFormed threeEntries 0 [1, 2, 3] := by decide +kernel
  have hfresh : Fresh threeEntries (.prepend ⟨4, [], [97]⟩) := by
    intro x hx
    obtain rfl := Option.some.inj hx
    decide +kernel
  have hw' : WellFormed (Decoder.prepend 0 threeEntries ⟨4, [], [97]⟩).1 0 [4, 1, 2, 3] := by
    decide +kernel
  have hkeeps := hall _ _ 0 _ _ 1 _ 0 _ hw le_rfl (by decide) hfresh (by decide) (by decide) rfl hw'
  have hcurrent := hkeeps.current
  revert hcurrent
  decide +kernel

end Linklist

end IvySync
