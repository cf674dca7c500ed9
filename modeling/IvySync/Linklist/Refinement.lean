import IvySync.Decoder.Defs
import IvySync.Linklist.WellFormed
import Mathlib.Data.List.TakeWhile

/-!
# The pointer structure refines the plain list

`playlist_refines` takes any run of edits of `Decoder` on a list that is empty at first: the pointer
structure is well formed at its end, the entries it is made of are those that the same edits make of
a plain list, each edit returned what it returns there, and `pick` looks up the plain list.  No edit
follows a NULL pointer and `empty` ends within as many rounds as there are entries.

An entry of the plain list is an address with the name stored there.  `stored` says what of the name
of a file fits into an entry; up to 510 bytes it is the whole name.  For such names the list of
names in `Decoder/Defs` is that of the entries (`playlist_eq_names`).
-/

namespace IvySync

open Function (update)

/-- A C string has no NUL. -/
theorem zero_notMem_cString (s : List UInt8) : 0 ∉ cString s := by
  intro h
  simpa using List.mem_takeWhile_imp h

/-- The name found in an entry once `set_name` has copied the name of a file into it. -/
def stored (memory : List UInt8) (file : Name) : Name :=
  cString (strncpy (Entry.noname ++ 0 :: memory.drop (Entry.noname.length + 1)) file
    (maxEntryName - 1))

/-- A name that fits is stored as it is. -/
theorem stored_eq_self {file : Name} (memory : List UInt8) (hnul : 0 ∉ file)
    (hfits : file.length < maxEntryName - 1) : stored memory file = file := by
  have hcopied : cString file = file := by
    refine List.takeWhile_eq_self_iff.mpr ?_
    intro b hb
    have hb0 : b ≠ 0 := fun h => hnul (h ▸ hb)
    simpa using hb0
  obtain ⟨k, hk⟩ : ∃ k, maxEntryName - 1 - file.length = k + 1 :=
    ⟨maxEntryName - 1 - file.length - 1, by omega⟩
  unfold stored strncpy
  simp only [hcopied, List.take_of_length_le hfits.le, hk, List.replicate_succ, List.append_assoc,
    List.cons_append]
  unfold cString at hcopied ⊢
  rw [List.takeWhile_append, hcopied, if_pos rfl]
  simp

namespace Arrival

/-- The entry that a call adds: its address and the name stored there. -/
def entry (x : Arrival) : Addr × Name := (x.addr, stored x.memory x.file)

variable {h : Heap} {L : ListId} {xs : Playlist Addr} {x : Arrival}

/-- A new entry is in no list, in use and named after the file. -/
theorem make_addr (x : Arrival) (h : Heap) :
    (x.make h).list x.addr = none ∧ (x.make h).live x.addr = true ∧
      cString ((x.make h).name x.addr) = stored x.memory x.file := by
  simp [make, Entry.setName, Entry.new, stored]

/-- Making an entry changes no other name. -/
theorem make_name {a : Addr} (ha : a ≠ x.addr) : (x.make h).name a = h.name a := by
  simp [make, Entry.setName, Entry.new, ha]

/-- Making an entry out of memory that is not in use leaves a list well formed. -/
theorem make_wellFormed (hw : WellFormed h L xs) (hx : x.addr ∉ xs) :
    WellFormed (x.make h) L xs := by
  have hne : ∀ a ∈ xs, a ≠ x.addr := fun a ha hax => hx (hax ▸ ha)
  refine hw.frame ?_ ?_ ?_ ?_ rfl rfl rfl
  · exact fun a ha => Function.update_of_ne (hne a ha) ..
  · exact fun a ha => Function.update_of_ne (hne a ha) ..
  · exact fun a ha => Function.update_of_ne (hne a ha) ..
  · exact fun a ha => Function.update_of_ne (hne a ha) ..

end Arrival

/-- The entries of a list with their names. -/
def entries (h : Heap) (xs : Playlist Addr) : Playlist (Addr × Name) :=
  xs.map fun a => (a, cString (h.name a))

namespace Linklist

variable {h h' : Heap} {L : ListId} {fuel : ℕ} {xs : Playlist Addr} {x : Arrival} {pos : ℤ}

/-- What an edit makes of a well-formed list: the one that is made of the entries `xs` afterwards,
with no other entry renamed and the new one named after its file. -/
structure Edited (h h' : Heap) (L : ListId) (xs' : Playlist Addr) (x : Option Arrival) :
    Prop where
  wellFormed : WellFormed h' L xs'
  kept : ∀ a, (∀ y ∈ x, a ≠ y.addr) → h'.name a = h.name a
  named : ∀ y ∈ x, cString (h'.name y.addr) = stored y.memory y.file

/-- Making an entry and putting it between two neighbours. -/
theorem edited_of_spliced {l r : Playlist Addr} (hw : WellFormed h L (l ++ r))
    (hx : x.addr ∉ l ++ r) (hs : Spliced (x.make h) h' L x.addr l.getLast? r.head?) :
    Edited h h' L (l ++ x.addr :: r) (some x) where
  wellFormed := (Arrival.make_wellFormed hw hx).splice hx (x.make_addr h).2.1 hs
  kept a ha := by
    rw [hs.name, Arrival.make_name (ha x rfl)]
  named y hy := by
    obtain rfl := Option.some.inj hy
    rw [hs.name]
    exact (x.make_addr h).2.2

/-- `Decoder::append` adds at the end. -/
theorem append_edited (hw : WellFormed h L xs) (hx : x.addr ∉ xs) :
    Edited h (Decoder.append L h x).1 L (xs.append x.addr) (some x) := by
  have hs := append_spliced (L := L) (x.make_addr h).1
  have hlast := (Arrival.make_wellFormed hw hx).last_eq
  rw [hlast] at hs
  exact edited_of_spliced (r := []) (by simpa using hw) (by simpa using hx) hs

/-- `Decoder::prepend` adds at the front. -/
theorem prepend_edited (hw : WellFormed h L xs) (hx : x.addr ∉ xs) :
    Edited h (Decoder.prepend L h x).1 L (xs.prepend x.addr) (some x) := by
  have hs := prepend_spliced (L := L) (x.make_addr h).1
  have hfirst := (Arrival.make_wellFormed hw hx).first_eq
  rw [hfirst] at hs
  exact edited_of_spliced (l := []) (r := xs) hw hx hs

/-- `Decoder::insert` adds at the end, at the front or in front of the entry at the position, and
follows no NULL pointer. -/
theorem insert_edited (hw : WellFormed h L xs) (hx : x.addr ∉ xs) (pos : ℤ) :
    ∃ h', Decoder.insert L h x pos = some (h', true) ∧
      Edited h h' L (xs.insert x.addr pos) (some x) := by
  obtain ⟨h', hinsert, hs⟩ :=
    (Arrival.make_wellFormed hw hx).exists_insert_spliced (x.make_addr h).1 pos
  refine ⟨h', by rw [Decoder.insert, hinsert, Option.map_some], ?_⟩
  rw [Playlist.insert_eq]
  have hsplit : xs.take (xs.slot pos) ++ xs.drop (xs.slot pos) = xs := List.take_append_drop ..
  exact edited_of_spliced (by rwa [hsplit]) (by rwa [hsplit]) hs

/-- `Decoder::remove` drops the entry at the position, if there is one. -/
theorem remove_edited (hw : WellFormed h L xs) (pos : ℤ) :
    (Decoder.remove L h pos).2 = (xs.remove pos).2 ∧
      Edited h (Decoder.remove L h pos).1 L (xs.remove pos).1 none := by
  unfold Decoder.remove
  rw [hw.pick]
  cases hpick : xs.pick pos with
  | none =>
    have hout := Playlist.pick_eq_none_iff.mp hpick
    rw [Playlist.remove, if_pos hout]
    exact ⟨rfl, hw, fun _ _ => rfl, by simp⟩
  | some ent =>
    obtain ⟨l, r, rfl, rfl⟩ := Playlist.exists_split_of_pick hpick
    rw [Playlist.remove_append_cons]
    refine ⟨rfl, hw.delete, ?_, by simp⟩
    intro a _
    exact congrFun (rem_name_live ent h).1 a

/-- One round of `Decoder::empty` takes the first entry out; deleting it after that has no further
effect on the list. -/
theorem delete_rem_wellFormed {e : Addr} (hw : WellFormed h L (e :: xs)) :
    WellFormed (Entry.delete e (Entry.rem e h)) L xs := by
  have hw' : WellFormed h L ([] ++ e :: xs) := hw
  have hsame : Entry.delete e (Entry.rem e h) = Entry.delete e h := by
    unfold Entry.delete
    rw [rem_of_list_eq_none hw'.list_rem]
  rw [hsame]
  exact hw'.delete

/-- `Decoder::empty` ends within as many rounds as there are entries, and one more to see that none
is left. -/
theorem emptyLoop_isSome_iff (hw : WellFormed h L xs) :
    (∃ h', Decoder.emptyLoop L fuel h = some h') ↔ xs.length < fuel := by
  induction fuel generalizing h xs with
  | zero => simp [Decoder.emptyLoop]
  | succ fuel ih =>
    rw [Decoder.emptyLoop, hw.first_eq]
    cases xs with
    | nil => simp
    | cons e xs =>
      rw [List.head?_cons, List.length_cons, Nat.add_lt_add_iff_right]
      exact ih (delete_rem_wellFormed hw)

/-- When `Decoder::empty` ends the list is empty. -/
theorem emptyLoop_edited (hw : WellFormed h L xs) (hloop : Decoder.emptyLoop L fuel h = some h') :
    Edited h h' L [] none := by
  induction fuel generalizing h xs with
  | zero => simp [Decoder.emptyLoop] at hloop
  | succ fuel ih =>
    rw [Decoder.emptyLoop, hw.first_eq] at hloop
    cases xs with
    | nil =>
      obtain rfl := Option.some.inj hloop
      exact ⟨hw, fun _ _ => rfl, by simp⟩
    | cons e xs =>
      obtain ⟨hw', hkept, hnamed⟩ := ih (delete_rem_wellFormed hw) hloop
      have hname : (Entry.delete e (Entry.rem e h)).name = h.name := by
        unfold Entry.delete
        rw [(rem_name_live e _).1, (rem_name_live e h).1]
      exact ⟨hw', fun a ha => hname ▸ hkept a ha, hnamed⟩

/-- New entries are not in a well-formed list. -/
theorem Fresh.not_mem {a : Playlist.Edit Arrival} (hfresh : Fresh h a) (hw : WellFormed h L xs) :
    ∀ x ∈ a.added, x.addr ∉ xs := by
  intro x hx hmem
  have hlive := hfresh x hx
  rw [hw.live _ hmem] at hlive
  cases hlive

/-- What an edit of the decoder does to a well-formed list, and what it returns. -/
theorem edit_edited {a : Playlist.Edit Arrival} {b : Bool} (hw : WellFormed h L xs)
    (hfresh : Fresh h a) (hedit : edit L fuel h a = some (h', b)) :
    b = (xs.edit (a.map Arrival.addr)).2 ∧
      Edited h h' L (xs.edit (a.map Arrival.addr)).1 a.added := by
  have hnew : ∀ x ∈ a.added, x.addr ∉ xs := hfresh.not_mem hw
  cases a with
  | append x =>
    obtain ⟨rfl, rfl⟩ := Prod.mk.inj (Option.some.inj hedit)
    exact ⟨rfl, append_edited hw (hnew x rfl)⟩
  | prepend x =>
    obtain ⟨rfl, rfl⟩ := Prod.mk.inj (Option.some.inj hedit)
    exact ⟨rfl, prepend_edited hw (hnew x rfl)⟩
  | insert x pos =>
    obtain ⟨h'', hinsert, hedited⟩ := insert_edited hw (hnew x rfl) pos
    obtain ⟨rfl, rfl⟩ := Prod.mk.inj (Option.some.inj (hinsert.symm.trans hedit))
    exact ⟨rfl, hedited⟩
  | remove pos =>
    obtain ⟨hb, hedited⟩ := remove_edited hw pos
    obtain ⟨rfl, rfl⟩ := Prod.mk.inj (Option.some.inj hedit)
    exact ⟨hb, hedited⟩
  | empty =>
    obtain ⟨h'', hloop, hres⟩ := Option.map_eq_some_iff.mp hedit
    obtain ⟨rfl, rfl⟩ := Prod.mk.inj hres
    exact ⟨rfl, emptyLoop_edited hw hloop⟩

/-- No edit of a well-formed list follows a NULL pointer, and `empty` needs no more than one round
for each entry and one for the test. -/
theorem exists_edit_eq (hw : WellFormed h L xs) {a : Playlist.Edit Arrival} (hfresh : Fresh h a)
    (hfuel : xs.length < fuel) : ∃ r, edit L fuel h a = some r := by
  cases a with
  | append x => exact ⟨_, rfl⟩
  | prepend x => exact ⟨_, rfl⟩
  | insert x pos =>
    have hx : x.addr ∉ xs := hfresh.not_mem hw x rfl
    obtain ⟨h', hinsert, -⟩ := insert_edited hw hx pos
    exact ⟨_, hinsert⟩
  | remove pos => exact ⟨_, rfl⟩
  | empty =>
    obtain ⟨h', hloop⟩ := (emptyLoop_isSome_iff hw).mpr hfuel
    exact ⟨(h', true), by rw [edit, Decoder.empty, hloop, Option.map_some]⟩

/-- The names of the entries after an edit are those that the edit makes of the names before. -/
theorem entries_edit {a : Playlist.Edit Arrival} (hw : WellFormed h L xs) (hfresh : Fresh h a)
    (hedited : Edited h h' L (xs.edit (a.map Arrival.addr)).1 a.added) :
    ((entries h xs).edit (a.map Arrival.entry)).1 =
      entries h' (xs.edit (a.map Arrival.addr)).1 := by
  have hold : entries h xs = entries h' xs := by
    refine List.map_congr_left ?_
    intro b hb
    have hold : ∀ y ∈ a.added, b ≠ y.addr := by
      intro y hy hby
      exact hfresh.not_mem hw y hy (hby ▸ hb)
    rw [hedited.kept b hold]
  have hnew : a.map Arrival.entry =
      (a.map Arrival.addr).map fun b => (b, cString (h'.name b)) := by
    have hnamed := hedited.named
    cases a <;> simp_all [Playlist.Edit.map, Playlist.Edit.added, Arrival.entry]
  rw [hold, hnew]
  exact congrArg Prod.fst (Playlist.edit_map (fun b => (b, cString (h'.name b))) xs _)

/-- What an edit returns does not depend on the names. -/
theorem edit_entries_snd (h : Heap) (xs : Playlist Addr) (a : Playlist.Edit Arrival) :
    ((entries h xs).edit (a.map Arrival.entry)).2 = (xs.edit (a.map Arrival.addr)).2 := by
  cases a with
  | remove pos =>
    simp only [Playlist.edit, Playlist.Edit.map, Playlist.remove, entries, List.length_map]
    split_ifs <;> rfl
  | _ => rfl

/-! ### Runs -/

/-- The edits of the plain list that a trace stands for. -/
def plain (tr : List (Playlist.Edit Arrival × Bool)) :
    List (Playlist.Edit (Addr × Name) × Bool) :=
  tr.map (Prod.map (Playlist.Edit.map Arrival.entry) id)

/-- A well-formed list stands for the plain list of its entries with their names. -/
def Represents (L : ListId) (h : Heap) (l : Playlist (Addr × Name)) : Prop :=
  ∃ xs : Playlist Addr, WellFormed h L xs ∧ entries h xs = l

/-- An edit of a well-formed list is the edit of the plain list. -/
theorem Represents.step {l : Playlist (Addr × Name)} {a : Playlist.Edit Arrival} {b : Bool}
    (hrep : Represents L h l) (hfresh : Fresh h a) (hedit : edit L fuel h a = some (h', b)) :
    ∃ l', (Playlist.machine (Addr × Name)).next l (a.map Arrival.entry) = some (l', b) ∧
      Represents L h' l' := by
  obtain ⟨xs, hw, rfl⟩ := hrep
  obtain ⟨hb, hedited⟩ := edit_edited hw hfresh hedit
  refine ⟨_, congrArg some (Prod.ext rfl ?_), _, hedited.wellFormed, ?_⟩
  · exact (edit_entries_snd h xs a).trans hb.symm
  · exact (entries_edit hw hfresh hedited).symm

/-- After every run of edits on a list that is empty at first the pointer structure is well formed
and made of the entries, with their names, to which the same edits with the same results lead a
plain list.  There `playlist[pos]` is the entry at `pos` of the plain list, `insert` puts one entry
between two parts of it, `remove` changes nothing when it finds nothing, and every edit has a
result, `empty` within one round more than there are entries.

The plain list has the names as they are `stored`, so one of more than 510 bytes is in it as
`set_name` has cut it; for names that fit see `playlist_eq_names`. -/
theorem playlist_refines {h₀ h : Heap} {tr : List (Playlist.Edit Arrival × Bool)}
    (hempty : WellFormed h₀ L []) (hrun : (machine L fuel).RunOn Fresh h₀ tr h) :
    ∃ xs : Playlist Addr,
      WellFormed h L xs ∧
      (Playlist.machine (Addr × Name)).Run [] (plain tr) (entries h xs) ∧
      (∀ pos, pick L h pos = xs.pick pos) ∧
      (∀ e pos, ∃ before after, xs = before ++ after ∧ xs.insert e pos = before ++ e :: after) ∧
      (∀ pos, (xs.length : ℤ) < pos ∨ pos < 1 → Decoder.remove L h pos = (h, false)) ∧
      ∀ k a, Fresh h a → xs.length < k → ∃ r, edit L k h a = some r := by
  have hrep : Represents L h₀ [] := ⟨[], hempty, rfl⟩
  obtain ⟨l, hplain, xs, hw, rfl⟩ := hrun.simulation (N := Playlist.machine (Addr × Name))
    (D := fun _ _ => True) (R := Represents L) (Playlist.Edit.map Arrival.entry) id
    (fun s l a t b hl hfresh hedit => by
      obtain ⟨l', hnext, hl'⟩ := hl.step hfresh hedit
      exact ⟨l', trivial, hnext, hl'⟩)
    hrep
  refine ⟨xs, hw, hplain, hw.pick, xs.exists_insert_eq, ?_, ?_⟩
  · intro pos hout
    rw [Decoder.remove, hw.pick, Playlist.pick_eq_none_iff.mpr hout]
  · intro k a hfresh hfuel
    exact exists_edit_eq hw hfresh hfuel

/-- Four files are added, the last one at the second position; then the first entry is removed and
its memory is taken for a file that goes to the end. -/
theorem playlist_refines_reused :
    ∃ tr h, ∃ xs : Playlist Addr, WellFormed h 0 xs ∧
      (Playlist.machine (Addr × Name)).Run [] (plain tr) (entries h xs) ∧
      xs.pick 1 = some 8 ∧ xs.pick 4 = some 6 ∧ xs.pick 5 = none := by
  have hexec : (machine 0 5).Reaches Fresh (new 0 unused)
      [.append ⟨5, [], [97]⟩, .prepend ⟨6, [], [98]⟩, .append ⟨7, [], [99]⟩,
        .insert ⟨8, [], [100]⟩ 2, .remove 1, .remove 5, .insert ⟨6, [], [101]⟩ 3]
      fun tr h => tr.map Prod.snd = [true, true, true, true, true, false, true] ∧
        pick 0 h 1 = some 8 ∧ pick 0 h 4 = some 6 ∧ pick 0 h 5 = none := by decide +kernel
  obtain ⟨tr, h, hrun, -, h1, h4, h5⟩ := hexec.exists_runOn
  obtain ⟨xs, hw, hplain, hpick, -⟩ := playlist_refines (wellFormed_new 0 unused) hrun
  rw [hpick] at h1 h4 h5
  exact ⟨tr, h, xs, hw, hplain, h1, h4, h5⟩

/-! ### The playlist of a decoder -/

/-- The request of a decoder that an edit carries out. -/
def request : Playlist.Edit Arrival → Request
  | .append x => .append x.file
  | .prepend x => .prepend x.file
  | .insert x pos => .insert x.file pos
  | .remove pos => .remove pos
  | .empty => .empty

/-- The name of the file that an edit adds fits into its entry. -/
def Fits (a : Playlist.Edit Arrival) : Prop :=
  ∀ x ∈ a.added, 0 ∉ x.file ∧ x.file.length < maxEntryName - 1

/-- A request for an edit edits the playlist. -/
theorem apply_request_playlist (d : Decoder) (a : Playlist.Edit Arrival) :
    (d.apply (request a)).playlist = (d.playlist.edit (a.map Arrival.file)).1 := by
  cases a <;> rfl

/-- Names that fit are those of the files. -/
theorem map_entry_snd {a : Playlist.Edit Arrival} (hfits : Fits a) :
    (a.map Arrival.entry).map Prod.snd = a.map Arrival.file := by
  have hstored : ∀ x ∈ a.added, stored x.memory x.file = x.file := by
    intro x hx
    obtain ⟨hnul, hlength⟩ := hfits x hx
    exact stored_eq_self x.memory hnul hlength
  cases a <;> simp_all [Playlist.Edit.map, Playlist.Edit.added, Arrival.entry]

/-- The playlist of a decoder, as the names that its operations work on, is that of the entries in
the pointer structure: both are edited in step, as long as the names fit. -/
theorem playlist_eq_names {h₀ h : Heap} {d₀ : Decoder}
    {tr : List (Playlist.Edit Arrival × Bool)} (hempty : WellFormed h₀ L [])
    (hd : d₀.playlist = [])
    (hrun : (machine L fuel).RunOn (fun h a => Fresh h a ∧ Fits a) h₀ tr h) :
    ∃ l, Represents L h l ∧
      (tr.foldl (fun d y => d.apply (request y.1)) d₀).playlist = l.map Prod.snd := by
  refine hrun.invariant_trace (I := fun tr h => ∃ l, Represents L h l ∧
    (tr.foldl (fun d y => d.apply (request y.1)) d₀).playlist = l.map Prod.snd) ?_
    ⟨[], ⟨[], hempty, rfl⟩, hd⟩
  intro tr s a t b hI hC hedit
  obtain ⟨l, hrep, hnames⟩ := hI
  obtain ⟨l', hnext, hrep'⟩ := hrep.step hC.1 hedit
  have hl' : (l.edit (a.map Arrival.entry)).1 = l' :=
    congrArg Prod.fst (Option.some.inj hnext)
  refine ⟨l', hrep', ?_⟩
  rw [List.foldl_append, List.foldl_cons, List.foldl_nil, apply_request_playlist, hnames,
    ← map_entry_snd hC.2, Playlist.edit_map, hl']

end Linklist

end IvySync
