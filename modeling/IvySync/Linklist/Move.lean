import IvySync.Linklist.WellFormed

/-!
# Moving an entry from one list to another

Every call that adds an entry takes it out of its list first, with `Entry::rem`, which leaves the
pointers of the entry itself as they were.  `Moved` says what such a call should make of the list
`A` that the entry was in and of the list `B` that it goes to, which may be the same one.

`Linklist::insert_after` does not write the pointer to the next entry when it adds behind the last
one, as `append` does.  What that pointer held in the old list survives, so that the move succeeds
exactly when there is nothing to survive: `moved_iff`.

A call that splices the entry into `B` touches nothing outside of `B` and the entry (`Confined`),
which is why two lists can be treated one at a time.
-/

namespace IvySync

open Function (update)

namespace Linklist

/-- The calls that put an entry into a list. -/
inductive Place
  | append
  | prepend
  | insert (pos : ℤ)
  | insertAfter (x : Addr)
  deriving DecidableEq, Repr

/-- Put an entry into the list at `L`; `none` when a NULL pointer is followed. -/
def place (L : ListId) (addr : Addr) (h : Heap) : Place → Option Heap
  | .append => some (append L addr h)
  | .prepend => some (prepend L addr h)
  | .insert pos => insert L addr h pos
  | .insertAfter x => some (insertAfter L addr h x)

/-- The entry `e`, which was one of the entries `xs` of the list `A`, has gone to the list `B` of the
entries `ys`: both lists are well formed, `e` is once in `B` and no longer elsewhere in `A`, and the
other entries are those of before, in their order. -/
structure Moved (h' : Heap) (A B : ListId) (e : Addr) (xs ys xs' ys' : Playlist Addr) : Prop where
  source : WellFormed h' A xs'
  target : WellFormed h' B ys'
  once : ys'.count e = 1
  gone : A ≠ B → e ∉ xs'
  sourceOrder : xs'.erase e = xs.erase e
  targetOrder : ys'.erase e = ys.erase e

variable {h h' : Heap} {A B L M : ListId} {e x : Addr} {xs ys zs l r : Playlist Addr} {p : Place}

/-! ### What a change to one list leaves alone -/

/-- Nothing changes but the entry `e` and the list `L` with its entries. -/
structure Confined (h h' : Heap) (L : ListId) (e : Addr) : Prop where
  next : ∀ a, a ≠ e → h.list a ≠ some L → h'.next a = h.next a
  prev : ∀ a, a ≠ e → h.list a ≠ some L → h'.prev a = h.prev a
  list : ∀ a, a ≠ e → h'.list a = h.list a
  live : h'.live = h.live
  first : ∀ M ≠ L, h'.first M = h.first M
  last : ∀ M ≠ L, h'.last M = h.last M
  length : ∀ M ≠ L, h'.length M = h.length M

/-- Another list that the entry is not in stays well formed. -/
theorem Confined.wellFormed (hc : Confined h h' L e) (hw : WellFormed h M zs) (hM : M ≠ L)
    (he : e ∉ zs) : WellFormed h' M zs := by
  have hne : ∀ a ∈ zs, a ≠ e := fun a ha hae => he (hae ▸ ha)
  have hlist : ∀ a ∈ zs, h.list a ≠ some L := by
    intro a ha hL
    rw [hw.owner a ha] at hL
    exact hM (Option.some.inj hL)
  refine hw.frame ?_ ?_ ?_ ?_ (hc.first M hM) (hc.last M hM) (hc.length M hM)
  · exact fun a ha => hc.next a (hne a ha) (hlist a ha)
  · exact fun a ha => hc.prev a (hne a ha) (hlist a ha)
  · exact fun a ha => hc.list a (hne a ha)
  · exact fun a ha => congrFun hc.live a

/-- Nothing changes but the entry `e` and the list `L`, which is made of the entries `zs`. -/
structure Touches (h h' : Heap) (L : ListId) (zs : Playlist Addr) (e : Addr) : Prop where
  next : ∀ a, a ≠ e → a ∉ zs → h'.next a = h.next a
  prev : ∀ a, a ≠ e → a ∉ zs → h'.prev a = h.prev a
  list : ∀ a, a ≠ e → h'.list a = h.list a
  live : h'.live = h.live
  first : ∀ M ≠ L, h'.first M = h.first M
  last : ∀ M ≠ L, h'.last M = h.last M
  length : ∀ M ≠ L, h'.length M = h.length M

/-- The entries of a list name it. -/
theorem Touches.confined (ht : Touches h h' L zs e) (hw : WellFormed h L zs) :
    Confined h h' L e where
  next a hae ha := ht.next a hae fun hmem => ha (hw.owner a hmem)
  prev a hae ha := ht.prev a hae fun hmem => ha (hw.owner a hmem)
  list := ht.list
  live := ht.live
  first := ht.first
  last := ht.last
  length := ht.length

/-- The fields of the lists other than `L` do not change. -/
def SameLists (h h' : Heap) (L : ListId) : Prop :=
  ∀ M ≠ L, h'.first M = h.first M ∧ h'.last M = h.last M ∧ h'.length M = h.length M

/-- `Entry::rem` writes to no other list than that of the entry. -/
theorem rem_sameLists (hlist : h.list e = some L) : SameLists h (Entry.rem e h) L := by
  intro M hM
  unfold Entry.rem
  rw [hlist]
  cases hnext : h.next e <;> cases hprev : h.prev e <;>
    simp [hnext, hprev, Function.update_apply, hM]

/-- `append` writes to no other list. -/
theorem append_sameLists (hlist : h.list e = none) : SameLists h (append L e h) L := by
  intro M hM
  unfold append
  rw [hlist]
  cases hlast : h.last L <;> simp [hlast, Function.update_of_ne hM]

/-- `prepend` writes to no other list. -/
theorem prepend_sameLists (hlist : h.list e = none) : SameLists h (prepend L e h) L := by
  intro M hM
  unfold prepend
  rw [hlist]
  cases hfirst : h.first L <;> simp [hfirst, Function.update_of_ne hM]

/-- `insert_after` writes to no other list. -/
theorem insertAfter_sameLists (hlist : h.list e = none) :
    SameLists h (insertAfter L e h x) L := by
  intro M hM
  unfold insertAfter
  rw [hlist]
  cases hnext : h.next x <;> simp [hnext, Function.update_of_ne hM]

/-- Taking an entry out of a well-formed list touches nothing else. -/
theorem rem_touches (hw : WellFormed h L (l ++ e :: r)) :
    Touches h (Entry.rem e h) L (l ++ e :: r) e := by
  have hlist : h.list e = some L := hw.owner e (by simp)
  have hsame := rem_sameLists hlist
  have hprev : ∀ a ∉ l ++ e :: r, some a ≠ h.prev e := by
    intro a ha hae
    rw [hw.prev_eq] at hae
    exact ha (List.mem_append_left _ (List.mem_of_getLast? hae.symm))
  have hnext : ∀ a ∉ l ++ e :: r, some a ≠ h.next e := by
    intro a ha hae
    rw [hw.next_eq] at hae
    have har : a ∈ r := List.mem_of_mem_head? hae.symm
    exact ha (List.mem_append_right l (List.mem_cons_of_mem e har))
  refine ⟨?_, ?_, ?_, (rem_name_live e h).2, ?_, ?_, ?_⟩
  · intro a _ ha
    have hsucc := congrFun (rem_succ hlist) (some a)
    rwa [Function.update_of_ne (hprev a ha)] at hsucc
  · intro a _ ha
    have hpred := congrFun (rem_pred hlist) (some a)
    rwa [Function.update_of_ne (hnext a ha)] at hpred
  · intro a ha
    rw [(rem_length_list hlist).2, Function.update_of_ne ha]
  · exact fun M hM => (hsame M hM).1
  · exact fun M hM => (hsame M hM).2.1
  · exact fun M hM => (hsame M hM).2.2

/-- Taking an entry out of a well-formed list is confined to that list. -/
theorem rem_confined (hw : WellFormed h L (l ++ e :: r)) : Confined h (Entry.rem e h) L e :=
  (rem_touches hw).confined hw

/-- Putting an entry between two neighbours touches nothing else. -/
theorem spliced_touches (hs : Spliced h h' L e l.getLast? r.head?) (hsame : SameLists h h' L) :
    Touches h h' L (l ++ r) e := by
  have hleft : ∀ a ∉ l ++ r, some a ≠ l.getLast? := by
    intro a ha hal
    exact ha (List.mem_append_left r (List.mem_of_getLast? hal.symm))
  have hright : ∀ a ∉ l ++ r, some a ≠ r.head? := by
    intro a ha har
    exact ha (List.mem_append_right l (List.mem_of_mem_head? har.symm))
  refine ⟨?_, ?_, ?_, hs.live, ?_, ?_, ?_⟩
  · intro a hae ha
    have hsucc := congrFun hs.succ (some a)
    rwa [Function.update_of_ne (by simpa using hae), Function.update_of_ne (hleft a ha)] at hsucc
  · intro a hae ha
    have hpred := congrFun hs.pred (some a)
    rwa [Function.update_of_ne (by simpa using hae), Function.update_of_ne (hright a ha)] at hpred
  · intro a ha
    rw [hs.list, Function.update_of_ne ha]
  · exact fun M hM => (hsame M hM).1
  · exact fun M hM => (hsame M hM).2.1
  · exact fun M hM => (hsame M hM).2.2

/-! ### The calls on an entry that is in no list -/

/-- `insert_after` puts the entry between the one given and its successor, unless it adds at the end
an entry that still points somewhere. -/
theorem insertAfter_spliced (hlist : h.list e = none) (hne : x ≠ e)
    (hstale : h.next x = none → h.next e = none) :
    Spliced h (insertAfter L e h x) L e (some x) (h.next x) := by
  unfold insertAfter
  rw [hlist]
  cases hnext : h.next x with
  | none =>
    have hself : update (update h.next x (some e)) e none = update h.next x (some e) := by
      rw [Function.update_eq_self_iff, Function.update_of_ne hne.symm, hstale hnext]
    constructor <;>
      simp [hnext, Heap.succ, Heap.pred, update_around_none, update_around_some, hself]
  | some n =>
    have hcomm : update (update h.next e (some n)) x (some e) =
        update (update h.next x (some e)) e (some n) := Function.update_comm hne.symm ..
    constructor <;>
      simp [hnext, Heap.succ, Heap.pred, update_around_some, hcomm]

/-- The call has put `e` somewhere into the list of the entries `zs`. -/
def Placed (h h' : Heap) (L : ListId) (e : Addr) (zs : Playlist Addr) : Prop :=
  ∃ l r, zs = l ++ r ∧ Spliced h h' L e l.getLast? r.head? ∧ SameLists h h' L

/-- `append` places the entry at the end. -/
theorem append_placed (hw : WellFormed h L zs) (hlist : h.list e = none) :
    Placed h (append L e h) L e zs := by
  refine ⟨zs, [], by simp, ?_, append_sameLists hlist⟩
  rw [← hw.last_eq]
  exact append_spliced hlist

/-- `prepend` places the entry at the front. -/
theorem prepend_placed (hw : WellFormed h L zs) (hlist : h.list e = none) :
    Placed h (prepend L e h) L e zs := by
  refine ⟨[], zs, rfl, ?_, prepend_sameLists hlist⟩
  rw [← hw.first_eq]
  exact prepend_spliced hlist

/-- `insert_after` places the entry behind the one given, unless it adds at the end an entry that
still points somewhere. -/
theorem insertAfter_placed (hw : WellFormed h L zs) (hlist : h.list e = none) (hx : x ∈ zs)
    (hne : x ≠ e) (hstale : zs.getLast? = some x → h.next e = none) :
    Placed h (insertAfter L e h x) L e zs := by
  obtain ⟨l, r, rfl⟩ := List.append_of_mem hx
  have hnext : h.next x = none → h.next e = none := by
    intro hnone
    rw [hw.next_eq, List.head?_eq_none_iff] at hnone
    exact hstale (by rw [hnone, List.getLast?_concat])
  have hs := insertAfter_spliced (L := L) hlist hne hnext
  rw [hw.next_eq] at hs
  exact ⟨l ++ [x], r, by simp, by simpa using hs, insertAfter_sameLists hlist⟩

/-- The tail of `insert` places the entry in front of the one at the position, which is in the list
and not its first. -/
theorem link_placed {pos : ℤ} (hw : WellFormed h L zs) (he : e ∉ zs) (hgt : 1 < pos)
    (hle : pos ≤ zs.length) :
    ∃ h', ((pick L h pos).bind fun ptr =>
        (h.prev ptr).map fun before =>
          { h with
              next := update (update h.next before (some e)) e (some ptr)
              prev := update (update h.prev e (some before)) ptr (some e)
              length := update h.length L (h.length L + 1)
              list := update h.list e (some L) }) = some h' ∧ Placed h h' L e zs := by
  obtain ⟨l, before, ptr, r, rfl, -, hpick, hprev⟩ := hw.exists_neighbours hgt hle
  have hne : e ≠ ptr := by
    rintro rfl
    simp at he
  rw [hpick, Option.bind_some, hprev, Option.map_some]
  refine ⟨_, rfl, l ++ [before], ptr :: r, rfl, ?_, ?_⟩
  · rw [List.getLast?_concat, List.head?_cons]
    exact link_spliced hne
  · exact fun M hM => ⟨rfl, rfl, Function.update_of_ne hM ..⟩

/-- Each call takes the entry out of its list, finds it in no list then, and places it. -/
theorem place_placed (hlist : (h.list e).isSome) (hnone : (Entry.rem e h).list e = none)
    (hw : WellFormed (Entry.rem e h) L zs) (he : e ∉ zs) (hlength : h.length L ≤ zs.length + 1)
    (hx : ∀ x, p = .insertAfter x → x ∈ zs ∧ x ≠ e)
    (hstale : ∀ x, p = .insertAfter x → zs.getLast? = some x → (Entry.rem e h).next e = none) :
    ∃ h', place L e h p = some h' ∧ Placed (Entry.rem e h) h' L e zs := by
  have happend : append L e h = append L e (Entry.rem e h) := by
    simp [append, hlist, hnone]
  have hprepend : prepend L e h = prepend L e (Entry.rem e h) := by
    simp [prepend, hlist, hnone]
  cases p with
  | append => exact ⟨_, rfl, happend ▸ append_placed hw hnone⟩
  | prepend => exact ⟨_, rfl, hprepend ▸ prepend_placed hw hnone⟩
  | insertAfter x =>
    have hafter : insertAfter L e h x = insertAfter L e (Entry.rem e h) x := by
      simp [insertAfter, hlist, hnone]
    obtain ⟨hmem, hne⟩ := hx x rfl
    exact ⟨_, rfl, hafter ▸ insertAfter_placed hw hnone hmem hne (hstale x rfl)⟩
  | insert pos =>
    simp only [place, insert, if_pos hlist]
    split_ifs with hlast hfirst
    · exact ⟨_, rfl, happend ▸ append_placed hw hnone⟩
    · exact ⟨_, rfl, hprepend ▸ prepend_placed hw hnone⟩
    · -- The length was tested with the entry still in the list.
      exact link_placed hw he (by omega) (by omega)

/-! ### Both lists -/

/-- An entry of a well-formed list points nowhere exactly when it is the last one. -/
theorem next_eq_none_iff (hw : WellFormed h L xs) (he : e ∈ xs) :
    h.next e = none ↔ xs.getLast? = some e := by
  obtain ⟨l, r, rfl⟩ := List.append_of_mem he
  have her : e ∉ r := (List.nodup_cons.mp (List.nodup_append.mp hw.nodup).2.1).1
  rw [hw.next_eq, List.head?_eq_none_iff]
  constructor
  · rintro rfl
    exact List.getLast?_concat
  · intro hlast
    by_contra hr
    obtain ⟨r', b, rfl⟩ := (List.eq_nil_or_concat r).resolve_left hr
    rw [List.concat_eq_append, ← List.cons_append, ← List.append_assoc, List.getLast?_concat]
      at hlast
    rw [Option.some.inj hlast] at her
    simp at her

/-- `Entry::rem` takes the entry out and leaves the others in their order. -/
theorem rem_erase (hw : WellFormed h L xs) (he : e ∈ xs) :
    WellFormed (Entry.rem e h) L (xs.erase e) := by
  obtain ⟨l, r, rfl⟩ := List.append_of_mem he
  rw [hw.erase_eq]
  exact hw.rem

/-- Destroying it does the same. -/
theorem delete_erase (hw : WellFormed h L xs) (he : e ∈ xs) :
    WellFormed (Entry.delete e h) L (xs.erase e) := by
  obtain ⟨l, r, rfl⟩ := List.append_of_mem he
  rw [hw.erase_eq]
  exact hw.delete

/-- `Entry::rem` leaves the entry in no list, and its pointer to the next one as it was. -/
theorem rem_entry (hw : WellFormed h L xs) (he : e ∈ xs) :
    (Entry.rem e h).list e = none ∧ (Entry.rem e h).next e = h.next e := by
  obtain ⟨l, r, rfl⟩ := List.append_of_mem he
  have hprev : some e ≠ h.prev e := by
    rw [hw.prev_eq]
    exact fun hlast => hw.not_mem_front (List.mem_of_getLast? hlast.symm)
  refine ⟨hw.list_rem, ?_⟩
  have hsucc := congrFun (rem_succ (hw.owner e he)) (some e)
  rwa [Function.update_of_ne hprev] at hsucc

/-- The list that the entry goes to, once the entry has been taken out of its own. -/
theorem rem_target (hA : WellFormed h A xs) (hB : WellFormed h B ys) (he : e ∈ xs) :
    WellFormed (Entry.rem e h) B (ys.erase e) := by
  by_cases hy : e ∈ ys
  · exact rem_erase hB hy
  · have hne : B ≠ A := by
      rintro rfl
      rw [hA.forward.unique hB.forward] at he
      exact hy he
    obtain ⟨l, r, rfl⟩ := List.append_of_mem he
    rw [List.erase_of_not_mem hy]
    exact (rem_confined hA).wellFormed hB hne hy

/-- An entry placed into the list it goes to has been moved there. -/
theorem moved_of_placed (hA : WellFormed h A xs) (hB : WellFormed h B ys) (he : e ∈ xs)
    (hplaced : Placed (Entry.rem e h) h' B e (ys.erase e)) :
    ∃ xs' ys', Moved h' A B e xs ys xs' ys' := by
  obtain ⟨l, r, hsplit, hs, hsame⟩ := hplaced
  have htarget := rem_target hA hB he
  have hout : e ∉ l ++ r := hsplit ▸ hB.nodup.not_mem_erase
  have hel : e ∉ l := fun hl => hout (List.mem_append_left r hl)
  have hlive : (Entry.rem e h).live e = true := by
    rw [(rem_name_live e h).2]
    exact hA.live e he
  rw [hsplit] at htarget
  have hw := htarget.splice hout hlive hs
  have horder : (l ++ e :: r).erase e = ys.erase e := by
    rw [List.erase_append_right _ hel, List.erase_cons_head, hsplit]
  have honce : (l ++ e :: r).count e = 1 := List.count_eq_one_of_mem hw.nodup (by simp)
  by_cases hAB : A = B
  · subst hAB
    obtain rfl := hA.forward.unique hB.forward
    exact ⟨_, _, hw, hw, honce, fun hne => absurd rfl hne, horder, horder⟩
  · have hsource : WellFormed h' A (xs.erase e) :=
      ((spliced_touches hs hsame).confined htarget).wellFormed (rem_erase hA he) hAB
        hA.nodup.not_mem_erase
    refine ⟨_, _, hsource, hw, honce, ?_, ?_, horder⟩
    · exact fun _ => hA.nodup.not_mem_erase
    · exact List.erase_of_not_mem hA.nodup.not_mem_erase

/-- The last entry stays the last one when another entry is taken out. -/
theorem getLast?_erase (hlast : ys.getLast? = some x) (hne : x ≠ e) :
    (ys.erase e).getLast? = some x := by
  obtain ⟨l, rfl⟩ := List.getLast?_eq_some_iff.mp hlast
  by_cases hel : e ∈ l
  · rw [List.erase_append_left _ hel, List.getLast?_concat]
  · rw [List.erase_append_right _ hel, List.erase_of_not_mem (by simpa using hne.symm),
      List.getLast?_concat]

/-- An entry added by `insert_after` behind the last one keeps its pointer, so that the list does
not end in NULL unless that pointer was NULL. -/
theorem not_wellFormed_of_stale (hA : WellFormed h A xs) (hB : WellFormed h B ys) (he : e ∈ xs)
    (hne : x ≠ e) (hlast : ys.getLast? = some x) (hmiddle : xs.getLast? ≠ some e) :
    ¬ WellFormed (insertAfter B e h x) B zs := by
  intro hw
  obtain ⟨hnone, hnext⟩ := rem_entry hA he
  have htarget := rem_target hA hB he
  have hlast' := getLast?_erase hlast hne
  have hx : (Entry.rem e h).next x = none :=
    (next_eq_none_iff htarget (List.mem_of_getLast? hlast')).mpr hlast'
  have hend : (insertAfter B e h x).last B = some e ∧
      (insertAfter B e h x).next e = (Entry.rem e h).next e := by
    simp [insertAfter, hA.owner e he, hx, hne.symm]
  have hz : zs.getLast? = some e := by rw [← hw.last_eq, hend.1]
  have hzero : h.next e = none := by
    rw [← hnext, ← hend.2]
    exact (next_eq_none_iff hw (List.mem_of_getLast? hz)).mpr hz
  exact hmiddle ((next_eq_none_iff hA he).mp hzero)

/-- For any two well-formed lists, which may be the same one, and every entry of the first, a call
that puts it into the second moves it there as it should, except for `insert_after` behind the last
entry with an entry that is not the last one of its own list. -/
theorem moved_iff (hA : WellFormed h A xs) (hB : WellFormed h B ys) (he : e ∈ xs)
    (hx : ∀ x, p = .insertAfter x → x ∈ ys ∧ x ≠ e) :
    (∃ h' xs' ys', place B e h p = some h' ∧ Moved h' A B e xs ys xs' ys') ↔
      ∀ x, p = .insertAfter x → ys.getLast? = some x → xs.getLast? = some e := by
  constructor
  · rintro ⟨h', xs', ys', hplace, hmoved⟩ x rfl hlast
    by_contra hmiddle
    obtain rfl := Option.some.inj hplace
    exact not_wellFormed_of_stale hA hB he (hx x rfl).2 hlast hmiddle hmoved.target
  · intro hcond
    obtain ⟨hnone, hnext⟩ := rem_entry hA he
    have hstale : ∀ x, p = .insertAfter x → (ys.erase e).getLast? = some x →
        (Entry.rem e h).next e = none := by
      intro x hp hlast
      rw [hnext]
      obtain ⟨y, hy⟩ : ∃ y, ys.getLast? = some y := by
        refine Option.ne_none_iff_exists'.mp ?_
        rw [Ne, List.getLast?_eq_none_iff]
        rintro rfl
        simp at hlast
      by_cases hye : y = e
      · subst hye
        exact (next_eq_none_iff hB (List.mem_of_getLast? hy)).mpr hy
      · rw [getLast?_erase hy hye] at hlast
        obtain rfl := Option.some.inj hlast
        exact (next_eq_none_iff hA he).mpr (hcond y hp hy)
    have hother : ∀ x, p = .insertAfter x → x ∈ ys.erase e ∧ x ≠ e := by
      intro x hp
      obtain ⟨hmem, hne⟩ := hx x hp
      exact ⟨(List.mem_erase_of_ne hne).mpr hmem, hne⟩
    have hlength : h.length B ≤ (ys.erase e).length + 1 := by
      rw [hB.length, List.length_erase]
      split <;> omega
    obtain ⟨h', hplace, hplaced⟩ := place_placed (p := p) (by simp [hA.owner e he]) hnone
      (rem_target hA hB he) hB.nodup.not_mem_erase hlength hother hstale
    obtain ⟨xs', ys', hmoved⟩ := moved_of_placed hA hB he hplaced
    exact ⟨h', xs', ys', hplace, hmoved⟩

/-- Two lists: one of the entries 1 and 2, one of the entry 3. -/
def twoLists : Heap :=
  let h := Entry.new 3 (Entry.new 2 (Entry.new 1 (new 1 (new 0 unused)) []) []) []
  append 1 3 (append 0 2 (append 0 1 h))

/-- The last entry of one list goes behind the only one of the other. -/
theorem moved_last :
    ∃ h' xs' ys', place 1 2 twoLists (.insertAfter 3) = some h' ∧
      Moved h' 0 1 2 [1, 2] [3] xs' ys' := by
  have hA : WellFormed twoLists 0 [1, 2] := by decide +kernel
  have hB : WellFormed twoLists 1 [3] := by decide +kernel
  refine (moved_iff hA hB (by decide) ?_).mpr ?_
  · rintro x ⟨⟩
    decide
  · intro x _ _
    rfl

/-- The first entry of a list of two, put behind the only one of another list, still points to its
old successor. -/
theorem not_moved_first :
    ¬ ∀ (h : Heap) (A B : ListId) (e : Addr) (xs ys : Playlist Addr) (p : Place),
      WellFormed h A xs → WellFormed h B ys → e ∈ xs →
      (∀ x, p = .insertAfter x → x ∈ ys ∧ x ≠ e) →
      ∃ h' xs' ys', place B e h p = some h' ∧ Moved h' A B e xs ys xs' ys' := by
  intro hall
  have hA : WellFormed twoLists 0 [1, 2] := by decide +kernel
  have hB : WellFormed twoLists 1 [3] := by decide +kernel
  have hother : ∀ x, Place.insertAfter 3 = .insertAfter x → x ∈ [3] ∧ x ≠ 1 := by
    rintro x ⟨⟩
    decide
  obtain ⟨h', xs', ys', hplace, hmoved⟩ := hall twoLists 0 1 1 _ _ _ hA hB (by decide) hother
  obtain rfl := Option.some.inj hplace
  exact not_wellFormed_of_stale hA hB (by decide) (by decide) rfl (by decide) hmoved.target

end Linklist

end IvySync
