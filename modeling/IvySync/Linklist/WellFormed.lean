import IvySync.Linklist.Defs

/-!
# Well-formed lists

`WellFormed h L xs` says that the list at `L` is made of exactly the entries `xs`: the chain of
`next` pointers from `first` visits them, the chain of `prev` pointers from `last` visits them
backwards, both end in NULL, no entry occurs twice, `length` counts them and each names `L` as its
list.

The three ways to add an entry write different fields, but each of them is the same update of the
list taken as a cycle through NULL (`Spliced`), so that one theorem, `WellFormed.splice`, covers
them.  `Entry::rem` is the update of `Linked.Cycle.unlink`.
-/

namespace IvySync

open Function (update)

namespace Heap

/-- The forward pointers of a list as a cycle through NULL. -/
def succ (h : Heap) (L : ListId) : Option Addr → Option Addr := Linked.around (h.first L) h.next

/-- The backward pointers of a list as a cycle through NULL. -/
def pred (h : Heap) (L : ListId) : Option Addr → Option Addr := Linked.around (h.last L) h.prev

end Heap

/-- The list at `L` is made of exactly these entries. -/
structure WellFormed (h : Heap) (L : ListId) (xs : Playlist Addr) : Prop where
  /-- The chain from `first`. -/
  forward : Linked.Visits h.next (h.first L) xs
  /-- The chain from `last`. -/
  backward : Linked.Visits h.prev (h.last L) xs.reverse
  nodup : xs.Nodup
  length : h.length L = xs.length
  owner : ∀ a ∈ xs, h.list a = some L
  live : ∀ a ∈ xs, h.live a = true

/-- Whether a list is made of these entries, by following its pointers. -/
instance (h : Heap) (L : ListId) (xs : Playlist Addr) : Decidable (WellFormed h L xs) :=
  decidable_of_iff (Linked.Visits h.next (h.first L) xs ∧
      Linked.Visits h.prev (h.last L) xs.reverse ∧ xs.Nodup ∧ h.length L = xs.length ∧
      (∀ a ∈ xs, h.list a = some L) ∧ ∀ a ∈ xs, h.live a = true)
    ⟨fun ⟨h1, h2, h3, h4, h5, h6⟩ => ⟨h1, h2, h3, h4, h5, h6⟩,
      fun ⟨h1, h2, h3, h4, h5, h6⟩ => ⟨h1, h2, h3, h4, h5, h6⟩⟩

variable {h h' : Heap} {L : ListId} {e : Addr} {xs l r : Playlist Addr}

namespace WellFormed

/-- The forward cycle of a well-formed list. -/
theorem cycle_succ (hw : WellFormed h L xs) : Linked.Cycle (h.succ L) xs :=
  Linked.cycle_around_iff.mpr hw.forward

/-- The backward cycle of a well-formed list. -/
theorem cycle_pred (hw : WellFormed h L xs) : Linked.Cycle (h.pred L) xs.reverse :=
  Linked.cycle_around_iff.mpr hw.backward

/-- The backward cycle of a well-formed list, cut at one of its entries. -/
theorem cycle_pred_middle (hw : WellFormed h L (l ++ e :: r)) :
    Linked.Cycle (h.pred L) (r.reverse ++ e :: l.reverse) := by
  simpa using hw.cycle_pred

/-- An entry is in a list once. -/
theorem not_mem (hw : WellFormed h L (l ++ e :: r)) : e ∉ l ++ r :=
  (List.nodup_cons.mp (List.nodup_middle.mp hw.nodup)).1

theorem not_mem_front (hw : WellFormed h L (l ++ e :: r)) : e ∉ l :=
  fun hl => hw.not_mem (List.mem_append_left r hl)

theorem erase_eq (hw : WellFormed h L (l ++ e :: r)) : (l ++ e :: r).erase e = l ++ r := by
  rw [List.erase_append_right _ hw.not_mem_front, List.erase_cons_head]

/-- The list begins at `first`. -/
theorem first_eq (hw : WellFormed h L xs) : h.first L = xs.head? := hw.forward.eq_head?

/-- The list ends at `last`. -/
theorem last_eq (hw : WellFormed h L xs) : h.last L = xs.getLast? := by
  rw [hw.backward.eq_head?, List.head?_reverse]

/-- The successor of an entry. -/
theorem next_eq (hw : WellFormed h L (l ++ e :: r)) : h.next e = r.head? :=
  (Linked.cycle_append_cons.mp hw.cycle_succ).2.2.2

/-- The predecessor of an entry. -/
theorem prev_eq (hw : WellFormed h L (l ++ e :: r)) : h.prev e = l.getLast? := by
  have hprev : h.prev e = l.reverse.head? :=
    (Linked.cycle_append_cons.mp hw.cycle_pred_middle).2.2.2
  rw [hprev, List.head?_reverse]

/-- A list does not change when its entries and its own fields do not. -/
theorem frame (hw : WellFormed h L xs) (hnext : ∀ a ∈ xs, h'.next a = h.next a)
    (hprev : ∀ a ∈ xs, h'.prev a = h.prev a) (hlist : ∀ a ∈ xs, h'.list a = h.list a)
    (hlive : ∀ a ∈ xs, h'.live a = h.live a) (hfirst : h'.first L = h.first L)
    (hlast : h'.last L = h.last L) (hlength : h'.length L = h.length L) : WellFormed h' L xs where
  forward := hfirst ▸ hw.forward.congr hnext
  backward := hlast ▸ hw.backward.congr fun a ha => hprev a (List.mem_reverse.mp ha)
  nodup := hw.nodup
  length := hlength.trans hw.length
  owner a ha := (hlist a ha).trans (hw.owner a ha)
  live a ha := (hlive a ha).trans (hw.live a ha)

end WellFormed

/-- The constructor makes an empty list. -/
theorem wellFormed_new (L : ListId) (h : Heap) : WellFormed (Linklist.new L h) L [] where
  forward := by simp [Linklist.new]
  backward := by simp [Linklist.new]
  nodup := List.nodup_nil
  length := by simp [Linklist.new]
  owner := by simp
  live := by simp

/-! ### Adding an entry -/

/-- The update that puts `e` between `u` and `v` in the list at `L`. -/
structure Spliced (h h' : Heap) (L : ListId) (e : Addr) (u v : Option Addr) : Prop where
  succ : h'.succ L = update (update (h.succ L) u (some e)) (some e) v
  pred : h'.pred L = update (update (h.pred L) v (some e)) (some e) u
  length : h'.length L = h.length L + 1
  list : h'.list = update h.list e (some L)
  live : h'.live = h.live
  name : h'.name = h.name

/-- A cycle whose pointer out of NULL is updated is that of another first entry. -/
theorem update_around_none (first o : Option Addr) (next : Addr → Option Addr) :
    update (Linked.around first next) none o = Linked.around o next := by
  funext u
  cases u <;> simp [Linked.around, update]

/-- A cycle whose pointer out of an entry is updated is that of the updated pointers. -/
theorem update_around_some (first o : Option Addr) (next : Addr → Option Addr) (a : Addr) :
    update (Linked.around first next) (some a) o = Linked.around first (update next a o) := by
  funext u
  cases u <;> simp [Linked.around, update]

/-- `append` puts the entry between the last one and NULL. -/
theorem append_spliced (hlist : h.list e = none) :
    Spliced h (Linklist.append L e h) L e (h.last L) none := by
  unfold Linklist.append
  rw [hlist]
  cases hlast : h.last L with
  | none =>
    constructor <;>
      simp [hlast, Heap.succ, Heap.pred, update_around_none, update_around_some]
  | some ptr =>
    constructor <;>
      simp [hlast, Heap.succ, Heap.pred, update_around_none, update_around_some]

/-- `prepend` puts the entry between NULL and the first one. -/
theorem prepend_spliced (hlist : h.list e = none) :
    Spliced h (Linklist.prepend L e h) L e none (h.first L) := by
  unfold Linklist.prepend
  rw [hlist]
  cases hfirst : h.first L with
  | none =>
    constructor <;>
      simp [hfirst, Heap.succ, Heap.pred, update_around_none, update_around_some]
  | some ptr =>
    constructor <;>
      simp [hfirst, Heap.succ, Heap.pred, update_around_none, update_around_some]

/-- Linking an entry in front of another one, as `insert` does it. -/
theorem link_spliced {ptr before : Addr} (hne : e ≠ ptr) :
    Spliced h
      { h with
          next := update (update h.next before (some e)) e (some ptr)
          prev := update (update h.prev e (some before)) ptr (some e)
          length := update h.length L (h.length L + 1)
          list := update h.list e (some L) } L e (some before) (some ptr) := by
  have hcomm : update (update h.prev e (some before)) ptr (some e) =
      update (update h.prev ptr (some e)) e (some before) := Function.update_comm hne ..
  constructor <;> simp [Heap.succ, Heap.pred, update_around_some, hcomm]

/-- The one theorem about adding: an entry that is put between two neighbours in a well-formed list
stands between them in a well-formed list. -/
theorem WellFormed.splice (hw : WellFormed h L (l ++ r)) (he : e ∉ l ++ r)
    (hlive : h.live e = true) (hs : Spliced h h' L e l.getLast? r.head?) :
    WellFormed h' L (l ++ e :: r) := by
  have hnodup : (l ++ e :: r).Nodup := List.nodup_middle.mpr (List.nodup_cons.mpr ⟨he, hw.nodup⟩)
  have hpred : Linked.Cycle (h.pred L) (r.reverse ++ l.reverse) := by
    simpa using hw.cycle_pred
  have hrev : (r.reverse ++ e :: l.reverse).Nodup := by
    simpa using List.nodup_reverse.mpr hnodup
  refine ⟨?_, ?_, hnodup, ?_, ?_, ?_⟩
  · have h1 := hw.cycle_succ.insert hnodup
    rw [← hs.succ] at h1
    exact Linked.cycle_around_iff.mp h1
  · have h2 := hpred.insert hrev
    rw [List.getLast?_reverse, List.head?_reverse, ← hs.pred] at h2
    simpa using Linked.cycle_around_iff.mp h2
  · rw [hs.length, hw.length]
    simp only [List.length_append, List.length_cons]
    omega
  · intro a ha
    rw [hs.list]
    by_cases hae : a = e
    · rw [hae, Function.update_self]
    · rw [Function.update_of_ne hae]
      exact hw.owner a (by simpa [hae] using ha)
  · intro a ha
    rw [hs.live]
    by_cases hae : a = e
    · rw [hae, hlive]
    · exact hw.live a (by simpa [hae] using ha)

/-! ### Taking an entry out -/

/-- An entry in no list is left alone by `rem`. -/
theorem rem_of_list_eq_none (hlist : h.list e = none) : Entry.rem e h = h := by
  unfold Entry.rem
  rw [hlist]

/-- `rem` links the neighbours of the entry to each other, forwards. -/
theorem rem_succ (hlist : h.list e = some L) :
    (Entry.rem e h).succ L = update (h.succ L) (h.prev e) (h.next e) := by
  unfold Entry.rem
  rw [hlist]
  cases hnext : h.next e <;> cases hprev : h.prev e <;>
    simp [hnext, hprev, Heap.succ, update_around_none, update_around_some, Function.update_apply]

/-- `rem` links the neighbours of the entry to each other, backwards. -/
theorem rem_pred (hlist : h.list e = some L) :
    (Entry.rem e h).pred L = update (h.pred L) (h.next e) (h.prev e) := by
  unfold Entry.rem
  rw [hlist]
  cases hnext : h.next e <;> cases hprev : h.prev e <;>
    simp [hnext, hprev, Heap.pred, update_around_none, update_around_some, Function.update_apply]

/-- `rem` takes the entry off the count of its list and its list off the entry. -/
theorem rem_length_list (hlist : h.list e = some L) :
    (Entry.rem e h).length L = h.length L - 1 ∧ (Entry.rem e h).list = update h.list e none := by
  unfold Entry.rem
  rw [hlist]
  cases hnext : h.next e <;> cases hprev : h.prev e <;>
    simp [hnext, hprev, Function.update_apply]

/-- `rem` neither renames nor frees an entry. -/
theorem rem_name_live (e : Addr) (h : Heap) :
    (Entry.rem e h).name = h.name ∧ (Entry.rem e h).live = h.live := by
  unfold Entry.rem
  cases hlist : h.list e with
  | none => simp
  | some L =>
    cases hnext : h.next e <;> cases hprev : h.prev e <;>
      simp [hnext, hprev, Function.update_apply]

/-- `rem` takes exactly this entry out of a well-formed list. -/
theorem WellFormed.rem (hw : WellFormed h L (l ++ e :: r)) :
    WellFormed (Entry.rem e h) L (l ++ r) := by
  have hlist : h.list e = some L := hw.owner e (by simp)
  have hrev : (r.reverse ++ e :: l.reverse).Nodup := by
    simpa using List.nodup_reverse.mpr hw.nodup
  obtain ⟨he, hnodup⟩ := List.nodup_cons.mp (List.nodup_middle.mp hw.nodup)
  refine ⟨?_, ?_, hnodup, ?_, ?_, ?_⟩
  · have h1 := hw.cycle_succ.unlink hw.nodup
    rw [← hw.prev_eq, ← hw.next_eq, ← rem_succ hlist] at h1
    exact Linked.cycle_around_iff.mp h1
  · have h2 := hw.cycle_pred_middle.unlink hrev
    rw [List.getLast?_reverse, List.head?_reverse, ← hw.prev_eq, ← hw.next_eq,
      ← rem_pred hlist] at h2
    simpa using Linked.cycle_around_iff.mp h2
  · rw [(rem_length_list hlist).1, hw.length]
    simp only [List.length_append, List.length_cons]
    omega
  · intro a ha
    have hae : a ≠ e := fun hae => he (hae ▸ ha)
    rw [(rem_length_list hlist).2, Function.update_of_ne hae]
    exact hw.owner a (by rw [List.mem_append] at ha ⊢; exact ha.imp_right (List.mem_cons_of_mem e))
  · intro a ha
    rw [(rem_name_live e h).2]
    exact hw.live a (by rw [List.mem_append] at ha ⊢; exact ha.imp_right (List.mem_cons_of_mem e))

/-- `rem` leaves the entry in no list. -/
theorem WellFormed.list_rem (hw : WellFormed h L (l ++ e :: r)) :
    (Entry.rem e h).list e = none := by
  rw [(rem_length_list (hw.owner e (by simp))).2, Function.update_self]

/-- `delete` takes exactly this entry out of a well-formed list. -/
theorem WellFormed.delete (hw : WellFormed h L (l ++ e :: r)) :
    WellFormed (Entry.delete e h) L (l ++ r) := by
  have he := hw.not_mem
  refine hw.rem.frame ?_ ?_ ?_ ?_ rfl rfl rfl
  · exact fun _ _ => rfl
  · exact fun _ _ => rfl
  · exact fun _ _ => rfl
  · intro a ha
    have hae : a ≠ e := fun hae => he (hae ▸ ha)
    exact Function.update_of_ne hae ..

/-! ### Finding an entry -/

/-- `pick` finds the entry at a position, whichever of its ways it takes. -/
theorem WellFormed.pick (hw : WellFormed h L xs) (pos : ℤ) :
    Linklist.pick L h pos = xs.pick pos := by
  unfold Linklist.pick Playlist.pick
  rw [hw.length]
  split_ifs with hout hone hlast
  · rfl
  · rw [hw.first_eq, hone]
    simp [List.head?_eq_getElem?]
  · rw [hw.last_eq, hlast, List.getLast?_eq_getElem?]
    congr 1
    omega
  · exact hw.forward.walk _

/-- A position behind the first one has an entry in front of it. -/
theorem WellFormed.exists_neighbours {pos : ℤ} (hw : WellFormed h L xs) (hgt : 1 < pos)
    (hle : pos ≤ xs.length) :
    ∃ l before ptr r, xs = (l ++ [before]) ++ ptr :: r ∧ ((l ++ [before]).length : ℤ) + 1 = pos ∧
      Linklist.pick L h pos = some ptr ∧ h.prev ptr = some before := by
  obtain ⟨ptr, hptr⟩ := Playlist.exists_pick (Int.le_of_lt hgt) hle
  obtain ⟨l, r, rfl, rfl⟩ := Playlist.exists_split_of_pick hptr
  have hl : l ≠ [] := by
    rintro rfl
    simp at hgt
  obtain ⟨l, before, rfl⟩ := (List.eq_nil_or_concat l).resolve_left hl
  rw [List.concat_eq_append] at hw hptr ⊢
  refine ⟨l, before, ptr, r, rfl, rfl, by rw [hw.pick, hptr], ?_⟩
  rw [hw.prev_eq, List.getLast?_concat]

/-- `insert` of an entry that is in no list puts it behind the entries that stay in front, and
follows no NULL pointer. -/
theorem WellFormed.exists_insert_spliced (hw : WellFormed h L xs) (hlist : h.list e = none)
    (pos : ℤ) :
    ∃ h', Linklist.insert L e h pos = some h' ∧
      Spliced h h' L e (xs.take (xs.slot pos)).getLast? (xs.drop (xs.slot pos)).head? := by
  unfold Linklist.insert Playlist.slot
  rw [hw.length]
  split_ifs with hlast hfirst hsome
  · refine ⟨_, rfl, ?_⟩
    rw [List.take_length, List.drop_length, ← hw.last_eq]
    exact append_spliced hlist
  · refine ⟨_, rfl, ?_⟩
    rw [Int.toNat_of_nonpos (Int.sub_nonpos_of_le hfirst), List.drop_zero, ← hw.first_eq]
    exact prepend_spliced hlist
  · simp [hlist] at hsome
  · obtain ⟨l, before, ptr, r, rfl, rfl, hpick, hprev⟩ :=
      hw.exists_neighbours (Int.not_le.mp hfirst) (Int.le_of_lt (Int.not_le.mp hlast))
    have hne : e ≠ ptr := by
      rintro rfl
      simp [hw.owner e (by simp)] at hlist
    have hfront : ((l ++ [before]).length + 1 - 1 : ℤ).toNat = (l ++ [before]).length := by
      omega
    dsimp only
    rw [hpick, Option.bind_some, hprev, Option.map_some, hfront, List.take_left, List.drop_left,
      List.getLast?_concat, List.head?_cons]
    exact ⟨_, rfl, link_spliced hne⟩

end IvySync
