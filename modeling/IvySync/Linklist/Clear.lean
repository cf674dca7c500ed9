import IvySync.Linklist.Select

/-!
# Entries of a list that has been cleared

`Linklist::clear` forgets the entries of a list, but the entries go on naming the list and pointing
to each other.  Such a stale entry is taken out of the list once more by the next `rem`, by the
destructor and by every call that adds it somewhere, and the list, which no longer has it, pays for
it with its length and its ends.

A run that does none of this keeps every list well formed (`wellFormed_of_run`): stale entries point
to stale entries only (`Orderly`), so that exchanging them among themselves reaches no list.
-/

namespace IvySync

open Function (update)

namespace Linklist

variable {h h' : Heap} {L M : ListId} {e : Addr} {ys l r : Playlist Addr}
  {xs : ListId → Playlist Addr}

/-- A call on some entries and lists. -/
inductive Op
  | create (x : Arrival)
  | append (L : ListId) (e : Addr)
  | rem (e : Addr)
  | up (e : Addr)
  | down (e : Addr)
  | delete (e : Addr)
  | clear (L : ListId)
  deriving DecidableEq, Repr

namespace Op

/-- What the call does; `none` when NULL is followed. -/
def run (h : Heap) : Op → Option Heap
  | .create x => some (x.make h)
  | .append L e => some (Linklist.append L e h)
  | .rem e => some (Entry.rem e h)
  | .up e => some (Entry.up e h).1
  | .down e => some (Entry.down e h).1
  | .delete e => some (Entry.delete e h)
  | .clear L => Linklist.clear L h

/-- The entry exists, or does not exist yet. -/
def Allowed (h : Heap) : Op → Prop
  | .create x => h.live x.addr = false
  | .append _ e | .rem e | .up e | .down e | .delete e => h.live e = true
  | .clear _ => True

instance (h : Heap) (a : Op) : Decidable (a.Allowed h) := by
  cases a <;> unfold Allowed <;> infer_instance

/-- The list that the entry names, if it names one, has it. -/
def Attached (h : Heap) (e : Addr) : Prop := ∀ L ∈ h.list e, e ∈ reachable h L

instance (h : Heap) (e : Addr) : Decidable (Attached h e) :=
  inferInstanceAs (Decidable (∀ L ∈ h.list e, e ∈ reachable h L))

/-- Nothing is taken out of a list that does not have it: the entry is attached, or changes places
with a neighbour inside of a chain of stale ones, where no end of a list is written. -/
def Permitted (h : Heap) : Op → Prop
  | .append _ e | .rem e | .delete e => Attached h e
  | .up e =>
    Attached h e ∨ h.prev e = none ∨ h.next e ≠ none ∧ ∀ p ∈ h.prev e, h.prev p ≠ none
  | .down e =>
    Attached h e ∨ h.next e = none ∨ h.prev e ≠ none ∧ ∀ n ∈ h.next e, h.next n ≠ none
  | .create _ | .clear _ => True

instance (h : Heap) (a : Op) : Decidable (a.Permitted h) := by
  cases a <;> unfold Permitted <;> infer_instance

end Op

/-- Entries and lists under these calls. -/
def operating : Machine Heap Op Unit where
  next h a := if a.Allowed h then (a.run h).map fun h' => (h', ()) else none

/-! ### Stale entries -/

/-- The entry names a list that does not have it. -/
def Stale (h : Heap) (xs : ListId → Playlist Addr) (e : Addr) : Prop :=
  ∃ L, h.list e = some L ∧ e ∉ xs L

/-- Every list is well formed, and stale entries, which still exist, point to stale entries. -/
structure Orderly (h : Heap) (xs : ListId → Playlist Addr) : Prop where
  lists : ∀ L, WellFormed h L (xs L)
  live : ∀ a, Stale h xs a → h.live a = true
  next : ∀ a n, Stale h xs a → h.next a = some n → Stale h xs n
  prev : ∀ a p, Stale h xs a → h.prev a = some p → Stale h xs p

/-- An entry is in no other list than the one it names. -/
theorem Orderly.eq_of_mem (ho : Orderly h xs) (he : e ∈ xs L) (hM : e ∈ xs M) : M = L := by
  have hL := (ho.lists L).owner e he
  rw [(ho.lists M).owner e hM] at hL
  exact Option.some.inj hL

theorem Orderly.not_mem (ho : Orderly h xs) (he : Stale h xs e) : e ∉ xs L := by
  obtain ⟨M, hlist, hM⟩ := he
  intro hL
  rw [(ho.lists L).owner e hL] at hlist
  exact hM (Option.some.inj hlist ▸ hL)

theorem Orderly.not_stale (ho : Orderly h xs) (he : e ∈ xs L) : ¬ Stale h xs e :=
  fun hstale => ho.not_mem hstale he

theorem not_stale_of_none (he : h.list e = none) : ¬ Stale h xs e := by
  rintro ⟨L, hlist, -⟩
  rw [he] at hlist
  cases hlist

/-- An attached entry is in the list that it names, or it names none. -/
theorem Orderly.attached (ho : Orderly h xs) (ha : Op.Attached h e) :
    h.list e = none ∨ ∃ L, e ∈ xs L := by
  cases hlist : h.list e with
  | none => exact .inl rfl
  | some L =>
    have hmem := ha L hlist
    rw [reachable_eq (ho.lists L)] at hmem
    exact .inr ⟨L, hmem⟩

/-- Where the same entries are stale and nothing about them changes, well-formed lists are enough. -/
theorem Orderly.of_same_stale {ys : ListId → Playlist Addr} (ho : Orderly h xs)
    (hlists : ∀ L, WellFormed h' L (ys L)) (hiff : ∀ a, Stale h' ys a ↔ Stale h xs a)
    (hlive : ∀ a, Stale h xs a → h'.live a = h.live a)
    (hnext : ∀ a, Stale h xs a → h'.next a = h.next a)
    (hprev : ∀ a, Stale h xs a → h'.prev a = h.prev a) : Orderly h' ys where
  lists := hlists
  live a ha := by
    have ha' := (hiff a).1 ha
    rw [hlive a ha']
    exact ho.live a ha'
  next a n ha hn := by
    have ha' := (hiff a).1 ha
    rw [hnext a ha'] at hn
    exact (hiff n).2 (ho.next a n ha' hn)
  prev a p ha hp := by
    have ha' := (hiff a).1 ha
    rw [hprev a ha'] at hp
    exact (hiff p).2 (ho.prev a p ha' hp)

/-- A call that touches one list and an entry that is not stale leaves everything orderly. -/
theorem Orderly.touch (ho : Orderly h xs) (hstale : ¬ Stale h xs e)
    (ht : Touches h h' L (xs L) e) (hw : WellFormed h' L ys) (hother : ∀ M ≠ L, e ∉ xs M)
    (hsame : ∀ a ≠ e, a ∈ ys ↔ a ∈ xs L) (he : h'.list e = none ∨ e ∈ ys) :
    Orderly h' (update xs L ys) := by
  have hlists : ∀ M, WellFormed h' M (update xs L ys M) := by
    intro M
    by_cases hM : M = L
    · rw [hM, Function.update_self]
      exact hw
    · rw [Function.update_of_ne hM]
      exact (ht.confined (ho.lists L)).wellFormed (ho.lists M) hM (hother M hM)
  have hiff : ∀ a, Stale h' (update xs L ys) a ↔ Stale h xs a := by
    intro a
    by_cases hae : a = e
    · subst hae
      refine iff_of_false ?_ hstale
      rcases he with hnone | hmem
      · exact not_stale_of_none hnone
      · rintro ⟨M, hlist, hout⟩
        rw [hw.owner a hmem] at hlist
        rw [← Option.some.inj hlist, Function.update_self] at hout
        exact hout hmem
    · unfold Stale
      rw [ht.list a hae]
      refine exists_congr fun M => and_congr_right fun _ => not_congr ?_
      by_cases hM : M = L
      · rw [hM, Function.update_self]
        exact hsame a hae
      · rw [Function.update_of_ne hM]
  have hne : ∀ a, Stale h xs a → a ≠ e := by
    rintro a ha rfl
    exact hstale ha
  refine ho.of_same_stale hlists hiff (fun a _ => by rw [ht.live]) ?_ ?_
  · exact fun a ha => ht.next a (hne a ha) (ho.not_mem ha)
  · exact fun a ha => ht.prev a (hne a ha) (ho.not_mem ha)

/-- A change to an entry that is in no list, before and after, leaves everything orderly. -/
theorem Orderly.aside (ho : Orderly h xs) (hnone : h.list e = none) (hnone' : h'.list e = none)
    (hnext : ∀ a ≠ e, h'.next a = h.next a) (hprev : ∀ a ≠ e, h'.prev a = h.prev a)
    (hlist : ∀ a ≠ e, h'.list a = h.list a) (hlive : ∀ a ≠ e, h'.live a = h.live a)
    (hfirst : h'.first = h.first) (hlast : h'.last = h.last) (hlength : h'.length = h.length) :
    Orderly h' xs := by
  have hne : ∀ a, Stale h xs a → a ≠ e := by
    rintro a ha rfl
    exact not_stale_of_none hnone ha
  have hiff : ∀ a, Stale h' xs a ↔ Stale h xs a := by
    intro a
    by_cases hae : a = e
    · subst hae
      exact iff_of_false (not_stale_of_none hnone') (not_stale_of_none hnone)
    · unfold Stale
      rw [hlist a hae]
  refine ho.of_same_stale ?_ hiff (fun a ha => hlive a (hne a ha)) (fun a ha => hnext a (hne a ha))
    (fun a ha => hprev a (hne a ha))
  intro L
  have hw := ho.lists L
  have hmem : ∀ a ∈ xs L, a ≠ e := by
    rintro a ha rfl
    rw [hw.owner a ha] at hnone
    cases hnone
  exact hw.frame (fun a ha => hnext a (hmem a ha)) (fun a ha => hprev a (hmem a ha))
    (fun a ha => hlist a (hmem a ha)) (fun a ha => hlive a (hmem a ha)) (congrFun hfirst L)
    (congrFun hlast L) (congrFun hlength L)

/-! ### The calls -/

/-- A new entry is in no list. -/
theorem Orderly.create {x : Arrival} (ho : Orderly h xs) (hx : h.live x.addr = false) :
    Orderly (x.make h) xs := by
  have hnone : h.list x.addr = none := by
    cases hlist : h.list x.addr with
    | none => rfl
    | some L =>
      have hlive : h.live x.addr = true := by
        by_cases hmem : x.addr ∈ xs L
        · exact (ho.lists L).live _ hmem
        · exact ho.live _ ⟨L, hlist, hmem⟩
      rw [hx] at hlive
      cases hlive
  refine ho.aside hnone (x.make_addr h).1 ?_ ?_ ?_ ?_ rfl rfl rfl
  · exact fun a ha => Function.update_of_ne ha ..
  · exact fun a ha => Function.update_of_ne ha ..
  · exact fun a ha => Function.update_of_ne ha ..
  · exact fun a ha => Function.update_of_ne ha ..

/-- An attached entry is taken out of its list. -/
theorem Orderly.rem (ho : Orderly h xs) (ha : Op.Attached h e) :
    (Entry.rem e h).list e = none ∧ ∃ xs', Orderly (Entry.rem e h) xs' := by
  rcases ho.attached ha with hnone | ⟨L, he⟩
  · rw [rem_of_list_eq_none hnone]
    exact ⟨hnone, xs, ho⟩
  · have hw := ho.lists L
    have hlist := (rem_entry hw he).1
    have ht : Touches h (Entry.rem e h) L (xs L) e := by
      obtain ⟨l, r, hsplit⟩ := List.append_of_mem he
      rw [hsplit] at hw ⊢
      exact rem_touches hw
    refine ⟨hlist, _, ho.touch (ho.not_stale he) ht (rem_erase hw he) ?_ ?_ (.inl hlist)⟩
    · exact fun M hM hmem => hM (ho.eq_of_mem he hmem)
    · exact fun a hae => List.mem_erase_of_ne hae

/-- An attached entry goes to the end of a list. -/
theorem Orderly.append (ho : Orderly h xs) (ha : Op.Attached h e) (hlive : h.live e = true)
    (L : ListId) : ∃ xs', Orderly (Linklist.append L e h) xs' := by
  obtain ⟨hnone, xs₁, ho₁⟩ := ho.rem ha
  have happend : Linklist.append L e h = Linklist.append L e (Entry.rem e h) := by
    cases hlist : h.list e with
    | none => rw [rem_of_list_eq_none hlist]
    | some M => simp [Linklist.append, hlist, hnone]
  have hout : ∀ M, e ∉ xs₁ M := by
    intro M hmem
    rw [(ho₁.lists M).owner e hmem] at hnone
    cases hnone
  obtain ⟨l, r, hsplit, hs, hsame⟩ := append_placed (ho₁.lists L) hnone
  have hw := ho₁.lists L
  have hmiddle : ∀ a ≠ e, a ∈ l ++ e :: r ↔ a ∈ xs₁ L := by
    intro a hae
    rw [hsplit]
    simp [hae]
  have hel := hout L
  have ht := spliced_touches hs hsame
  rw [← hsplit] at ht
  rw [hsplit] at hw hel
  rw [happend]
  refine ⟨_, ho₁.touch (not_stale_of_none hnone) ht (hw.splice hel ?_ hs) (fun M _ => hout M)
    hmiddle (.inr (by simp))⟩
  rw [(rem_name_live e h).2]
  exact hlive

/-- An attached entry is destroyed. -/
theorem Orderly.delete (ho : Orderly h xs) (ha : Op.Attached h e) :
    ∃ xs', Orderly (Entry.delete e h) xs' := by
  obtain ⟨hnone, xs₁, ho₁⟩ := ho.rem ha
  exact ⟨xs₁, ho₁.aside hnone hnone (fun _ _ => rfl) (fun _ _ => rfl) (fun _ _ => rfl)
    (fun a hae => Function.update_of_ne hae ..) rfl rfl rfl⟩

/-- Entries of a list change places. -/
theorem Orderly.within (ho : Orderly h xs) (he : e ∈ xs L) (hin : Within h h' L (xs L))
    (hw : WellFormed h' L ys) (hsame : ∀ a, a ∈ ys ↔ a ∈ xs L) : ∃ xs', Orderly h' xs' := by
  have hrest := hin.rest
  have ht : Touches h h' L (xs L) e := by
    refine ⟨fun a _ => hin.next a, fun a _ => hin.prev a, ?_, ?_, hin.first, hin.last, ?_⟩
    · intro a _
      rw [hrest]
    · rw [hrest]
    · intro M _
      rw [hrest]
  refine ⟨_, ho.touch (ho.not_stale he) ht hw ?_ (fun a _ => hsame a) (.inr ((hsame e).2 he))⟩
  exact fun M hM hmem => hM (ho.eq_of_mem he hmem)

/-- An entry without a predecessor or without a list does not go up. -/
theorem up_eq_self (hnone : h.prev e = none ∨ h.list e = none) : (Entry.up e h).1 = h := by
  rcases hnone with hnone | hnone <;> cases hprev : h.prev e <;> simp_all [Entry.up]

/-- An entry without a successor or without a list does not go down. -/
theorem down_eq_self (hnone : h.next e = none ∨ h.list e = none) : (Entry.down e h).1 = h := by
  rcases hnone with hnone | hnone <;> cases hnext : h.next e <;> simp_all [Entry.down]

/-- An attached entry goes up or down in its list. -/
theorem Orderly.exchange (ho : Orderly h xs) (ha : Op.Attached h e) :
    (∃ xs', Orderly (Entry.up e h).1 xs') ∧ ∃ xs', Orderly (Entry.down e h).1 xs' := by
  rcases ho.attached ha with hnone | ⟨L, he⟩
  · rw [up_eq_self (.inr hnone), down_eq_self (.inr hnone)]
    exact ⟨⟨xs, ho⟩, xs, ho⟩
  · obtain ⟨l, r, hsplit⟩ := List.append_of_mem he
    have hw := ho.lists L
    rw [hsplit] at hw
    constructor
    · rcases List.eq_nil_or_concat l with rfl | ⟨l, p, rfl⟩
      · rw [up_eq_self (.inl (WellFormed.prev_eq (l := []) hw))]
        exact ⟨xs, ho⟩
      · rw [List.concat_append] at hw hsplit
        obtain ⟨h', hup, hx⟩ := up_exchanged hw
        rw [hup]
        refine ho.within he (hsplit ▸ hx.within) (hw.exchange hx) fun a => ?_
        rw [hsplit]
        simp
        tauto
    · rcases r with _ | ⟨s, r⟩
      · rw [down_eq_self (.inl (WellFormed.next_eq (r := []) hw))]
        exact ⟨xs, ho⟩
      · obtain ⟨h', hdown, hx⟩ := down_exchanged hw
        rw [hdown]
        refine ho.within he (hsplit ▸ hx.within) (hw.exchange hx) fun a => ?_
        rw [hsplit]
        simp
        tauto

/-- The pointers `g` differ from `f` only inside of `S`, and do not lead out of it. -/
structure Inside (S : Addr → Prop) (f g : Addr → Option Addr) : Prop where
  outside : ∀ a, ¬ S a → g a = f a
  closed : ∀ a b, S a → g a = some b → S b

theorem Inside.update {S : Addr → Prop} {f g : Addr → Option Addr} {c v : Addr}
    (hi : Inside S f g) (hc : S c) (hv : S v) : Inside S f (update g c (some v)) where
  outside a ha := by
    have hac : a ≠ c := fun hac => ha (hac ▸ hc)
    rw [Function.update_of_ne hac]
    exact hi.outside a ha
  closed a b ha hb := by
    by_cases hac : a = c
    · rw [hac, Function.update_self] at hb
      exact Option.some.inj hb ▸ hv
    · rw [Function.update_of_ne hac] at hb
      exact hi.closed a b ha hb

/-- Changing pointers among stale entries leaves everything orderly. -/
theorem Orderly.inside {nx pv : Addr → Option Addr} (ho : Orderly h xs)
    (hnext : Inside (Stale h xs) h.next nx) (hprev : Inside (Stale h xs) h.prev pv) :
    Orderly { h with next := nx, prev := pv } xs where
  lists L := (ho.lists L).frame (fun a ha => hnext.outside a (ho.not_stale ha))
    (fun a ha => hprev.outside a (ho.not_stale ha)) (fun _ _ => rfl) (fun _ _ => rfl) rfl rfl rfl
  live := ho.live
  next := hnext.closed
  prev := hprev.closed

/-- Inside of a chain of stale entries one of them goes up or down. -/
theorem Orderly.stale_up (ho : Orderly h xs) (he : Stale h xs e) (hnext : h.next e ≠ none)
    (hprev : ∀ p ∈ h.prev e, h.prev p ≠ none) : Orderly (Entry.up e h).1 xs := by
  obtain ⟨n, hn⟩ := Option.ne_none_iff_exists'.1 hnext
  obtain ⟨L, hlist, -⟩ := id he
  cases hp : h.prev e with
  | none => rwa [up_eq_self (.inl hp)]
  | some p =>
    obtain ⟨q, hq⟩ := Option.ne_none_iff_exists'.1 (hprev p hp)
    have hsn := ho.next e n he hn
    have hsp := ho.prev e p he hp
    have hsq := ho.prev p q hsp hq
    have hup : (Entry.up e h).1 = { h with
        next := update (update (update h.next e (some p)) p (some n)) q (some e)
        prev := update (update (update h.prev n (some p)) e (some q)) p (some e) } := by
      unfold Entry.up
      by_cases hpe : p = e
      · subst hpe
        obtain rfl : p = q := Option.some.inj (hp.symm.trans hq)
        simp [hlist, hp, hn, Heap.setPrev]
      · simp [hlist, hp, hn, hq, Heap.setPrev, Function.update_of_ne (Ne.symm hpe)]
    rw [hup]
    have hf : Inside (Stale h xs) h.next h.next := ⟨fun _ _ => rfl, ho.next⟩
    have hg : Inside (Stale h xs) h.prev h.prev := ⟨fun _ _ => rfl, ho.prev⟩
    exact ho.inside (((hf.update he hsp).update hsp hsn).update hsq he)
      (((hg.update hsn hsp).update he hsq).update hsp he)

theorem Orderly.stale_down (ho : Orderly h xs) (he : Stale h xs e) (hprev : h.prev e ≠ none)
    (hnext : ∀ n ∈ h.next e, h.next n ≠ none) : Orderly (Entry.down e h).1 xs := by
  obtain ⟨p, hp⟩ := Option.ne_none_iff_exists'.1 hprev
  obtain ⟨L, hlist, -⟩ := id he
  cases hn : h.next e with
  | none => rwa [down_eq_self (.inl hn)]
  | some n =>
    obtain ⟨q, hq⟩ := Option.ne_none_iff_exists'.1 (hnext n hn)
    have hsp := ho.prev e p he hp
    have hsn := ho.next e n he hn
    have hsq := ho.next n q hsn hq
    have hdown : (Entry.down e h).1 = { h with
        next := update (update (update h.next p (some n)) e (some q)) n (some e)
        prev := update (update (update h.prev e (some n)) n (some p)) q (some e) } := by
      unfold Entry.down
      by_cases hne : n = e
      · subst hne
        obtain rfl : n = q := Option.some.inj (hn.symm.trans hq)
        simp [hlist, hp, hn, Heap.setNext]
      · simp [hlist, hp, hn, hq, Heap.setNext, Function.update_of_ne (Ne.symm hne)]
    rw [hdown]
    have hf : Inside (Stale h xs) h.next h.next := ⟨fun _ _ => rfl, ho.next⟩
    have hg : Inside (Stale h xs) h.prev h.prev := ⟨fun _ _ => rfl, ho.prev⟩
    exact ho.inside (((hf.update hsp hsn).update he hsq).update hsn he)
      (((hg.update he hsn).update hsn hsp).update hsq he)

/-- `clear` returns, and makes the entries of the list stale. -/
theorem Orderly.clear (ho : Orderly h xs) (L : ListId) :
    ∃ h', Linklist.clear L h = some h' ∧ Orderly h' (update xs L []) := by
  have hw := ho.lists L
  unfold Linklist.clear
  rw [sel_eq hw (by omega), Option.map_some]
  refine ⟨_, rfl, ?_⟩
  have hiff : ∀ a, Stale h (update xs L []) a ↔ Stale h xs a ∨ a ∈ xs L := by
    intro a
    constructor
    · rintro ⟨M, hlist, hM⟩
      by_cases hML : M = L
      · subst hML
        by_cases ha : a ∈ xs M
        · exact .inr ha
        · exact .inl ⟨M, hlist, ha⟩
      · rw [Function.update_of_ne hML] at hM
        exact .inl ⟨M, hlist, hM⟩
    · rintro (⟨M, hlist, hM⟩ | ha)
      · refine ⟨M, hlist, ?_⟩
        by_cases hML : M = L
        · rw [hML, Function.update_self]
          exact List.not_mem_nil
        · rwa [Function.update_of_ne hML]
      · exact ⟨L, hw.owner a ha, by rw [Function.update_self]; exact List.not_mem_nil⟩
  refine ⟨?_, ?_, ?_, ?_⟩
  · intro M
    by_cases hM : M = L
    · subst hM
      rw [Function.update_self]
      constructor <;> simp
    · rw [Function.update_of_ne hM]
      exact (ho.lists M).frame (fun _ _ => rfl) (fun _ _ => rfl) (fun _ _ => rfl) (fun _ _ => rfl)
        (Function.update_of_ne hM ..) (Function.update_of_ne hM ..) (Function.update_of_ne hM ..)
  · intro a ha
    rcases (hiff a).1 ha with ha | ha
    · exact ho.live a ha
    · exact hw.live a ha
  · intro a n ha hn
    refine (hiff n).2 ?_
    rcases (hiff a).1 ha with ha | ha
    · exact .inl (ho.next a n ha hn)
    · obtain ⟨l, r, hsplit⟩ := List.append_of_mem ha
      rw [hsplit] at hw ⊢
      rw [hw.next_eq] at hn
      exact .inr (List.mem_append_right l (List.mem_cons_of_mem a (List.mem_of_mem_head? hn)))
  · intro a p ha hp
    refine (hiff p).2 ?_
    rcases (hiff a).1 ha with ha | ha
    · exact .inl (ho.prev a p ha hp)
    · obtain ⟨l, r, hsplit⟩ := List.append_of_mem ha
      rw [hsplit] at hw ⊢
      rw [hw.prev_eq] at hp
      exact .inr (List.mem_append_left _ (List.mem_of_getLast? hp))

/-! ### Every sequence of calls -/

theorem Orderly.attached_of_not_stale (ho : Orderly h xs) (he : ¬ Stale h xs e) :
    Op.Attached h e := by
  intro L hlist
  rw [reachable_eq (ho.lists L)]
  by_contra hmem
  exact he ⟨L, hlist, hmem⟩

/-- A permitted call returns and leaves everything orderly. -/
theorem Orderly.step {a : Op} (ho : Orderly h xs) (hallowed : a.Allowed h)
    (hpermitted : a.Permitted h) : ∃ h' xs', a.run h = some h' ∧ Orderly h' xs' := by
  cases a with
  | create x => exact ⟨_, xs, rfl, ho.create hallowed⟩
  | append L e =>
    obtain ⟨xs', ho'⟩ := ho.append hpermitted hallowed L
    exact ⟨_, xs', rfl, ho'⟩
  | rem e =>
    obtain ⟨-, xs', ho'⟩ := ho.rem hpermitted
    exact ⟨_, xs', rfl, ho'⟩
  | up e =>
    by_cases hstale : Stale h xs e
    · rcases hpermitted with hattached | hnone | ⟨hnext, hprev⟩
      · obtain ⟨⟨xs', ho'⟩, -⟩ := ho.exchange hattached
        exact ⟨_, xs', rfl, ho'⟩
      · exact ⟨_, xs, rfl, by rwa [up_eq_self (.inl hnone)]⟩
      · exact ⟨_, xs, rfl, ho.stale_up hstale hnext hprev⟩
    · obtain ⟨⟨xs', ho'⟩, -⟩ := ho.exchange (ho.attached_of_not_stale hstale)
      exact ⟨_, xs', rfl, ho'⟩
  | down e =>
    by_cases hstale : Stale h xs e
    · rcases hpermitted with hattached | hnone | ⟨hprev, hnext⟩
      · obtain ⟨-, xs', ho'⟩ := ho.exchange hattached
        exact ⟨_, xs', rfl, ho'⟩
      · exact ⟨_, xs, rfl, by rwa [down_eq_self (.inl hnone)]⟩
      · exact ⟨_, xs, rfl, ho.stale_down hstale hprev hnext⟩
    · obtain ⟨-, xs', ho'⟩ := ho.exchange (ho.attached_of_not_stale hstale)
      exact ⟨_, xs', rfl, ho'⟩
  | delete e =>
    obtain ⟨xs', ho'⟩ := ho.delete hpermitted
    exact ⟨_, xs', rfl, ho'⟩
  | clear L =>
    obtain ⟨h', hh', ho'⟩ := ho.clear L
    exact ⟨h', _, hh', ho'⟩

/-- From any well-formed lists, and entries that each are in the list they name, every sequence of
calls that takes no entry out of a list which does not have it leaves every list well formed, also
when lists are cleared in between; and every further such call returns. -/
theorem wellFormed_of_run {h₀ : Heap} {xs₀ : ListId → Playlist Addr} {tr : List (Op × Unit)}
    (hlists : ∀ L, WellFormed h₀ L (xs₀ L)) (hnames : ∀ e L, h₀.list e = some L → e ∈ xs₀ L)
    (hrun : operating.RunOn (fun h a => a.Permitted h) h₀ tr h) :
    (∀ L, ∃ ys, WellFormed h L ys) ∧
      ∀ a : Op, a.Allowed h → a.Permitted h → ∃ t, operating.next h a = some (t, ()) := by
  have hstart : Orderly h₀ xs₀ := by
    have hnot : ∀ a, ¬ Stale h₀ xs₀ a := by
      rintro a ⟨L, hlist, hmem⟩
      exact hmem (hnames a L hlist)
    exact ⟨hlists, fun a ha => absurd ha (hnot a), fun a _ ha => absurd ha (hnot a),
      fun a _ ha => absurd ha (hnot a)⟩
  obtain ⟨xs, ho⟩ : ∃ xs, Orderly h xs := by
    refine hrun.invariant (I := fun h => ∃ xs, Orderly h xs) ?_ ⟨xs₀, hstart⟩
    rintro s a t e ⟨xs, ho⟩ hpermitted hnext
    simp only [operating] at hnext
    split_ifs at hnext with hallowed
    obtain ⟨h', xs', hrun', ho'⟩ := ho.step hallowed hpermitted
    rw [hrun'] at hnext
    cases hnext
    exact ⟨xs', ho'⟩
  refine ⟨fun L => ⟨xs L, ho.lists L⟩, ?_⟩
  intro a hallowed hpermitted
  obtain ⟨h', xs', hrun', -⟩ := ho.step hallowed hpermitted
  exact ⟨h', by simp [operating, hallowed, hrun']⟩

/-- One entry in one list. -/
def oneEntry : Heap := append 0 1 (Entry.new 1 (new 0 unused) [])

theorem wellFormed_oneEntry (L : ListId) :
    WellFormed oneEntry L (if L = 0 then [1] else []) := by
  by_cases hL : L = 0
  · rw [hL]
    decide +kernel
  · rw [if_neg hL]
    constructor <;> simp [oneEntry, append, Entry.new, new, unused, hL]

theorem names_oneEntry (e : Addr) (L : ListId) (hlist : oneEntry.list e = some L) :
    e ∈ if L = 0 then [1] else [] := by
  by_cases he : e = 1
  · subst he
    obtain rfl : 0 = L := by simpa [oneEntry, append, Entry.new, new, unused] using hlist
    decide
  · simp [oneEntry, append, Entry.new, new, unused, he] at hlist

/-- The list is cleared and filled again with a new entry. -/
theorem wellFormed_of_run_refilled : ∃ h, WellFormed h 0 [2] ∧ ∀ L, ∃ ys, WellFormed h L ys := by
  have hexec : operating.Reaches (fun h a => a.Permitted h) oneEntry
      [.clear 0, .create ⟨2, [], []⟩, .append 0 2] fun _ h => WellFormed h 0 [2] := by
    decide +kernel
  obtain ⟨tr, h, hrun, hw⟩ := hexec.exists_runOn
  exact ⟨h, hw, (wellFormed_of_run wellFormed_oneEntry names_oneEntry hrun).1⟩

/-- The list is cleared, and its former entry is taken out of it. -/
theorem not_wellFormed_of_run : ¬ ∀ (h₀ : Heap) (xs₀ : ListId → Playlist Addr)
    (tr : List (Op × Unit)) (h : Heap), (∀ L, WellFormed h₀ L (xs₀ L)) →
      (∀ e L, h₀.list e = some L → e ∈ xs₀ L) → operating.Run h₀ tr h →
      ∀ L, ∃ ys, WellFormed h L ys := by
  intro hall
  have hexec : operating.Reaches (fun _ _ => True) oneEntry [.clear 0, .rem 1]
      fun _ h => h.length 0 = -1 := by decide +kernel
  obtain ⟨tr, h, hrun, hlength⟩ := hexec.exists_runOn
  obtain ⟨ys, hw⟩ := hall _ _ tr h wellFormed_oneEntry names_oneEntry hrun 0
  have hnonneg := hw.length
  omega

end Linklist

end IvySync
