import IvySync.Linklist.WellFormed
import Mathlib.Logic.Equiv.Basic

/-!
# Exchanging two entries

`Entry::up` and `Entry::down` let an entry change places with a neighbour, `Entry::move` with the
entry at any position.  All three are the update of `Linked.Exchange` in either direction, and touch
nothing but pointers of their list (`Within`), so that `up` and `down` undo each other down to the
last pointer.

`Entry::move` takes the links of both entries over from each other.  Where the two are neighbours
one of these links is the entry itself, which then points to itself: `moved_to_iff`.
-/

namespace IvySync

open Function (update)

variable {h h' h'' : Heap} {L : ListId} {e a b : Addr} {o v : Option Addr}
  {xs ys l m r : Playlist Addr} {i j k pos : ℤ}

namespace Heap

@[simp] theorem succ_setNext (h : Heap) (L : ListId) (o v : Option Addr) :
    (h.setNext L o v).succ L = update (h.succ L) o v := by
  cases o <;> simp [setNext, succ, update_around_none, update_around_some]

@[simp] theorem pred_setPrev (h : Heap) (L : ListId) (o v : Option Addr) :
    (h.setPrev L o v).pred L = update (h.pred L) o v := by
  cases o <;> simp [setPrev, pred, update_around_none, update_around_some]

@[simp] theorem pred_setNext (h : Heap) (L : ListId) (o v : Option Addr) :
    (h.setNext L o v).pred L = h.pred L := by
  cases o <;> rfl

@[simp] theorem succ_setPrev (h : Heap) (L : ListId) (o v : Option Addr) :
    (h.setPrev L o v).succ L = h.succ L := by
  cases o <;> rfl

@[simp] theorem next_setPrev (h : Heap) (L : ListId) (o v : Option Addr) :
    (h.setPrev L o v).next = h.next := by
  cases o <;> rfl

@[simp] theorem prev_setNext (h : Heap) (L : ListId) (o v : Option Addr) :
    (h.setNext L o v).prev = h.prev := by
  cases o <;> rfl

theorem next_setNext (hne : o ≠ some a) : (h.setNext L o v).next a = h.next a := by
  cases o with
  | none => rfl
  | some c =>
    have hac : a ≠ c := fun hac => hne (hac ▸ rfl)
    exact Function.update_of_ne hac ..

theorem prev_setPrev (hne : o ≠ some a) : (h.setPrev L o v).prev a = h.prev a := by
  cases o with
  | none => rfl
  | some c =>
    have hac : a ≠ c := fun hac => hne (hac ▸ rfl)
    exact Function.update_of_ne hac ..

end Heap

/-! ### What the exchange leaves alone -/

/-- Nothing changes but the pointers of entries and the ends of the list `L`. -/
structure Rewired (h h' : Heap) (L : ListId) : Prop where
  first : ∀ M ≠ L, h'.first M = h.first M
  last : ∀ M ≠ L, h'.last M = h.last M
  rest : h' = { h with next := h'.next, prev := h'.prev, first := h'.first, last := h'.last }

theorem rewired_setNext (h : Heap) (L : ListId) (o v : Option Addr) :
    Rewired h (h.setNext L o v) L := by
  cases o with
  | none => exact ⟨fun M hM => Function.update_of_ne hM .., fun _ _ => rfl, rfl⟩
  | some c => exact ⟨fun _ _ => rfl, fun _ _ => rfl, rfl⟩

theorem rewired_setPrev (h : Heap) (L : ListId) (o v : Option Addr) :
    Rewired h (h.setPrev L o v) L := by
  cases o with
  | none => exact ⟨fun _ _ => rfl, fun M hM => Function.update_of_ne hM .., rfl⟩
  | some c => exact ⟨fun _ _ => rfl, fun _ _ => rfl, rfl⟩

/-- One change after another. -/
theorem Rewired.trans (h1 : Rewired h h' L) (h2 : Rewired h' h'' L) : Rewired h h'' L where
  first M hM := (h2.first M hM).trans (h1.first M hM)
  last M hM := (h2.last M hM).trans (h1.last M hM)
  rest := by
    have hrest := h2.rest
    rw [h1.rest] at hrest
    exact hrest

/-- Nothing changes but the pointers of the entries `xs` and the ends of the list `L`. -/
structure Within (h h' : Heap) (L : ListId) (xs : Playlist Addr) : Prop
    extends Rewired h h' L where
  next : ∀ a ∉ xs, h'.next a = h.next a
  prev : ∀ a ∉ xs, h'.prev a = h.prev a

/-- One change after another. -/
theorem Within.trans (h1 : Within h h' L xs) (h2 : Within h' h'' L xs) : Within h h'' L xs where
  next a ha := (h2.next a ha).trans (h1.next a ha)
  prev a ha := (h2.prev a ha).trans (h1.prev a ha)
  toRewired := h1.toRewired.trans h2.toRewired

/-- A change within some entries is one within more. -/
theorem Within.mono (hin : Within h h' L xs) (hsub : ∀ a ∈ xs, a ∈ ys) : Within h h' L ys where
  next a ha := hin.next a fun hxs => ha (hsub a hxs)
  prev a ha := hin.prev a fun hxs => ha (hsub a hxs)
  toRewired := hin.toRewired

/-- A list made of the same entries in the same order has the same pointers. -/
theorem Within.eq_of_wellFormed (hin : Within h h' L xs) (hw : WellFormed h L xs)
    (hw' : WellFormed h' L xs) : h' = h := by
  have hnext : h'.next = h.next := by
    funext a
    by_cases ha : a ∈ xs
    · obtain ⟨l, r, rfl⟩ := List.append_of_mem ha
      rw [hw.next_eq, hw'.next_eq]
    · exact hin.next a ha
  have hprev : h'.prev = h.prev := by
    funext a
    by_cases ha : a ∈ xs
    · obtain ⟨l, r, rfl⟩ := List.append_of_mem ha
      rw [hw.prev_eq, hw'.prev_eq]
    · exact hin.prev a ha
  have hfirst : h'.first = h.first := by
    funext M
    by_cases hM : M = L
    · rw [hM, hw.first_eq, hw'.first_eq]
    · exact hin.first M hM
  have hlast : h'.last = h.last := by
    funext M
    by_cases hM : M = L
    · rw [hM, hw.last_eq, hw'.last_eq]
    · exact hin.last M hM
  rw [hin.rest, hnext, hprev, hfirst, hlast]

/-- The pointers that change when `a` and `b` change places in the list at `L`, in either
direction. -/
structure Exchanged (h h' : Heap) (L : ListId) (l : Playlist Addr) (a : Addr) (m : Playlist Addr)
    (b : Addr) (r : Playlist Addr) : Prop extends Rewired h h' L where
  succ : Linked.Exchange (h.succ L) (h'.succ L) l a m b r
  pred : Linked.Exchange (h.pred L) (h'.pred L) r.reverse b m.reverse a l.reverse

/-- Two entries that change places stand in each other's place in a well-formed list. -/
theorem WellFormed.exchange (hw : WellFormed h L (l ++ a :: (m ++ b :: r)))
    (hx : Exchanged h h' L l a m b r) : WellFormed h' L (l ++ b :: (m ++ a :: r)) := by
  have hperm : (l ++ b :: (m ++ a :: r)).Perm (l ++ a :: (m ++ b :: r)) := by
    refine List.Perm.append_left l ?_
    refine (List.perm_middle.cons b).trans ?_
    refine (List.Perm.swap a b (m ++ r)).trans ?_
    exact (List.perm_middle.symm).cons a
  have hpred : Linked.Cycle (h.pred L) (r.reverse ++ b :: (m.reverse ++ a :: l.reverse)) := by
    simpa using hw.cycle_pred
  have hrev : (r.reverse ++ b :: (m.reverse ++ a :: l.reverse)).Nodup := by
    simpa using List.nodup_reverse.mpr hw.nodup
  refine ⟨?_, ?_, hperm.nodup_iff.mpr hw.nodup, ?_, ?_, ?_⟩
  · exact Linked.cycle_around_iff.mp (hw.cycle_succ.exchange hw.nodup hx.succ)
  · have hback := Linked.cycle_around_iff.mp (hpred.exchange hrev hx.pred)
    simpa using hback
  · rw [hx.rest, hperm.length_eq]
    exact hw.length
  · intro c hc
    rw [hx.rest]
    exact hw.owner c (hperm.mem_iff.mp hc)
  · intro c hc
    rw [hx.rest]
    exact hw.live c (hperm.mem_iff.mp hc)

/-- Nothing outside of the list changes. -/
theorem Exchanged.within (hx : Exchanged h h' L l a m b r) :
    Within h h' L (l ++ a :: (m ++ b :: r)) where
  next c hc := by
    simp only [List.mem_append, List.mem_cons, not_or] at hc
    obtain ⟨hcl, hca, hcm, hcb, -⟩ := hc
    refine hx.succ.other (some c) ?_ (by simpa using hcb) ?_ (by simpa using hca)
    · exact fun hlast => hcl (List.mem_of_getLast? hlast.symm)
    · intro hlast
      have hmem := List.mem_of_getLast? hlast.symm
      simp [hcb, hcm] at hmem
  prev c hc := by
    simp only [List.mem_append, List.mem_cons, not_or] at hc
    obtain ⟨-, hca, hcm, hcb, hcr⟩ := hc
    refine hx.pred.other (some c) ?_ (by simpa using hca) ?_ (by simpa using hcb)
    · exact fun hlast => hcr (List.mem_reverse.mp (List.mem_of_getLast? hlast.symm))
    · intro hlast
      have hmem := List.mem_of_getLast? hlast.symm
      simp [hca, hcm] at hmem
  toRewired := hx.toRewired

/-- Two entries that change places twice have changed nothing. -/
theorem Exchanged.undo (hx : Exchanged h h' L l a m b r) (hy : Exchanged h' h'' L l b m a r)
    (hw : WellFormed h L (l ++ a :: (m ++ b :: r))) : h'' = h := by
  have hback : Within h' h'' L (l ++ a :: (m ++ b :: r)) := by
    refine hy.within.mono fun c hc => ?_
    simp only [List.mem_append, List.mem_cons] at hc ⊢
    tauto
  exact (hx.within.trans hback).eq_of_wellFormed hw ((hw.exchange hx).exchange hy)

/-! ### Up and down -/

/-- What `up` does to the pointers of an entry with a predecessor. -/
theorem up_links (hprev : h.prev b = some a) (hlist : h.list b = some L) (hne : a ≠ b) :
    ∃ h', Entry.up b h = (h', true) ∧ Rewired h h' L ∧
      h'.succ L =
        update (update (update (h.succ L) (some b) (some a)) (some a) (h.next b)) (h.prev a)
          (some b) ∧
      h'.pred L =
        update (update (update (h.pred L) (h.next b) (some a)) (some b) (h.prev a)) (some a)
          (some b) := by
  unfold Entry.up
  rw [hprev, hlist]
  refine ⟨_, rfl, ?_⟩
  cases h.next b <;> cases h.prev a <;> refine ⟨⟨?_, ?_, ?_⟩, ?_, ?_⟩ <;>
    simp +contextual [hne.symm, Heap.setPrev, Heap.succ, Heap.pred, update_around_none,
      update_around_some, Function.update_of_ne]

/-- What `down` does to the pointers of an entry with a successor. -/
theorem down_links (hnext : h.next a = some b) (hlist : h.list a = some L) (hne : a ≠ b) :
    ∃ h', Entry.down a h = (h', true) ∧ Rewired h h' L ∧
      h'.succ L =
        update (update (update (h.succ L) (h.prev a) (some b)) (some a) (h.next b)) (some b)
          (some a) ∧
      h'.pred L =
        update (update (update (h.pred L) (some a) (some b)) (some b) (h.prev a)) (h.next b)
          (some a) := by
  unfold Entry.down
  rw [hnext, hlist]
  refine ⟨_, rfl, ?_⟩
  cases h.prev a <;> cases h.next b <;> refine ⟨⟨?_, ?_, ?_⟩, ?_, ?_⟩ <;>
    simp +contextual [hne, Heap.setNext, Heap.succ, Heap.pred, update_around_none,
      update_around_some, Function.update_of_ne]

/-- An entry with a predecessor changes places with it. -/
theorem up_exchanged (hw : WellFormed h L (l ++ a :: b :: r)) :
    ∃ h', Entry.up b h = (h', true) ∧ Exchanged h h' L l a [] b r := by
  have hnodup : (r.reverse ++ b :: a :: l.reverse).Nodup := by
    simpa using List.nodup_reverse.mpr hw.nodup
  have hw' : WellFormed h L ((l ++ [a]) ++ b :: r) := by simpa using hw
  obtain ⟨-, -, hne⟩ := Linked.adjacent hw.nodup
  have hprev : h.prev b = some a := by rw [hw'.prev_eq, List.getLast?_concat]
  obtain ⟨h', hup, hrewired, hsucc, hpred⟩ := up_links hprev (hw.owner b (by simp)) hne
  refine ⟨h', hup, hrewired, ?_, ?_⟩
  · rw [hsucc, hw'.next_eq, hw.prev_eq]
    exact Linked.exchange_up hw.nodup
  · rw [hpred, hw'.next_eq, hw.prev_eq]
    have hx : Linked.Exchange (h.pred L) _ _ _ _ _ _ := Linked.exchange_down hnodup
    rwa [List.getLast?_reverse, List.head?_reverse] at hx

/-- An entry with a successor changes places with it. -/
theorem down_exchanged (hw : WellFormed h L (l ++ a :: b :: r)) :
    ∃ h', Entry.down a h = (h', true) ∧ Exchanged h h' L l a [] b r := by
  have hnodup : (r.reverse ++ b :: a :: l.reverse).Nodup := by
    simpa using List.nodup_reverse.mpr hw.nodup
  have hw' : WellFormed h L ((l ++ [a]) ++ b :: r) := by simpa using hw
  obtain ⟨-, -, hne⟩ := Linked.adjacent hw.nodup
  obtain ⟨h', hdown, hrewired, hsucc, hpred⟩ :=
    down_links hw.next_eq (hw.owner a (by simp)) hne
  refine ⟨h', hdown, hrewired, ?_, ?_⟩
  · rw [hsucc, hw'.next_eq, hw.prev_eq]
    exact Linked.exchange_down hw.nodup
  · rw [hpred, hw'.next_eq, hw.prev_eq]
    have hx : Linked.Exchange (h.pred L) _ _ _ _ _ _ := Linked.exchange_up hnodup
    rwa [List.getLast?_reverse, List.head?_reverse] at hx

namespace Linklist

/-- For every well-formed list and every entry of it, `up` lets the entry change places with its
predecessor and `down` with its successor, with everything else in place; each undoes the other down
to the last pointer.  Without such a neighbour they do nothing.  `moveup` and `movedown` are the
same. -/
theorem up_down (hw : WellFormed h L xs) (e : Addr) :
    (∀ l p r, xs = l ++ p :: e :: r → ∃ h', Entry.up e h = (h', true) ∧
      WellFormed h' L (l ++ e :: p :: r) ∧ Within h h' L xs ∧ Entry.down e h' = (h, true)) ∧
    (∀ l s r, xs = l ++ e :: s :: r → ∃ h', Entry.down e h = (h', true) ∧
      WellFormed h' L (l ++ s :: e :: r) ∧ Within h h' L xs ∧ Entry.up e h' = (h, true)) ∧
    (xs.head? = some e → Entry.up e h = (h, false)) ∧
    (xs.getLast? = some e → Entry.down e h = (h, false)) ∧
    ∀ i, xs.pick i = some e →
      moveup L h i = Entry.up e h ∧ movedown L h i = Entry.down e h := by
  refine ⟨?_, ?_, ?_, ?_, ?_⟩
  · rintro l p r rfl
    obtain ⟨h', hup, hx⟩ := up_exchanged hw
    have hw' : WellFormed h' L (l ++ e :: p :: r) := hw.exchange hx
    obtain ⟨h'', hdown, hy⟩ := down_exchanged hw'
    obtain rfl := hx.undo hy hw
    exact ⟨h', hup, hw', hx.within, hdown⟩
  · rintro l s r rfl
    obtain ⟨h', hdown, hx⟩ := down_exchanged hw
    have hw' : WellFormed h' L (l ++ s :: e :: r) := hw.exchange hx
    obtain ⟨h'', hup, hy⟩ := up_exchanged hw'
    obtain rfl := hx.undo hy hw
    exact ⟨h', hdown, hw', hx.within, hup⟩
  · intro hhead
    obtain ⟨r, rfl⟩ := List.head?_eq_some_iff.mp hhead
    have hprev : h.prev e = none := WellFormed.prev_eq (l := []) hw
    simp [Entry.up, hprev]
  · intro hlast
    obtain ⟨l, rfl⟩ := List.getLast?_eq_some_iff.mp hlast
    have hnext : h.next e = none := WellFormed.next_eq (r := []) hw
    simp [Entry.down, hnext]
  · intro i hi
    rw [moveup, movedown, hw.pick, hi]
    exact ⟨rfl, rfl⟩

/-- A list of the entries 1, 2 and 3. -/
def threeEntries : Heap :=
  let h := Entry.new 3 (Entry.new 2 (Entry.new 1 (new 0 unused) []) []) []
  append 0 3 (append 0 2 (append 0 1 h))

/-- The second entry goes up and down again. -/
theorem up_down_second :
    ∃ h', Entry.up 2 threeEntries = (h', true) ∧ WellFormed h' 0 [2, 1, 3] ∧
      Entry.down 2 h' = (threeEntries, true) := by
  have hw : WellFormed threeEntries 0 [1, 2, 3] := by decide +kernel
  obtain ⟨h', hup, hw', -, hdown⟩ := (up_down hw 2).1 [] 1 [3] rfl
  exact ⟨h', hup, hw', hdown⟩

end Linklist

/-! ### Moving to any position -/

/-- What `move` does to the pointers of two entries, of which neither points to the one that
moves. -/
theorem move_links (hlist : h.list a = some L) (hpick : Linklist.pick L h pos = some b)
    (hne : b ≠ a) (ha : h.next a ≠ some a) (hb : h.next b ≠ some a) :
    ∃ h', Entry.move a h pos = (h', true) ∧ Rewired h h' L ∧
      h'.succ L =
        update (update (update (update (h.succ L) (some b) (h.next a)) (h.prev a) (some b)) (some a)
          (h.next b)) (h.prev b) (some a) ∧
      h'.pred L =
        update (update (update (update (h.pred L) (some b) (h.prev a)) (h.next a) (some b)) (some a)
          (h.prev b)) (h.next b) (some a) := by
  have hab : (some b : Option Addr) ≠ some a := by simpa using hne
  -- The assignments one by one, with what was read of the entry that moves.
  let h1 := h.setNext L (some b) (h.next a)
  let h2 := h1.setPrev L (some b) (h.prev a)
  let h3 := h2.setPrev L (h.next a) (some b)
  let h4 := h3.setNext L (h.prev a) (some b)
  let h5 := h4.setNext L (some a) (h.next b)
  let h6 := h5.setPrev L (some a) (h.prev b)
  let h7 := h6.setPrev L (h.next b) (some a)
  let h8 := h7.setNext L (h.prev b) (some a)
  have hnext2 : h2.next a = h.next a := by rw [Heap.next_setPrev, Heap.next_setNext hab]
  have hprev3 : h3.prev a = h.prev a := by
    rw [Heap.prev_setPrev ha, Heap.prev_setPrev hab, Heap.prev_setNext]
  have hnext6 : h6.next a = h.next b := by
    rw [Heap.next_setPrev]
    exact Function.update_self ..
  have hprev7 : h7.prev a = h.prev b := by
    rw [Heap.prev_setPrev hb]
    exact Function.update_self ..
  refine ⟨h8, ?_, ?_, ?_, ?_⟩
  · have hmove : Entry.move a h pos =
        (let h3 := h2.setPrev L (h2.next a) (some b)
         let h4 := h3.setNext L (h3.prev a) (some b)
         let h6 := (h4.setNext L (some a) (h.next b)).setPrev L (some a) (h.prev b)
         let h7 := h6.setPrev L (h6.next a) (some a)
         h7.setNext L (h7.prev a) (some a), true) := by
      unfold Entry.move
      rw [hlist]
      dsimp only
      rw [hpick]
      dsimp only
      rw [if_neg hne]
      rfl
    rw [hmove]
    dsimp only
    rw [hnext2, hprev3]
    change ((h6.setPrev L (h6.next a) (some a)).setNext L
      ((h6.setPrev L (h6.next a) (some a)).prev a) (some a), true) = (h8, true)
    rw [hnext6, hprev7]
  · have r2 : Rewired h h2 L := (rewired_setNext ..).trans (rewired_setPrev ..)
    have r4 : Rewired h2 h4 L := (rewired_setPrev ..).trans (rewired_setNext ..)
    have r6 : Rewired h4 h6 L := (rewired_setNext ..).trans (rewired_setPrev ..)
    have r8 : Rewired h6 h8 L := (rewired_setPrev ..).trans (rewired_setNext ..)
    exact (r2.trans r4).trans (r6.trans r8)
  · simp [h8, h7, h6, h5, h4, h3, h2, h1]
  · simp [h8, h7, h6, h5, h4, h3, h2, h1]

/-- The links of two entries of a list that are no neighbours. -/
theorem WellFormed.links (hw : WellFormed h L (l ++ a :: (m ++ b :: r))) (hm : m ≠ []) :
    (h.next a = m.head? ∧ h.prev a = l.getLast?) ∧
      h.next b = r.head? ∧ h.prev b = m.getLast? := by
  have hw' : WellFormed h L ((l ++ a :: m) ++ b :: r) := by simpa using hw
  refine ⟨⟨?_, hw.prev_eq⟩, hw'.next_eq, ?_⟩
  · rw [hw.next_eq, List.head?_append_of_ne_nil m hm]
  · rw [hw'.prev_eq, List.getLast?_append_of_ne_nil l (List.cons_ne_nil a m),
      List.getLast?_cons_of_ne_nil hm]

/-- Two entries that are no neighbours change places, whichever of them moves to the position of the
other. -/
theorem move_exchanged (hw : WellFormed h L (l ++ a :: (m ++ b :: r))) (hm : m ≠ []) :
    (Linklist.pick L h pos = some b →
      ∃ h', Entry.move a h pos = (h', true) ∧ Exchanged h h' L l a m b r) ∧
    (Linklist.pick L h pos = some a →
      ∃ h', Entry.move b h pos = (h', true) ∧ Exchanged h h' L l a m b r) := by
  have hnodup : (r.reverse ++ b :: (m.reverse ++ a :: l.reverse)).Nodup := by
    simpa using List.nodup_reverse.mpr hw.nodup
  have hm' : m.reverse ≠ [] := by simpa using hm
  obtain ⟨⟨hna, hpa⟩, hnb, hpb⟩ := hw.links hm
  obtain ⟨hab, -, ⟨hma, hmb⟩, -⟩ := Linked.apart hw.nodup hm
  obtain ⟨-, ⟨hrb, hra⟩, ⟨hmb', hma'⟩, -⟩ := Linked.apart hnodup hm'
  rw [List.getLast?_reverse] at hrb hra hmb' hma'
  have hx : Linked.Exchange (h.succ L) _ _ _ _ _ _ := Linked.exchange_apart hw.nodup hm
  have hx' : Linked.Exchange (h.succ L) _ _ _ _ _ _ := Linked.exchange_apart' hw.nodup hm
  have hy : Linked.Exchange (h.pred L) _ _ _ _ _ _ := Linked.exchange_apart hnodup hm'
  have hy' : Linked.Exchange (h.pred L) _ _ _ _ _ _ := Linked.exchange_apart' hnodup hm'
  simp only [List.getLast?_reverse, List.head?_reverse] at hy hy'
  constructor
  · intro hpick
    obtain ⟨h', hmove, hrewired, hsucc, hpred⟩ := move_links (hw.owner a (by simp)) hpick hab.symm
      (by rwa [hna]) (by rwa [hnb])
    rw [hna, hpa, hnb, hpb] at hsucc hpred
    exact ⟨h', hmove, hrewired, hsucc ▸ hx, hpred ▸ hy'⟩
  · intro hpick
    obtain ⟨h', hmove, hrewired, hsucc, hpred⟩ := move_links (hw.owner b (by simp)) hpick hab
      (by rwa [hnb]) (by rwa [hna])
    rw [hna, hpa, hnb, hpb] at hsucc hpred
    exact ⟨h', hmove, hrewired, hsucc ▸ hx', hpred ▸ hy⟩

/-- An entry that takes over the links of one that points to it points to itself afterwards. -/
theorem move_neighbour (hlist : h.list a = some L) (hpick : Linklist.pick L h pos = some b)
    (hne : b ≠ a) (hnear : h.next b = some a ∨ h.prev b = some a) :
    (Entry.move a h pos).1.next a = some a := by
  -- The last two assignments, when the links of the other entry have been taken over.
  have htail : ∀ h6 : Heap, h6.next a = h.next b → h6.prev a = h.prev b →
      ((h6.setPrev L (h6.next a) (some a)).setNext L
        ((h6.setPrev L (h6.next a) (some a)).prev a) (some a)).next a = some a := by
    intro h6 hnext hprev
    have hself : (h6.setPrev L (h6.next a) (some a)).prev a = some a := by
      rw [hnext]
      by_cases hb : h.next b = some a
      · rw [hb]
        exact Function.update_self ..
      · rw [Heap.prev_setPrev hb, hprev]
        exact hnear.resolve_left hb
    rw [hself]
    exact Function.update_self ..
  unfold Entry.move
  rw [hlist]
  dsimp only
  rw [hpick]
  dsimp only
  rw [if_neg hne]
  exact htail _ (Function.update_self ..) (Function.update_self ..)

/-- No entry of a well-formed list points to itself. -/
theorem WellFormed.next_ne_self (hw : WellFormed h L xs) (ha : a ∈ xs) : h.next a ≠ some a := by
  obtain ⟨l, r, rfl⟩ := List.append_of_mem ha
  rw [hw.next_eq]
  intro hhead
  have har : a ∈ r := List.mem_of_mem_head? hhead
  exact (List.nodup_cons.mp (List.nodup_append.mp hw.nodup).2.1).1 har

/-- The entry at a position belongs to the list. -/
theorem WellFormed.owner_of_pick (hw : WellFormed h L xs) (hi : xs.pick i = some e) :
    h.list e = some L := by
  obtain ⟨l, r, rfl, -⟩ := Playlist.exists_split_of_pick hi
  exact hw.owner e (by simp)

/-! ### Positions -/

namespace Playlist

/-- Two positions cut the playlist in three. -/
theorem exists_split_of_pick_lt (hi : xs.pick i = some a) (hj : xs.pick j = some b) (hij : i < j) :
    ∃ l m r, xs = l ++ a :: (m ++ b :: r) ∧ i = l.length + 1 ∧ j = l.length + m.length + 2 := by
  obtain ⟨l, r', rfl, rfl⟩ := exists_split_of_pick hi
  rw [pick_append_right (by omega), pick_cons a (by omega)] at hj
  obtain ⟨m, r, rfl, hm⟩ := exists_split_of_pick hj
  exact ⟨l, m, r, rfl, rfl, by omega⟩

/-- When two entries change places, each is found where the other was. -/
theorem pick_exchange (l m r : Playlist Addr) (a b : Addr) (k : ℤ) :
    Playlist.pick (l ++ b :: (m ++ a :: r)) k =
      Playlist.pick (l ++ a :: (m ++ b :: r))
        (Equiv.swap (l.length + 1 : ℤ) (l.length + m.length + 2) k) := by
  have hlong : ∀ c d : Addr, Playlist.pick (l ++ c :: (m ++ d :: r)) (l.length + m.length + 2) =
      some d := by
    intro c d
    have hd := pick_append_cons (l ++ c :: m) r d
    rw [List.append_assoc, List.cons_append] at hd
    rw [← hd]
    congr 1
    simp only [List.length_append, List.length_cons]
    omega
  by_cases h1 : k = l.length + 1
  · rw [h1, Equiv.swap_apply_left, pick_append_cons, hlong]
  by_cases h2 : k = l.length + m.length + 2
  · rw [h2, Equiv.swap_apply_right, pick_append_cons, hlong]
  rw [Equiv.swap_apply_of_ne_of_ne h1 h2]
  rcases Int.lt_or_le (l.length : ℤ) k with hk | hk
  · rw [pick_append_right hk, pick_append_right hk, pick_cons b (by omega), pick_cons a (by omega)]
    rcases Int.lt_or_le (m.length : ℤ) (k - l.length - 1) with hm | hm
    · rw [pick_append_right hm, pick_append_right hm, pick_cons a (by omega),
        pick_cons b (by omega)]
    · rw [pick_append_left hm, pick_append_left hm]
  · rw [pick_append_left hk, pick_append_left hk]

end Playlist

namespace Linklist

/-- The entry at position `i` of the list at `L` has been moved to `pos` with the result `res`: for a
position of the list it has changed places with the entry there, and nothing else has changed; for
any other position nothing has changed at all. -/
structure MovedTo (h : Heap) (L : ListId) (xs : Playlist Addr) (i pos : ℤ) (res : Heap × Bool) :
    Prop where
  inside : 1 ≤ pos → pos ≤ xs.length → res.2 = true ∧ Within h res.1 L xs ∧
    ∃ ys : Playlist Addr, WellFormed res.1 L ys ∧ ys.length = xs.length ∧
      ∀ k, ys.pick k = xs.pick (Equiv.swap i pos k)
  outside : pos < 1 ∨ (xs.length : ℤ) < pos → res = (h, false)

/-- An entry that moves to the position of a neighbour points to itself afterwards. -/
theorem move_next_of_near (hw : WellFormed h L xs) (hi : xs.pick i = some e)
    (hb : xs.pick pos = some b) (hnear : pos = i + 1 ∨ pos = i - 1) :
    (Entry.move e h pos).1.next e = some e := by
  have hne : b ≠ e := by
    rintro rfl
    have hipos := Playlist.pick_inj hw.nodup hi hb
    omega
  refine move_neighbour (hw.owner_of_pick hi) ((hw.pick pos).trans hb) hne ?_
  rcases hnear with rfl | rfl
  · obtain ⟨l, m, r, rfl, rfl, hm⟩ := Playlist.exists_split_of_pick_lt hi hb (by omega)
    obtain rfl : m = [] := List.length_eq_zero_iff.mp (by omega)
    have hw' : WellFormed h L ((l ++ [e]) ++ b :: r) := by simpa using hw
    exact Or.inr (by rw [hw'.prev_eq, List.getLast?_concat])
  · obtain ⟨l, m, r, rfl, hl, rfl⟩ := Playlist.exists_split_of_pick_lt hb hi (by omega)
    obtain rfl : m = [] := List.length_eq_zero_iff.mp (by omega)
    exact Or.inl hw.next_eq

/-- An entry that moves to the position of any other entry of the list changes places with it. -/
theorem move_of_far (hw : WellFormed h L xs) (hi : xs.pick i = some e) (hb : xs.pick pos = some b)
    (hafter : pos ≠ i + 1) (hbefore : pos ≠ i - 1) :
    (Entry.move e h pos).2 = true ∧ Within h (Entry.move e h pos).1 L xs ∧
      ∃ ys : Playlist Addr, WellFormed (Entry.move e h pos).1 L ys ∧ ys.length = xs.length ∧
        ∀ k, ys.pick k = xs.pick (Equiv.swap i pos k) := by
  have hpick : pick L h pos = some b := (hw.pick pos).trans hb
  rcases Int.lt_trichotomy i pos with hlt | rfl | hgt
  · obtain ⟨l, m, r, rfl, rfl, rfl⟩ := Playlist.exists_split_of_pick_lt hi hb hlt
    have hm : m ≠ [] := by
      rintro rfl
      simp at hafter
      omega
    obtain ⟨h', hmove, hx⟩ := (move_exchanged hw hm).1 hpick
    rw [hmove]
    exact ⟨rfl, hx.within, _, hw.exchange hx, by simp [Nat.add_comm, Nat.add_left_comm],
      Playlist.pick_exchange l m r e b⟩
  · obtain rfl := Option.some.inj (hi.symm.trans hb)
    have hmove : Entry.move e h i = (h, true) := by
      simp [Entry.move, hw.owner_of_pick hi, hpick]
    rw [hmove]
    refine ⟨rfl, ⟨⟨fun _ _ => rfl, fun _ _ => rfl, rfl⟩, fun _ _ => rfl, fun _ _ => rfl⟩,
      xs, hw, rfl, ?_⟩
    intro k
    rw [Equiv.swap_self, Equiv.refl_apply]
  · obtain ⟨l, m, r, rfl, rfl, rfl⟩ := Playlist.exists_split_of_pick_lt hb hi hgt
    have hm : m ≠ [] := by
      rintro rfl
      simp at hbefore
      omega
    obtain ⟨h', hmove, hx⟩ := (move_exchanged hw hm).2 hpick
    rw [hmove]
    refine ⟨rfl, hx.within, _, hw.exchange hx, by simp [Nat.add_comm, Nat.add_left_comm], ?_⟩
    intro k
    rw [Equiv.swap_comm]
    exact Playlist.pick_exchange l m r b e k

/-- For every well-formed list, every entry of it and every position, `move` lets the entry change
places with the one at the position, unless the two are neighbours.  `moveto` is the same. -/
theorem moved_to_iff (hw : WellFormed h L xs) (hi : xs.pick i = some e) (pos : ℤ) :
    moveto L h i pos = Entry.move e h pos ∧
      (MovedTo h L xs i pos (Entry.move e h pos) ↔
        ¬ (1 ≤ pos ∧ pos ≤ xs.length ∧ (pos = i + 1 ∨ pos = i - 1))) := by
  refine ⟨by rw [moveto, hw.pick, hi], ?_, ?_⟩
  · rintro ⟨hin, -⟩ ⟨h1, h2, hnear⟩
    obtain ⟨-, -, ys, hys, -, hpicks⟩ := hin h1 h2
    have hpos := hpicks pos
    rw [Equiv.swap_apply_right, hi] at hpos
    obtain ⟨b, hb⟩ := Playlist.exists_pick h1 h2
    obtain ⟨l, r, rfl, -⟩ := Playlist.exists_split_of_pick hpos
    exact hys.next_ne_self (by simp) (move_next_of_near hw hi hb hnear)
  · intro hfar
    refine ⟨?_, ?_⟩
    · intro h1 h2
      obtain ⟨b, hb⟩ := Playlist.exists_pick h1 h2
      exact move_of_far hw hi hb (by omega) (by omega)
    · intro hout
      have hpick : pick L h pos = none :=
        (hw.pick pos).trans (Playlist.pick_eq_none_iff.mpr hout.symm)
      simp [Entry.move, hw.owner_of_pick hi, hpick]

/-- The first entry and the last one change places. -/
theorem moved_to_last : MovedTo threeEntries 0 [1, 2, 3] 1 3 (Entry.move 1 threeEntries 3) := by
  have hw : WellFormed threeEntries 0 [1, 2, 3] := by decide +kernel
  exact (moved_to_iff hw rfl 3).2.mpr (by decide)

/-- The first entry, moved to the second position, points to itself. -/
theorem not_moved_to_second :
    ¬ ∀ (h : Heap) (L : ListId) (e : Addr) (xs : Playlist Addr) (i pos : ℤ),
      WellFormed h L xs → xs.pick i = some e → MovedTo h L xs i pos (Entry.move e h pos) := by
  intro hall
  have hw : WellFormed threeEntries 0 [1, 2, 3] := by decide +kernel
  obtain ⟨hin, -⟩ := hall threeEntries 0 1 _ 1 2 hw rfl
  obtain ⟨-, -, ys, hys, -, hpicks⟩ := hin (by decide) (by decide)
  have hpos := hpicks 2
  rw [Equiv.swap_apply_right] at hpos
  obtain ⟨l, r, rfl, -⟩ := Playlist.exists_split_of_pick (x := 1) hpos
  exact hys.next_ne_self (a := 1) (by simp) rfl

end Linklist

end IvySync
