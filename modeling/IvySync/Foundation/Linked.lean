import Mathlib.Data.List.Chain
import Mathlib.Data.List.Nodup
import Mathlib.Data.Option.Basic
import Mathlib.Logic.Function.Basic

/-!
# Linked lists as chains of pointers

A linked list is given by its first node and the pointer from each node to the next one.
`Visits next o xs` says that following the pointers from `o` visits exactly the nodes `xs`, in this
order, and then ends in the null pointer; `walk next k o` follows `k` pointers and stops at the null
pointer, and `nodes next k o` collects the nodes on its way.

The end of the list is a special case of every update.  It disappears when the null pointer is
taken for one more node: `around first next` leads from it to the first node, so that a linked list
is a cycle through it, `Cycle`.  A doubly linked list is a cycle in either direction, and one rule
for each direction covers the front, the middle and the back: `Cycle.insert` puts a node between
two neighbours, `Cycle.unlink` takes one out and `Cycle.exchange` lets two nodes change places,
whether they are neighbours or not.
-/

namespace Linked

variable {α : Type*}

/-- Following `next` from `o` visits exactly these nodes and ends in the null pointer. -/
def Visits (next : α → Option α) : Option α → List α → Prop
  | o, [] => o = none
  | o, a :: as => o = some a ∧ Visits next (next a) as

/-- Whether the pointers lead through these nodes, by following them. -/
instance decidableVisits [DecidableEq α] (next : α → Option α) :
    ∀ (o : Option α) (xs : List α), Decidable (Visits next o xs)
  | o, [] => inferInstanceAs (Decidable (o = none))
  | o, a :: as =>
    have := decidableVisits next (next a) as
    inferInstanceAs (Decidable (o = some a ∧ Visits next (next a) as))

/-- Follow `k` pointers from `o`, stopping at the null pointer. -/
def walk (next : α → Option α) : ℕ → Option α → Option α
  | 0, o => o
  | _ + 1, none => none
  | k + 1, some a => walk next k (next a)

/-- The first `k` nodes on the way from `o`. -/
def nodes (next : α → Option α) : ℕ → Option α → List α
  | 0, _ => []
  | _ + 1, none => []
  | k + 1, some a => a :: nodes next k (next a)

/-- The pointers of a linked list with the null pointer as one more node, in front of the first and
behind the last. -/
def around (first : Option α) (next : α → Option α) : Option α → Option α
  | none => first
  | some a => next a

/-- The map leads from the null pointer through these nodes back to it. -/
def Cycle (succ : Option α → Option α) (xs : List α) : Prop :=
  (none :: (xs.map some ++ [none])).IsChain fun u v => succ u = v

/-! ### Following the pointers -/

variable {next : α → Option α} {succ succ' : Option α → Option α} {first o : Option α}
  {xs l m r : List α} {a b e : α}

@[simp] theorem visits_nil : Visits next o [] ↔ o = none := Iff.rfl

@[simp] theorem visits_cons {a : α} :
    Visits next o (a :: xs) ↔ o = some a ∧ Visits next (next a) xs := Iff.rfl

/-- The first node visited is the one the pointers are followed from. -/
theorem Visits.eq_head? (h : Visits next o xs) : o = xs.head? := by
  cases xs with
  | nil => exact h
  | cons a as => exact h.1

/-- The pointers determine the nodes visited. -/
theorem Visits.unique {ys : List α} (hxs : Visits next o xs) (hys : Visits next o ys) :
    xs = ys := by
  induction xs generalizing o ys with
  | nil =>
    obtain rfl : o = none := hxs
    cases ys with
    | nil => rfl
    | cons b bs => simp at hys
  | cons a as ih =>
    obtain ⟨rfl, hxs⟩ := hxs
    cases ys with
    | nil => simp at hys
    | cons b bs =>
      obtain ⟨hab, hys⟩ := hys
      obtain rfl := Option.some.inj hab
      rw [ih hxs hys]

/-- `k` pointers lead to the node with `k` others in front. -/
theorem Visits.walk (h : Visits next o xs) (k : ℕ) : walk next k o = xs[k]? := by
  induction xs generalizing o k with
  | nil => cases k <;> simp_all [Linked.walk]
  | cons a as ih =>
    obtain ⟨rfl, h⟩ := h
    cases k with
    | zero => rfl
    | succ k => simpa [Linked.walk] using ih h k

/-- As many pointers as there are nodes lead through all of them. -/
theorem Visits.nodes (h : Visits next o xs) : nodes next xs.length o = xs := by
  induction xs generalizing o with
  | nil => rfl
  | cons a as ih =>
    obtain ⟨rfl, h⟩ := h
    rw [List.length_cons, Linked.nodes, ih h]

/-- Only the pointers of the nodes visited matter. -/
theorem Visits.congr {next' : α → Option α} (h : Visits next o xs)
    (heq : ∀ a ∈ xs, next' a = next a) : Visits next' o xs := by
  induction xs generalizing o with
  | nil => exact h
  | cons a as ih =>
    rw [visits_cons, heq a (List.mem_cons_self ..)]
    exact ⟨h.1, ih h.2 fun b hb => heq b (List.mem_cons_of_mem a hb)⟩

/-! ### The list as a cycle -/

/-- A path that starts behind `u` and ends in the null pointer. -/
theorem isChain_cons_iff_visits {u : Option α} :
    (u :: (xs.map some ++ [none])).IsChain (fun u v => succ u = v) ↔
      Visits (fun a => succ (some a)) (succ u) xs := by
  induction xs generalizing u with
  | nil => simp
  | cons a as ih =>
    rw [visits_cons, ← ih]
    simp [List.isChain_cons_cons]

/-- A linked list is a cycle through the null pointer. -/
theorem cycle_around_iff : Cycle (around first next) xs ↔ Visits next first xs :=
  isChain_cons_iff_visits

/-- A cycle cut between two of its nodes. -/
theorem cycle_append :
    Cycle succ (l ++ r) ↔
      (none :: l.map some).IsChain (fun u v => succ u = v) ∧
        (r.map some ++ [none]).IsChain (fun u v => succ u = v) ∧
        succ l.getLast? = r.head? := by
  have hsplit : none :: ((l ++ r).map some ++ [none]) =
      (none :: l.map some) ++ (r.map some ++ [none]) := by simp
  have hlast : (none :: l.map some).getLast? = some l.getLast? := by
    rcases List.eq_nil_or_concat l with rfl | ⟨l', b, rfl⟩ <;> simp [List.getLast?_cons]
  have hhead : (r.map some ++ [none]).head? = some r.head? := by cases r <;> simp
  unfold Cycle
  rw [hsplit, List.isChain_append, hlast, hhead]
  simp

/-- A cycle cut at one of its nodes. -/
theorem cycle_append_cons :
    Cycle succ (l ++ e :: r) ↔
      (none :: l.map some).IsChain (fun u v => succ u = v) ∧
        (r.map some ++ [none]).IsChain (fun u v => succ u = v) ∧
        succ l.getLast? = some e ∧ succ (some e) = r.head? := by
  have hhead : (r.map some ++ [none]).head? = some r.head? := by cases r <;> simp
  rw [cycle_append, List.map_cons, List.cons_append, List.isChain_cons (x := some e), hhead]
  simp only [Option.mem_def, Option.some.injEq, forall_eq', List.head?_cons]
  tauto

/-- A chain depends on the map at all its nodes but the last. -/
theorem isChain_congr {ps : List (Option α)} (h : ps.IsChain fun u v => succ u = v)
    (heq : ∀ u ∈ ps.dropLast, succ' u = succ u) : ps.IsChain fun u v => succ' u = v := by
  induction ps with
  | nil => exact List.IsChain.nil
  | cons u ps ih =>
    cases ps with
    | nil => exact List.IsChain.singleton u
    | cons v ps =>
      rw [List.isChain_cons_cons] at h ⊢
      rw [List.dropLast_cons_cons] at heq
      exact ⟨(heq u (List.mem_cons_self ..)).trans h.1,
        ih h.2 fun w hw => heq w (List.mem_cons_of_mem u hw)⟩

/-- The part of a cycle before a cut does not change with the pointer out of its last node. -/
theorem isChain_front_congr (h : (none :: l.map some).IsChain fun u v => succ u = v)
    (hl : l.Nodup) (heq : ∀ u, u ≠ l.getLast? → (∀ a, u = some a → a ∈ l) → succ' u = succ u) :
    (none :: l.map some).IsChain fun u v => succ' u = v := by
  refine isChain_congr h ?_
  intro u hu
  have hnodup : (none :: l.map some).Nodup := by
    simpa using hl.map (Option.some_injective α)
  have hmem : u ∈ none :: l.map some := List.dropLast_subset _ hu
  refine heq u ?_ ?_
  · rintro rfl
    rcases List.eq_nil_or_concat l with rfl | ⟨l', b, rfl⟩
    · simp at hu
    · rw [List.concat_eq_append, List.map_append, List.map_singleton, ← List.cons_append]
        at hu hnodup
      rw [List.dropLast_concat, List.getLast?_concat] at hu
      exact (List.disjoint_of_nodup_append hnodup) hu (List.mem_singleton_self _)
  · rintro a rfl
    simpa using hmem

/-- The part of a cycle behind a cut depends on the pointers out of its nodes. -/
theorem isChain_back_congr (h : (r.map some ++ [none]).IsChain fun u v => succ u = v)
    (heq : ∀ a ∈ r, succ' (some a) = succ (some a)) :
    (r.map some ++ [none]).IsChain fun u v => succ' u = v := by
  refine isChain_congr h ?_
  intro u hu
  rw [List.dropLast_concat, List.mem_map] at hu
  obtain ⟨a, ha, rfl⟩ := hu
  exact heq a ha

/-- A path does not change with the pointer out of its last node. -/
theorem isChain_path_congr {m : List α} (h : (m.map some).IsChain fun u v => succ u = v)
    (hm : m.Nodup) (heq : ∀ a ∈ m, some a ≠ m.getLast? → succ' (some a) = succ (some a)) :
    (m.map some).IsChain fun u v => succ' u = v := by
  refine isChain_congr h ?_
  intro u hu
  obtain ⟨a, ha, rfl⟩ := List.mem_map.mp (List.dropLast_subset _ hu)
  refine heq a ha ?_
  intro hlast
  obtain ⟨m', b, rfl⟩ := (List.eq_nil_or_concat m).resolve_left (List.ne_nil_of_mem ha)
  rw [List.concat_eq_append] at hlast hu hm
  rw [List.getLast?_concat] at hlast
  obtain rfl := Option.some.inj hlast
  rw [List.map_append, List.map_singleton, List.dropLast_concat, List.mem_map] at hu
  obtain ⟨c, hc, hca⟩ := hu
  obtain rfl := Option.some.inj hca
  exact (List.disjoint_of_nodup_append hm) hc (List.mem_singleton_self _)

/-- The pointers that have to change when the nodes `a` and `b`, with the nodes `m` between them,
change places. -/
structure Exchange (succ succ' : Option α → Option α) (l : List α) (a : α) (m : List α) (b : α)
    (r : List α) : Prop where
  left : succ' l.getLast? = some b
  leftNext : succ' (some b) = (m ++ [a]).head?
  right : succ' (b :: m).getLast? = some a
  rightNext : succ' (some a) = r.head?
  other : ∀ u, u ≠ l.getLast? → u ≠ some b → u ≠ (b :: m).getLast? → u ≠ some a → succ' u = succ u

/-- The exchange rule: two nodes change places. -/
theorem Cycle.exchange {a b : α} {m : List α} (h : Cycle succ (l ++ a :: (m ++ b :: r)))
    (hnodup : (l ++ a :: (m ++ b :: r)).Nodup) (hx : Exchange succ succ' l a m b r) :
    Cycle succ' (l ++ b :: (m ++ a :: r)) := by
  obtain ⟨hl, hrest, -, -⟩ := cycle_append_cons.mp h
  rw [List.map_append, List.map_cons, List.append_assoc, List.cons_append, List.isChain_append]
    at hrest
  obtain ⟨hm, hr, -⟩ := hrest
  rw [List.isChain_cons] at hr
  obtain ⟨hln, hrest, hdisj⟩ := List.nodup_append.mp hnodup
  simp only [List.nodup_cons, List.mem_append, List.mem_cons, not_or] at hrest
  obtain ⟨⟨ham, hab, har⟩, hrest⟩ := hrest
  obtain ⟨hmn, hbr, hdisj'⟩ := List.nodup_append.mp hrest
  have hbr' : b ∉ r := (List.nodup_cons.mp hbr).1
  have hbm : b ∉ m := fun hb => hdisj' b hb b (List.mem_cons_self ..) rfl
  have hmr : ∀ x ∈ r, x ∉ m := fun x hxr hxm => hdisj' x hxm x (List.mem_cons_of_mem b hxr) rfl
  have hlast : ∀ x, some x = (b :: m).getLast? → x = b ∨ x ∈ m := fun x hx =>
    List.mem_cons.mp (List.mem_of_getLast? hx.symm)
  refine cycle_append_cons.mpr ⟨?_, ?_, hx.left, ?_⟩
  · refine isChain_front_congr hl hln ?_
    intro u hu hmem
    have hne : ∀ x, x ∈ a :: (m ++ b :: r) → u ≠ some x := by
      rintro x hxr rfl
      exact hdisj x (hmem x rfl) x hxr rfl
    refine hx.other u hu (hne b (by simp)) ?_ (hne a (by simp))
    obtain ⟨y, hy⟩ : ∃ y, (b :: m).getLast? = some y := ⟨_, List.getLast?_cons⟩
    rw [hy]
    refine hne y ?_
    rcases hlast y hy.symm with rfl | hym <;> simp [*]
  · rw [List.map_append, List.map_cons, List.append_assoc, List.cons_append, List.isChain_append]
    refine ⟨?_, ?_, ?_⟩
    · refine isChain_path_congr hm hmn ?_
      intro x hxm hx'
      refine hx.other _ ?_ ?_ ?_ ?_
      · exact fun he => hdisj x (List.mem_of_getLast? he.symm) x (by simp [hxm]) rfl
      · rintro ⟨⟩
        exact hbm hxm
      · rw [List.getLast?_cons_of_ne_nil (List.ne_nil_of_mem hxm)]
        exact hx'
      · rintro ⟨⟩
        exact ham hxm
    · rw [List.isChain_cons]
      refine ⟨?_, isChain_back_congr hr.2 ?_⟩
      · intro y hy
        rw [hx.rightNext]
        cases r <;> simpa using hy
      · intro x hxr
        refine hx.other _ ?_ ?_ ?_ ?_
        · exact fun he => hdisj x (List.mem_of_getLast? he.symm) x (by simp [hxr]) rfl
        · rintro ⟨⟩
          exact hbr' hxr
        · intro he
          rcases hlast x he with rfl | hxm
          · exact hbr' hxr
          · exact hmr x hxr hxm
        · rintro ⟨⟩
          exact har hxr
    · intro u hu v hv
      obtain rfl : some a = v := by simpa using hv
      rw [List.getLast?_map, Option.mem_map] at hu
      obtain ⟨x, hx', rfl⟩ := hu
      rw [← hx.right, List.getLast?_cons, Option.mem_def.mp hx', Option.getD_some]
  · rw [hx.leftNext]
    cases m <;> rfl

/-- The last node of a first part is none of the nodes behind it. -/
theorem getLast?_ne (hnodup : (l ++ m).Nodup) (ha : a ∈ m) : l.getLast? ≠ some a := by
  intro hlast
  exact (List.disjoint_of_nodup_append hnodup) (List.mem_of_getLast? hlast) ha

/-- Neighbours differ from each other and from the one in front of them. -/
theorem adjacent (hnodup : (l ++ a :: b :: r).Nodup) :
    l.getLast? ≠ some a ∧ l.getLast? ≠ some b ∧ a ≠ b := by
  refine ⟨getLast?_ne hnodup (by simp), getLast?_ne hnodup (by simp), ?_⟩
  rintro rfl
  simp [List.nodup_append] at hnodup

/-- The nodes that point to two nodes which are no neighbours are four different ones. -/
theorem apart (hnodup : (l ++ a :: (m ++ b :: r)).Nodup) (hm : m ≠ []) :
    a ≠ b ∧ (l.getLast? ≠ some a ∧ l.getLast? ≠ some b) ∧
      (m.getLast? ≠ some a ∧ m.getLast? ≠ some b) ∧ l.getLast? ≠ m.getLast? := by
  have hmid : (a :: m ++ b :: r).Nodup := (List.nodup_append.mp hnodup).2.1
  have hma : m.getLast? ≠ some a := by
    intro hlast
    exact (List.nodup_cons.mp hmid).1 (by simp [List.mem_of_getLast? hlast])
  have hmb : m.getLast? ≠ some b := by
    intro hlast
    exact (List.disjoint_of_nodup_append hmid) (by simp [List.mem_of_getLast? hlast])
      (List.mem_cons_self ..)
  refine ⟨?_, ⟨getLast?_ne hnodup (by simp), getLast?_ne hnodup (by simp)⟩, ⟨hma, hmb⟩, ?_⟩
  · rintro rfl
    exact (List.nodup_cons.mp hmid).1 (by simp)
  · obtain ⟨z, hz⟩ : ∃ z, m.getLast? = some z :=
      Option.ne_none_iff_exists'.mp (by simpa using hm)
    rw [hz]
    exact getLast?_ne hnodup (by simp [List.mem_of_getLast? hz])

variable [DecidableEq α]

/-- The insertion rule: a new node between two neighbours, whichever these are. -/
theorem Cycle.insert (h : Cycle succ (l ++ r)) (hnodup : (l ++ e :: r).Nodup) :
    Cycle (Function.update (Function.update succ l.getLast? (some e)) (some e) r.head?)
      (l ++ e :: r) := by
  obtain ⟨hl, hr, -⟩ := cycle_append.mp h
  obtain ⟨hln, hrn, hdisj⟩ := List.nodup_append.mp hnodup
  have hel : e ∉ l := fun he => hdisj e he e (List.mem_cons_self ..) rfl
  have her : e ∉ r := (List.nodup_cons.mp hrn).1
  have hlast : l.getLast? ≠ some e := fun he => hel (List.mem_of_getLast? he)
  refine cycle_append_cons.mpr ⟨?_, ?_, ?_, ?_⟩
  · refine isChain_front_congr hl hln ?_
    intro u hu hmem
    have hue : u ≠ some e := fun he => hel (hmem e he)
    rw [Function.update_of_ne hue, Function.update_of_ne hu]
  · refine isChain_back_congr hr ?_
    intro a ha
    have hae : some a ≠ some e := fun he => her (Option.some.inj he ▸ ha)
    have hal : some a ≠ l.getLast? := fun he =>
      hdisj a (List.mem_of_getLast? he.symm) a (List.mem_cons_of_mem e ha) rfl
    rw [Function.update_of_ne hae, Function.update_of_ne hal]
  · rw [Function.update_of_ne hlast, Function.update_self]
  · rw [Function.update_self]

/-- The removal rule: the neighbours of a node are linked to each other. -/
theorem Cycle.unlink (h : Cycle succ (l ++ e :: r)) (hnodup : (l ++ e :: r).Nodup) :
    Cycle (Function.update succ l.getLast? r.head?) (l ++ r) := by
  obtain ⟨hl, hr, -, -⟩ := cycle_append_cons.mp h
  obtain ⟨hln, -, hdisj⟩ := List.nodup_append.mp hnodup
  refine cycle_append.mpr ⟨?_, ?_, ?_⟩
  · exact isChain_front_congr hl hln fun u hu _ => Function.update_of_ne hu ..
  · refine isChain_back_congr hr ?_
    intro a ha
    have hal : some a ≠ l.getLast? := fun he =>
      hdisj a (List.mem_of_getLast? he.symm) a (List.mem_cons_of_mem e ha) rfl
    exact Function.update_of_ne hal ..
  · rw [Function.update_self]

/-! ### The updates that exchange two nodes -/

open Function (update)

/-- Neighbours change places, the pointers of the second one first. -/
theorem exchange_up (hnodup : (l ++ a :: b :: r).Nodup) :
    Exchange succ
      (update (update (update succ (some b) (some a)) (some a) r.head?) l.getLast? (some b))
      l a [] b r := by
  obtain ⟨hla, hlb, hab⟩ := adjacent hnodup
  constructor
  · exact Function.update_self ..
  · simp [Function.update_of_ne, hlb.symm, hab.symm]
  · simp [Function.update_of_ne, hlb.symm, hab.symm]
  · simp [Function.update_of_ne, hla.symm]
  · intro u h1 h2 h3 h4
    rw [Function.update_of_ne h1, Function.update_of_ne h4, Function.update_of_ne h2]

/-- Neighbours change places, the pointers of the first one first. -/
theorem exchange_down (hnodup : (l ++ a :: b :: r).Nodup) :
    Exchange succ
      (update (update (update succ l.getLast? (some b)) (some a) r.head?) (some b) (some a))
      l a [] b r := by
  obtain ⟨hla, hlb, hab⟩ := adjacent hnodup
  constructor
  · simp [Function.update_of_ne, hla, hlb]
  · simp
  · simp
  · simp [Function.update_of_ne, hab]
  · intro u h1 h2 h3 h4
    rw [Function.update_of_ne h2, Function.update_of_ne h4, Function.update_of_ne h1]

/-- Nodes that are no neighbours change places, the pointers of the second one first. -/
theorem exchange_apart (hnodup : (l ++ a :: (m ++ b :: r)).Nodup) (hm : m ≠ []) :
    Exchange succ
      (update (update (update (update succ (some b) m.head?) l.getLast? (some b)) (some a) r.head?)
        m.getLast? (some a)) l a m b r := by
  obtain ⟨hab, ⟨hla, hlb⟩, ⟨hma, hmb⟩, hlm⟩ := apart hnodup hm
  have hlast : (b :: m).getLast? = m.getLast? := List.getLast?_cons_of_ne_nil hm
  have hhead : (m ++ [a]).head? = m.head? := List.head?_append_of_ne_nil m hm
  constructor
  · simp [Function.update_of_ne, hla, hlm]
  · simp [Function.update_of_ne, hlb.symm, hmb.symm, hab.symm, hhead]
  · rw [hlast, Function.update_self]
  · simp [Function.update_of_ne, hma.symm]
  · intro u h1 h2 h3 h4
    rw [hlast] at h3
    rw [Function.update_of_ne h3, Function.update_of_ne h4, Function.update_of_ne h1,
      Function.update_of_ne h2]

/-- Nodes that are no neighbours change places, the pointers of the first one first. -/
theorem exchange_apart' (hnodup : (l ++ a :: (m ++ b :: r)).Nodup) (hm : m ≠ []) :
    Exchange succ
      (update (update (update (update succ (some a) r.head?) m.getLast? (some a)) (some b) m.head?)
        l.getLast? (some b)) l a m b r := by
  obtain ⟨hab, ⟨hla, hlb⟩, ⟨hma, hmb⟩, hlm⟩ := apart hnodup hm
  have hlast : (b :: m).getLast? = m.getLast? := List.getLast?_cons_of_ne_nil hm
  have hhead : (m ++ [a]).head? = m.head? := List.head?_append_of_ne_nil m hm
  constructor
  · exact Function.update_self ..
  · simp [Function.update_of_ne, hlb.symm, hhead]
  · simp [hlast, Function.update_of_ne, hlm.symm, hmb]
  · simp [Function.update_of_ne, hla.symm, hma.symm, hab]
  · intro u h1 h2 h3 h4
    rw [hlast] at h3
    rw [Function.update_of_ne h1, Function.update_of_ne h2, Function.update_of_ne h3,
      Function.update_of_ne h4]

end Linked
