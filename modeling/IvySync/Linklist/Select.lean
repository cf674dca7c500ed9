import IvySync.Linklist.Exchange
import IvySync.Linklist.Move
import IvySync.Linklist.Refinement
import IvySync.Foundation.Machine
import IvySync.Foundation.Text

/-!
# The selected entry

`Linklist::sel` selects one entry and deselects the others, and `Entry::rem` hands the flag of the
entry that is taken out on to its successor, or to its predecessor when there is no successor.  It
does so whether the flag is set or not, so that an entry that is not selected takes the selection
away from its heir.

`Spares` excludes this.  Which entry should be selected is kept beside the heap (`Selecting.choose`).
-/

namespace IvySync

open Function (update)

namespace Linklist

variable {h h' : Heap} {L : ListId} {e : Addr} {xs l r : Playlist Addr} {chosen : Option Addr}

/-! ### Selecting -/

/-- The loop goes through the entries from the last to the first. -/
theorem selLoop_eq {pos : ℤ} {ys : Playlist Addr} {o : Option Addr}
    (hvisits : Linked.Visits h.prev o ys.reverse) (hnodup : ys.Nodup) :
    selLoop pos ys.length o h =
      some { h with select := fun a => if a ∈ ys then ys.pick pos = some a else h.select a } := by
  induction ys using List.reverseRecOn generalizing o h with
  | nil => simp [selLoop]
  | append_singleton ys a ih =>
    rw [List.reverse_append, List.reverse_singleton, List.singleton_append,
      Linked.visits_cons] at hvisits
    obtain ⟨rfl, hvisits⟩ := hvisits
    obtain ⟨ha, hnodup⟩ := List.nodup_cons.1 (List.nodup_middle.1 hnodup)
    rw [List.append_nil] at ha hnodup
    have hrest := ih (h := Entry.sel a h ((ys.length : ℤ) + 1 = pos)) hvisits hnodup
    rw [List.length_append, List.length_singleton, selLoop]
    refine hrest.trans ?_
    congr 2
    funext b
    rw [Playlist.pick_concat]
    by_cases hb : b ∈ ys
    · have hne : a ≠ b := fun hab => ha (hab ▸ hb)
      by_cases hpos : pos = ys.length + 1
      · subst hpos
        have hout : Playlist.pick ys (ys.length + 1) = none :=
          Playlist.pick_eq_none_iff.2 (by omega)
        simp [hb, hne, hout]
      · simp [hb, hpos]
    · by_cases hba : b = a
      · have hout : Playlist.pick ys pos ≠ some a := by
          intro hpick
          obtain ⟨l, r, rfl, -⟩ := Playlist.exists_split_of_pick hpick
          exact ha (by simp)
        by_cases hpos : pos = ys.length + 1 <;>
          simp [hba, ha, Entry.sel, hpos, hout, eq_comm (a := (ys.length : ℤ) + 1)]
      · simp [hb, hba, Entry.sel]

/-- `sel` leaves the entry at the position selected and no other entry of the list. -/
theorem sel_eq {pos : ℤ} (hw : WellFormed h L xs) (hpos : pos ≤ xs.length) :
    sel L h pos =
      some { h with select := fun a => if a ∈ xs then xs.pick pos = some a else h.select a } := by
  unfold sel
  rw [hw.length, if_neg (Int.not_lt.2 hpos), Int.toNat_natCast]
  exact selLoop_eq hw.backward hw.nodup

/-- The flags are no part of what makes a list well formed. -/
theorem wellFormed_select (hw : WellFormed h L xs) (select : Addr → Bool) :
    WellFormed { h with select := select } L xs :=
  hw.frame (fun _ _ => rfl) (fun _ _ => rfl) (fun _ _ => rfl) (fun _ _ => rfl) rfl rfl rfl

theorem selectedLoop_eq {ys : Playlist Addr} {o : Option Addr}
    (hvisits : Linked.Visits h.prev o ys) :
    selectedLoop h ys.length o = some (ys.find? h.select) := by
  induction ys generalizing o with
  | nil => rfl
  | cons a ys ih =>
    obtain ⟨rfl, hvisits⟩ := hvisits
    rw [List.length_cons, selectedLoop, ih hvisits, List.find?_cons]
    cases h.select a <;> rfl

/-- `selected` returns the last entry that is selected. -/
theorem selected_eq (hw : WellFormed h L xs) :
    selected L h = some (xs.reverse.find? h.select) := by
  unfold selected
  rw [hw.length, Int.toNat_natCast, ← List.length_reverse]
  exact selectedLoop_eq hw.backward

/-! ### The entry that has been chosen -/

/-- Exactly the chosen entry is selected, and it is one of the entries. -/
structure Flagged (select : Addr → Bool) (xs : Playlist Addr) (chosen : Option Addr) : Prop where
  iff : ∀ a ∈ xs, select a = true ↔ chosen = some a
  mem : ∀ a, chosen = some a → a ∈ xs

/-- What `selected` returns is the chosen entry. -/
theorem Flagged.selected (hf : Flagged h.select xs chosen) (hw : WellFormed h L xs) :
    Linklist.selected L h = some chosen := by
  rw [selected_eq hw]
  congr 1
  rcases chosen with _ | c
  · rw [List.find?_eq_none]
    intro a ha hselect
    have hnone := (hf.iff a (List.mem_reverse.1 ha)).1 hselect
    cases hnone
  · have hc := hf.mem c rfl
    cases hfind : xs.reverse.find? h.select with
    | none =>
      rw [List.find?_eq_none] at hfind
      exact absurd ((hf.iff c hc).2 rfl) (hfind c (List.mem_reverse.2 hc))
    | some a =>
      have ha := List.mem_reverse.1 (List.mem_of_find?_eq_some hfind)
      exact ((hf.iff a ha).1 (List.find?_some hfind)).symm

/-- The entry that the selection passes to: the successor, or the predecessor of the last one. -/
def heir (xs : Playlist Addr) (e : Addr) : Option Addr :=
  (xs.dropWhile (· ≠ e)).tail.head?.or (xs.takeWhile (· ≠ e)).getLast?

theorem heir_eq (he : e ∉ l) : heir (l ++ e :: r) e = r.head?.or l.getLast? := by
  unfold heir
  rw [Text.dropWhile_line he, Text.takeWhile_line he, List.tail_cons]

theorem mem_of_heir {x : Addr} (h : r.head?.or l.getLast? = some x) : x ∈ l ++ r := by
  rcases Option.or_eq_some_iff.1 h with hr | ⟨-, hl⟩
  · exact List.mem_append_right l (List.mem_of_mem_head? hr)
  · exact List.mem_append_left r (List.mem_of_getLast? hl)

/-- `Entry::rem` hands the flag on to the heir, whether it is set or not. -/
theorem rem_select (hw : WellFormed h L (l ++ e :: r)) :
    (Entry.rem e h).select =
      match r.head?.or l.getLast? with
      | some x => update h.select x (h.select e)
      | none => h.select := by
  have hnext : ∀ x, r.head? = some x → e ≠ x := by
    rintro x hx rfl
    have hmem := List.mem_of_mem_head? hx
    exact (List.nodup_cons.1 (List.nodup_append.1 hw.nodup).2.1).1 hmem
  unfold Entry.rem
  rw [hw.owner e (by simp)]
  have hn := hw.next_eq
  have hp := hw.prev_eq
  cases hr : r.head? with
  | none =>
    rw [hr] at hn
    rw [Option.none_or]
    cases hl : l.getLast? with
    | none =>
      rw [hl] at hp
      simp [hn, hp]
    | some p =>
      rw [hl] at hp
      simp [hn, hp]
  | some x =>
    rw [hr] at hn
    rw [Option.some_or]
    cases hl : l.getLast? with
    | none =>
      rw [hl] at hp
      simp [hn, hp, hnext x hr]
    | some p =>
      rw [hl] at hp
      simp [hn, hp, hnext x hr]

/-- After an entry has been taken out, exactly the entry that should be is selected, unless an entry
that is not selected was in front of the selected one, or behind it at the end. -/
theorem Flagged.rem_iff (hf : Flagged h.select (l ++ e :: r) chosen)
    (hw : WellFormed h L (l ++ e :: r)) :
    Flagged (Entry.rem e h).select (l ++ r)
        (if chosen = some e then r.head?.or l.getLast? else chosen) ↔
      (h.select e = true ∨ ∀ x ∈ r.head?.or l.getLast?, h.select x = false) := by
  have he := hw.not_mem
  have hsub : ∀ a ∈ l ++ r, a ∈ l ++ e :: r := by
    intro a ha
    simp only [List.mem_append, List.mem_cons] at ha ⊢
    tauto
  have hne : ∀ a ∈ l ++ r, a ≠ e := fun a ha hae => he (hae ▸ ha)
  have hmem : chosen ≠ some e → ∀ a, chosen = some a → a ∈ l ++ r := by
    intro hce a hca
    have ha := hf.mem a hca
    have hae : a ≠ e := fun hae => hce (hae ▸ hca)
    simp only [List.mem_append, List.mem_cons] at ha ⊢
    tauto
  have hchosen : h.select e = true ↔ chosen = some e := hf.iff e (by simp)
  rw [rem_select hw]
  cases hheir : r.head?.or l.getLast? with
  | none =>
    have hnil : l ++ r = [] := by
      obtain ⟨hr, hl⟩ := Option.or_eq_none_iff.1 hheir
      rw [List.head?_eq_none_iff.1 hr, List.getLast?_eq_none_iff.1 hl]
      rfl
    refine iff_of_true ⟨fun a ha => ?_, fun a ha => ?_⟩ (.inr (by simp))
    · rw [hnil] at ha
      cases ha
    · split_ifs at ha with hce
      exact hmem hce a ha
  | some x =>
    have hx : x ∈ l ++ r := mem_of_heir hheir
    have hxchosen := hf.iff x (hsub x hx)
    simp only [Option.mem_def, Option.some.injEq, forall_eq']
    by_cases hce : chosen = some e
    · refine iff_of_true ⟨fun a ha => ?_, fun a ha => ?_⟩ (.inl (hchosen.2 hce))
      · rw [if_pos hce]
        by_cases hax : a = x
        · rw [hax, Function.update_self]
          exact iff_of_true (hchosen.2 hce) rfl
        · rw [Function.update_of_ne hax, hf.iff a (hsub a ha), hce, Option.some.injEq,
            Option.some.injEq]
          exact iff_of_false (hne a ha).symm (Ne.symm hax)
      · rw [if_pos hce, Option.some.injEq] at ha
        exact ha ▸ hx
    · have hselect : ¬ h.select e = true := mt hchosen.1 hce
      rw [if_neg hce, or_iff_right hselect, ← Bool.not_eq_true, hxchosen]
      constructor
      · intro hnew hcx
        have hiff := (hnew.iff x hx).2 hcx
        rw [Function.update_self] at hiff
        exact hselect hiff
      · intro hcx
        refine ⟨fun a ha => ?_, hmem hce⟩
        by_cases hax : a = x
        · rw [hax, Function.update_self]
          exact iff_of_false hselect hcx
        · rw [Function.update_of_ne hax, hf.iff a (hsub a ha)]

/-! ### Selections, additions and removals -/

/-- The entries of a list, by following its pointers as many times as it has entries. -/
def reachable (h : Heap) (L : ListId) : Playlist Addr :=
  Linked.nodes h.next (h.length L).toNat (h.first L)

theorem reachable_eq (hw : WellFormed h L xs) : reachable h L = xs := by
  unfold reachable
  rw [hw.length, Int.toNat_natCast]
  exact hw.forward.nodes

/-- A call on the list: one entry is selected, a fresh one is added or one is taken out, by its
position or by itself. -/
inductive Selecting
  | sel (pos : ℤ)
  | add (x : Arrival) (p : Place)
  | rem (pos : ℤ)
  | out (e : Addr)
  | delete (e : Addr)
  deriving DecidableEq, Repr

namespace Selecting

/-- What the call does; `none` when NULL is followed. -/
def run (L : ListId) (h : Heap) : Selecting → Option Heap
  | .sel pos => Linklist.sel L h pos
  | .add x p => place L x.addr (x.make h) p
  | .rem pos => some (Linklist.rem L h pos)
  | .out e => some (Entry.rem e h)
  | .delete e => some (Entry.delete e h)

/-- A position to select is one of the list, what is added is new, what it is added behind or taken
out by itself is in the list. -/
def Allowed (L : ListId) (h : Heap) : Selecting → Prop
  | .sel pos => 1 ≤ pos ∧ pos ≤ h.length L
  | .add x (.insertAfter y) => h.live x.addr = false ∧ y ∈ reachable h L
  | .add x _ => h.live x.addr = false
  | .rem _ => True
  | .out e | .delete e => e ∈ reachable h L

instance (L : ListId) (h : Heap) (a : Selecting) : Decidable (a.Allowed L h) := by
  cases a with
  | add x p => cases p <;> unfold Allowed <;> infer_instance
  | _ => unfold Allowed; infer_instance

/-- The entry that the call takes out. -/
def removed (L : ListId) (h : Heap) : Selecting → Option Addr
  | .rem pos => pick L h pos
  | .out e | .delete e => some e
  | .sel _ | .add _ _ => none

/-- Which entry should be selected after the call: the one that `sel` has been called for, until it
is taken out, then its heir. -/
def choose (L : ListId) (chosen : Option Addr) (h : Heap) : Selecting → Option Addr
  | .sel pos => (reachable h L).pick pos
  | a =>
    match a.removed L h with
    | some e => if chosen = some e then heir (reachable h L) e else chosen
    | none => chosen

/-- The entry that is taken out is selected, or its heir is not. -/
def Spares (L : ListId) (h : Heap) (a : Selecting) : Prop :=
  ∀ e ∈ a.removed L h,
    h.select e = true ∨ ∀ x ∈ heir (reachable h L) e, h.select x = false

instance (L : ListId) (h : Heap) (a : Selecting) : Decidable (a.Spares L h) :=
  inferInstanceAs (Decidable (∀ e ∈ a.removed L h, _ ∨ ∀ x ∈ heir (reachable h L) e, _))

end Selecting

/-- The list at `L` under these calls. -/
def selecting (L : ListId) : Machine Heap Selecting Unit where
  next h a := if a.Allowed L h then (a.run L h).map fun h' => (h', ()) else none

/-- The same with the entry that should be selected kept beside it. -/
def choosing (L : ListId) : Machine (Heap × Option Addr) Selecting Unit :=
  (selecting L).track fun chosen h a _ => a.choose L chosen h

/-- The list is well formed, of its entries exactly the chosen one is selected, and `selected`
returns it. -/
def Selects (L : ListId) (h : Heap) (chosen : Option Addr) : Prop :=
  ∃ xs, WellFormed h L xs ∧ Flagged h.select xs chosen ∧ selected L h = some chosen

theorem selects_iff (hw : WellFormed h L xs) :
    Selects L h chosen ↔ Flagged h.select xs chosen := by
  constructor
  · rintro ⟨ys, hw', hf, -⟩
    rwa [hw.forward.unique hw'.forward]
  · exact fun hf => ⟨xs, hw, hf, hf.selected hw⟩

/-- Nothing is selected or deselected by putting an entry into a list. -/
theorem place_select {p : Place} (hlist : h.list e = none) (h' : Heap)
    (hplace : place L e h p = some h') : h'.select = h.select := by
  have happend : (append L e h).select = h.select := by
    unfold append
    rw [hlist]
    cases hlast : h.last L <;> simp [hlast]
  have hprepend : (prepend L e h).select = h.select := by
    unfold prepend
    rw [hlist]
    cases hfirst : h.first L <;> simp [hfirst]
  cases p with
  | append =>
    cases hplace
    exact happend
  | prepend =>
    cases hplace
    exact hprepend
  | insert pos =>
    simp only [place, insert, hlist, Option.isSome_none, Bool.false_eq_true, if_false] at hplace
    split_ifs at hplace
    · cases hplace
      exact happend
    · cases hplace
      exact hprepend
    · obtain ⟨ptr, -, hmap⟩ := Option.bind_eq_some_iff.1 hplace
      obtain ⟨before, -, rfl⟩ := Option.map_eq_some_iff.1 hmap
      rfl
  | insertAfter y =>
    cases hplace
    unfold insertAfter
    rw [hlist]
    cases hnext : h.next y <;> simp [hnext]

/-- A fresh entry is put between two neighbours. -/
theorem place_fresh {p : Place} (hw : WellFormed h L xs) (hlist : h.list e = none)
    (hnext : h.next e = none) (hp : ∀ y, p = .insertAfter y → y ∈ xs) :
    ∃ h' l r, place L e h p = some h' ∧ xs = l ++ r ∧ Spliced h h' L e l.getLast? r.head? := by
  have he : e ∉ xs := by
    intro he
    rw [hw.owner e he] at hlist
    cases hlist
  cases p with
  | append =>
    obtain ⟨l, r, hsplit, hs, -⟩ := append_placed hw hlist
    exact ⟨_, l, r, rfl, hsplit, hs⟩
  | prepend =>
    obtain ⟨l, r, hsplit, hs, -⟩ := prepend_placed hw hlist
    exact ⟨_, l, r, rfl, hsplit, hs⟩
  | insert pos =>
    obtain ⟨h', hinsert, hs⟩ := hw.exists_insert_spliced hlist pos
    exact ⟨h', _, _, hinsert, (List.take_append_drop ..).symm, hs⟩
  | insertAfter y =>
    have hy := hp y rfl
    obtain ⟨l, r, hsplit, hs, -⟩ :=
      insertAfter_placed hw hlist hy (fun hye => he (hye ▸ hy)) fun _ => hnext
    exact ⟨_, l, r, rfl, hsplit, hs⟩

/-! ### Every history -/

/-- A call to `sel`. -/
theorem Selects.sel {pos : ℤ} (hw : WellFormed h L xs) (hpos : pos ≤ xs.length) :
    ∃ h', sel L h pos = some h' ∧ Selects L h' (xs.pick pos) := by
  refine ⟨_, sel_eq hw hpos, ?_⟩
  rw [selects_iff (wellFormed_select hw _)]
  refine ⟨fun a ha => by simp [ha], fun a ha => ?_⟩
  obtain ⟨l, r, rfl, -⟩ := Playlist.exists_split_of_pick ha
  simp

/-- An addition changes nothing about the selection. -/
theorem Selects.add {x : Arrival} {p : Place} (hw : WellFormed h L xs)
    (hf : Flagged h.select xs chosen) (hx : h.live x.addr = false)
    (hp : ∀ y, p = .insertAfter y → y ∈ xs) :
    ∃ h', place L x.addr (x.make h) p = some h' ∧ Selects L h' chosen := by
  have hout : x.addr ∉ xs := by
    intro hmem
    rw [hw.live x.addr hmem] at hx
    cases hx
  have hmade := x.make_wellFormed hw hout
  obtain ⟨hlist, hlive, -⟩ := x.make_addr h
  have hnext : (x.make h).next x.addr = none := by
    simp [Arrival.make, Entry.setName, Entry.new]
  have hselect : (x.make h).select = update h.select x.addr false := rfl
  obtain ⟨h', l, r, hplace, rfl, hs⟩ := place_fresh hmade hlist hnext hp
  refine ⟨h', hplace, ?_⟩
  rw [selects_iff (hmade.splice hout hlive hs), place_select hlist h' hplace, hselect]
  constructor
  · intro a ha
    by_cases hax : a = x.addr
    · rw [hax, Function.update_self]
      exact iff_of_false Bool.false_ne_true fun hc => hout (hf.mem _ hc)
    · rw [Function.update_of_ne hax]
      refine hf.iff a ?_
      simp only [List.mem_append, List.mem_cons, hax, false_or] at ha ⊢
      exact ha
  · intro a ha
    have hmem := hf.mem a ha
    simp only [List.mem_append, List.mem_cons] at hmem ⊢
    tauto

/-- After a removal the selection is where it should be exactly if the removal spares it. -/
theorem selects_removed_iff (hw : WellFormed h L xs) (hf : Flagged h.select xs chosen) (he : e ∈ xs)
    (hw' : WellFormed h' L (xs.erase e)) (hselect : h'.select = (Entry.rem e h).select) :
    Selects L h' (if chosen = some e then heir xs e else chosen) ↔
      (h.select e = true ∨ ∀ x ∈ heir xs e, h.select x = false) := by
  obtain ⟨l, r, rfl⟩ := List.append_of_mem he
  rw [hw.erase_eq] at hw'
  rw [selects_iff hw', hselect, heir_eq hw.not_mem_front]
  exact hf.rem_iff hw

/-- Every call returns, and leaves the selection where it should be exactly if it is no removal that
takes the selection away from an entry that stays. -/
theorem exists_run_eq {a : Selecting} (hw : WellFormed h L xs) (hf : Flagged h.select xs chosen)
    (ha : a.Allowed L h) :
    ∃ h', a.run L h = some h' ∧ (Selects L h' (a.choose L chosen h) ↔ a.Spares L h) := by
  have hreachable := reachable_eq hw
  have hadd : ∀ x p, a = .add x p → h.live x.addr = false ∧ ∀ y, p = .insertAfter y → y ∈ xs := by
    rintro x p rfl
    cases p with
    | insertAfter y =>
      refine ⟨ha.1, ?_⟩
      rintro z hz
      obtain rfl := Place.insertAfter.inj hz
      exact hreachable ▸ ha.2
    | _ => exact ⟨ha, by simp⟩
  have hremoved : ∀ e h', a.removed L h = some e → e ∈ xs → WellFormed h' L (xs.erase e) →
      h'.select = (Entry.rem e h).select →
      (Selects L h' (a.choose L chosen h) ↔ a.Spares L h) := by
    intro e h' hr he hw' hselect
    have hchoose : a.choose L chosen h = if chosen = some e then heir xs e else chosen := by
      cases a with
      | sel | add => cases hr
      | _ => simp only [Selecting.choose, hr, hreachable]
    rw [hchoose, selects_removed_iff hw hf he hw' hselect]
    simp only [Selecting.Spares, hr, Option.mem_def, Option.some.injEq, forall_eq', hreachable]
  cases a with
  | sel pos =>
    have hpos : pos ≤ xs.length := hw.length ▸ ha.2
    obtain ⟨h', hsel, hselects⟩ := Selects.sel hw hpos
    refine ⟨h', hsel, iff_of_true ?_ (by simp [Selecting.Spares, Selecting.removed])⟩
    rwa [Selecting.choose, hreachable]
  | add x p =>
    obtain ⟨hx, hp⟩ := hadd x p rfl
    obtain ⟨h', hplace, hselects⟩ := Selects.add hw hf hx hp
    exact ⟨h', hplace, iff_of_true hselects (by simp [Selecting.Spares, Selecting.removed])⟩
  | rem pos =>
    refine ⟨_, rfl, ?_⟩
    cases hpick : pick L h pos with
    | none =>
      simp only [Linklist.rem, Selecting.choose, Selecting.Spares, Selecting.removed, hpick]
      exact iff_of_true ((selects_iff hw).2 hf) (by simp)
    | some e =>
      have he : e ∈ xs := by
        rw [hw.pick] at hpick
        obtain ⟨l, r, rfl, -⟩ := Playlist.exists_split_of_pick hpick
        simp
      rw [Linklist.rem, hpick]
      exact hremoved e _ hpick he (rem_erase hw he) rfl
  | out e =>
    have he : e ∈ xs := hreachable ▸ ha
    exact ⟨_, rfl, hremoved e _ rfl he (rem_erase hw he) rfl⟩
  | delete e =>
    have he : e ∈ xs := hreachable ▸ ha
    exact ⟨_, rfl, hremoved e _ rfl he (delete_erase hw he) rfl⟩

/-- For every well-formed list without a selection and every history of selections, additions and
removals, the selection is where it should be as long as each removal is of the selected entry or of
one that is not in front of it, nor behind it at the end; the first other removal loses it. -/
theorem selection {h₀ : Heap} {xs₀ : Playlist Addr} {tr : List (Selecting × Unit)}
    {s : Heap × Option Addr} (hw₀ : WellFormed h₀ L xs₀) (hnone : ∀ a ∈ xs₀, h₀.select a = false)
    (hrun : (choosing L).RunOn (fun s a => a.Spares L s.1) (h₀, none) tr s) :
    Selects L s.1 s.2 ∧ ∀ a : Selecting, a.Allowed L s.1 →
      ∃ t, (choosing L).next s a = some (t, ()) ∧ (Selects L t.1 t.2 ↔ a.Spares L s.1) := by
  have hstep : ∀ (s : Heap × Option Addr) (a : Selecting), Selects L s.1 s.2 → a.Allowed L s.1 →
      ∃ t, (choosing L).next s a = some (t, ()) ∧ (Selects L t.1 t.2 ↔ a.Spares L s.1) := by
    rintro s a ⟨xs, hw, hf, -⟩ ha
    obtain ⟨h', hh', hiff⟩ := exists_run_eq hw hf ha
    refine ⟨(h', a.choose L s.2 s.1), ?_, hiff⟩
    exact Machine.track_next.2 ⟨by simp [selecting, ha, hh'], rfl⟩
  have hstart : Selects L h₀ none :=
    (selects_iff hw₀).2 ⟨fun a ha => by simp [hnone a ha], by simp⟩
  have hend : Selects L s.1 s.2 := by
    refine hrun.invariant (I := fun s => Selects L s.1 s.2) ?_ hstart
    intro s a t e hs hspares hnext
    have ha : a.Allowed L s.1 := by
      obtain ⟨hn, -⟩ := Machine.track_next.1 hnext
      by_contra hnot
      simp [selecting, hnot] at hn
    obtain ⟨t', ht', hiff⟩ := hstep s a hs ha
    rw [ht'] at hnext
    cases hnext
    exact hiff.2 hspares
  exact ⟨hend, fun a ha => hstep s a hend ha⟩

/-- The second entry is selected and taken out. -/
theorem selection_second : ∃ h, Selects 0 h (some 3) := by
  have hw : WellFormed threeEntries 0 [1, 2, 3] := by decide +kernel
  have hexec : (choosing 0).Reaches (fun s a => a.Spares 0 s.1) (threeEntries, none)
      [.sel 2, .out 2] fun _ s => s.2 = some 3 := by decide +kernel
  obtain ⟨tr, s, hrun, hs⟩ := hexec.exists_runOn
  exact ⟨s.1, hs ▸ (selection hw (by decide) hrun).1⟩

/-- The second entry is selected, and the first one is taken out. -/
theorem not_selection : ¬ ∀ (L : ListId) (h₀ : Heap) (xs₀ : Playlist Addr)
    (tr : List (Selecting × Unit)) (s : Heap × Option Addr), WellFormed h₀ L xs₀ →
      (∀ a ∈ xs₀, h₀.select a = false) → (choosing L).Run (h₀, none) tr s →
      Selects L s.1 s.2 := by
  intro hall
  have hw : WellFormed threeEntries 0 [1, 2, 3] := by decide +kernel
  have hexec : (choosing 0).Reaches (fun _ _ => True) (threeEntries, none)
      [.sel 2, .out 1] fun _ s => selected 0 s.1 = some none ∧ s.2 = some 2 := by decide +kernel
  obtain ⟨tr, s, hrun, hselected, hchosen⟩ := hexec.exists_runOn
  obtain ⟨xs, -, -, hs⟩ := hall 0 _ _ tr s hw (by decide) hrun
  rw [hselected, hchosen] at hs
  cases hs

end Linklist

end IvySync
