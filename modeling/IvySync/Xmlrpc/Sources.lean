import IvySync.Xmlrpc.Dispatch

/-!
# What holds of the sources

`Listed` is what holds of the list of the sources whatever happens, `Pass` what holds of the events
in the loop over them, and `Conns` what holds of the connections of the server.  `Inv` is all that
holds of a host, with what is special to the place in `work` where it is (`Phase`).
-/

namespace IvySync

open Http XmlRpcSocket

variable {ι σ : Type} {h h' : Host ι σ}

namespace Host

theorem mask_of_conn {src : Option (ι × ℕ)} (hconn : ∀ c ∈ src, h'.conn c = h.conn c) :
    h'.mask src = h.mask src := by
  cases src with
  | none => rfl
  | some c => rw [mask, mask, hconn c rfl]

/-- A source is monitored for one event. -/
theorem mask_eq (h : Host ι σ) (src : Option (ι × ℕ)) :
    h.mask src = ∅ ∨ ∃ e, h.mask src = {e} := by
  cases src with
  | none => exact Or.inr ⟨_, rfl⟩
  | some c =>
    rw [mask]
    cases h.conn c with
    | none => exact Or.inl rfl
    | some conn =>
      rw [Option.map_some, Option.getD_some, XmlRpcServerConnection.mask]
      split_ifs
      · exact Or.inr ⟨_, rfl⟩
      · exact Or.inr ⟨_, rfl⟩

/-- A connection that is closed is not among the sources. -/
theorem conn_of_mask {c : ι × ℕ} (hmask : h.mask (some c) = ∅) : h.conn c = none := by
  unfold mask at hmask
  dsimp only at hmask
  cases hconn : h.conn c with
  | none => rfl
  | some conn =>
    rw [hconn, Option.map_some, Option.getD_some, XmlRpcServerConnection.mask] at hmask
    split_ifs at hmask
    · exact absurd hmask (Finset.singleton_ne_empty _)
    · exact absurd hmask (Finset.singleton_ne_empty _)

end Host

/-! ### The sources -/

namespace XmlRpcDispatch

variable {l p r : List (MonitoredSource ι)} {m : MonitoredSource ι} {accepted : List (ι × ℕ)}
  {mask mask' : Option (ι × ℕ) → Finset EventType} {calls : List (Handles.Call ℕ)} {c : ι × ℕ}

/-- What holds of the sources: no descriptor and no source stands twice in the list, the server
stands in front, the connections were accepted, each is monitored for the events that it has
returned last, and the descriptors are those that are open. -/
structure Listed (l : List (MonitoredSource ι)) (accepted : List (ι × ℕ))
    (mask : Option (ι × ℕ) → Finset EventType) (calls : List (Handles.Call ℕ)) : Prop where
  fds : (l.map (·.fd)).Nodup
  srcs : (l.map (·.src)).Nodup
  first : ∀ m ∈ l.head?, m.src = none
  accepted : ∀ m ∈ l, ∀ c ∈ m.src, c ∈ accepted
  masks : ∀ m ∈ l, m.mask = mask m.src ∧ m.mask ≠ ∅
  opened : Handles.afterAll ∅ calls = some (l.map (·.fd)).toFinset

/-- The server stands in front of the other sources. -/
theorem Listed.src_ne (h : Listed (p ++ m :: r) accepted mask calls) : m.src = none ↔ p = [] := by
  constructor
  · intro hsrc
    cases p with
    | nil => rfl
    | cons m' p =>
      have hfirst : m'.src = none := h.first m' rfl
      have hnodup := h.srcs
      rw [List.cons_append, List.map_cons, hfirst, ← hsrc] at hnodup
      exact absurd (List.mem_map_of_mem (by simp)) (List.nodup_cons.mp hnodup).1
  · rintro rfl
    exact h.first m rfl

/-- A source stands once in the list. -/
theorem Listed.src_notMem (h : Listed (p ++ m :: r) accepted mask calls)
    {m' : MonitoredSource ι} (hm' : m' ∈ p ++ r) : m'.src ≠ m.src := by
  intro hsrc
  have hnodup := h.srcs
  rw [List.map_append, List.map_cons, List.nodup_middle, List.nodup_cons] at hnodup
  exact hnodup.1 (by rw [← List.map_append, ← hsrc]; exact List.mem_map_of_mem hm')

/-- More calls for descriptors that are open. -/
theorem Listed.use (h : Listed l accepted mask calls) {fds : List ℕ}
    (hfds : ∀ fd ∈ fds, ∃ m ∈ l, m.fd = fd) :
    Listed l accepted mask (calls ++ fds.map .used) := by
  refine ⟨h.fds, h.srcs, h.first, h.accepted, h.masks, ?_⟩
  rw [Handles.afterAll_append, h.opened, Option.bind_some]
  refine Handles.afterAll_used fun fd hfd => ?_
  obtain ⟨m, hm, rfl⟩ := hfds fd hfd
  exact List.mem_toFinset.mpr (List.mem_map_of_mem hm)

/-- Sources that return the same as before. -/
theorem Listed.congr (h : Listed l accepted mask calls)
    (hmask : ∀ m ∈ l, mask' m.src = mask m.src) :
    Listed l accepted mask' calls :=
  ⟨h.fds, h.srcs, h.first, h.accepted,
    fun m hm => ⟨((h.masks m hm).1).trans (hmask m hm).symm, (h.masks m hm).2⟩, h.opened⟩

/-- A connection has been accepted that is not monitored. -/
theorem Listed.accept (h : Listed l accepted mask calls) :
    Listed l (c :: accepted) mask calls :=
  ⟨h.fds, h.srcs, h.first, fun m hm c hc => List.mem_cons_of_mem _ (h.accepted m hm c hc), h.masks,
    h.opened⟩

/-- A descriptor is given out and closed at once. -/
theorem Listed.refuse (h : Listed l accepted mask calls) {s : ℕ} (hs : s ∉ l.map (·.fd)) :
    Listed l accepted mask (calls ++ [.opened s, .closed s]) := by
  refine ⟨h.fds, h.srcs, h.first, h.accepted, h.masks, ?_⟩
  have hs' : s ∉ (l.map (·.fd)).toFinset := by rwa [List.mem_toFinset]
  rw [Handles.afterAll_append, h.opened, Option.bind_some, Handles.afterAll_cons,
    Handles.after_opened hs', Option.bind_some, Handles.afterAll_cons,
    Handles.after_closed (Finset.mem_insert_self ..), Option.bind_some, Handles.afterAll_nil,
    Finset.erase_insert hs']

/-- A connection is monitored that was accepted. -/
theorem Listed.add (h : Listed l accepted mask calls) (hl : l ≠ []) {s : ℕ}
    (hs : s ∉ l.map (·.fd)) (hc : c ∉ accepted) (hmask : mask (some c) = {.readableEvent}) :
    Listed (l ++ [⟨some c, s, {.readableEvent}⟩]) (c :: accepted) mask
      (calls ++ [.opened s]) := by
  constructor
  · rw [List.map_append, List.nodup_append']
    refine ⟨h.fds, by simp, ?_⟩
    simpa using hs
  · rw [List.map_append, List.nodup_append']
    refine ⟨h.srcs, by simp, ?_⟩
    simp only [List.map_cons, List.map_nil, List.disjoint_singleton, List.mem_map, not_exists,
      not_and]
    exact fun m hm hsrc => hc (h.accepted m hm c hsrc)
  · intro m hm
    rw [List.head?_append_of_ne_nil _ hl] at hm
    exact h.first m hm
  · intro m hm c' hc'
    rcases List.mem_append.mp hm with hm | hm
    · exact List.mem_cons_of_mem _ (h.accepted m hm c' hc')
    · rw [List.mem_singleton.mp hm] at hc'
      simp only [Option.mem_def, Option.some.injEq] at hc'
      simp [hc']
  · intro m hm
    rcases List.mem_append.mp hm with hm | hm
    · exact h.masks m hm
    · rw [List.mem_singleton.mp hm]
      exact ⟨hmask.symm, Finset.singleton_ne_empty _⟩
  · have hs' : s ∉ (l.map (·.fd)).toFinset := by rwa [List.mem_toFinset]
    rw [Handles.afterAll_append, h.opened, Option.bind_some, Handles.afterAll_cons,
      Handles.after_opened hs', Option.bind_some, Handles.afterAll_nil]
    congr 1
    ext fd
    simp

/-- A source has returned other events than before. -/
theorem Listed.returned (h : Listed (p ++ m :: r) accepted mask calls)
    (hmask : ∀ m' ∈ p ++ r, mask' m'.src = mask m'.src) (hne : mask' m.src ≠ ∅) :
    Listed (p ++ { m with mask := mask' m.src } :: r) accepted mask' calls := by
  constructor
  · simpa using h.fds
  · simpa using h.srcs
  · intro m' hm'
    cases p with
    | nil =>
      obtain rfl := Option.some.inj hm'
      exact h.first m rfl
    | cons m'' p => exact h.first m' hm'
  · intro m' hm' c hc
    rcases List.mem_append.mp hm' with hm' | hm'
    · exact h.accepted m' (List.mem_append_left _ hm') c hc
    · rcases List.mem_cons.mp hm' with rfl | hm'
      · exact h.accepted m (by simp) c hc
      · exact h.accepted m' (by simp [hm']) c hc
  · intro m' hm'
    have hother : m' ∈ p ++ r → m'.mask = mask' m'.src ∧ m'.mask ≠ ∅ := by
      intro hin
      obtain ⟨heq, hempty⟩ := h.masks m' (by
        rcases List.mem_append.mp hin with hin | hin
        · exact List.mem_append_left _ hin
        · simp [hin])
      exact ⟨heq.trans (hmask m' hin).symm, hempty⟩
    rcases List.mem_append.mp hm' with hm' | hm'
    · exact hother (List.mem_append_left _ hm')
    · rcases List.mem_cons.mp hm' with rfl | hm'
      · exact ⟨rfl, hne⟩
      · exact hother (List.mem_append_right _ hm')
  · simpa using h.opened

/-- A connection is closed. -/
theorem Listed.close (h : Listed (p ++ m :: r) accepted mask calls) (hp : p ≠ []) :
    Listed (p ++ r) accepted mask (calls ++ [.closed m.fd]) := by
  have hsub : (p ++ r).Sublist (p ++ m :: r) := by simp
  constructor
  · exact h.fds.sublist (hsub.map _)
  · exact h.srcs.sublist (hsub.map _)
  · intro m' hm'
    rw [List.head?_append_of_ne_nil _ hp] at hm'
    exact h.first m' (by rwa [List.head?_append_of_ne_nil _ hp])
  · exact fun m' hm' => h.accepted m' (hsub.subset hm')
  · exact fun m' hm' => h.masks m' (hsub.subset hm')
  · have hnodup := h.fds
    rw [List.map_append, List.map_cons, List.nodup_middle, List.nodup_cons] at hnodup
    have hin : m.fd ∈ ((p ++ m :: r).map (·.fd)).toFinset := by simp
    rw [Handles.afterAll_append, h.opened, Option.bind_some, Handles.afterAll_cons,
      Handles.after_closed hin, Option.bind_some, Handles.afterAll_nil]
    congr 1
    ext fd
    have hother : fd ∈ (p ++ r).map (·.fd) → fd ≠ m.fd := by
      rintro hfd rfl
      exact hnodup.1 (by simpa using hfd)
    simp only [Finset.mem_erase, List.mem_toFinset, List.map_append, List.map_cons, List.mem_append,
      List.mem_cons] at hother ⊢
    tauto

/-- All sources are closed. -/
theorem Listed.closeAll (h : Listed l accepted mask calls) :
    Listed [] accepted mask' (calls ++ l.map fun m => .closed m.fd) := by
  refine ⟨by simp, by simp, by simp, by simp, by simp, ?_⟩
  have hmap : l.map (fun m => Handles.Call.closed m.fd) = (l.map (·.fd)).map .closed := by
    rw [List.map_map]
    rfl
  rw [Handles.afterAll_append, h.opened, Option.bind_some, hmap,
    Handles.afterAll_closed h.fds fun fd hfd => List.mem_toFinset.mpr hfd]
  simp

/-! ### What is signalled -/

variable {rest : List (MonitoredSource ι)} {sets ready : List (ℕ × EventType)} {n : ℤ}

/-- A source is signalled for the one event that it is monitored for, or not at all. -/
theorem signalled_cases (hdue : ∀ e ∈ signalled sets n m, e ∈ m.mask) (hmask : ∃ e, m.mask = {e}) :
    signalled sets n m = [] ∨ ∃ e, signalled sets n m = [e] ∧ m.mask = {e} := by
  obtain ⟨e, he⟩ := hmask
  have hall : ∀ e' ∈ signalled sets n m, e' = e := by
    intro e' he'
    simpa [he] using hdue e' he'
  have hnodup : (signalled sets n m).Nodup := by
    unfold signalled
    split_ifs
    · exact List.Nodup.filter _ (by decide)
    · exact List.nodup_nil
  rcases hlist : signalled sets n m with _ | ⟨e₁, _ | ⟨e₂, es⟩⟩
  · exact Or.inl rfl
  · rw [hlist] at hall
    rw [hall e₁ (by simp)]
    exact Or.inr ⟨e, rfl, he⟩
  · rw [hlist] at hall hnodup
    have h₁ := hall e₁ (by simp)
    have h₂ := hall e₂ (by simp)
    simp [h₁, h₂] at hnodup

/-- A source whose descriptor is in no set is not signalled. -/
theorem signalled_of_notMem (hsets : ∀ e, (m.fd, e) ∉ sets) : signalled sets n m = [] := by
  unfold signalled
  split_ifs
  · exact List.filter_eq_nil_iff.mpr fun e _ => by simpa using hsets e
  · rfl

/-- No other descriptor is larger. -/
theorem le_maxFd (hm : m ∈ l) (hmask : m.mask ≠ ∅) : (m.fd : ℤ) ≤ maxFd l := by
  have hgrow : ∀ (l : List (MonitoredSource ι)) (n : ℤ), n ≤ l.foldl
      (fun n m => if m.mask ≠ ∅ ∧ n < m.fd then (m.fd : ℤ) else n) n := by
    intro l
    induction l with
    | nil => exact fun n => le_rfl
    | cons m l ih =>
      intro n
      refine le_trans ?_ (ih _)
      dsimp only
      split_ifs with hlt
      · exact hlt.2.le
      · exact le_rfl
  unfold maxFd
  generalize (-1 : ℤ) = n
  induction l generalizing n with
  | nil => simp at hm
  | cons m' l ih =>
    rcases List.mem_cons.mp hm with rfl | hm
    · refine le_trans ?_ (hgrow l _)
      dsimp only
      split_ifs with hlt
      · exact le_rfl
      · exact not_lt.mp fun h => hlt ⟨hmask, h⟩
    · exact ih hm _

/-- What is left in the sets for a source is signalled for it. -/
theorem signalled_select (hfds : (l.map (·.fd)).Nodup) (hm : m ∈ l) (hmask : m.mask ≠ ∅) :
    signalled ((fdSets l).filter (· ∈ ready)) (maxFd l) m = due ready m := by
  rw [signalled, if_pos (le_maxFd hm hmask), due]
  refine List.filter_congr fun e _ => ?_
  have hsets : (m.fd, e) ∈ fdSets l ↔ e ∈ m.mask := by
    simp only [fdSets, List.mem_flatMap, List.mem_map, List.mem_filter, Prod.mk.injEq,
      decide_eq_true_eq]
    constructor
    · rintro ⟨m', hm', e', ⟨-, he'⟩, hfd, rfl⟩
      rwa [← List.inj_on_of_nodup_map hfds hm' hm hfd]
    · intro he
      exact ⟨m, hm, e, ⟨by cases e <;> decide, he⟩, rfl, rfl⟩
  simp [hsets]

/-! ### What holds of a host -/

/-- What holds in the loop over the sources: what was in the sets has been handled or is still to be
handled, and a source is signalled only for events that it is monitored for. -/
structure Pass (sets : List (ℕ × EventType)) (n : ℤ)
    (signals handled : List (Option (ι × ℕ) × EventType)) (rest : List (MonitoredSource ι)) :
    Prop where
  signals : signals = handled ++ rest.flatMap fun m => (signalled sets n m).map (m.src, ·)
  due : ∀ m ∈ rest, ∀ e ∈ signalled sets n m, e ∈ m.mask

section Pass

variable {signals handled : List (Option (ι × ℕ) × EventType)}

theorem Pass.next (h : Pass sets n signals handled (m :: rest)) :
    Pass sets n signals (handled ++ (signalled sets n m).map (m.src, ·)) rest := by
  refine ⟨?_, fun m' hm' => h.due m' (List.mem_cons_of_mem _ hm')⟩
  rw [h.signals, List.flatMap_cons, List.append_assoc]

/-- A source that is added in the loop is not signalled. -/
theorem Pass.add (h : Pass sets n signals handled rest) (hm : signalled sets n m = []) :
    Pass sets n signals handled (rest ++ [m]) := by
  constructor
  · rw [h.signals, List.flatMap_append, List.flatMap_singleton, hm]
    simp
  · intro m' hm' e he
    rcases List.mem_append.mp hm' with hm' | hm'
    · exact h.due m' hm' e he
    · rw [List.mem_singleton.mp hm', hm] at he
      simp at he

end Pass

/-- What holds at each place of `work`.  While the server has not been visited, the descriptors in
the sets are those of sources, so that none that `accept` gives out is among them. -/
def Phase (h : Host ι σ) : Work → Prop
  | .outside => h.passed = [] ∧ h.handled = h.signals
  | .waiting => h.passed = [] ∧ h.handled = h.signals ∧ h.rest ≠ []
  | .processing sets n =>
    Pass sets n h.signals h.handled h.rest ∧
      (h.passed = [] → ∀ p ∈ sets, ∃ m ∈ h.rest, m.fd = p.1)

/-- What holds of the connections: one that was not accepted is as it was made, and one that was
accepted and is not among the sources any more is closed. -/
structure Conns (l : List (MonitoredSource ι)) (accepted : List (ι × ℕ))
    (conn : ι × ℕ → Option XmlRpcServerConnection) : Prop where
  fresh : ∀ c ∉ accepted, conn c = some {}
  closed : ∀ c ∈ accepted, (∀ m ∈ l, m.src ≠ some c) → conn c = none

section Conns

variable {p r : List (MonitoredSource ι)} {accepted : List (ι × ℕ)} {c : ι × ℕ}
  {conn conn' : ι × ℕ → Option XmlRpcServerConnection}

/-- A connection is accepted, and put behind the sources. -/
theorem Conns.accept {s : ℕ} {mask : Finset EventType} (h : Conns l accepted conn) :
    Conns (l ++ [⟨some c, s, mask⟩]) (c :: accepted) conn := by
  refine ⟨fun c' hc' => h.fresh c' fun hin => hc' (List.mem_cons_of_mem _ hin), ?_⟩
  intro c' hc' hother
  rcases List.mem_cons.mp hc' with rfl | hc'
  · exact absurd rfl (hother ⟨some c', s, mask⟩ (by simp))
  · exact h.closed c' hc' fun m' hm' => hother m' (List.mem_append_left _ hm')

/-- A connection is accepted and closed at once. -/
theorem Conns.refuse (h : Conns l accepted conn) (hself : conn' c = none)
    (hconn : ∀ c', c' ≠ c → conn' c' = conn c') : Conns l (c :: accepted) conn' := by
  constructor
  · intro c' hc'
    obtain ⟨hne, hc'⟩ := not_or.mp (mt List.mem_cons.mpr hc')
    exact (hconn c' hne).trans (h.fresh c' hc')
  · intro c' hc' hother
    rcases eq_or_ne c' c with rfl | hne
    · exact hself
    · exact (hconn c' hne).trans (h.closed c' ((List.mem_cons.mp hc').resolve_left hne) hother)

/-- Something has happened to a connection that is among the sources, or is not any more. -/
theorem Conns.update (h : Conns (p ++ m :: r) accepted conn) (hsrc : m.src = some c)
    (hc : c ∈ accepted) (hconn : ∀ c', c' ≠ c → conn' c' = conn c') :
    (∀ mask, Conns (p ++ { m with mask } :: r) accepted conn') ∧
      (conn' c = none → Conns (p ++ r) accepted conn') := by
  have hfresh : ∀ c' ∉ accepted, conn' c' = some {} := by
    intro c' hc'
    rw [hconn c' (by rintro rfl; exact hc' hc), h.fresh c' hc']
  have hclosed : ∀ c' ∈ accepted, c' ≠ c → (∀ m' ∈ p ++ r, m'.src ≠ some c') → conn' c' = none := by
    intro c' hc' hne hother
    rw [hconn c' hne]
    refine h.closed c' hc' fun m' hm' => ?_
    rcases List.mem_append.mp hm' with hm' | hm'
    · exact hother m' (List.mem_append_left _ hm')
    · rcases List.mem_cons.mp hm' with rfl | hm'
      · rw [hsrc]
        exact fun heq => hne (Option.some.inj heq).symm
      · exact hother m' (List.mem_append_right _ hm')
  constructor
  · refine fun mask => ⟨hfresh, fun c' hc' hother => hclosed c' hc' ?_ fun m' hm' => hother m' ?_⟩
    · rintro rfl
      exact hother { m with mask } (by simp) hsrc
    · rcases List.mem_append.mp hm' with hm' | hm'
      · exact List.mem_append_left _ hm'
      · exact List.mem_append_right _ (List.mem_cons_of_mem _ hm')
  · intro hnone
    refine ⟨hfresh, fun c' hc' hother => ?_⟩
    rcases eq_or_ne c' c with rfl | hne
    · exact hnone
    · exact hclosed c' hc' hne hother

end Conns

/-- What holds of a host. -/
structure Inv (h : Host ι σ) : Prop where
  listed : Listed h.sources h.accepted h.mask h.calls
  conns : Conns h.sources h.accepted h.conn
  phase : Phase h h.work

/-- A connection that was accepted and is not closed is among the sources. -/
theorem Inv.exists_source {c : ι × ℕ} (hinv : Inv h) (hc : c ∈ h.accepted) (hopen : h.conn c ≠ none) :
    ∃ m ∈ h.sources, m.src = some c := by
  by_contra hnot
  push Not at hnot
  exact hopen (hinv.conns.closed c hc hnot)

/-- A source is monitored for one event. -/
theorem Inv.mask_eq (hinv : Inv h) (hm : m ∈ h.sources) : ∃ e, m.mask = {e} := by
  obtain ⟨hmask, hne⟩ := hinv.listed.masks m hm
  rw [hmask] at hne ⊢
  exact (h.mask_eq m.src).resolve_left hne

/-- A server that has not been called yet. -/
theorem inv_start (fd : ℕ) (s₀ : σ) : Inv (Host.start (ι := ι) fd s₀) where
  listed := by
    refine ⟨by simp [Host.start, Host.sources], by simp [Host.start, Host.sources], ?_, ?_, ?_, ?_⟩
    · intro m hm
      obtain rfl : _ = m := Option.some.inj hm
      rfl
    · intro m hm c hc
      rw [List.mem_singleton.mp hm] at hc
      simp at hc
    · intro m hm
      rw [List.mem_singleton.mp hm]
      exact ⟨rfl, Finset.singleton_ne_empty _⟩
    · rfl
  conns := ⟨fun _ _ => rfl, by simp [Host.start]⟩
  phase := ⟨rfl, rfl⟩

theorem Inv.of_sources (hsources : h.sources = l) (hl : Listed l h.accepted h.mask h.calls)
    (hconns : Conns l h.accepted h.conn) (hphase : Phase h h.work) : Inv h :=
  ⟨hsources ▸ hl, hsources ▸ hconns, hphase⟩

/-- `work` looks whether there are sources. -/
theorem inv_loop (hpassed : h.passed = []) (hhandled : h.handled = h.signals)
    (hl : Listed h.rest h.accepted h.mask h.calls) (hconns : Conns h.rest h.accepted h.conn) :
    Inv (loop h) := by
  have hsources : h.sources = h.rest := by rw [Host.sources, hpassed, List.nil_append]
  unfold loop
  split_ifs with hrest
  · exact .of_sources hsources hl hconns ⟨hpassed, hhandled⟩
  · exact .of_sources hsources hl hconns ⟨hpassed, hhandled, hrest⟩

/-- `work` looks at the end time. -/
theorem inv_again {timeUp : Bool} (hpassed : h.passed = []) (hhandled : h.handled = h.signals)
    (hl : Listed h.rest h.accepted h.mask h.calls) (hconns : Conns h.rest h.accepted h.conn) :
    Inv (again h timeUp) := by
  have hsources : h.sources = h.rest := by rw [Host.sources, hpassed, List.nil_append]
  unfold again
  split_ifs
  · exact .of_sources hsources hl hconns ⟨hpassed, hhandled⟩
  · exact inv_loop hpassed hhandled hl hconns

/-- `select` returns. -/
theorem inv_select (hinv : Inv h) (hpassed : h.passed = []) (hhandled : h.handled = h.signals) :
    Inv (select h ready) := by
  have hsources : h.sources = h.rest := by rw [Host.sources, hpassed, List.nil_append]
  have hl := hinv.listed
  have hconns := hinv.conns
  rw [hsources] at hl hconns
  have hsignalled : ∀ m ∈ h.rest, signalled ((fdSets h.rest).filter (· ∈ ready)) (maxFd h.rest) m =
      due ready m := fun m hm => signalled_select hl.fds hm (hl.masks m hm).2
  have hsets : ∀ p ∈ fdSets h.rest, ∃ m ∈ h.rest, m.fd = p.1 := by
    intro p hp
    simp only [fdSets, List.mem_flatMap, List.mem_map] at hp
    obtain ⟨m, hm, e, -, rfl⟩ := hp
    exact ⟨m, hm, rfl⟩
  have huse : Listed h.rest h.accepted h.mask
      (h.calls ++ ((fdSets h.rest).map Prod.fst).map .used) := by
    refine hl.use fun fd hfd => ?_
    obtain ⟨p, hp, rfl⟩ := List.mem_map.mp hfd
    exact hsets p hp
  rw [List.map_map] at huse
  refine .of_sources hsources huse hconns ⟨⟨?_, ?_⟩, ?_⟩
  · change h.signals ++ h.rest.flatMap _ = h.handled ++ h.rest.flatMap _
    rw [hhandled]
    exact congrArg _ (List.flatMap_congr fun m hm => by rw [hsignalled m hm])
  · intro m hm e he
    change e ∈ signalled ((fdSets h.rest).filter (· ∈ ready)) (maxFd h.rest) m at he
    rw [hsignalled m hm] at he
    exact (by simpa using (List.mem_filter.mp he).2 : e ∈ m.mask ∧ _).1
  · exact fun _ p hp => hsets p (List.mem_filter.mp hp).1

end XmlRpcDispatch

end IvySync
