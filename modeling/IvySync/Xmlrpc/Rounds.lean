import IvySync.Xmlrpc.Sources

/-!
# Runs of the dispatcher

`inv_step` is that every step of the dispatcher keeps what holds of a host, and `follows_step` that
what it does in the network is a run of it.  What follows for every run: no descriptor is used or
closed after it was closed, and those that are open are those of the sources (`descriptors_run`);
the handlers are called for the events that were in the sets of descriptors behind `select`, in
their order and each once (`events_run`), although sources come and go while the list is walked
through and descriptors are given out again; and the loop over the list ends (`turns_run`).
-/

namespace IvySync

open Http XmlRpcSocket Network

variable {ι σ : Type} [DecidableEq ι] {execute : Name → σ → Option (Name × σ)}
  {allowed : Message true → Prop}

/-! ### What the steps of the network leave alone -/

namespace Network

/-- Only an event for a connection, and its end, change what the server has of it. -/
theorem step_conn {p p' : Party} {s s' : σ} {a : Network.Action σ} {e : Network.Event} {k : ℕ}
    (h : step execute p s a = some (p', s', e))
    (hserver : ∀ reads write ssl, a ≠ .server k reads write ssl) (hclose : ∀ ssl, a ≠ .close k ssl) :
    (p'.links k).conn = (p.links k).conn := by
  have hupdate : ∀ {j : ℕ} {link : Link}, (j = k → link.conn = (p.links k).conn) →
      (Function.update p.links j link k).conn = (p.links k).conn := by
    intro j link hlink
    rcases eq_or_ne k j with rfl | hk
    · rw [Function.update_self, hlink rfl]
    · rw [Function.update_of_ne hk]
  cases a with
  | call q connect =>
    obtain ⟨-, client, ⟨-, rfl, -⟩ | ⟨-, rfl, -⟩⟩ := step_call h <;> rfl
  | client reads write connect =>
    obtain ⟨-, -, handled, left, _, -, rfl, rfl, -, -⟩ := step_client h
    unfold settle
    split_ifs <;> exact hupdate fun hj => by rw [hj]
  | failure erased =>
    obtain ⟨-, -, sources, rfl, -⟩ := step_failure h
    rfl
  | server j reads write ssl =>
    obtain ⟨conn, handled, left, -, -, -, rfl, -, -⟩ := step_server h
    exact hupdate fun hj => absurd (by rw [hj]) (hserver reads write ssl)
  | close j ssl =>
    obtain ⟨-, rfl, -, -⟩ := step_close h
    exact hupdate fun hj => absurd (by rw [hj]) (hclose ssl)
  | other f =>
    obtain ⟨rfl, -, -⟩ : _ ∧ _ ∧ _ := by simpa [step] using h
    rfl

end Network

namespace Host

variable {h h' : Host ι σ} {i : ι} {a : Network.Action σ} {c : ι × ℕ}

/-- A step in the network changes nothing of the dispatcher. -/
theorem netStep_eq (hstep : h.netStep execute i a = some h') :
    ∃ p s e, Network.step execute (h.net.party i) h.net.shared a = some (p, s, e) ∧
      h' = { h with
        net := ⟨Function.update h.net.party i p, s⟩
        steps := h.steps ++ [((i, a), e)] } := by
  obtain ⟨⟨n, e⟩, hnext, rfl⟩ := Option.map_eq_some_iff.mp hstep
  obtain ⟨p, hparty, hn⟩ := Machine.interleave_next.mp hnext
  refine ⟨p, n.shared, e, hparty, ?_⟩
  dsimp only
  rw [← hn]

/-- The connections that a step is not about. -/
theorem netStep_conn (hstep : h.netStep execute i a = some h')
    (hserver : ∀ reads write ssl, c.1 = i → a ≠ .server c.2 reads write ssl)
    (hclose : ∀ ssl, c.1 = i → a ≠ .close c.2 ssl) : h'.conn c = h.conn c := by
  obtain ⟨p, s, e, hparty, rfl⟩ := netStep_eq hstep
  unfold conn
  dsimp only
  rcases eq_or_ne c.1 i with hi | hi
  · rw [hi, Function.update_self]
    exact step_conn hparty (fun reads write ssl => hserver reads write ssl hi)
      fun ssl => hclose ssl hi
  · rw [Function.update_of_ne hi]

/-- A step in the network does not look at the sources. -/
theorem netStep_passed (execute : Name → σ → Option (Name × σ)) (h : Host ι σ)
    (passed : List (MonitoredSource ι)) (i : ι) (a : Network.Action σ) :
    ({ h with passed } : Host ι σ).netStep execute i a =
      (h.netStep execute i a).map fun h => { h with passed } := by
  unfold netStep
  rw [Option.map_map]
  rfl

@[simp] theorem delete_passed : (h.delete c).passed = h.passed := rfl

@[simp] theorem delete_rest : (h.delete c).rest = h.rest := rfl

theorem delete_conn_self : (h.delete c).conn c = none := by
  unfold conn delete
  dsimp only
  rw [Function.update_self, Party.close]
  dsimp only
  rw [Function.update_self]

theorem delete_conn {c' : ι × ℕ} (hc : c' ≠ c) : (h.delete c).conn c' = h.conn c' := by
  unfold conn delete
  dsimp only
  rcases eq_or_ne c'.1 c.1 with hi | hi
  · have hk : c'.2 ≠ c.2 := fun hk => hc (Prod.ext hi hk)
    rw [hi, Function.update_self, Party.close]
    dsimp only
    rw [Function.update_of_ne hk]
  · rw [Function.update_of_ne hi]

end Host

/-! ### The functions of the dispatcher -/

variable {h h' : Host ι σ} {m : MonitoredSource ι} {l rest : List (MonitoredSource ι)}
  {sets ready : List (ℕ × EventType)} {n : ℤ} {inputs : EventType → Input ι}

/-- What has happened in the network between two states of a host. -/
def Host.Follows (execute : Name → σ → Option (Name × σ)) (allowed : Message true → Prop)
    (h h' : Host ι σ) : Prop :=
  ∃ tr, h'.steps = h.steps ++ tr ∧
    (Network.net ι execute).RunOn (fun _ a => a.2.Allowed allowed) h.net tr h'.net

namespace Host.Follows

theorem of_eq (hnet : h'.net = h.net) (hsteps : h'.steps = h.steps) :
    h.Follows execute allowed h' :=
  ⟨[], by simp [hsteps], hnet ▸ .nil⟩

theorem trans {h₁ : Host ι σ} (h₀ : h.Follows execute allowed h₁)
    (h₂ : h₁.Follows execute allowed h') : h.Follows execute allowed h' := by
  obtain ⟨tr, hsteps, hrun⟩ := h₀
  obtain ⟨tr', hsteps', hrun'⟩ := h₂
  exact ⟨tr ++ tr', by rw [hsteps', hsteps, List.append_assoc], hrun.append hrun'⟩

theorem netStep {i : ι} {a : Network.Action σ} (ha : a.Allowed allowed)
    (hstep : h.netStep execute i a = some h') : h.Follows execute allowed h' := by
  obtain ⟨⟨net, e⟩, hnext, rfl⟩ := Option.map_eq_some_iff.mp hstep
  exact ⟨_, rfl, .single ha hnext⟩

theorem delete (c : ι × ℕ) : h.Follows execute allowed (h.delete c) := by
  have hnext : (Network.net ι execute).next h.net (c.1, .close c.2 false) =
      some ((h.delete c).net, .silent) := rfl
  exact ⟨_, rfl, .single (C := fun _ a => a.2.Allowed allowed) trivial hnext⟩

end Host.Follows

namespace XmlRpcDispatch

/-- No other source is removed. -/
theorem removeSource_of_ne {src : Option (ι × ℕ)}
    (hsrc : ∀ m ∈ h.sources, m.src ≠ src) : removeSource h src = h := by
  have hany : h.passed.any (·.src = src) = false := by
    rw [List.any_eq_false]
    intro m hm
    simpa using hsrc m (List.mem_append_left _ hm)
  have herase : h.rest.eraseP (·.src = src) = h.rest :=
    List.eraseP_of_forall_not fun m hm => by simpa using hsrc m (List.mem_append_right _ hm)
  rw [removeSource, hany, herase]
  rfl

/-- A connection that is not among the sources any more. -/
theorem closed_of_some {c : ι × ℕ} (hsrc : m.src = some c)
    (hne : ∀ m ∈ h.sources, m.src ≠ some c) :
    m.closed h = { h.delete c with calls := h.calls ++ [.closed m.fd] } := by
  rw [MonitoredSource.closed, hsrc]
  exact removeSource_of_ne hne

theorem close_eq_some {ssl : Bool} :
    m.close h ssl = some h' ↔ ssl = false ∧ h' = m.closed h := by
  unfold MonitoredSource.close
  cases ssl <;> simp [eq_comm]

/-- Sources that are not in the list any more are closed one after another. -/
theorem foldlM_close {ssl : Option (ι × ℕ) → Bool} (l : List (MonitoredSource ι))
    (hp : h.passed = []) (hr : h.rest = [])
    (hclose : l.foldlM (fun h m => m.close h (ssl m.src)) h = some h') :
    ∃ net steps,
      h' = { h with net, steps, calls := h.calls ++ l.map fun m => .closed m.fd } ∧
      (∀ c, (∀ m ∈ l, m.src ≠ some c) → h'.conn c = h.conn c) ∧
      ∀ c, (∀ m ∈ l, m.src ≠ some c) ∨ h'.conn c = none := by
  induction l generalizing h with
  | nil =>
    obtain rfl := Option.some.inj hclose
    exact ⟨h.net, h.steps, by simp, fun _ _ => rfl, fun _ => Or.inl (by simp)⟩
  | cons m l ih =>
    rw [List.foldlM_cons] at hclose
    obtain ⟨h₁, hfirst, hothers⟩ := Option.bind_eq_some_iff.mp hclose
    obtain ⟨-, rfl⟩ := close_eq_some.mp hfirst
    cases hsrc : m.src with
    | none =>
      have hclosed : m.closed h = { h with calls := h.calls ++ [.closed m.fd] } := by
        rw [MonitoredSource.closed, hsrc]
      rw [hclosed] at hothers
      obtain ⟨net, steps, rfl, hconn, hnone⟩ :=
        ih (h := { h with calls := h.calls ++ [.closed m.fd] }) hp hr hothers
      refine ⟨net, steps, by simp, ?_, ?_⟩
      · exact fun c hc => hconn c fun m hm => hc m (List.mem_cons_of_mem _ hm)
      · exact fun c => (hnone c).imp_left fun hc => List.forall_mem_cons.mpr ⟨by simp [hsrc], hc⟩
    | some c =>
      have hne : ∀ m ∈ h.sources, m.src ≠ some c := by simp [Host.sources, hp, hr]
      rw [closed_of_some hsrc hne] at hothers
      obtain ⟨net, steps, rfl, hconn, hnone⟩ :=
        ih (h := { h.delete c with calls := h.calls ++ [.closed m.fd] }) hp hr hothers
      refine ⟨net, steps, by simp [Host.delete], ?_, ?_⟩
      · intro c' hc'
        have hcc' : c' ≠ c := by
          rintro rfl
          exact hc' m (List.mem_cons_self ..) hsrc
        exact (hconn c' fun m hm => hc' m (List.mem_cons_of_mem _ hm)).trans
          (Host.delete_conn hcc')
      · intro c'
        rcases hnone c' with hc' | hc'
        · rcases eq_or_ne c' c with rfl | hcc'
          · exact Or.inr ((hconn c' hc').trans Host.delete_conn_self)
          · refine Or.inl (List.forall_mem_cons.mpr ⟨?_, hc'⟩)
            rw [hsrc]
            exact fun heq => hcc' (Option.some.inj heq).symm
        · exact Or.inr hc'

omit [DecidableEq ι] in
/-- A source is added behind the others. -/
theorem addSource_eq (h : Host ι σ) (src : Option (ι × ℕ)) (fd : ℕ) (mask : Finset EventType) :
    ∃ passed rest, addSource h src fd mask = { h with passed, rest } ∧
      passed ++ rest = h.sources ++ [⟨src, fd, mask⟩] ∧ (h.passed ≠ [] → passed ≠ []) ∧
      (rest = h.rest ∨ rest = h.rest ++ [⟨src, fd, mask⟩]) := by
  unfold addSource
  split_ifs with hlast
  · refine ⟨h.passed ++ [⟨src, fd, mask⟩], h.rest, rfl, ?_, by simp, Or.inl rfl⟩
    simp [Host.sources, hlast.2]
  · exact ⟨h.passed, h.rest ++ [⟨src, fd, mask⟩], rfl, by simp [Host.sources], id, Or.inr rfl⟩

theorem handleEvents_singleton (m : MonitoredSource ι) (inputs : EventType → Input ι)
    (e : EventType) (h : Host ι σ) :
    handleEvents execute m inputs [e] h = m.handleEvent execute h (inputs e) := by
  simp only [handleEvents, Option.map_some, Finset.union_empty]
  cases m.handleEvent execute h (inputs e) <;> rfl

/-- What one turn of the loop does: nothing is signalled for the source; or the server accepts a
connection; or a connection handles the event, and is closed if it returns no events. -/
inductive Visited (execute : Name → σ → Option (Name × σ)) (h : Host ι σ)
    (sets : List (ℕ × EventType)) (n : ℤ) (m : MonitoredSource ι) (inputs : EventType → Input ι) :
    Host ι σ → Prop
  | passed (hevents : signalled sets n m = []) :
    Visited execute h sets n m inputs { h with passed := h.passed ++ [m] }
  | accepted (e : EventType) (h₁ : Host ι σ) (hevents : signalled sets n m = [e])
      (hsrc : m.src = none)
      (haccept : h₁ = XmlRpcServer.acceptConnection { h with passed := h.passed ++ [m] } m.fd
        (inputs e).accept) :
    Visited execute h sets n m inputs
      (setMask { h₁ with handled := h₁.handled ++ [(m.src, e)] } m m.mask)
  | handled (e : EventType) (c : ι × ℕ) (h₁ : Host ι σ) (hevents : signalled sets n m = [e])
      (hsrc : m.src = some c)
      (hstep : h.netStep execute c.1 (.server c.2 (inputs e).reads (inputs e).write false) =
        some h₁)
      (hmask : h₁.mask m.src ≠ ∅) :
    Visited execute h sets n m inputs
      { h₁ with
        passed := h.passed ++ [{ m with mask := h₁.mask m.src }]
        calls := h₁.calls ++ [.used m.fd]
        handled := h₁.handled ++ [(m.src, e)] }
  | closed (e : EventType) (c : ι × ℕ) (h₁ : Host ι σ) (hevents : signalled sets n m = [e])
      (hsrc : m.src = some c)
      (hstep : h.netStep execute c.1 (.server c.2 (inputs e).reads (inputs e).write false) =
        some h₁)
      (hmask : h₁.mask m.src = ∅) :
    Visited execute h sets n m inputs
      (m.closed { h₁ with
        calls := h₁.calls ++ [.used m.fd]
        handled := h₁.handled ++ [(m.src, e)] })

variable {ssl : Bool}

/-- One turn of the loop, for a source for which nothing is signalled. -/
theorem visit_of_nil (hevents : signalled sets n m = []) :
    visit execute h sets n m rest inputs ssl =
      some { h with rest, passed := h.passed ++ [m] } := by
  simp [visit, hevents, handleEvents]

/-- One turn of the loop, for a source with one event. -/
theorem visit_of_singleton {mask : Finset EventType} {e : EventType}
    (hevent : signalled sets n m = [e])
    (hhandle : m.handleEvent execute { h with passed := h.passed ++ [m], rest } (inputs e) =
      some (h', mask)) :
    visit execute h sets n m rest inputs ssl =
      if mask ≠ ∅ then some (setMask { h' with handled := h'.handled ++ [(m.src, e)] } m mask)
      else m.close (erase { h' with handled := h'.handled ++ [(m.src, e)] } m) ssl := by
  rw [visit, hevent]
  dsimp only
  rw [handleEvents_singleton, hhandle]
  simp

/-- The mask of the source of this turn, where no source in front of it is the same. -/
theorem setMask_of_passed {mask : Finset EventType} {p : List (MonitoredSource ι)}
    (hpassed : h.passed = p ++ [m]) (hp : ∀ m' ∈ p, m'.src ≠ m.src) :
    setMask h m mask = { h with passed := p ++ [{ m with mask }] } := by
  have hsame : p.map (fun m' => if m'.src = m.src then { m' with mask } else m') = p := by
    conv_rhs => rw [← List.map_id p]
    exact List.map_congr_left fun m' hm' => if_neg (hp m' hm')
  rw [setMask, hpassed, List.map_append, hsame]
  simp

theorem erase_of_passed {p : List (MonitoredSource ι)} (hpassed : h.passed = p ++ [m])
    (hp : ∀ m' ∈ p, m'.src ≠ m.src) : erase h m = { h with passed := p } := by
  unfold erase
  rw [hpassed, List.eraseP_append_right _ (by simpa using hp)]
  simp

/-- What one turn of the loop does, where a source is signalled only for events that it is monitored
for. -/
theorem visited_of_visit (hmask : m.mask = h.mask m.src ∧ m.mask ≠ ∅)
    (hdue : ∀ e ∈ signalled sets n m, e ∈ m.mask) (hp : ∀ m' ∈ h.passed, m'.src ≠ m.src)
    (hvisit : visit execute h sets n m rest inputs ssl = some h') :
    Visited execute { h with rest } sets n m inputs h' := by
  have hone : ∃ e, m.mask = {e} := by
    obtain ⟨heq, hne⟩ := hmask
    rw [heq] at hne ⊢
    exact (h.mask_eq m.src).resolve_left hne
  rcases signalled_cases hdue hone with hevents | ⟨e, hevents, -⟩
  · rw [visit_of_nil hevents] at hvisit
    rw [← Option.some.inj hvisit]
    exact .passed hevents
  · obtain ⟨⟨h₂, newMask⟩, hhandle⟩ : ∃ handled,
        m.handleEvent execute { h with passed := h.passed ++ [m], rest } (inputs e) =
          some handled := by
      refine Option.ne_none_iff_exists'.mp fun hnone => ?_
      simp [visit, hevents, handleEvents_singleton, hnone] at hvisit
    rw [visit_of_singleton hevents hhandle] at hvisit
    unfold MonitoredSource.handleEvent at hhandle
    split at hhandle
    · next hsrc =>
      obtain ⟨haccept, rfl⟩ := Prod.mk.inj (Option.some.inj hhandle)
      have hserver : m.mask = {.readableEvent} := by
        rw [hmask.1, hsrc]
        rfl
      rw [if_pos (Finset.singleton_ne_empty _), ← hserver] at hvisit
      rw [← Option.some.inj hvisit]
      exact .accepted e h₂ hevents hsrc haccept.symm
    · next c hsrc =>
      have hnet := Host.netStep_passed execute { h with rest } (h.passed ++ [m]) c.1
        (.server c.2 (inputs e).reads (inputs e).write false)
      dsimp only at hnet
      rw [hnet, Option.map_map] at hhandle
      obtain ⟨h₁, hstep, hpair⟩ := Option.map_eq_some_iff.mp hhandle
      obtain ⟨rfl, rfl⟩ := Prod.mk.inj hpair
      dsimp only at hvisit
      split_ifs at hvisit with hempty
      · rw [setMask_of_passed rfl hp] at hvisit
        rw [← Option.some.inj hvisit, ← hsrc]
        exact .handled e c h₁ hevents hsrc hstep (hsrc ▸ hempty)
      · rw [erase_of_passed rfl hp] at hvisit
        obtain ⟨-, rfl⟩ := close_eq_some.mp hvisit
        obtain ⟨p, s, ev, -, rfl⟩ := Host.netStep_eq hstep
        exact .closed e c _ hevents hsrc hstep (hsrc ▸ not_not.mp hempty)

/-! ### Every step -/

/-- What a step can do. -/
inductive Stepped (execute : Name → σ → Option (Name × σ)) (h : Host ι σ) :
    Host.Action ι σ → Host ι σ → Prop
  | work (timeout : Bool) (hwork : h.work = .outside) :
    Stepped execute h (.work timeout)
      (loop { h with endTime := if timeout then .time else .never, doClear := false })
  | select (ready : List (ℕ × EventType)) (hwork : h.work = .waiting) :
    Stepped execute h (.select ready) (select h ready)
  | interrupted (hwork : h.work = .waiting) :
    Stepped execute h .interrupted (select h (fdSets h.rest))
  | selectError (hwork : h.work = .waiting) :
    Stepped execute h .selectError { h with work := .outside }
  | visit (inputs : EventType → Input ι) (ssl : Bool) (sets : List (ℕ × EventType)) (n : ℤ)
      (m : MonitoredSource ι) (rest : List (MonitoredSource ι)) {h' : Host ι σ}
      (hwork : h.work = .processing sets n) (hrest : h.rest = m :: rest)
      (hvisit : visit execute h sets n m rest inputs ssl = some h') :
    Stepped execute h (.visit inputs ssl) h'
  | finish (timeUp : Bool) (ssl : Option (ι × ℕ) → Bool) (sets : List (ℕ × EventType)) (n : ℤ)
      {h' : Host ι σ} (hwork : h.work = .processing sets n) (hrest : h.rest = [])
      (hfinish : finish h timeUp ssl = some h') :
    Stepped execute h (.finish timeUp ssl) h'
  | exit : Stepped execute h .exit { h with endTime := .exited }
  | clear (ssl : Option (ι × ℕ) → Bool) {h' : Host ι σ} (hclear : clear h ssl = some h') :
    Stepped execute h (.clear ssl) h'
  | network (i : ι) (a : Network.Action σ) {h' : Host ι σ}
      (hserver : ∀ k reads write ssl, a ≠ .server k reads write ssl)
      (hclose : ∀ k ssl, a ≠ .close k ssl) (hnet : h.netStep execute i a = some h') :
    Stepped execute h (.network i a) h'

theorem stepped_of_step {a : Host.Action ι σ} (hstep : step execute h a = some h') :
    Stepped execute h a h' := by
  cases a with
  | work timeout =>
    dsimp only [step] at hstep
    split at hstep
    · next hwork =>
      rw [← Option.some.inj hstep]
      exact .work timeout hwork
    · simp at hstep
  | select ready =>
    dsimp only [step] at hstep
    split_ifs at hstep with hwork
    rw [← Option.some.inj hstep]
    exact .select ready hwork.1
  | interrupted =>
    dsimp only [step] at hstep
    split_ifs at hstep with hwork
    rw [← Option.some.inj hstep]
    exact .interrupted hwork.1
  | selectError =>
    dsimp only [step] at hstep
    split_ifs at hstep with hwork
    rw [← Option.some.inj hstep]
    exact .selectError hwork.1
  | visit inputs ssl =>
    dsimp only [step] at hstep
    split at hstep
    · next sets n m rest hwork hrest => exact .visit inputs ssl sets n m rest hwork hrest hstep
    · simp at hstep
  | finish timeUp ssl =>
    dsimp only [step] at hstep
    split at hstep
    · next sets n hwork hrest => exact .finish timeUp ssl sets n hwork hrest hstep
    · simp at hstep
  | exit =>
    rw [← Option.some.inj hstep]
    exact .exit
  | clear ssl => exact .clear ssl hstep
  | network i a =>
    cases a with
    | server k reads write ssl => simp [step] at hstep
    | close k ssl => simp [step] at hstep
    | _ => exact .network i _ (by simp) (by simp) hstep

/-- What one turn of the loop does, and what holds then. -/
theorem visited_of_inv (hinv : Inv h) (hwork : h.work = .processing sets n)
    (hrest : h.rest = m :: rest) (hvisit : visit execute h sets n m rest inputs ssl = some h') :
    Listed (h.passed ++ m :: rest) h.accepted h.mask h.calls ∧
      Pass sets n h.signals h.handled (m :: rest) ∧
      (h.passed = [] → ∀ p ∈ sets, ∃ m' ∈ m :: rest, m'.fd = p.1) ∧
      Visited execute { h with rest } sets n m inputs h' := by
  have hphase := hinv.phase
  rw [hwork] at hphase
  obtain ⟨hpass, hstale⟩ := hphase
  have hl := hinv.listed
  rw [Host.sources, hrest] at hl
  rw [hrest] at hpass hstale
  exact ⟨hl, hpass, hstale, visited_of_visit (hl.masks m (by simp)) (hpass.due m (by simp))
    (fun m' hm' => hl.src_notMem (List.mem_append_left _ hm')) hvisit⟩

/-- The mask of the server stays as it is. -/
theorem setMask_self (hmask : ∀ m' ∈ h.passed, m'.src = m.src → m'.mask = m.mask) :
    setMask h m m.mask = h := by
  have hsame : h.passed.map (fun m' => if m'.src = m.src then { m' with mask := m.mask } else m') =
      h.passed := by
    conv_rhs => rw [← List.map_id h.passed]
    refine List.map_congr_left fun m' hm' => ?_
    split_ifs with hsrc
    · rw [← hmask m' hm' hsrc]
      rfl
    · rfl
  rw [setMask, hsame]

/-- The server accepts a connection. -/
theorem Inv.accepted {e : EventType}
    (hl : Listed (h.passed ++ m :: h.rest) h.accepted h.mask h.calls)
    (hconns : Conns (h.passed ++ m :: h.rest) h.accepted h.conn)
    (hwork : h.work = .processing sets n)
    (hpass : Pass sets n h.signals (h.handled ++ [(m.src, e)]) h.rest)
    (hstale : ∀ p ∈ sets, ∃ m' ∈ m :: h.rest, m'.fd = p.1) (hsrc : m.src = none)
    {input : Input ι} (hallowed : input.Allowed h)
    (hh' : h' = XmlRpcServer.acceptConnection { h with passed := h.passed ++ [m] } m.fd
      input.accept) :
    Inv (setMask { h' with handled := h'.handled ++ [(m.src, e)] } m m.mask) := by
  have huse : Listed (h.passed ++ m :: h.rest) h.accepted h.mask (h.calls ++ [.used m.fd]) := by
    have hfds : ∀ fd ∈ [m.fd], ∃ m' ∈ h.passed ++ m :: h.rest, m'.fd = fd :=
      fun fd hfd => ⟨m, by simp, (List.mem_singleton.mp hfd).symm⟩
    exact hl.use hfds
  have hphase : ∀ {h' : Host ι σ}, h'.work = .processing sets n → h'.passed ≠ [] →
      Pass sets n h'.signals h'.handled h'.rest → Phase h' h'.work := by
    intro h' hwork hpassed hpass
    rw [hwork]
    exact ⟨hpass, fun hnil => absurd hnil hpassed⟩
  -- the mask of the server does not change
  have hserver : ∀ m' ∈ h.passed ++ [m], m'.src = m.src → m'.mask = m.mask := by
    intro m' hm' heq
    rcases List.mem_append.mp hm' with hm' | hm'
    · exact absurd heq (hl.src_notMem (List.mem_append_left _ hm'))
    · rw [List.mem_singleton.mp hm']
  obtain ⟨_ | ⟨c, s, _ | _⟩, reads, write⟩ := input
  · subst hh'
    rw [setMask_self (by exact hserver)]
    exact .of_sources (by simp [Host.sources, XmlRpcServer.acceptConnection]) huse hconns
      (hphase hwork (by simp [XmlRpcServer.acceptConnection]) hpass)
  all_goals
    obtain ⟨hopened, hc, -⟩ := hallowed _ rfl
    rw [Host.opened, Handles.foldl_effect hl.opened, List.mem_toFinset] at hopened
  · -- the connection is refused
    have hne : ∀ m' ∈ h.passed ++ m :: h.rest, m'.src ≠ some c :=
      fun m' hm' hsrc => hc (hl.accepted m' hm' c hsrc)
    have hrefuse := (huse.accept (c := c)).refuse hopened
    rw [List.append_assoc h.calls] at hrefuse
    subst hh'
    rw [setMask_self (by exact hserver)]
    refine .of_sources (by simp [Host.sources, XmlRpcServer.acceptConnection])
      (hrefuse.congr fun m' hm' => Host.mask_of_conn fun c' hc' => ?_)
      (hconns.refuse Host.delete_conn_self fun _ => Host.delete_conn)
      (hphase hwork (by simp [XmlRpcServer.acceptConnection]) hpass)
    exact Host.delete_conn fun hcc' => hne m' hm' (hcc' ▸ hc')
  · have hnew : signalled sets n ⟨some c, s, {.readableEvent}⟩ = [] := by
      refine signalled_of_notMem fun e' hsets => ?_
      obtain ⟨m', hm', hfd⟩ := hstale _ hsets
      exact hopened (List.mem_map.mpr ⟨m', List.mem_append_right _ hm', hfd⟩)
    have hmask : h.mask (some c) = {.readableEvent} := by
      rw [Host.mask, hconns.fresh c hc]
      rfl
    have hadd := huse.add (by simp) hopened hc hmask
    rw [List.append_assoc h.calls] at hadd
    rw [XmlRpcServer.acceptConnection] at hh'
    obtain ⟨passed, rest, heq, hsources, hpassed, hrest⟩ := addSource_eq
      { h with
        passed := h.passed ++ [m]
        accepted := c :: h.accepted
        calls := h.calls ++ [.used m.fd, .opened s] } (some c) s {.readableEvent}
    dsimp only [Host.sources] at hsources hrest
    rw [List.append_assoc h.passed, List.singleton_append] at hsources
    rw [heq] at hh'
    subst hh'
    have hall : ∀ m' ∈ passed, m'.src = m.src → m'.mask = m.mask := by
      intro m' hm' hsrc'
      have hin : m' ∈ (h.passed ++ m :: h.rest) ++ [⟨some c, s, {.readableEvent}⟩] :=
        hsources ▸ List.mem_append_left _ hm'
      rcases List.mem_append.mp hin with hin | hin
      · have hm'mask := (hl.masks m' hin).1
        rw [hm'mask, hsrc', (hl.masks m (by simp)).1]
      · rw [List.mem_singleton.mp hin, hsrc] at hsrc'
        simp at hsrc'
    rw [setMask_self (by exact hall)]
    refine .of_sources hsources hadd hconns.accept (hphase hwork (hpassed (by simp)) ?_)
    rcases hrest with rfl | rfl
    · exact hpass
    · exact hpass.add hnew

/-- An event for one connection leaves the others as they are. -/
theorem others_of_netStep {c : ι × ℕ} {reads : List Read} {write : Write}
    (hl : Listed (h.passed ++ m :: h.rest) h.accepted h.mask h.calls) (hsrc : m.src = some c)
    (hstep : h.netStep execute c.1 (.server c.2 reads write false) = some h') :
    (∀ c', c' ≠ c → h'.conn c' = h.conn c') ∧
      ∀ m' ∈ h.passed ++ h.rest, h'.mask m'.src = h.mask m'.src := by
  have hconn : ∀ c', c' ≠ c → h'.conn c' = h.conn c' := by
    intro c' hc'
    refine Host.netStep_conn hstep ?_ (by simp)
    rintro reads' write' ssl hi heq
    exact hc' (Prod.ext hi (Network.Action.server.inj heq).1.symm)
  refine ⟨hconn, fun m' hm' => Host.mask_of_conn fun c' hc' => hconn c' ?_⟩
  rintro rfl
  exact hl.src_notMem hm' (hc'.trans hsrc.symm)

/-- One turn of the loop over the sources. -/
theorem Inv.visited (hl : Listed (h.passed ++ m :: h.rest) h.accepted h.mask h.calls)
    (hconns : Conns (h.passed ++ m :: h.rest) h.accepted h.conn)
    (hwork : h.work = .processing sets n)
    (hpass : Pass sets n h.signals h.handled (m :: h.rest))
    (hstale : h.passed = [] → ∀ p ∈ sets, ∃ m' ∈ m :: h.rest, m'.fd = p.1)
    (hallowed : ∀ e, (inputs e).Allowed h)
    (hv : Visited execute h sets n m inputs h') : Inv h' := by
  have hnext := hpass.next
  have hfds : ∀ fd ∈ [m.fd], ∃ m' ∈ h.passed ++ m :: h.rest, m'.fd = fd :=
    fun fd hfd => ⟨m, by simp, (List.mem_singleton.mp hfd).symm⟩
  have huse := hl.use hfds
  cases hv with
  | passed hevents =>
    rw [hevents, List.map_nil, List.append_nil] at hnext
    refine .of_sources (by simp [Host.sources]) hl hconns ?_
    dsimp only
    rw [hwork]
    exact ⟨hnext, by simp⟩
  | accepted e h₁ hevents hsrc haccept =>
    rw [hevents] at hnext
    exact .accepted hl hconns hwork hnext (hstale (hl.src_ne.mp hsrc)) hsrc (hallowed e) haccept
  | handled e c h₁ hevents hsrc hstep hmask =>
    rw [hevents] at hnext
    have hc : c ∈ h.accepted := hl.accepted m (by simp) c hsrc
    obtain ⟨hother, hothers⟩ := others_of_netStep hl hsrc hstep
    have hconns₁ := (hconns.update hsrc hc hother).1 (h₁.mask m.src)
    have hreturned := huse.returned hothers hmask
    obtain ⟨p, s, e', -, rfl⟩ := Host.netStep_eq hstep
    refine .of_sources (by simp [Host.sources]) hreturned hconns₁ ?_
    dsimp only
    rw [hwork]
    exact ⟨hnext, by simp⟩
  | closed e c h₁ hevents hsrc hstep _ =>
    rw [hevents] at hnext
    have hp : h.passed ≠ [] := fun hp => by simp [hl.src_ne.mpr hp] at hsrc
    have hc : c ∈ h.accepted := hl.accepted m (by simp) c hsrc
    have hne : ∀ m' ∈ h.passed ++ h.rest, m'.src ≠ some c :=
      fun m' hm' heq => hl.src_notMem hm' (heq.trans hsrc.symm)
    obtain ⟨hother, hothers⟩ := others_of_netStep hl hsrc hstep
    have hclose := (huse.close hp).congr hothers
    have hdelete : ∀ c', c' ≠ c → (h₁.delete c).conn c' = h.conn c' := fun c' hc' =>
      (Host.delete_conn hc').trans (hother c' hc')
    have hconns₁ := (hconns.update hsrc hc hdelete).2 Host.delete_conn_self
    obtain ⟨p, s, e', -, rfl⟩ := Host.netStep_eq hstep
    rw [closed_of_some hsrc (by exact hne)]
    refine .of_sources rfl (hclose.congr fun m' hm' => ?_) hconns₁ ?_
    · refine Host.mask_of_conn fun c' hc' => Host.delete_conn ?_
      rintro rfl
      exact hne m' hm' hc'
    · dsimp only [Host.delete]
      rw [hwork]
      exact ⟨hnext, fun hnil => absurd hnil hp⟩

/-- All sources are closed, and nothing else changes. -/
theorem closeAll_eq {ssl : Option (ι × ℕ) → Bool}
    (hl : Listed h.sources h.accepted h.mask h.calls)
    (hconns : Conns h.sources h.accepted h.conn) (hclose : closeAll h ssl = some h') :
    ∃ net steps calls, h' = { h with passed := [], rest := [], net, steps, calls } ∧
      (∀ mask, Listed [] h.accepted mask calls) ∧ Conns [] h.accepted h'.conn := by
  obtain ⟨net, steps, rfl, hconn, hnone⟩ := foldlM_close h.sources rfl rfl hclose
  refine ⟨net, steps, _, rfl, fun mask => hl.closeAll, fun c hc => ?_, fun c hc _ => ?_⟩
  · exact (hconn c fun m hm hsrc => hc (hl.accepted m hm c hsrc)).trans (hconns.fresh c hc)
  · rcases hnone c with hother | hnone
    · exact (hconn c hother).trans (hconns.closed c hc hother)
    · exact hnone

/-- What the end of the loop does: all sources are closed, or none. -/
theorem finish_eq_some {timeUp : Bool} {ssl : Option (ι × ℕ) → Bool}
    (hfinish : finish h timeUp ssl = some h') :
    ∃ h₁, (closeAll h ssl = some h₁ ∨ h₁ = h) ∧
      ∃ doClear, h' = again { h₁ with passed := [], rest := h₁.sources, doClear } timeUp := by
  obtain ⟨h₂, hclose, rfl⟩ := Option.map_eq_some_iff.mp hfinish
  split_ifs at hclose
  · obtain ⟨h₁, hclosed, rfl⟩ := Option.map_eq_some_iff.mp hclose
    exact ⟨h₁, Or.inl hclosed, false, rfl⟩
  · obtain rfl := Option.some.inj hclose
    exact ⟨h, Or.inr rfl, h.doClear, rfl⟩

/-- The loop over the sources has ended. -/
theorem inv_finish {timeUp : Bool} {ssl : Option (ι × ℕ) → Bool} (hinv : Inv h)
    (hhandled : h.handled = h.signals) (hfinish : finish h timeUp ssl = some h') : Inv h' := by
  obtain ⟨h₁, hclose | rfl, doClear, rfl⟩ := finish_eq_some hfinish
  · obtain ⟨net, steps, calls, rfl, hl, hconns⟩ := closeAll_eq hinv.listed hinv.conns hclose
    exact inv_again rfl hhandled (hl _) hconns
  · exact inv_again rfl hhandled hinv.listed hinv.conns

/-- Every step keeps what holds of a host. -/
theorem inv_step {a : Host.Action ι σ} (hinv : Inv h) (ha : a.Allowed allowed h)
    (hstep : step execute h a = some h') : Inv h' := by
  have hphase := hinv.phase
  cases stepped_of_step hstep with
  | work timeout hwork =>
    rw [hwork] at hphase
    obtain ⟨hpassed, hhandled⟩ := hphase
    have hsources : h.sources = h.rest := by rw [Host.sources, hpassed, List.nil_append]
    have hl := hinv.listed
    have hconns := hinv.conns
    rw [hsources] at hl hconns
    exact inv_loop hpassed hhandled hl hconns
  | select ready hwork =>
    rw [hwork] at hphase
    exact inv_select hinv hphase.1 hphase.2.1
  | interrupted hwork =>
    rw [hwork] at hphase
    exact inv_select hinv hphase.1 hphase.2.1
  | selectError hwork =>
    rw [hwork] at hphase
    exact ⟨hinv.listed, hinv.conns, hphase.1, hphase.2.1⟩
  | visit inputs ssl sets n m rest hwork hrest hvisit =>
    obtain ⟨hl, hpass, hstale, hv⟩ := visited_of_inv hinv hwork hrest hvisit
    have hconns := hinv.conns
    rw [Host.sources, hrest] at hconns
    exact .visited (h := { h with rest }) hl hconns hwork hpass hstale ha hv
  | finish timeUp ssl sets n hwork hrest hfinish =>
    rw [hwork] at hphase
    refine inv_finish hinv ?_ hfinish
    have hsignals := hphase.1.signals
    rw [hrest] at hsignals
    simpa using hsignals.symm
  | exit => exact ⟨hinv.listed, hinv.conns, hinv.phase⟩
  | clear ssl hclear =>
    unfold clear at hclear
    split at hclear
    · next hwork =>
      obtain ⟨net, steps, calls, rfl, hl, hconns⟩ := closeAll_eq hinv.listed hinv.conns hclear
      rw [hwork] at hphase
      refine .of_sources rfl (hl _) hconns ?_
      dsimp only
      rw [hwork]
      exact ⟨rfl, hphase.2⟩
    · obtain rfl := Option.some.inj hclear
      exact ⟨hinv.listed, hinv.conns, hinv.phase⟩
  | network i a hserver hclose hnet =>
    have hconn : ∀ c, h'.conn c = h.conn c := fun c =>
      Host.netStep_conn hnet (fun reads write ssl _ => hserver c.2 reads write ssl)
        fun ssl _ => hclose c.2 ssl
    obtain ⟨p, s, e, -, rfl⟩ := Host.netStep_eq hnet
    exact .of_sources rfl (hinv.listed.congr fun m _ => Host.mask_of_conn fun c _ => hconn c)
      ((funext hconn : _ = h.conn) ▸ hinv.conns) hphase

/-! ### What happens in the network -/

theorem follows_removeSource (src : Option (ι × ℕ)) :
    h.Follows execute allowed (removeSource h src) := by
  unfold removeSource
  split_ifs <;> exact .of_eq rfl rfl

theorem follows_close (hclose : m.close h ssl = some h') : h.Follows execute allowed h' := by
  obtain ⟨-, rfl⟩ := close_eq_some.mp hclose
  unfold MonitoredSource.closed
  split
  · exact .of_eq rfl rfl
  · next c hsrc =>
    exact .trans (.of_eq rfl rfl) (.trans (.delete c) (follows_removeSource (some c)))

theorem follows_foldlM_close {ssl : Option (ι × ℕ) → Bool} (l : List (MonitoredSource ι))
    (hclose : l.foldlM (fun h m => m.close h (ssl m.src)) h = some h') :
    h.Follows execute allowed h' := by
  induction l generalizing h with
  | nil =>
    obtain rfl := Option.some.inj hclose
    exact .of_eq rfl rfl
  | cons m l ih =>
    rw [List.foldlM_cons] at hclose
    obtain ⟨h₁, hfirst, hothers⟩ := Option.bind_eq_some_iff.mp hclose
    exact (follows_close hfirst).trans (ih hothers)

theorem follows_closeAll {ssl : Option (ι × ℕ) → Bool} (hclose : closeAll h ssl = some h') :
    h.Follows execute allowed h' :=
  .trans (.of_eq rfl rfl)
    (follows_foldlM_close (h := { h with passed := [], rest := [] }) h.sources hclose)

omit [DecidableEq ι] in
theorem addSource_net (src : Option (ι × ℕ)) (fd : ℕ) (mask : Finset EventType) :
    (addSource h src fd mask).net = h.net ∧ (addSource h src fd mask).steps = h.steps := by
  obtain ⟨passed, rest, heq, -⟩ := addSource_eq h src fd mask
  rw [heq]
  exact ⟨rfl, rfl⟩

theorem follows_again (timeUp : Bool) :
    h.Follows execute allowed (again h timeUp) ∧ h.Follows execute allowed (loop h) := by
  have hloop : h.Follows execute allowed (loop h) := by
    unfold loop
    split_ifs <;> exact .of_eq rfl rfl
  refine ⟨?_, hloop⟩
  unfold again
  split_ifs
  · exact .of_eq rfl rfl
  · exact hloop

theorem follows_handleEvent {input : Input ι} {mask : Finset EventType}
    (hhandle : m.handleEvent execute h input = some (h', mask)) :
    h.Follows execute allowed h' := by
  unfold MonitoredSource.handleEvent at hhandle
  split at hhandle
  · obtain ⟨rfl, -⟩ := Prod.mk.inj (Option.some.inj hhandle)
    unfold XmlRpcServer.acceptConnection
    split
    · exact .of_eq rfl rfl
    · exact .trans (.delete _) (.of_eq rfl rfl)
    · obtain ⟨hnet, hsteps⟩ := addSource_net (h := { h with
        accepted := _ :: h.accepted
        calls := h.calls ++ [.used m.fd, .opened _] }) _ _ _
      exact .of_eq hnet hsteps
  · obtain ⟨h₁, hstep, hpair⟩ := Option.map_eq_some_iff.mp hhandle
    obtain ⟨rfl, -⟩ := Prod.mk.inj hpair
    refine .trans (.netStep ?_ hstep) (.of_eq rfl rfl)
    trivial

theorem follows_handleEvents {es : List EventType} {mask : Finset EventType}
    (hhandle : handleEvents execute m inputs es h = some (h', mask)) :
    h.Follows execute allowed h' := by
  induction es generalizing h mask with
  | nil =>
    obtain ⟨rfl, -⟩ := Prod.mk.inj (Option.some.inj hhandle)
    exact .of_eq rfl rfl
  | cons e es ih =>
    obtain ⟨⟨h₁, mask₁⟩, hfirst, hrest⟩ := Option.bind_eq_some_iff.mp hhandle
    dsimp only at hrest
    obtain ⟨⟨h₂, mask₂⟩, hothers, hpair⟩ := Option.map_eq_some_iff.mp hrest
    obtain ⟨rfl, -⟩ := Prod.mk.inj hpair
    exact (follows_handleEvent hfirst).trans (ih hothers)

/-- What a step does in the network is a run of it. -/
theorem follows_step {a : Host.Action ι σ} (ha : a.Allowed allowed h)
    (hstep : step execute h a = some h') : h.Follows execute allowed h' := by
  cases stepped_of_step hstep with
  | work timeout _ => exact .trans (.of_eq rfl rfl) (follows_again true).2
  | select ready _ => exact .of_eq rfl rfl
  | interrupted _ => exact .of_eq rfl rfl
  | selectError _ => exact .of_eq rfl rfl
  | visit inputs ssl sets n m rest _ _ hvisit =>
    obtain ⟨⟨h₁, mask⟩, hhandle, heq⟩ := Option.bind_eq_some_iff.mp hvisit
    have hhandled : ({ h with passed := h.passed ++ [m], rest } : Host ι σ).Follows execute allowed
        h₁ := follows_handleEvents hhandle
    refine .trans (.of_eq rfl rfl) (hhandled.trans ?_)
    dsimp only at heq
    split_ifs at heq
    · rw [← Option.some.inj heq]
      exact .of_eq rfl rfl
    · rw [← Option.some.inj heq]
      exact .of_eq rfl rfl
    · refine Host.Follows.trans ?_ (follows_close heq)
      exact .of_eq rfl rfl
  | finish timeUp ssl sets n _ _ hfinish =>
    obtain ⟨h₁, hclose | rfl, doClear, rfl⟩ := finish_eq_some hfinish
    · exact (follows_closeAll hclose).trans (.trans (.of_eq rfl rfl) (follows_again timeUp).1)
    · exact .trans (.of_eq rfl rfl) (follows_again timeUp).1
  | exit => exact .of_eq rfl rfl
  | clear ssl hclear =>
    unfold clear at hclear
    split at hclear
    · exact follows_closeAll hclear
    · rw [← Option.some.inj hclear]
      exact .of_eq rfl rfl
  | network i a _ _ hnet => exact .netStep ha hnet

/-! ### The turns of the loop -/

omit [DecidableEq ι] in
theorem loop_rest : (loop h).rest = h.rest ∧ (loop h).accepted = h.accepted ∧
    (loop h).passed = h.passed := by
  unfold loop
  split_ifs <;> exact ⟨rfl, rfl, rfl⟩

/-- What the server takes in a turn: no connection, one that is refused, or one that is added to the
sources, in front of the end of the loop or behind it. -/
theorem acceptConnection_rest (fd : ℕ) (accept : Option ((ι × ℕ) × ℕ × Bool))
    (hpassed : h.passed ≠ []) (hh' : h' = XmlRpcServer.acceptConnection h fd accept) :
    h'.passed ≠ [] ∧ h'.rest.length + h.accepted.length ≤ h.rest.length + h'.accepted.length ∧
      h'.accepted.length ≤ h.accepted.length + 1 := by
  subst hh'
  unfold XmlRpcServer.acceptConnection
  split
  · exact ⟨hpassed, le_rfl, Nat.le_succ _⟩
  · exact ⟨hpassed, by simp, le_rfl⟩
  · next c s =>
    obtain ⟨passed, rest, heq, -, hne, hrest⟩ := addSource_eq
      { h with
        accepted := c :: h.accepted
        calls := h.calls ++ [.used fd, .opened s] } (some c) s {.readableEvent}
    rw [heq]
    refine ⟨hne hpassed, ?_, le_rfl⟩
    rcases hrest with rfl | rfl
    · exact Nat.add_le_add_left (Nat.le_succ _) _
    · simp [Nat.add_right_comm _ 1, Nat.add_assoc]

/-- A turn of the loop adds a source only where the server accepts a connection, and the server is
the first one. -/
theorem Visited.rest_le (hl : Listed (h.passed ++ m :: h.rest) h.accepted h.mask h.calls)
    (hv : Visited execute h sets n m inputs h') :
    h'.passed ≠ [] ∧ h'.rest.length + h.accepted.length ≤ h.rest.length + h'.accepted.length ∧
      h'.accepted.length ≤ h.accepted.length + if h.passed = [] then 1 else 0 := by
  cases hv with
  | passed _ => exact ⟨by simp, le_rfl, Nat.le_add_right _ _⟩
  | accepted e h₁ _ hsrc haccept =>
    rw [if_pos (hl.src_ne.mp hsrc)]
    obtain ⟨hpassed, hrest, haccepted⟩ := acceptConnection_rest m.fd _ (by simp) haccept
    exact ⟨by simpa [setMask] using hpassed, hrest, haccepted⟩
  | handled e c h₁ _ _ hstep _ =>
    obtain ⟨p, s, e', -, rfl⟩ := Host.netStep_eq hstep
    exact ⟨by simp, le_rfl, Nat.le_add_right _ _⟩
  | closed e c h₁ _ hsrc hstep _ =>
    obtain ⟨p, s, e', -, rfl⟩ := Host.netStep_eq hstep
    have hp : h.passed ≠ [] := fun hp => by simp [hl.src_ne.mpr hp] at hsrc
    have hne : ∀ m' ∈ h.passed ++ h.rest, m'.src ≠ some c :=
      fun m' hm' heq => hl.src_notMem hm' (heq.trans hsrc.symm)
    rw [closed_of_some hsrc (by exact hne)]
    exact ⟨hp, le_rfl, Nat.le_add_right _ _⟩

/-- Until the loop ends, each turn takes a source from those that are left, and only a connection
that the server accepts is added to them; the server accepts one at most. -/
theorem turn_step {a : Host.Action ι σ} (hinv : Inv h) (hfinish : a.isFinish = false)
    (hstep : step execute h a = some h') :
    (if a.isVisit then 1 else 0) + h'.rest.length + h.accepted.length ≤
        h.rest.length + h'.accepted.length ∧
      h'.accepted.length + (if h'.passed = [] then 1 else 0) ≤
        h.accepted.length + if h.passed = [] then 1 else 0 := by
  have hsame : h'.rest = h.rest → h'.accepted = h.accepted → h'.passed = h.passed →
      0 + h'.rest.length + h.accepted.length ≤ h.rest.length + h'.accepted.length ∧
        h'.accepted.length + (if h'.passed = [] then 1 else 0) ≤
          h.accepted.length + if h.passed = [] then 1 else 0 := by
    intro hrest haccepted hpassed
    rw [hrest, haccepted, hpassed, Nat.zero_add]
    exact ⟨le_rfl, le_rfl⟩
  cases stepped_of_step hstep with
  | work timeout _ =>
    obtain ⟨hrest, haccepted, hpassed⟩ := loop_rest (h := { h with
      endTime := if timeout then .time else .never
      doClear := false })
    exact hsame hrest haccepted hpassed
  | select ready _ => exact hsame rfl rfl rfl
  | interrupted _ => exact hsame rfl rfl rfl
  | selectError _ => exact hsame rfl rfl rfl
  | visit inputs ssl sets n m rest hwork hrest hvisit =>
    obtain ⟨hl, -, -, hv⟩ := visited_of_inv hinv hwork hrest hvisit
    obtain ⟨hpassed, hle, haccepted⟩ := hv.rest_le (by exact hl)
    dsimp only at hle haccepted
    rw [hrest, List.length_cons, if_neg hpassed, Host.Action.isVisit, if_pos rfl]
    exact ⟨by omega, haccepted⟩
  | finish => simp [Host.Action.isFinish] at hfinish
  | exit => exact hsame rfl rfl rfl
  | clear ssl hclear =>
    unfold clear at hclear
    split at hclear
    · next hwork =>
      have hphase := hinv.phase
      rw [hwork] at hphase
      obtain ⟨net, steps, calls, rfl, -, -⟩ := closeAll_eq hinv.listed hinv.conns hclear
      simp [Host.Action.isVisit, hphase.1]
    · obtain rfl := Option.some.inj hclear
      exact hsame rfl rfl rfl
  | network i a _ _ hnet =>
    obtain ⟨p, s, e, -, rfl⟩ := Host.netStep_eq hnet
    exact hsame rfl rfl rfl

/-! ### Runs -/

variable {fd : ℕ} {s₀ : σ} {t : Host ι σ} {tr : List (Host.Action ι σ × Unit)}

/-- What holds of a host holds after any run. -/
theorem inv_of_run
    (hrun : (dispatcher execute).RunOn (fun h a => a.Allowed allowed h) h tr h') (hinv : Inv h) :
    Inv h' := by
  refine hrun.invariant (fun h a h' e hinv ha hnext => ?_) hinv
  obtain ⟨h₁, hstep, heq⟩ := Option.map_eq_some_iff.mp hnext
  obtain ⟨rfl, -⟩ := Prod.mk.inj heq
  exact inv_step hinv ha hstep

/-- After any run, a source before the loop is signalled for one event at most, so that its handler
is not called once more after it has returned no events. -/
theorem signalled_run
    (h : (dispatcher execute).RunOn (fun h a => a.Allowed allowed h) (Host.start fd s₀) tr t)
    (hwork : t.work = .processing sets n) (hm : m ∈ t.rest) :
    signalled sets n m = [] ∨ ∃ e, signalled sets n m = [e] ∧ m.mask = {e} := by
  have hinv := inv_of_run h (inv_start fd s₀)
  have hphase := hinv.phase
  rw [hwork] at hphase
  exact signalled_cases (hphase.1.due m hm) (hinv.mask_eq (List.mem_append_right _ hm))

/-- After any run, the descriptors that are open are those of the sources, no two sources have the
same, and the connections among the sources are those that were accepted and are not closed.  No
descriptor was used or closed while it was not open, and none was given out that was. -/
theorem descriptors_run
    (h : (dispatcher execute).RunOn (fun h a => a.Allowed allowed h) (Host.start fd s₀) tr t) :
    Handles.afterAll ∅ t.calls = some (t.sources.map (·.fd)).toFinset ∧
      (t.sources.map (·.fd)).Nodup ∧
      ∀ c ∈ t.accepted, t.conn c ≠ none ↔ ∃ m ∈ t.sources, m.src = some c := by
  have hinv := inv_of_run h (inv_start fd s₀)
  refine ⟨hinv.listed.opened, hinv.listed.fds, fun c hc => ⟨hinv.exists_source hc, ?_⟩⟩
  rintro ⟨m, hm, hsrc⟩ hnone
  obtain ⟨hmask, hne⟩ := hinv.listed.masks m hm
  rw [hmask, hsrc, Host.mask, hnone] at hne
  exact hne rfl

/-- A connection is closed, and its descriptor is given out again. -/
theorem descriptors_run_again : ∃ t : Host Bool ℕ,
    Handles.afterAll ∅ t.calls = some (t.sources.map (·.fd)).toFinset ∧
      t.sources.map (·.fd) = [3, 4] ∧ t.calls.count (.opened 4) = 2 := by
  have hreaches : (dispatcher (ι := Bool) counting).Reaches (fun h a => a.Allowed (fun _ => True) h)
      (Host.start 3 0)
      [.work false, .network true (.call default .connected),
        .network false (.call default .connected), .select [(3, .readableEvent)],
        .visit (fun _ => { accept := some ((true, 1), 4, true) }) false,
        .finish false fun _ => false,
        .select [(4, .readableEvent)], .visit (fun _ => {}) false,
        .visit (fun _ => { reads := [([], .eof)] }) false, .finish false fun _ => false,
        .select [(3, .readableEvent)],
        .visit (fun _ => { accept := some ((false, 1), 4, true) }) false]
      (fun _ t => t.sources.map (·.fd) = [3, 4] ∧ t.calls.count (.opened 4) = 2) := by
    decide +kernel
  obtain ⟨tr, t, hrun, hfds, hcount⟩ := hreaches.exists_runOn
  exact ⟨t, (descriptors_run hrun).1, hfds, hcount⟩

/-- After any run, the handlers have been called for the events that were in the sets of descriptors
behind `select`, in their order and each once; outside of the loop over the sources, for all of
them. -/
theorem events_run
    (h : (dispatcher execute).RunOn (fun h a => a.Allowed allowed h) (Host.start fd s₀) tr t) :
    t.handled <+: t.signals ∧
      ((∀ sets n, t.work ≠ .processing sets n) → t.handled = t.signals) := by
  have hphase := (inv_of_run h (inv_start fd s₀)).phase
  cases hwork : t.work with
  | outside =>
    rw [hwork] at hphase
    exact ⟨by rw [hphase.2], fun _ => hphase.2⟩
  | waiting =>
    rw [hwork] at hphase
    exact ⟨by rw [hphase.2.1], fun _ => hphase.2.1⟩
  | processing sets n =>
    rw [hwork] at hphase
    exact ⟨⟨_, hphase.1.signals.symm⟩, fun hnot => absurd rfl (hnot sets n)⟩

/-- The server has been visited, and a connection for which an event was reported has not. -/
theorem events_run_between : ∃ t : Host Unit ℕ, t.handled <+: t.signals ∧
    t.handled.length = 2 ∧ t.signals.getLast? = some (some ((), 1), .readableEvent) := by
  have hreaches : (dispatcher (ι := Unit) counting).Reaches (fun h a => a.Allowed (fun _ => True) h)
      (Host.start 3 0)
      [.work true, .network () (.call default .connected), .select [(3, .readableEvent)],
        .visit (fun _ => { accept := some (((), 1), 4, true) }) false,
        .finish false fun _ => false,
        .select [(4, .readableEvent), (3, .readableEvent)],
        .visit (fun _ => { accept := some (((), 0), 5, false) }) false]
      (fun _ t => t.handled.length = 2 ∧
        t.signals.getLast? = some (some ((), 1), .readableEvent)) := by
    decide +kernel
  obtain ⟨tr, t, hrun, hhandled, hsignals⟩ := hreaches.exists_runOn
  exact ⟨t, (events_run hrun).1, hhandled, hsignals⟩

/-- The loop over the sources ends: after any run, whatever the handlers and the clients do, and
although the list grows while it is walked through, the turns until the loop is at its end are at
most as many as there are sources left and connections that the server accepts meanwhile, which is
one at most. -/
theorem turns_run
    (h : (dispatcher execute).RunOn (fun h a => a.Allowed allowed h) (Host.start fd s₀) tr t)
    {tr' : List (Host.Action ι σ × Unit)} {t' : Host ι σ}
    (hloop : (dispatcher execute).RunOn
      (fun h a => a.Allowed allowed h ∧ a.isFinish = false) t tr' t') :
    tr'.countP (·.1.isVisit) + t'.rest.length + t.accepted.length ≤
        t.rest.length + t'.accepted.length ∧
      t'.accepted.length ≤ t.accepted.length + 1 := by
  have hinv := inv_of_run h (inv_start fd s₀)
  have hturns : Inv t' ∧
      tr'.countP (·.1.isVisit) + t'.rest.length + t.accepted.length ≤
        t.rest.length + t'.accepted.length ∧
      t'.accepted.length + (if t'.passed = [] then 1 else 0) ≤
        t.accepted.length + if t.passed = [] then 1 else 0 := by
    refine hloop.invariant_trace (I := fun tr' t' => Inv t' ∧
      tr'.countP (·.1.isVisit) + t'.rest.length + t.accepted.length ≤
        t.rest.length + t'.accepted.length ∧
      t'.accepted.length + (if t'.passed = [] then 1 else 0) ≤
        t.accepted.length + if t.passed = [] then 1 else 0) ?_ ⟨hinv, by simp, le_rfl⟩
    rintro tr' h a h' e ⟨hinv, hle, haccepted⟩ ⟨ha, hfinish⟩ hnext
    obtain ⟨h₁, hstep, heq⟩ := Option.map_eq_some_iff.mp hnext
    obtain ⟨rfl, -⟩ := Prod.mk.inj heq
    obtain ⟨hturn, hone⟩ := turn_step hinv hfinish hstep
    refine ⟨inv_step hinv ha hstep, ?_, hone.trans haccepted⟩
    rw [List.countP_append, List.countP_singleton]
    dsimp only
    omega
  refine ⟨hturns.2.1, (Nat.le_add_right _ _).trans (hturns.2.2.trans ?_)⟩
  split_ifs <;> omega

/-- There are two sources, and a connection that the server accepts in the loop is visited in it,
too. -/
theorem turns_run_accepted : ∃ (tr : List (Host.Action Bool ℕ × Unit)) (t t' : Host Bool ℕ),
    (tr.countP (·.1.isVisit) + t'.rest.length + t.accepted.length ≤
        t.rest.length + t'.accepted.length ∧
      t'.accepted.length ≤ t.accepted.length + 1) ∧
    t.rest.length = 2 ∧ tr.countP (·.1.isVisit) = 3 := by
  have hreaches : (dispatcher (ι := Bool) counting).Reaches (fun h a => a.Allowed (fun _ => True) h)
      (Host.start 3 0)
      [.work false, .network true (.call default .connected),
        .network false (.call default .connected), .select [(3, .readableEvent)],
        .visit (fun _ => { accept := some ((true, 1), 4, true) }) false,
        .finish false fun _ => false, .select [(3, .readableEvent)]]
      (fun _ t => t.rest.length = 2 ∧
        (dispatcher (ι := Bool) counting).Reaches
          (fun h a => a.Allowed (fun _ => True) h ∧ a.isFinish = false) t
          [.visit (fun _ => { accept := some ((false, 1), 5, true) }) false,
            .visit (fun _ => {}) false, .visit (fun _ => {}) false]
          (fun tr _ => tr.countP (·.1.isVisit) = 3)) := by
    decide +kernel
  obtain ⟨_, t, hrun, hrest, hloop⟩ := hreaches.exists_runOn
  obtain ⟨tr, t', hrun', hcount⟩ := hloop.exists_runOn
  exact ⟨tr, t, t', turns_run hrun hrun', hrest, hcount⟩

/-- What happens in the network while the dispatcher runs is a run of it. -/
theorem follows_of_run
    (hrun : (dispatcher execute).RunOn (fun h a => a.Allowed allowed h) h tr h') :
    h.Follows execute allowed h' := by
  refine hrun.invariant (fun h₁ a h₂ e hfollows ha hnext => ?_) (.of_eq rfl rfl)
  obtain ⟨h₃, hstep, heq⟩ := Option.map_eq_some_iff.mp hnext
  obtain ⟨rfl, -⟩ := Prod.mk.inj heq
  exact hfollows.trans (follows_step ha hstep)

end XmlRpcDispatch

end IvySync
