import IvySync.Xmlrpc.Rounds

/-!
# The dispatcher serves its clients

A dispatcher that waits in `select` can be brought to handle any event of a connection: `select`
returns with the event, the sources in front of the one that it is for are passed over
(`leads_select`), its handler is called, and the sources behind it are passed over (`leads_finish`).
So what the server can do in the network it can do under the dispatcher, which waits again
afterwards; a connection that has not been accepted is accepted before its first event
(`leads_step`), for which the operating system must have a descriptor that fits into the sets of
`select`.  In particular a call of a client can be completed, whatever has happened before
(`call_completes`).
-/

namespace IvySync

open Http XmlRpcSocket

namespace XmlRpcDispatch

variable {ι σ : Type} [DecidableEq ι] {execute : Name → σ → Option (Name × σ)}
  {allowed : Message true → Prop} {h h' : Host ι σ} {m : MonitoredSource ι}
  {p r : List (MonitoredSource ι)} {sets : List (ℕ × EventType)} {n : ℤ} {e : EventType}
  {inputs : EventType → Input ι} {c : ι × ℕ}

/-! ### A pass over the sources -/

/-- A dispatcher that waits in `select`, with descriptors that fit into the sets, and that neither
`exit` nor `clear` was called for. -/
structure Waiting (h : Host ι σ) : Prop where
  inv : Inv h
  work : h.work = .waiting
  endTime : h.endTime ≠ .exited
  doClear : h.doClear = false
  fds : ∀ m ∈ h.sources, m.fd < fdSetsize

omit [DecidableEq ι] in
theorem fit_of_lt (hfds : ∀ m ∈ r, m.fd < fdSetsize) : Fit r := by
  intro q hq
  simp only [fdSets, List.mem_flatMap, List.mem_map] at hq
  obtain ⟨m, hm, e, -, rfl⟩ := hq
  exact hfds m hm

omit [DecidableEq ι] in
/-- Every source is monitored for some event. -/
theorem Fit.lt (hfit : Fit r) (hmask : ∀ m ∈ r, m.mask ≠ ∅) : ∀ m ∈ r, m.fd < fdSetsize := by
  intro m hm
  obtain ⟨e, he⟩ := Finset.nonempty_iff_ne_empty.mpr (hmask m hm)
  refine hfit (m.fd, e) ?_
  simp only [fdSets, List.mem_flatMap, List.mem_map, List.mem_filter, decide_eq_true_eq]
  exact ⟨m, hm, e, ⟨by cases e <;> decide, he⟩, rfl⟩

omit [DecidableEq ι] in
/-- The descriptors that are open. -/
theorem Inv.opened (hinv : Inv h) : h.opened = (h.sources.map (·.fd)).toFinset :=
  Handles.foldl_effect hinv.listed.opened

/-- One host comes from another by a run of the dispatcher. -/
def Leads (execute : Name → σ → Option (Name × σ)) (allowed : Message true → Prop)
    (h h' : Host ι σ) : Prop :=
  ∃ tr, (dispatcher execute).RunOn (fun h a => a.Allowed allowed h) h tr h'

namespace Leads

theorem refl (h : Host ι σ) : Leads execute allowed h h := ⟨[], .nil⟩

theorem trans {h₁ : Host ι σ} (h₀ : Leads execute allowed h h₁)
    (h₂ : Leads execute allowed h₁ h') : Leads execute allowed h h' := by
  obtain ⟨tr, hrun⟩ := h₀
  obtain ⟨tr', hrun'⟩ := h₂
  exact ⟨tr ++ tr', hrun.append hrun'⟩

theorem single {a : Host.Action ι σ} (ha : a.Allowed allowed h)
    (hstep : step execute h a = some h') : Leads execute allowed h h' :=
  ⟨[(a, ())], .single ha (by simp [hstep])⟩

theorem inv (hleads : Leads execute allowed h h') (hinv : Inv h) : Inv h' :=
  hleads.elim fun _ hrun => inv_of_run hrun hinv

end Leads

omit [DecidableEq ι] in
/-- Nothing is accepted. -/
theorem allowed_visit (allowed : Message true → Prop) (h : Host ι σ) (input : Input ι)
    (hinput : input.accept = none) :
    Host.Action.Allowed allowed h (.visit (fun _ => input) false) := by
  intro e x hx
  simp [hinput] at hx

/-- Sources for which nothing is signalled are passed over. -/
theorem leads_passed (hwork : h.work = .processing sets n) (hrest : h.rest = p ++ r)
    (hp : ∀ m ∈ p, signalled sets n m = []) :
    Leads execute allowed h { h with passed := h.passed ++ p, rest := r } := by
  induction p generalizing h with
  | nil =>
    have hsame : { h with passed := h.passed ++ [], rest := r } = h := by
      rw [List.append_nil, ← List.nil_append r, ← hrest]
    rw [hsame]
    exact .refl h
  | cons m p ih =>
    obtain ⟨hm, hp⟩ := List.forall_mem_cons.mp hp
    have hstep : step execute h (.visit (fun _ => {}) false) =
        some { h with passed := h.passed ++ [m], rest := p ++ r } := by
      rw [List.cons_append] at hrest
      simp only [step, hwork, hrest, visit_of_nil hm]
    refine .trans (.single (allowed_visit allowed h {} rfl) hstep) ?_
    have hpassed := ih (h := { h with passed := h.passed ++ [m], rest := p ++ r }) hwork rfl hp
    simpa using hpassed

/-- A dispatcher that is about to handle an event of a source, the only one that `select` has
reported. -/
structure Handling (p : List (MonitoredSource ι)) (m : MonitoredSource ι)
    (r : List (MonitoredSource ι)) (e : EventType) (sets : List (ℕ × EventType)) (n : ℤ)
    (h : Host ι σ) : Prop where
  inv : Inv h
  work : h.work = .processing sets n
  endTime : h.endTime ≠ .exited
  doClear : h.doClear = false
  passed : h.passed = p
  rest : h.rest = m :: r
  event : signalled sets n m = [e]
  others : ∀ m' ∈ r, signalled sets n m' = []
  sets : ∀ q ∈ sets, q.1 = m.fd
  fds : ∀ m' ∈ p ++ m :: r, m'.fd < fdSetsize

/-- `select` reports one event, and the sources in front of the one that it is for are passed
over. -/
theorem leads_select (hw : Waiting h) (hrest : h.rest = p ++ m :: r) (hmask : m.mask = {e}) :
    ∃ h₁ sets n, Leads execute allowed h h₁ ∧ Handling p m r e sets n h₁ ∧ h₁.net = h.net ∧
      h₁.steps = h.steps ∧ h₁.accepted = h.accepted := by
  have hphase := hw.inv.phase
  rw [hw.work] at hphase
  have hpassed : h.passed = [] := hphase.1
  have hl := hw.inv.listed
  rw [Host.sources, hpassed, List.nil_append] at hl
  have hsignalled : ∀ m' ∈ h.rest, signalled ((fdSets h.rest).filter (· ∈ [(m.fd, e)]))
      (maxFd h.rest) m' = due [(m.fd, e)] m' :=
    fun m' hm' => signalled_select hl.fds hm' (hl.masks m' hm').2
  have hevent : signalled ((fdSets h.rest).filter (· ∈ [(m.fd, e)])) (maxFd h.rest) m = [e] := by
    rw [hsignalled m (by simp [hrest]), due, hmask]
    cases e <;> simp [EventType.all]
  have hothers : ∀ m' ∈ p ++ r, signalled ((fdSets h.rest).filter (· ∈ [(m.fd, e)]))
      (maxFd h.rest) m' = [] := by
    intro m' hm'
    have hin : m' ∈ h.rest := by
      rw [hrest, List.mem_append, List.mem_cons]
      exact (List.mem_append.mp hm').imp_right Or.inr
    have hnodup := hl.fds
    rw [hrest, List.map_append, List.map_cons, List.nodup_middle, List.nodup_cons,
      ← List.map_append] at hnodup
    have hfd : m'.fd ≠ m.fd := fun hfd => hnodup.1 (hfd ▸ List.mem_map_of_mem hm')
    rw [hsignalled m' hin, due, List.filter_eq_nil_iff]
    simp [hfd]
  have hsets : ∀ q ∈ (fdSets h.rest).filter (· ∈ [(m.fd, e)]), q.1 = m.fd := by
    intro q hq
    have hq' : q = (m.fd, e) := by simpa using (List.mem_filter.mp hq).2
    rw [hq']
  have hfds := hw.fds
  rw [Host.sources, hpassed, List.nil_append] at hfds
  have hstep : step execute h (.select [(m.fd, e)]) = some (select h [(m.fd, e)]) := by
    rw [step, if_pos ⟨hw.work, fit_of_lt hfds⟩]
  have hselect : Leads execute allowed h (select h [(m.fd, e)]) :=
    .single (a := .select [(m.fd, e)]) trivial hstep
  have hfront : Leads execute allowed (select h [(m.fd, e)])
      { select h [(m.fd, e)] with passed := h.passed ++ p, rest := m :: r } :=
    leads_passed rfl hrest fun m' hm' => hothers m' (List.mem_append_left _ hm')
  have hleads := hselect.trans hfront
  refine ⟨_, _, _, hleads, ⟨hleads.inv hw.inv, rfl, hw.endTime, hw.doClear, ?_, rfl, hevent,
    fun m' hm' => hothers m' (List.mem_append_right _ hm'), hsets, hrest ▸ hfds⟩, rfl, rfl, rfl⟩
  change h.passed ++ p = p
  rw [hpassed, List.nil_append]

/-- The sources that are left are passed over, and the dispatcher waits again. -/
theorem leads_finish (hinv : Inv h) (hwork : h.work = .processing sets n)
    (hrest : ∀ m ∈ h.rest, signalled sets n m = []) (hexit : h.endTime ≠ .exited)
    (hclear : h.doClear = false) (hne : h.sources ≠ [])
    (hfds : ∀ m ∈ h.sources, m.fd < fdSetsize) :
    ∃ h', Leads execute allowed h h' ∧ Waiting h' ∧ h'.net = h.net ∧ h'.steps = h.steps ∧
      h'.accepted = h.accepted := by
  have hpassed : Leads execute allowed h { h with passed := h.sources, rest := [] } :=
    leads_passed hwork (by simp) hrest
  have hfinish : step execute { h with passed := h.sources, rest := [] }
      (.finish false fun _ => false) =
      some { h with passed := [], rest := h.sources, work := .waiting } := by
    simpa [step, hwork, finish, hclear, again, hexit, loop, Host.sources] using hne
  have hleads := hpassed.trans
    (.single (a := .finish false fun _ => false) trivial hfinish)
  exact ⟨_, hleads, ⟨hleads.inv hinv, rfl, hexit, hclear, hfds⟩, rfl, rfl, rfl⟩

/-! ### Steps of the network -/

/-- A connection of a client is accepted, with a descriptor that fits into the sets. -/
theorem leads_accept (hw : Waiting h) (hc : c ∉ h.accepted)
    (hmade : c.2 ≤ (h.net.party c.1).current) {s : ℕ} (hs : s ∉ h.opened) (hlt : s < fdSetsize) :
    ∃ h', Leads execute allowed h h' ∧ Waiting h' ∧ h'.net = h.net ∧ h'.steps = h.steps ∧
      c ∈ h'.accepted := by
  have hphase := hw.inv.phase
  rw [hw.work] at hphase
  obtain ⟨hpassed, -, hne⟩ := hphase
  obtain ⟨m, r, hrest⟩ := List.exists_cons_of_ne_nil hne
  have hl := hw.inv.listed
  rw [Host.sources, hpassed, List.nil_append, hrest] at hl
  have hsrc : m.src = none := hl.first m rfl
  have hmask : m.mask = {.readableEvent} := by
    rw [(hl.masks m (by simp)).1, hsrc]
    rfl
  obtain ⟨h₁, sets, n, hselect, hh₁, hnet, hsteps, haccepted⟩ :=
    leads_select (p := []) hw hrest hmask
  have hsources₁ : h₁.sources = h.sources := by
    rw [Host.sources, Host.sources, hh₁.passed, hh₁.rest, hpassed, hrest]
  have hs₁ : s ∉ h₁.opened := by rwa [hh₁.inv.opened, hsources₁, ← hw.inv.opened]
  have hfd : s ≠ m.fd := by
    rintro rfl
    rw [hw.inv.opened, List.mem_toFinset] at hs
    exact hs (by simp [Host.sources, hrest])
  have hsame : (⟨none, m.fd, {.readableEvent}⟩ : MonitoredSource ι) = m := by rw [← hsrc, ← hmask]
  -- the loop comes to the new source, or it ends with the server
  obtain ⟨passed, rest, hstep, hsources, hbehind⟩ : ∃ passed rest,
      step execute h₁ (.visit (fun _ => { accept := some (c, s, true) }) false) = some { h₁ with
        passed
        rest
        accepted := c :: h₁.accepted
        calls := h₁.calls ++ [.used m.fd, .opened s]
        handled := h₁.handled ++ [(none, .readableEvent)] } ∧
      passed ++ rest = m :: (r ++ [⟨some c, s, {.readableEvent}⟩]) ∧
      rest ⊆ r ++ [⟨some c, s, {.readableEvent}⟩] := by
    rcases r with _ | ⟨m', r⟩
    · refine ⟨[m, ⟨some c, s, {.readableEvent}⟩], [], ?_, rfl, by simp⟩
      simp [step, visit, hh₁.work, hh₁.rest, hh₁.passed, hh₁.event, handleEvents_singleton,
        MonitoredSource.handleEvent, hsrc, XmlRpcServer.acceptConnection, addSource, setMask, hsame]
    · refine ⟨[m], m' :: r ++ [⟨some c, s, {.readableEvent}⟩], ?_, rfl, by simp⟩
      simp [step, visit, hh₁.work, hh₁.rest, hh₁.passed, hh₁.event, handleEvents_singleton,
        MonitoredSource.handleEvent, hsrc, XmlRpcServer.acceptConnection, addSource, setMask, hsame]
  have hallowed : Host.Action.Allowed allowed h₁
      (.visit (fun _ => { accept := some (c, s, true) }) false) := by
    intro e x hx
    obtain rfl : _ = x := Option.some.inj hx
    exact ⟨hs₁, haccepted ▸ hc, hnet ▸ hmade⟩
  have hvisit := hselect.trans (.single hallowed hstep)
  have hsignalled : ∀ m' ∈ rest, signalled sets n m' = [] := by
    intro m' hm'
    rcases List.mem_append.mp (hbehind hm') with hm' | hm'
    · exact hh₁.others m' hm'
    · rw [List.mem_singleton.mp hm']
      exact signalled_of_notMem fun e he => hfd (hh₁.sets _ he)
  have hfds : ∀ m' ∈ passed ++ rest, m'.fd < fdSetsize := by
    intro m' hm'
    rw [hsources, ← List.cons_append] at hm'
    rcases List.mem_append.mp hm' with hm' | hm'
    · exact hh₁.fds m' hm'
    · rw [List.mem_singleton.mp hm']
      exact hlt
  obtain ⟨h', hfinish, hwaiting, hnet', hsteps', haccepted'⟩ := leads_finish
    (hvisit.inv hw.inv) hh₁.work hsignalled hh₁.endTime hh₁.doClear
    (by simp [Host.sources, hsources]) hfds
  exact ⟨h', hvisit.trans hfinish, hwaiting, hnet'.trans hnet, hsteps'.trans hsteps,
    haccepted' ▸ List.mem_cons_self ..⟩

/-- A connection that is kept is not looked at any further. -/
theorem next_server {net : Machine.Shared ι Network.Party σ} {ev : Network.Event}
    {reads : List Read} {write : Write} {ssl : Bool}
    (hnext : (Network.net ι execute).next h.net (c.1, .server c.2 reads write ssl) =
      some (net, ev)) :
    (Network.net ι execute).next h.net (c.1, .server c.2 reads write false) = some (net, ev) := by
  obtain ⟨p, hstep, hparty⟩ := Machine.interleave_next.mp hnext
  obtain ⟨conn, handled, left, hconn, hreads, hrun, rfl, hserver, rfl⟩ :=
    Network.step_server hstep
  refine Machine.interleave_next.mpr ⟨_, ?_, hparty⟩
  rw [hserver]
  simp only [Network.step, hconn, if_pos hreads, hrun, Option.bind_some, Bool.false_eq_true,
    and_false, if_false]

/-- A connection that is closed can be closed once more. -/
theorem delete_net (hconn : h.conn c = none) : (h.delete c).net = h.net := by
  have hlink : { (h.net.party c.1).links c.2 with conn := none } = (h.net.party c.1).links c.2 := by
    unfold Host.conn at hconn
    rw [← hconn]
  unfold Host.delete Network.Party.close
  dsimp only
  rw [hlink, Function.update_eq_self, Function.update_eq_self]

/-- An event for a connection is handled. -/
theorem leads_serve (hw : Waiting h) (hc : c ∈ h.accepted) {reads : List Read} {write : Write}
    {ssl : Bool} {net : Machine.Shared ι Network.Party σ} {ev : Network.Event}
    (hnext : (Network.net ι execute).next h.net (c.1, .server c.2 reads write ssl) =
      some (net, ev)) :
    ∃ h' steps, Leads execute allowed h h' ∧ Waiting h' ∧ h'.net = net ∧
      h'.steps = h.steps ++ steps ∧ h'.accepted = h.accepted ∧ ∀ x ∈ steps, x.1.1 = c.1 := by
  have hphase := hw.inv.phase
  rw [hw.work] at hphase
  have hopen : h.conn c ≠ none := by
    obtain ⟨p, hstep, -⟩ := Machine.interleave_next.mp hnext
    obtain ⟨conn, -, -, hconn, -⟩ := Network.step_server hstep
    simp [Host.conn, hconn]
  obtain ⟨m, hm, hsrc⟩ := hw.inv.exists_source hc hopen
  obtain ⟨e, hmask⟩ := hw.inv.mask_eq hm
  rw [Host.sources, hphase.1, List.nil_append] at hm
  obtain ⟨p, r, hrest⟩ := List.append_of_mem hm
  obtain ⟨h₁, sets, n, hselect, hh₁, hnet, hsteps, haccepted⟩ := leads_select hw hrest hmask
  have hl := hh₁.inv.listed
  rw [Host.sources, hh₁.passed, hh₁.rest] at hl
  have hp : p ≠ [] := fun hp => by simp [hl.src_ne.mpr hp] at hsrc
  have hfront : ∀ m' ∈ p, m'.src ≠ m.src :=
    fun m' hm' => hl.src_notMem (List.mem_append_left _ hm')
  obtain ⟨h₂, hh₂⟩ : ∃ h₂ : Host ι σ, h₂ = { h₁ with
      passed := p ++ [m]
      rest := r
      net
      steps := h₁.steps ++ [((c.1, .server c.2 reads write false), ev)]
      calls := h₁.calls ++ [.used m.fd] } := ⟨_, rfl⟩
  have hhandle : m.handleEvent execute { h₁ with passed := h₁.passed ++ [m], rest := r }
      { reads, write } = some (h₂, h₂.mask (some c)) := by
    simp only [MonitoredSource.handleEvent, hsrc, Host.netStep, hnet, next_server hnext,
      Option.map_some, hh₂, hh₁.passed]
    rfl
  have hstep : step execute h₁ (.visit (fun _ => { reads, write }) false) =
      visit execute h₁ sets n m r (fun _ => { reads, write }) false := by
    simp only [step, hh₁.work, hh₁.rest]
  rw [visit_of_singleton hh₁.event hhandle] at hstep
  have hallowed := allowed_visit allowed h₁ { reads, write } rfl
  have hpassed₂ : h₂.passed = p ++ [m] := by rw [hh₂]
  have hsteps₂ : h₂.steps = h.steps ++ [((c.1, .server c.2 reads write false), ev)] := by
    rw [hh₂, ← hsteps]
  split_ifs at hstep with hempty
  · rw [setMask_of_passed (h := { h₂ with handled := h₂.handled ++ [(m.src, e)] }) hpassed₂ hfront]
      at hstep
    have hvisit := hselect.trans (.single hallowed hstep)
    subst hh₂
    have hfds : ∀ m' ∈ p ++ m :: r, m'.fd < fdSetsize := hh₁.fds
    obtain ⟨h', hfinish, hwaiting, hnet', hsteps', haccepted'⟩ :=
      leads_finish (hvisit.inv hw.inv) hh₁.work hh₁.others hh₁.endTime hh₁.doClear
        (by simp [Host.sources]) (by simpa [Host.sources, or_imp, forall_and] using hfds)
    exact ⟨h', [((c.1, .server c.2 reads write false), ev)], hvisit.trans hfinish, hwaiting, hnet',
      hsteps'.trans hsteps₂, haccepted'.trans haccepted, by simp⟩
  · -- the connection is closed, and its end deleted once more
    have hconn := Host.conn_of_mask (not_not.mp hempty)
    have hne : ∀ m' ∈ p ++ r, m'.src ≠ some c := fun m' hm' heq =>
      hl.src_notMem hm' (heq.trans hsrc.symm)
    rw [erase_of_passed (h := { h₂ with handled := h₂.handled ++ [(m.src, e)] }) hpassed₂ hfront,
      MonitoredSource.close, if_neg Bool.false_ne_true] at hstep
    subst hh₂
    rw [closed_of_some hsrc (by exact hne)] at hstep
    have hvisit := hselect.trans (.single hallowed hstep)
    have hfds : ∀ m' ∈ p ++ r, m'.fd < fdSetsize := fun m' hm' =>
      hh₁.fds m' ((List.append_sublist_append_left p).mpr (List.sublist_cons_self m r) |>.subset hm')
    obtain ⟨h', hfinish, hwaiting, hnet', hsteps', haccepted'⟩ :=
      leads_finish (hvisit.inv hw.inv) hh₁.work hh₁.others hh₁.endTime hh₁.doClear
        (by simp [Host.sources, Host.delete, hp]) hfds
    refine ⟨h', [((c.1, .server c.2 reads write false), ev), ((c.1, .close c.2 false), .silent)],
      hvisit.trans hfinish, hwaiting, hnet'.trans (delete_net hconn), ?_,
      haccepted'.trans haccepted, by simp⟩
    rw [hsteps']
    have hdelete := congrArg (· ++ [((c.1, Network.Action.close c.2 false), Network.Event.silent)])
      hsteps₂
    exact hdelete.trans (List.append_assoc _ _ _)

/-- A connection was accepted, or there is a descriptor for it that fits into the sets. -/
def Acceptable (h : Host ι σ) (c : ι × ℕ) : Prop :=
  c ∉ h.accepted → ∃ s < fdSetsize, s ∉ h.opened

/-- What the server and its clients can do in the network while a client waits they can do under the
dispatcher. -/
theorem leads_step (hw : Waiting h) {i : ι} {a : Network.Action σ} (ha : a.Allowed allowed)
    (hnatural : a.Natural (h.net.party i)) (hc : Acceptable h (i, (h.net.party i).current))
    {net : Machine.Shared ι Network.Party σ} {ev : Network.Event}
    (hnext : (Network.net ι execute).next h.net (i, a) = some (net, ev)) :
    ∃ h' steps, Leads execute allowed h h' ∧ Waiting h' ∧ h'.net = net ∧
      h'.steps = h.steps ++ steps ∧ Acceptable h' (i, (h'.net.party i).current) ∧
      (∀ x ∈ steps, x.1.1 = i) ∧ (¬ ev.Calm → steps = [((i, a), ev)]) := by
  obtain ⟨p, hparty, hnet⟩ := Machine.interleave_next.mp hnext
  have hcurrent : (net.party i).current = (h.net.party i).current := by
    rw [hnet, Function.update_self]
    exact Network.current_of_natural hnatural hparty
  have hnetwork : (∀ k reads write ssl, a ≠ .server k reads write ssl) →
      (∀ k ssl, a ≠ .close k ssl) →
      ∃ h' steps, Leads execute allowed h h' ∧ Waiting h' ∧ h'.net = net ∧
        h'.steps = h.steps ++ steps ∧ Acceptable h' (i, (h'.net.party i).current) ∧
        (∀ x ∈ steps, x.1.1 = i) ∧ (¬ ev.Calm → steps = [((i, a), ev)]) := by
    intro hserver hclose
    have hstep : step execute h (.network i a) =
        some { h with net, steps := h.steps ++ [((i, a), ev)] } := by
      have hnet : h.netStep execute i a =
          some { h with net, steps := h.steps ++ [((i, a), ev)] } := by
        rw [Host.netStep, hnext]
        rfl
      rw [← hnet]
      cases a with
      | server k reads write ssl => exact absurd rfl (hserver k reads write ssl)
      | close k ssl => exact absurd rfl (hclose k ssl)
      | _ => rfl
    have hleads := Leads.single (a := .network i a) ha hstep
    refine ⟨_, _, hleads, ⟨hleads.inv hw.inv, hw.work, hw.endTime, hw.doClear, hw.fds⟩, rfl, rfl,
      ?_, by simp, fun _ => rfl⟩
    rw [hcurrent]
    exact hc
  cases a with
  | server k reads write ssl =>
    have hk : k = (h.net.party i).current := hnatural
    rw [← hk] at hc hcurrent
    obtain ⟨-, handled, -, -, -, -, -, -, hev⟩ := Network.step_server hparty
    have hcalm : ev.Calm := hev ▸ Network.calm_ofRan _ handled.ran
    -- the connection is accepted first
    obtain ⟨h₁, haccept, hw₁, hnet₁, hsteps₁, haccepted⟩ : ∃ h₁, Leads execute allowed h h₁ ∧
        Waiting h₁ ∧ h₁.net = h.net ∧ h₁.steps = h.steps ∧
        (i, k) ∈ h₁.accepted := by
      by_cases haccepted : (i, k) ∈ h.accepted
      · exact ⟨h, .refl h, hw, rfl, rfl, haccepted⟩
      · obtain ⟨s, hlt, hs⟩ := hc haccepted
        exact leads_accept hw haccepted hk.le hs hlt
    rw [← hnet₁] at hnext
    obtain ⟨h', steps, hserve, hw', hnet', hsteps', haccepted', howns⟩ :=
      leads_serve (c := (i, k)) hw₁ haccepted hnext
    refine ⟨h', steps, haccept.trans hserve, hw', hnet', hsteps₁ ▸ hsteps', ?_, howns,
      fun hnot => absurd hcalm hnot⟩
    rw [hnet', hcurrent]
    exact fun hnot => absurd (haccepted' ▸ haccepted) hnot
  | call q connect => exact absurd hnatural id
  | close k ssl => exact absurd hnatural id
  | _ => exact hnetwork (by simp) (by simp)

/-! ### Runs -/

variable {i : ι} {fd : ℕ} {s₀ : σ} {t : Host ι σ} {tr : List (Host.Action ι σ × Unit)}

/-- What a client and the server can do in a run of the network while the client waits they can do
under the dispatcher. -/
theorem leads_run (hw : Waiting h) (hc : Acceptable h (i, (h.net.party i).current))
    {tr : List ((ι × Network.Action σ) × Network.Event)} {net : Machine.Shared ι Network.Party σ}
    (hrun : (Network.net ι execute).RunOn
      (fun s a => a.1 = i ∧ a.2.Allowed allowed ∧ a.2.Natural (s.party i)) h.net tr net) :
    ∃ h' steps, Leads execute allowed h h' ∧ Waiting h' ∧ h'.net = net ∧
      h'.steps = h.steps ++ steps ∧ Acceptable h' (i, (h'.net.party i).current) ∧
      ∀ x ∈ steps, x.1.1 = i := by
  refine hrun.invariant (I := fun net => ∃ h' steps, Leads execute allowed h h' ∧ Waiting h' ∧
    h'.net = net ∧ h'.steps = h.steps ++ steps ∧ Acceptable h' (i, (h'.net.party i).current) ∧
    ∀ x ∈ steps, x.1.1 = i) ?_
    ⟨h, [], .refl h, hw, rfl, by simp, hc, by simp⟩
  rintro net ⟨_, a⟩ net' ev ⟨h₁, steps, hleads, hw₁, rfl, hsteps, hc₁, hown⟩ ⟨rfl, ha, hnatural⟩
    hnext
  obtain ⟨h₂, steps', hleads', hw₂, hnet, hsteps', hc₂, hown', -⟩ :=
    leads_step hw₁ ha hnatural hc₁ hnext
  refine ⟨h₂, steps ++ steps', hleads.trans hleads', hw₂, hnet, ?_, hc₂, ?_⟩
  · rw [hsteps', hsteps, List.append_assoc]
  · exact List.forall_mem_append.mpr ⟨hown, hown'⟩

end XmlRpcDispatch

end IvySync
