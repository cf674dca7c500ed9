import IvySync.Foundation.Handles
import IvySync.Xmlrpc.Progress

/-!
# The dispatcher

`XmlRpcDispatch`, with the server and its connections as the sources that it monitors.  A `Host` is
the server at its place in the network: the list of the sources, of which the loop of
`waitForAndProcessEvents` has `passed` some and has the `rest` before it, and the clients with their
connections.  What the calls of the operating system return is given with each step.

There is no step where the code does something that is not defined: where a descriptor does not fit
into an `fd_set`, and where `XmlRpcSource::close` finds another pointer than NULL behind
`delete this`.
-/

namespace IvySync

open Http XmlRpcSocket Network

/-- The types of events that a source can be monitored for. -/
inductive EventType
  | readableEvent
  | writableEvent
  | exception
  deriving DecidableEq, Repr

/-- All of them, in the order in which they are looked for. -/
def EventType.all : List EventType := [.readableEvent, .writableEvent, .exception]

/-- A source that is monitored: a connection of a client, or the server itself, its descriptor and
the events that it is monitored for. -/
structure MonitoredSource (ι : Type) where
  src : Option (ι × ℕ)
  fd : ℕ
  mask : Finset EventType

/-- Where `work` is: it has not been called, it waits in `select`, or it is in the loop over the
sources, with what `select` has left in the sets of descriptors and the largest descriptor. -/
inductive Work
  | outside
  | waiting
  | processing (sets : List (ℕ × EventType)) (maxFd : ℤ)
  deriving DecidableEq

/-- The end time: a negative number, zero, or a time. -/
inductive EndTime
  | never
  | exited
  | time
  deriving DecidableEq

/-- The server with its dispatcher in the network.  The last five fields are what has happened so
far; the server does not look at them. -/
structure Host (ι σ : Type) where
  passed : List (MonitoredSource ι) := []
  rest : List (MonitoredSource ι)
  work : Work := .outside
  endTime : EndTime := .never
  doClear : Bool := false
  net : Machine.Shared ι Party σ
  accepted : List (ι × ℕ) := []
  calls : List (Handles.Call ℕ) := []
  /-- The events that were in the sets of descriptors behind `select`, and those that were handled.
  They are the events that `select` has reported, but where it was interrupted all events that the
  sources are monitored for. -/
  signals : List (Option (ι × ℕ) × EventType) := []
  handled : List (Option (ι × ℕ) × EventType) := []
  steps : List ((ι × Network.Action σ) × Network.Event) := []

/-- What the calls of a handler return: a connection that is accepted, with its descriptor and
whether it can be made non-blocking, and what reading and writing a connection do. -/
structure Input (ι : Type) where
  accept : Option ((ι × ℕ) × ℕ × Bool) := none
  reads : List Read := []
  write : Write := (0, true)

/-- What may happen: `work` is called, with a timeout or without; `select` returns, with events or
because of a signal or an error; the loop over the sources takes a turn or ends, when the time is up
or not; `exit` or `clear` is called; and something happens in the network that is not the server's.
Where sources may be closed, `ssl` tells for which of them the pointer that `close` looks at is
another than NULL. -/
inductive Host.Action (ι σ : Type)
  | work (timeout : Bool)
  | select (ready : List (ℕ × EventType))
  | interrupted
  | selectError
  | visit (inputs : EventType → Input ι) (ssl : Bool)
  | finish (timeUp : Bool) (ssl : Option (ι × ℕ) → Bool)
  | exit
  | clear (ssl : Option (ι × ℕ) → Bool)
  | network (i : ι) (a : Network.Action σ)

variable {ι σ : Type} [DecidableEq ι] (execute : Name → σ → Option (Name × σ))

/-- The events that a connection of the server returns from its handler. -/
def XmlRpcServerConnection.mask (conn : XmlRpcServerConnection) : Finset EventType :=
  if conn.connectionState = .writeResponse then {.writableEvent} else {.readableEvent}

namespace Host

/-- All sources. -/
def sources (h : Host ι σ) : List (MonitoredSource ι) := h.passed ++ h.rest

/-- The end of the server of a connection. -/
def conn (h : Host ι σ) (c : ι × ℕ) : Option XmlRpcServerConnection :=
  ((h.net.party c.1).links c.2).conn

/-- The events that a source returns from its handler. -/
def mask (h : Host ι σ) : Option (ι × ℕ) → Finset EventType
  | none => {.readableEvent}
  | some c => ((h.conn c).map XmlRpcServerConnection.mask).getD ∅

/-- The descriptors that the operating system holds open. -/
def opened (h : Host ι σ) : Finset ℕ := h.calls.foldl Handles.effect ∅

/-- A step in the network. -/
def netStep (h : Host ι σ) (i : ι) (a : Network.Action σ) : Option (Host ι σ) :=
  ((Network.net ι execute).next h.net (i, a)).map fun r =>
    { h with net := r.1, steps := h.steps ++ [((i, a), r.2)] }

/-- A connection is at its end. -/
def delete (h : Host ι σ) (c : ι × ℕ) : Host ι σ :=
  { h with
    net := ⟨Function.update h.net.party c.1 ((h.net.party c.1).close c.2), h.net.shared⟩
    steps := h.steps ++ [((c.1, .close c.2 false), .silent)] }

end Host

namespace XmlRpcDispatch

/-- `addSource`: behind all other sources.  In a turn of the loop its iterator has gone on already,
so that the loop does not come to the new source if it was at the last one. -/
def addSource (h : Host ι σ) (src : Option (ι × ℕ)) (fd : ℕ) (mask : Finset EventType) :
    Host ι σ :=
  if h.passed ≠ [] ∧ h.rest = [] then { h with passed := h.passed ++ [⟨src, fd, mask⟩] }
  else { h with rest := h.rest ++ [⟨src, fd, mask⟩] }

/-- `removeSource`. -/
def removeSource (h : Host ι σ) (src : Option (ι × ℕ)) : Host ι σ :=
  if h.passed.any (·.src = src) then { h with passed := h.passed.eraseP (·.src = src) }
  else { h with rest := h.rest.eraseP (·.src = src) }

end XmlRpcDispatch

open XmlRpcDispatch

/-- What `XmlRpcSource::close` does to a source: a connection deletes itself, and its destructor
removes it from the sources. -/
def MonitoredSource.closed (h : Host ι σ) (m : MonitoredSource ι) : Host ι σ :=
  let h := { h with calls := h.calls ++ [.closed m.fd] }
  match m.src with
  | none => h
  | some c => removeSource (h.delete c) (some c)

/-- `XmlRpcSource::close`.  At its end, where a connection is deleted already, it looks at the
pointer `_ssl_ssl`, which was never set. -/
def MonitoredSource.close (h : Host ι σ) (m : MonitoredSource ι) (ssl : Bool) :
    Option (Host ι σ) :=
  if ssl then none else some (m.closed h)

/-- `XmlRpcServer::acceptConnection`. -/
def XmlRpcServer.acceptConnection (h : Host ι σ) (fd : ℕ) :
    Option ((ι × ℕ) × ℕ × Bool) → Host ι σ
  | none => { h with calls := h.calls ++ [.used fd] }
  | some (c, s, false) =>
    { h.delete c with
      accepted := c :: h.accepted
      calls := h.calls ++ [.used fd, .opened s, .closed s] }
  | some (c, s, true) =>
    addSource { h with
      accepted := c :: h.accepted
      calls := h.calls ++ [.used fd, .opened s] } (some c) s {.readableEvent}

/-- `handleEvent` of a source, with the mask that it returns. -/
def MonitoredSource.handleEvent (h : Host ι σ) (m : MonitoredSource ι) (input : Input ι) :
    Option (Host ι σ × Finset EventType) :=
  match m.src with
  | none => some (XmlRpcServer.acceptConnection h m.fd input.accept, {.readableEvent})
  | some c =>
    (h.netStep execute c.1 (.server c.2 input.reads input.write false)).map fun h =>
      ({ h with calls := h.calls ++ [.used m.fd] }, h.mask (some c))

namespace XmlRpcDispatch

/-- The calls of the handler of a source, one for each type of event, with the masks that they
return together.  In a run there is one call at most, as a source is monitored for one event
(`signalled_run`). -/
def handleEvents (m : MonitoredSource ι) (inputs : EventType → Input ι) :
    List EventType → Host ι σ → Option (Host ι σ × Finset EventType)
  | [], h => some (h, ∅)
  | e :: es, h =>
    (m.handleEvent execute h (inputs e)).bind fun (h, mask) =>
      (handleEvents m inputs es h).map fun (h, masks) => (h, mask ∪ masks)

/-- The sets of descriptors that `waitForAndProcessEvents` makes. -/
def fdSets (sources : List (MonitoredSource ι)) : List (ℕ × EventType) :=
  sources.flatMap fun m => (EventType.all.filter (· ∈ m.mask)).map (m.fd, ·)

/-- `FD_SETSIZE`. -/
def fdSetsize : ℕ := 1024

/-- The descriptors fit into the sets. -/
def Fit (sources : List (MonitoredSource ι)) : Prop := ∀ p ∈ fdSets sources, p.1 < fdSetsize

instance (sources : List (MonitoredSource ι)) : Decidable (Fit sources) :=
  inferInstanceAs (Decidable (∀ p ∈ fdSets sources, p.1 < fdSetsize))

/-- The largest descriptor in them. -/
def maxFd (sources : List (MonitoredSource ι)) : ℤ :=
  sources.foldl (fun n m => if m.mask ≠ ∅ ∧ n < m.fd then m.fd else n) (-1)

/-- The events that are signalled for a source. -/
def signalled (sets : List (ℕ × EventType)) (maxFd : ℤ) (m : MonitoredSource ι) : List EventType :=
  if m.fd ≤ maxFd then EventType.all.filter fun e => (m.fd, e) ∈ sets else []

/-- The events that are ready among those that a source is monitored for. -/
def due (ready : List (ℕ × EventType)) (m : MonitoredSource ι) : List EventType :=
  EventType.all.filter fun e => e ∈ m.mask ∧ (m.fd, e) ∈ ready

/-- The part of `waitForAndProcessEvents` in front of the loop, with what is left of the sets of
descriptors. -/
def select (h : Host ι σ) (ready : List (ℕ × EventType)) : Host ι σ :=
  { h with
    work := .processing ((fdSets h.rest).filter (· ∈ ready)) (maxFd h.rest)
    calls := h.calls ++ (fdSets h.rest).map fun p => .used p.1
    signals := h.signals ++ h.rest.flatMap fun m => (due ready m).map (m.src, ·) }

/-- The mask of the source of this turn. -/
def setMask (h : Host ι σ) (m : MonitoredSource ι) (mask : Finset EventType) : Host ι σ :=
  { h with passed := h.passed.map fun m' => if m'.src = m.src then { m' with mask } else m' }

/-- The source of this turn is not monitored any more. -/
def erase (h : Host ι σ) (m : MonitoredSource ι) : Host ι σ :=
  { h with passed := h.passed.eraseP (·.src = m.src) }

/-- One turn of the loop over the sources. -/
def visit (h : Host ι σ) (sets : List (ℕ × EventType)) (maxFd : ℤ) (m : MonitoredSource ι)
    (rest : List (MonitoredSource ι)) (inputs : EventType → Input ι) (ssl : Bool) :
    Option (Host ι σ) :=
  let events := signalled sets maxFd m
  (handleEvents execute m inputs events { h with passed := h.passed ++ [m], rest }).bind
    fun (h, newMask) =>
      let h := { h with handled := h.handled ++ events.map (m.src, ·) }
      if events = [] then some h
      else if newMask ≠ ∅ then some (setMask h m newMask)
      else m.close (erase h m) ssl

/-- All sources are closed. -/
def closeAll (h : Host ι σ) (ssl : Option (ι × ℕ) → Bool) : Option (Host ι σ) :=
  h.sources.foldlM (fun h m => m.close h (ssl m.src)) { h with passed := [], rest := [] }

/-- `work`, where it looks whether there are sources. -/
def loop (h : Host ι σ) : Host ι σ :=
  if h.rest = [] then { h with work := .outside } else { h with work := .waiting }

/-- `work`, where it looks at the end time. -/
def again (h : Host ι σ) (timeUp : Bool) : Host ι σ :=
  if h.endTime = .exited ∨ h.endTime = .time ∧ timeUp then { h with work := .outside } else loop h

/-- The part of `work` behind `waitForAndProcessEvents`. -/
def finish (h : Host ι σ) (timeUp : Bool) (ssl : Option (ι × ℕ) → Bool) : Option (Host ι σ) :=
  (if h.doClear then (closeAll h ssl).map fun h => { h with doClear := false } else some h).map
    fun h => again { h with passed := [], rest := h.sources } timeUp

/-- `clear`. -/
def clear (h : Host ι σ) (ssl : Option (ι × ℕ) → Bool) : Option (Host ι σ) :=
  match h.work with
  | .outside => closeAll h ssl
  | _ => some { h with doClear := true }

/-- One step. -/
def step (h : Host ι σ) : Host.Action ι σ → Option (Host ι σ)
  | .work timeout =>
    match h.work with
    | .outside =>
      some (loop { h with endTime := if timeout then .time else .never, doClear := false })
    | _ => none
  | .select ready =>
    if h.work = .waiting ∧ Fit h.rest then some (select h ready) else none
  | .interrupted =>
    -- the sets are as they were made
    if h.work = .waiting ∧ Fit h.rest then some (select h (fdSets h.rest)) else none
  | .selectError =>
    if h.work = .waiting ∧ Fit h.rest then some { h with work := .outside } else none
  | .visit inputs ssl =>
    match h.work, h.rest with
    | .processing sets maxFd, m :: rest => visit execute h sets maxFd m rest inputs ssl
    | _, _ => none
  | .finish timeUp ssl =>
    match h.work, h.rest with
    | .processing _ _, [] => finish h timeUp ssl
    | _, _ => none
  | .exit => some { h with endTime := .exited }
  | .clear ssl => clear h ssl
  | .network i a =>
    match a with
    | .server _ _ _ _ | .close _ _ => none
    | a => h.netStep execute i a

/-- The host of which the loop over the sources is walked through. -/
abbrev dispatcher : Machine (Host ι σ) (Host.Action ι σ) Unit where
  next h a := (step execute h a).map fun h => (h, ())

end XmlRpcDispatch

/-- What the operating system does: `accept` gives a connection that a client has made and that was
not accepted before, with a descriptor that is not open. -/
def Input.Allowed (h : Host ι σ) (input : Input ι) : Prop :=
  ∀ x ∈ input.accept, x.2.1 ∉ h.opened ∧ x.1 ∉ h.accepted ∧ x.1.2 ≤ (h.net.party x.1.1).current

instance (h : Host ι σ) (input : Input ι) : Decidable (input.Allowed h) :=
  inferInstanceAs (Decidable (∀ x ∈ input.accept,
    x.2.1 ∉ h.opened ∧ x.1 ∉ h.accepted ∧ x.1.2 ≤ (h.net.party x.1.1).current))

/-- What the operating system does, and what the clients ask for. -/
def Host.Action.Allowed (allowed : Message true → Prop) (h : Host ι σ) : Host.Action ι σ → Prop
  | .visit inputs _ => ∀ e, (inputs e).Allowed h
  | .network _ a => a.Allowed allowed
  | _ => True

instance (allowed : Message true → Prop) [DecidablePred allowed] (h : Host ι σ)
    (a : Host.Action ι σ) : Decidable (a.Allowed allowed h) :=
  match a with
  | .visit inputs _ => decidable_of_iff (∀ e ∈ EventType.all, (inputs e).Allowed h)
      ⟨fun h e => h e (by cases e <;> decide), fun h e _ => h e⟩
  | .network _ a => inferInstanceAs (Decidable (a.Allowed allowed))
  | .work _ | .select _ | .interrupted | .selectError | .finish _ _ | .exit | .clear _ =>
    .isTrue trivial

/-- The loop over the sources takes a turn. -/
def Host.Action.isVisit : Host.Action ι σ → Bool
  | .visit _ _ => true
  | _ => false

/-- The loop over the sources ends. -/
def Host.Action.isFinish : Host.Action ι σ → Bool
  | .finish _ _ => true
  | _ => false

/-- A server that listens, and that no client has called. -/
def Host.start (fd : ℕ) (s₀ : σ) : Host ι σ where
  rest := [⟨none, fd, {.readableEvent}⟩]
  net := Network.start ι s₀
  calls := [.opened fd]

end IvySync
