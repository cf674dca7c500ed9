import IvySync.Xmlrpc.Client

/-!
# Clients and the server

The clients of a server, with their connections, and the server, which handles the events of its
connections one at a time.  A connection carries bytes both ways, in any pieces and with any delay.
Reading and writing may fail on either side at any time.

Two things are not defined in the code, and there is no step for them: what the dispatcher of a
client does with a node of its list that was freed in the meantime (`XmlRpcClient.turn`), and what
`XmlRpcSource::close` does behind `delete this`, where it looks at a pointer of the source, unless
it finds NULL there.

Descriptors are not looked at here; that they fit into the sets of a dispatcher is taken for granted
for the clients, and for the server it is in `Dispatch`.

What a party does is seen as an `Event`.  `PartyInv` is what holds of a client and its connections
together with the events so far; `partyInv_step` is that every step keeps it.
-/

namespace IvySync

open Http XmlRpcSocket

namespace Network

/-! ### One client and its connections -/

/-- A connection: the end of the server, `none` when it is closed, and the bytes on their way to it
and from it. -/
structure Link where
  conn : Option XmlRpcServerConnection := some {}
  up : Name := []
  down : Name := []

/-- A client with its connections, of which the current one is the last that was opened, and the
body of the request that it executes. -/
structure Party where
  client : XmlRpcClient := {}
  current : ℕ := 0
  links : ℕ → Link := fun _ => {}
  calling : Name := []

/-- What is seen of a step. -/
inductive Event
  | silent
  /-- The client begins to send a request on a connection. -/
  | asked (k : ℕ) (request : Name)
  /-- The server executes a request that has come on a connection. -/
  | ran (k : ℕ) (request response : Name)
  /-- The execution ends, with the text of the response if there is one. -/
  | returned (response : Option Name)

/-- What is seen of an event for a connection of the server. -/
def Event.ofRan (k : ℕ) : Option (Name × Name) → Event
  | none => .silent
  | some (request, response) => .ran k request response

/-- What may happen: a call of `execute`; an event for the client; the end of its `work` without a
response, by an exception, for which the client is erased from its sources, or by an error of
`select`; an event for a connection of the server; the end of a connection without an event; and a
change of the state of the server that no request makes.  Where a connection ends, `ssl` tells
whether the pointer that `close` looks at is another than NULL. -/
inductive Action (σ : Type)
  | call (q : Message true) (connect : XmlRpcClient.Connect)
  | client (reads : List Read) (write : Write) (connect : XmlRpcClient.Connect)
  | failure (erased : Bool)
  | server (k : ℕ) (reads : List Read) (write : Write) (ssl : Bool)
  | close (k : ℕ) (ssl : Bool)
  | other (f : σ → σ)

variable {σ : Type}

/-- What is left of the bytes on their way. -/
def unread (reads left : List Read) (channel : Name) : Name :=
  bytes left ++ channel.drop (bytes reads).length

theorem append_unread {reads left : List Read} {channel d t : Name}
    (hreads : bytes reads <+: channel) (h : d ++ bytes reads = t ++ bytes left) :
    d ++ channel = t ++ unread reads left channel := by
  obtain ⟨rest, rfl⟩ := hreads
  rw [unread, List.drop_left, ← List.append_assoc, h, List.append_assoc]

/-- What becomes of a client behind `handleEvent`, with the connections that there are then. -/
def settle (p : Party) (links : ℕ → Link) (handled : XmlRpcClient.Handled) : Party × Event :=
  if handled.monitored = false then
    let (client, response) := handled.client.finish
    ({ p with client, links }, .returned response)
  else ({ p with client := handled.client, links }, .silent)

/-- The server closes a connection. -/
def Party.close (p : Party) (k : ℕ) : Party :=
  { p with links := Function.update p.links k { p.links k with conn := none } }

/-- One step. -/
def step (execute : Name → σ → Option (Name × σ)) (p : Party) (s : σ) :
    Action σ → Option (Party × σ × Event)
  | .call q connect =>
    match p.client.start q.text connect with
    | none => none
    | some (client, false) => some ({ p with client }, s, .returned none)
    | some (client, true) =>
      let current := if p.client.Connects then p.current + 1 else p.current
      some ({ p with client, current, calling := q.body }, s, .asked current q.body)
  | .client reads write connect =>
    let link := p.links p.current
    if p.client.executing = true ∧ bytes reads <+: link.down then
      (p.client.turn reads write connect).map fun (handled, left) =>
        let settled := settle p (Function.update p.links p.current
          { link with up := link.up ++ handled.sent, down := unread reads left link.down }) handled
        (settled.1, s, settled.2)
    else none
  | .failure erased =>
    if p.client.executing then
      let client :=
        if erased then { p.client with sources := p.client.sources.removeSource } else p.client
      let (client, response) := client.finish
      some ({ p with client }, s, .returned response)
    else none
  | .server k reads write ssl =>
    let link := p.links k
    match link.conn with
    | none => none
    | some conn =>
      if bytes reads <+: link.up then
        (conn.handleEvent execute s reads write).bind fun (handled, left) =>
          if handled.conn = none ∧ ssl = true then none
          else some ({ p with links := Function.update p.links k {
              conn := handled.conn
              up := unread reads left link.up
              down := link.down ++ handled.sent } },
            handled.server, .ofRan k handled.ran)
      else none
  | .close k ssl => if ssl then none else some (p.close k, s, .silent)
  | .other f => some (p, f s, .silent)

/-- What an event for a connection of the server does. -/
theorem step_server {execute : Name → σ → Option (Name × σ)} {p p' : Party} {s s' : σ} {e : Event}
    {k : ℕ} {reads : List Read} {write : Write} {ssl : Bool}
    (h : step execute p s (.server k reads write ssl) = some (p', s', e)) :
    ∃ conn handled left, (p.links k).conn = some conn ∧ bytes reads <+: (p.links k).up ∧
      conn.handleEvent execute s reads write = some (handled, left) ∧
      p' = { p with links := Function.update p.links k ⟨handled.conn,
        unread reads left (p.links k).up, (p.links k).down ++ handled.sent⟩ } ∧
      s' = handled.server ∧ e = .ofRan k handled.ran := by
  dsimp only [step] at h
  split at h
  · simp at h
  · next conn hconn =>
    split_ifs at h with hreads
    obtain ⟨⟨handled, left⟩, hrun, heq⟩ := Option.bind_eq_some_iff.mp h
    dsimp only at heq
    split_ifs at heq with hssl
    obtain ⟨rfl, rfl, rfl⟩ : _ ∧ _ ∧ _ := by simpa using heq
    exact ⟨conn, handled, left, hconn, hreads, hrun, rfl, rfl, rfl⟩

/-- What an event for the client does. -/
theorem step_client {execute : Name → σ → Option (Name × σ)} {p p' : Party} {s s' : σ} {e : Event}
    {reads : List Read} {write : Write} {connect : XmlRpcClient.Connect}
    (h : step execute p s (.client reads write connect) = some (p', s', e)) :
    p.client.executing = true ∧ bytes reads <+: (p.links p.current).down ∧
      ∃ handled left link, p.client.turn reads write connect = some (handled, left) ∧
        link = ⟨(p.links p.current).conn, (p.links p.current).up ++ handled.sent,
          unread reads left (p.links p.current).down⟩ ∧
        p' = (settle p (Function.update p.links p.current link) handled).1 ∧ s' = s ∧
        e = (settle p (Function.update p.links p.current link) handled).2 := by
  dsimp only [step] at h
  split_ifs at h with hguard
  obtain ⟨⟨handled, left⟩, hturn, heq⟩ := Option.map_eq_some_iff.mp h
  obtain ⟨rfl, rfl, rfl⟩ : _ ∧ _ ∧ _ := by simpa using heq
  exact ⟨hguard.1, hguard.2, handled, left, _, hturn, rfl, rfl, rfl, rfl⟩

/-- What the end of `work` without a response does. -/
theorem step_failure {execute : Name → σ → Option (Name × σ)} {p p' : Party} {s s' : σ} {e : Event}
    {erased : Bool} (h : step execute p s (.failure erased) = some (p', s', e)) :
    p.client.executing = true ∧ s' = s ∧ ∃ sources : OwnSource,
      p' = { p with client := { p.client with executing := false, response := [], sources } } ∧
      e = .returned (if p.client.connectionState = .idle then some p.client.response else none) := by
  dsimp only [step] at h
  split_ifs at h with hexecuting herased
  all_goals
    obtain ⟨rfl, rfl, rfl⟩ : _ ∧ _ ∧ _ := by simpa [XmlRpcClient.finish] using h
    exact ⟨hexecuting, rfl, _, rfl, rfl⟩

/-- What a call of `execute` does: it fails, or the client begins to send the request. -/
theorem step_call {execute : Name → σ → Option (Name × σ)} {p p' : Party} {s s' : σ} {e : Event}
    {q : Message true} {connect : XmlRpcClient.Connect}
    (h : step execute p s (.call q connect) = some (p', s', e)) :
    s' = s ∧ ∃ client,
      (p.client.start q.text connect = some (client, false) ∧ p' = { p with client } ∧
          e = .returned none ∨
        p.client.start q.text connect = some (client, true) ∧
          p' = { p with
            client
            current := if p.client.Connects then p.current + 1 else p.current
            calling := q.body } ∧
          e = .asked (if p.client.Connects then p.current + 1 else p.current) q.body) := by
  dsimp only [step] at h
  split at h
  · simp at h
  · next client hstart =>
    obtain ⟨rfl, rfl, rfl⟩ : _ ∧ _ ∧ _ := by simpa using h
    exact ⟨rfl, client, Or.inl ⟨hstart, rfl, rfl⟩⟩
  · next client hstart =>
    obtain ⟨rfl, rfl, rfl⟩ : _ ∧ _ ∧ _ := by simpa using h
    exact ⟨rfl, client, Or.inr ⟨hstart, rfl, rfl⟩⟩

/-- What the end of a connection without an event does. -/
theorem step_close {execute : Name → σ → Option (Name × σ)} {p p' : Party} {s s' : σ} {e : Event}
    {k : ℕ} {ssl : Bool} (h : step execute p s (.close k ssl) = some (p', s', e)) :
    ssl = false ∧ p' = p.close k ∧ s' = s ∧ e = .silent := by
  dsimp only [step] at h
  split_ifs at h with hssl
  obtain ⟨rfl, rfl, rfl⟩ : _ ∧ _ ∧ _ := by simpa using h
  exact ⟨by simpa using hssl, rfl, rfl, rfl⟩

/-! ### What is seen of a connection -/

/-- The requests that were sent on a connection. -/
def asked (k : ℕ) (es : List Event) : List Name := es.filterMap fun
  | .asked k' request => if k' = k then some request else none
  | _ => none

/-- The requests that were executed for a connection, with their responses. -/
def ran (k : ℕ) (es : List Event) : List (Name × Name) := es.filterMap fun
  | .ran k' request response => if k' = k then some (request, response) else none
  | _ => none

section Events

variable {k : ℕ} {es mid : List Event} {e : Event} {q r : Name}

/-- The client neither begins nor ends to execute a request. -/
def Event.Calm : Event → Prop
  | .silent | .ran _ _ _ => True
  | .asked _ _ | .returned _ => False

theorem asked_calm (h : e.Calm) : asked k (es ++ [e]) = asked k es := by
  cases e <;> simp_all [asked, Event.Calm]

theorem asked_silent : asked k (es ++ [.silent]) = asked k es := asked_calm (e := .silent) trivial

theorem asked_asked (k' : ℕ) : asked k (es ++ [.asked k' q]) =
    if k' = k then asked k es ++ [q] else asked k es := by
  unfold asked
  split_ifs with h <;> simp [h]

theorem asked_returned (response : Option Name) :
    asked k (es ++ [.returned response]) = asked k es := by
  simp [asked]

theorem calm_ofRan (k : ℕ) (o : Option (Name × Name)) : (Event.ofRan k o).Calm := by
  cases o <;> trivial

theorem ran_ofRan (k' : ℕ) (o : Option (Name × Name)) : ran k (es ++ [.ofRan k' o]) =
    if k' = k then ran k es ++ o.toList else ran k es := by
  unfold ran Event.ofRan
  split_ifs with h <;> cases o <;> simp [h]

theorem ran_append (h : ∀ k q r, e ≠ .ran k q r) : ran k (es ++ [e]) = ran k es := by
  cases e <;> simp_all [ran]

theorem ran_silent : ran k (es ++ [.silent]) = ran k es := ran_append (by simp)

/-- The client has begun to send a request on a connection, and since then there was `mid`. -/
def Since (k : ℕ) (q : Name) (es mid : List Event) : Prop :=
  (∃ before, es = before ++ .asked k q :: mid) ∧ ∀ e ∈ mid, e.Calm

theorem since_asked (k : ℕ) (q : Name) (es : List Event) : Since k q (es ++ [.asked k q]) [] :=
  ⟨⟨es, rfl⟩, by simp⟩

theorem Since.append (h : Since k q es mid) (he : e.Calm) : Since k q (es ++ [e]) (mid ++ [e]) := by
  obtain ⟨⟨before, rfl⟩, hmid⟩ := h
  refine ⟨⟨before, by simp⟩, ?_⟩
  intro e' he'
  rcases List.mem_append.mp he' with he' | he'
  · exact hmid e' he'
  · rwa [List.mem_singleton.mp he']

/-- Every response that was returned was made by an execution of the request, since it was sent. -/
def Answered (es : List Event) : Prop :=
  ∀ before response after, es = before ++ .returned (some response) :: after →
    ∃ k q mid, ∃ m : Message false, Since k q before mid ∧ .ran k q m.text ∈ mid ∧ m.body = response

theorem answered_append (h : Answered es) (he : ∀ response, e ≠ .returned (some response)) :
    Answered (es ++ [e]) := by
  intro before response after heq
  rcases List.eq_nil_or_concat after with rfl | ⟨after, e', rfl⟩
  · obtain ⟨rfl, heq'⟩ := List.append_inj' heq rfl
    exact absurd (List.cons.inj heq').1 (he response)
  · rw [List.concat_eq_append, ← List.cons_append, ← List.append_assoc] at heq
    obtain ⟨heq', -⟩ := List.append_inj' heq rfl
    exact h before response after heq'

theorem answered_returned (h : Answered es) (hsince : Since k q es mid) {m : Message false}
    (hran : .ran k q m.text ∈ mid) : Answered (es ++ [.returned (some m.body)]) := by
  intro before response after heq
  rcases List.eq_nil_or_concat after with rfl | ⟨after, e', rfl⟩
  · obtain ⟨rfl, heq'⟩ := List.append_inj' heq rfl
    obtain ⟨hbody, -⟩ := List.cons.inj heq'
    exact ⟨k, q, mid, m, hsince, hran, Option.some.inj (Event.returned.inj hbody)⟩
  · rw [List.concat_eq_append, ← List.cons_append, ← List.append_assoc] at heq
    obtain ⟨heq', -⟩ := List.append_inj' heq rfl
    exact h before response after heq'

end Events

/-! ### The end of the server -/

/-- How far the exchange on a connection has come. -/
inductive Stage
  /-- All requests have been executed and answered. -/
  | idle
  /-- `w` bytes of a request have been sent. -/
  | asking (q : Message true) (w : ℕ)
  /-- The request was executed, and `k` bytes of the response have been written. -/
  | answering (q : Message true) (r : Message false) (k : ℕ)

/-- What holds of a connection at a stage, with the requests that were sent on it and those that
were executed. -/
def Link.At (allowed : Message true → Prop) (link : Link) (asked : List Name)
    (ran : List (Name × Name)) : Stage → Prop
  | .idle =>
    ran.map Prod.fst = asked ∧ link.up = [] ∧
      ∀ conn ∈ link.conn, XmlRpcServerConnection.Fresh conn
  | .asking q w =>
    allowed q ∧ asked = ran.map Prod.fst ++ [q.body] ∧ w ≤ q.text.length ∧
      ∀ conn ∈ link.conn, ∃ d, XmlRpcServerConnection.Waiting q d conn ∧
        d ++ link.up = q.text.take w
  | .answering q r k =>
    (∃ before, ran = before ++ [(q.body, r.text)]) ∧ ran.map Prod.fst = asked ∧ link.up = [] ∧
      k ≤ r.text.length ∧ ∀ conn ∈ link.conn, XmlRpcServerConnection.Responding r.text k conn

/-- Every request that may be sent is answered with a message. -/
def Responds (execute : Name → σ → Option (Name × σ)) (allowed : Message true → Prop) : Prop :=
  ∀ q, allowed q → ∀ s response s', execute q.body s = some (response, s') →
    ∃ m : Message false, m.text = response

variable {allowed : Message true → Prop} {link : Link} {stage : Stage} {requests : List Name}
  {runs : List (Name × Name)} {execute : Name → σ → Option (Name × σ)} {s : σ}

/-- The server has executed the requests in the order in which they were sent, each at most once. -/
theorem Link.At.prefix (h : link.At allowed requests runs stage) :
    runs.map Prod.fst <+: requests := by
  cases stage with
  | idle => rw [h.1]
  | asking q w =>
    rw [h.2.1]
    exact List.prefix_append _ _
  | answering q r k => rw [h.2.1]

/-- What an event for the server leads to at each stage: the request that is executed with its
response, the bytes that are written, and the next stage. -/
def Stage.Next (executed : Option (Name × Name)) (sent : Name) (stage' : Stage) : Stage → Prop
  | .idle => executed = none ∧ sent = [] ∧ stage' = .idle
  | .asking q w =>
    executed = none ∧ sent = [] ∧ stage' = .asking q w ∨
      ∃ r k, w = q.text.length ∧ executed = some (q.body, r.text) ∧ sent = r.text.take k ∧
        stage' = .answering q r k
  | .answering q r k =>
    executed = none ∧ ∃ k', r.text.take k ++ sent = r.text.take k' ∧ stage' = .answering q r k'

/-- An event for the end of the server leads from stage to stage. -/
theorem Link.At.next (h : link.At allowed requests runs stage)
    (hresponds : Responds execute allowed) {conn : XmlRpcServerConnection}
    (hconn : link.conn = some conn) {reads left : List Read} (hreads : bytes reads <+: link.up)
    {write : Write} {handled : XmlRpcServerConnection.Handled σ}
    (hrun : conn.handleEvent execute s reads write = some (handled, left)) (down : Name) :
    ∃ stage', Stage.Next handled.ran handled.sent stage' stage ∧
      Link.At allowed ⟨handled.conn, unread reads left link.up, down⟩ requests
        (runs ++ handled.ran.toList) stage' := by
  -- a connection that waits for a request of which nothing is on its way
  have hidle : ∀ {conn : XmlRpcServerConnection}, XmlRpcServerConnection.Fresh conn →
      conn.handleEvent execute s reads write = some (handled, left) → link.up = [] →
      handled.ran = none ∧ handled.sent = [] ∧ unread reads left link.up = [] ∧
        ∀ conn' ∈ handled.conn, XmlRpcServerConnection.Fresh conn' := by
    intro conn hfresh hrun hup
    rw [hup, List.prefix_nil] at hreads
    have hprefix : [] ++ bytes reads <+: (default : Message true).text := by
      rw [hreads]
      exact List.nil_prefix
    rcases XmlRpcServerConnection.handleEvent_of_waiting execute (hfresh.waiting default) hprefix
        hrun with ⟨hran, hsent, -, ⟨hclosed, rfl, -⟩ | ⟨conn', p, hconn', hbytes, hwaiting⟩⟩ |
        ⟨response, -, -, htext, -⟩
    · exact ⟨hran, hsent, by simp [unread, hup, bytes], by simp [hclosed]⟩
    · rw [hreads] at hbytes
      obtain ⟨rfl, hleft⟩ := List.append_eq_nil_iff.mp hbytes.symm
      refine ⟨hran, hsent, by simp [unread, hup, hleft], ?_⟩
      rw [hconn']
      rintro _ ⟨⟩
      exact hwaiting.fresh
    · rw [hreads, List.append_nil] at htext
      exact absurd (List.append_eq_nil_iff.mp htext.symm).1 (default : Message true).text_ne_nil
  cases stage with
  | idle =>
    obtain ⟨hasked, hup, hfresh⟩ := h
    obtain ⟨hran, hsent, hup', hfresh'⟩ := hidle (hfresh conn hconn) hrun hup
    rw [hran, hsent]
    exact ⟨.idle, ⟨rfl, rfl, rfl⟩, by simpa using hasked, hup', hfresh'⟩
  | asking q w =>
    obtain ⟨hallowed, hasked, hw, hwaiting⟩ := h
    obtain ⟨d, hwaiting, hd⟩ := hwaiting conn hconn
    have hprefix : d ++ bytes reads <+: q.text :=
      ((List.prefix_append_right_inj d).mpr hreads).trans (hd ▸ List.take_prefix w q.text)
    rcases XmlRpcServerConnection.handleEvent_of_waiting execute hwaiting hprefix hrun with
      ⟨hran, hsent, -, hconn'⟩ | ⟨response, hexecute, hran, htext, hresponding⟩
    · rw [hran, hsent]
      refine ⟨.asking q w, Or.inl ⟨rfl, rfl, rfl⟩, hallowed, by simpa using hasked, hw, ?_⟩
      rcases hconn' with ⟨hclosed, -⟩ | ⟨conn', p, hconn', hbytes, hwaiting'⟩
      · simp [hclosed]
      · rw [hconn']
        rintro _ ⟨⟩
        refine ⟨d ++ p, hwaiting', ?_⟩
        have hmore : d ++ link.up = d ++ p ++ unread reads left link.up :=
          append_unread hreads (by rw [hbytes, List.append_assoc])
        rw [← hd, hmore]
    · obtain ⟨r, rfl⟩ := hresponds q hallowed s response handled.server hexecute
      obtain ⟨k, hk, hsent, hconn'⟩ := hresponding r.text_ne_nil r.length_text
      have hall : q.text ++ unread reads left link.up = q.text.take w := by
        rw [← hd, append_unread hreads htext]
      have hlength := congrArg List.length hall
      simp only [List.length_append, List.length_take] at hlength
      have hw' : w = q.text.length := by omega
      have hnil : unread reads left link.up = [] := List.eq_nil_of_length_eq_zero (by omega)
      rw [hran, hsent, hw']
      exact ⟨.answering q r k, Or.inr ⟨r, k, rfl, rfl, rfl, rfl⟩, ⟨runs, rfl⟩, by simp [hasked],
        hnil, hk, hconn'⟩
  | answering q r k =>
    obtain ⟨hbefore, hasked, hup, hk, hresponding⟩ := h
    rcases hresponding conn hconn with hwriting | ⟨rfl, hfresh⟩
    · obtain ⟨rfl, hran, -, k', hk', hsent, hconn'⟩ :=
        XmlRpcServerConnection.handleEvent_of_writing execute r.length_text hwriting hrun
      rw [hran]
      refine ⟨.answering q r k', ⟨rfl, k', hsent, rfl⟩, ?_⟩
      rw [hup, List.prefix_nil] at hreads
      exact ⟨by simpa using hbefore, by simpa using hasked, by simp [unread, hup, hreads], hk',
        hconn'⟩
    · obtain ⟨hran, hsent, hup', hfresh'⟩ := hidle hfresh hrun hup
      rw [hran, hsent]
      refine ⟨.answering q r r.text.length, ⟨rfl, _, List.append_nil _, rfl⟩, ?_⟩
      exact ⟨by simpa using hbefore, by simpa using hasked, hup', le_rfl,
        fun conn' hconn' => Or.inr ⟨rfl, hfresh' conn' hconn'⟩⟩

/-! ### The end of the client -/

/-- Where a client is that executes a request, and what its connection is then. -/
inductive Engaged (allowed : Message true → Prop) (es : List Event) (client : XmlRpcClient)
    (link : Link) (k : ℕ) (calling : Name) : Prop
  /-- It has written a part of the request. -/
  | writing (q : Message true) (mid : List Event)
      (hstate : client.connectionState = .writeRequest) (hrequest : client.request = q.text)
      (hcalling : calling = q.body) (hlt : client.bytesWritten < q.text.length)
      (hlink : link.At allowed (asked k es) (ran k es) (.asking q client.bytesWritten))
      (hdown : link.down = []) (hsince : Since k q.body es mid)
  /-- It has written the request, which has not been executed. -/
  | waiting (q : Message true) (mid : List Event)
      (hexpecting : ∀ m, XmlRpcClient.Expecting m [] client) (hrequest : client.request = q.text)
      (hcalling : calling = q.body)
      (hlink : link.At allowed (asked k es) (ran k es) (.asking q q.text.length))
      (hdown : link.down = []) (hsince : Since k q.body es mid)
  /-- The request has been executed, and `d` of the response is there. -/
  | reading (q : Message true) (m : Message false) (d : Name) (n : ℕ) (mid : List Event)
      (hexpecting : XmlRpcClient.Expecting m d client) (hrequest : client.request = q.text)
      (hcalling : calling = q.body) (hallowed : allowed q)
      (hlink : link.At allowed (asked k es) (ran k es) (.answering q m n))
      (hdown : d ++ link.down = m.text.take n) (hsince : Since k q.body es mid)
      (hran : .ran k q.body m.text ∈ mid)

/-- What holds of a client and its connections after some events. -/
structure PartyInv (allowed : Message true → Prop) (es : List Event) (p : Party) : Prop where
  answered : Answered es
  safe : ∀ k, ∃ stage, (p.links k).At allowed (asked k es) (ran k es) stage
  unused : ∀ k, p.current < k →
    (p.links k).At allowed (asked k es) (ran k es) .idle ∧ (p.links k).down = []
  engaged : p.client.executing = true →
    Engaged allowed es p.client (p.links p.current) p.current p.calling
  free : p.client.executing = false → ¬ p.client.Connects →
    (p.links p.current).At allowed (asked p.current es) (ran p.current es) .idle ∧
      (p.links p.current).down = []
  node : p.client.executing = true → p.client.sources.node ≠ none
  first : p.client.executing = true → p.client.sendAttempts = 0

variable {p p' : Party} {es : List Event} {e : Event} {s' : σ}

/-- A client that has not done anything. -/
theorem partyInv_new : PartyInv allowed [] {} where
  answered := by
    intro before response after h
    simp at h
  safe k := ⟨.idle, rfl, rfl, by rintro _ ⟨⟩; exact XmlRpcServerConnection.fresh_new⟩
  unused k _ := ⟨⟨rfl, rfl, by rintro _ ⟨⟩; exact XmlRpcServerConnection.fresh_new⟩, rfl⟩
  engaged h := by simp at h
  free _ h := absurd (Or.inl (by simp)) h
  node h := by simp at h
  first h := by simp at h

/-- The bytes on the way to the client are not the server's. -/
theorem Link.At.down (h : link.At allowed requests runs stage) (down : Name) :
    Link.At allowed ⟨link.conn, link.up, down⟩ requests runs stage := by
  cases stage <;> exact h

/-- A new request on a connection that has nothing left to do. -/
theorem Link.At.ask (h : link.At allowed requests runs .idle) {q : Message true} (hq : allowed q) :
    link.At allowed (requests ++ [q.body]) runs (.asking q 0) := by
  obtain ⟨hasked, hup, hfresh⟩ := h
  exact ⟨hq, by rw [hasked], Nat.zero_le _,
    fun conn hconn => ⟨[], (hfresh conn hconn).waiting q, hup⟩⟩

/-- More of the request is sent. -/
theorem Link.At.write {q : Message true} {w w' : ℕ}
    (h : link.At allowed requests runs (.asking q w)) {sent : Name}
    (hsent : q.text.take w ++ sent = q.text.take w') (hw' : w' ≤ q.text.length) (down : Name) :
    Link.At allowed ⟨link.conn, link.up ++ sent, down⟩ requests runs (.asking q w') := by
  obtain ⟨hallowed, hasked, -, hwaiting⟩ := h
  refine ⟨hallowed, hasked, hw', ?_⟩
  intro conn hconn
  obtain ⟨d, hd, htext⟩ := hwaiting conn hconn
  exact ⟨d, hd, by rw [← List.append_assoc, htext, hsent]⟩

/-- When the client has got the whole response, there is nothing left to do. -/
theorem Link.At.idle {q : Message true} {r : Message false} {k : ℕ}
    (h : link.At allowed requests runs (.answering q r k)) {d : Name}
    (hdown : d ++ link.down = r.text.take k) {reads left : List Read}
    (hreads : bytes reads <+: link.down) (hdone : d ++ bytes reads = r.text ++ bytes left) :
    link.At allowed requests runs .idle ∧ unread reads left link.down = [] := by
  obtain ⟨-, hasked, hup, hk, hresponding⟩ := h
  have hall : r.text ++ unread reads left link.down = r.text.take k := by
    rw [← hdown, append_unread hreads hdone]
  have hlength := congrArg List.length hall
  simp only [List.length_append, List.length_take] at hlength
  refine ⟨⟨hasked, hup, ?_⟩, List.eq_nil_of_length_eq_zero (by omega)⟩
  intro conn hconn
  rcases hresponding conn hconn with hwriting | ⟨-, hfresh⟩
  · have hlt := hwriting.lt
    omega
  · exact hfresh

/-! ### One step -/

/-- A request is sent from its first byte on, on a connection that has nothing left to do. -/
theorem PartyInv.ask {client : XmlRpcClient} {links : ℕ → Link} {k : ℕ} {q : Message true}
    (hanswered : Answered es)
    (hsafe : ∀ j, ∃ stage, (links j).At allowed (asked j es) (ran j es) stage)
    (hunused : ∀ j, k < j →
      (links j).At allowed (asked j es) (ran j es) .idle ∧ (links j).down = [])
    (hidle : (links k).At allowed (asked k es) (ran k es) .idle) (hdown : (links k).down = [])
    (hq : allowed q) (hexecuting : client.executing = true)
    (hstate : client.connectionState = .writeRequest) (hrequest : client.request = q.text)
    (hwritten : client.bytesWritten = 0) (hattempts : client.sendAttempts = 0)
    (hnode : client.sources.node ≠ none) :
    PartyInv allowed (es ++ [.asked k q.body]) ⟨client, k, links, q.body⟩ := by
  have hran : ∀ j, ran j (es ++ [.asked k q.body]) = ran j es := fun j => ran_append (by simp)
  have hlink : (links k).At allowed (asked k (es ++ [.asked k q.body]))
      (ran k (es ++ [.asked k q.body])) (.asking q 0) := by
    rw [asked_asked, if_pos rfl, hran]
    exact hidle.ask hq
  constructor
  · exact answered_append hanswered (by simp)
  · intro j
    rcases eq_or_ne k j with rfl | hj
    · exact ⟨_, hlink⟩
    · rw [asked_asked, if_neg hj, hran]
      exact hsafe j
  · intro j hj
    rw [asked_asked, if_neg (ne_of_lt hj), hran]
    exact hunused j hj
  · intro _
    refine .writing q [] hstate hrequest rfl ?_ ?_ hdown (since_asked k q.body es)
    · rw [hwritten]
      exact List.length_pos_of_ne_nil q.text_ne_nil
    · rw [hwritten]
      exact hlink
  · intro h
    simp [hexecuting] at h
  · exact fun _ => hnode
  · exact fun _ => hattempts

/-- The execution of a request ends. -/
theorem PartyInv.return {client : XmlRpcClient} {links : ℕ → Link} {k : ℕ} {calling : Name}
    {response : Option Name} (hanswered : Answered (es ++ [.returned response]))
    (hsafe : ∀ j, ∃ stage, (links j).At allowed (asked j es) (ran j es) stage)
    (hunused : ∀ j, k < j →
      (links j).At allowed (asked j es) (ran j es) .idle ∧ (links j).down = [])
    (hexecuting : client.executing = false)
    (hfree : client.connectionState = .idle →
      (links k).At allowed (asked k es) (ran k es) .idle ∧ (links k).down = []) :
    PartyInv allowed (es ++ [.returned response]) ⟨client, k, links, calling⟩ := by
  have hran : ∀ j, ran j (es ++ [.returned response]) = ran j es := fun j => ran_append (by simp)
  constructor
  · exact hanswered
  · intro j
    rw [asked_returned, hran]
    exact hsafe j
  · intro j hj
    rw [asked_returned, hran]
    exact hunused j hj
  · intro h
    simp [hexecuting] at h
  · intro _ hconnects
    rw [asked_returned, hran]
    exact hfree (by simpa using (not_or.mp hconnects).1)
  · intro h
    simp [hexecuting] at h
  · intro h
    simp [hexecuting] at h

/-- The client begins to execute a request. -/
theorem partyInv_call (h : PartyInv allowed es p) {q : Message true} (hq : allowed q)
    {connect : XmlRpcClient.Connect}
    (hstep : step execute p s (.call q connect) = some (p', s', e)) :
    PartyInv allowed (es ++ [e]) p' := by
  obtain ⟨-, client, ⟨hstart, rfl, rfl⟩ | ⟨hstart, rfl, rfl⟩⟩ := step_call hstep
  · obtain ⟨-, hfailed, -⟩ := XmlRpcClient.start_spec hstart
    obtain ⟨hexecuting', hstate⟩ := hfailed rfl
    exact .return (answered_append h.answered (by simp)) h.safe h.unused hexecuting'
      (by simp [hstate])
  · obtain ⟨hexecuting, -, hstarted⟩ := XmlRpcClient.start_spec hstart
    obtain ⟨hexecuting', hstate, hrequest, hwritten, hattempts, hnode⟩ := hstarted rfl
    split_ifs with hconnects
    · obtain ⟨hidle, hdown⟩ := h.unused (p.current + 1) (Nat.lt_succ_self _)
      exact .ask h.answered h.safe (fun j hj => h.unused j (by omega)) hidle hdown hq hexecuting'
        hstate hrequest hwritten hattempts hnode
    · obtain ⟨hidle, hdown⟩ := h.free hexecuting hconnects
      exact .ask h.answered h.safe h.unused hidle hdown hq hexecuting' hstate hrequest hwritten
        hattempts hnode

section Client

variable {handled : XmlRpcClient.Handled} {q : Message true}

/-- Another state of the current connection. -/
theorem PartyInv.update (h : PartyInv allowed es p)
    (hlink : link.At allowed (asked p.current es) (ran p.current es) stage) :
    (∀ j, ∃ stage, (Function.update p.links p.current link j).At allowed (asked j es) (ran j es)
      stage) ∧
    ∀ j, p.current < j →
      (Function.update p.links p.current link j).At allowed (asked j es) (ran j es) .idle ∧
        (Function.update p.links p.current link j).down = [] := by
  constructor
  · intro j
    rcases eq_or_ne j p.current with rfl | hj
    · rw [Function.update_self]
      exact ⟨stage, hlink⟩
    · rw [Function.update_of_ne hj]
      exact h.safe j
  · intro j hj
    rw [Function.update_of_ne (ne_of_gt hj)]
    exact h.unused j hj

/-- The execution ends without a response. -/
theorem PartyInv.failed (h : PartyInv allowed es p)
    (hlink : link.At allowed (asked p.current es) (ran p.current es) stage)
    (hmonitored : handled.monitored = false) (hstate : handled.client.connectionState ≠ .idle) :
    PartyInv allowed (es ++ [(settle p (Function.update p.links p.current link) handled).2])
      (settle p (Function.update p.links p.current link) handled).1 := by
  obtain ⟨hsafe, hunused⟩ := h.update hlink
  unfold settle
  rw [if_pos hmonitored]
  dsimp only [XmlRpcClient.finish]
  rw [if_neg hstate]
  exact .return (answered_append h.answered (by simp)) hsafe hunused rfl fun hidle =>
    absurd hidle hstate

/-- The execution goes on. -/
theorem PartyInv.engage (h : PartyInv allowed es p)
    (hlink : link.At allowed (asked p.current es) (ran p.current es) stage)
    (hexecuting : p.client.executing = true) (hsame : XmlRpcClient.Same p.client handled.client)
    (hmonitored : handled.monitored = true)
    (hengaged : Engaged allowed (es ++ [.silent]) handled.client link p.current p.calling) :
    PartyInv allowed (es ++ [(settle p (Function.update p.links p.current link) handled).2])
      (settle p (Function.update p.links p.current link) handled).1 := by
  obtain ⟨hsafe, hunused⟩ := h.update hlink
  have hexecuting' : handled.client.executing = true := hsame.executing.trans hexecuting
  unfold settle
  rw [if_neg (by simp [hmonitored])]
  constructor
  · exact answered_append h.answered (by simp)
  · intro j
    rw [asked_silent, ran_silent]
    exact hsafe j
  · intro j hj
    rw [asked_silent, ran_silent]
    exact hunused j hj
  · intro _
    dsimp only
    rwa [Function.update_self]
  · intro hfree
    simp [hexecuting'] at hfree
  · intro _
    rw [hsame.sources]
    exact h.node hexecuting
  · intro _
    rw [hsame.sendAttempts]
    exact h.first hexecuting

/-- The client has written its request, and nothing of a response is on its way. -/
theorem PartyInv.gotNothing (h : PartyInv allowed es p) (hexecuting : p.client.executing = true)
    (hlink : link.At allowed (asked p.current es) (ran p.current es) (.asking q q.text.length))
    {reads left : List Read} (hreads : bytes reads = []) (hdown : bytes left = [] → link.down = [])
    (hrequest : p.client.request = q.text) (hcalling : p.calling = q.body) {mid : List Event}
    (hsince : Since p.current q.body es mid) {m : Message false}
    (hgot : XmlRpcClient.Got m [] p.client reads handled left) :
    PartyInv allowed (es ++ [(settle p (Function.update p.links p.current link) handled).2])
      (settle p (Function.update p.links p.current link) handled).1 := by
  cases hgot with
  | more n hbytes hexpecting hsame hmonitored =>
    rw [hreads] at hbytes
    obtain ⟨rfl, hleft⟩ := List.append_eq_nil_iff.mp hbytes.symm
    refine h.engage hlink hexecuting hsame hmonitored ?_
    refine .waiting q (mid ++ [.silent]) hexpecting.any (hsame.request.trans hrequest) hcalling ?_
      (hdown hleft) (hsince.append (e := .silent) trivial)
    rwa [asked_silent, ran_silent]
  | done hbytes =>
    rw [hreads] at hbytes
    exact absurd (List.append_eq_nil_iff.mp hbytes.symm).1 m.text_ne_nil
  | failed _ hstate hmonitored => exact h.failed hlink hmonitored hstate

/-- An event for the client. -/
theorem partyInv_client (h : PartyInv allowed es p) {reads : List Read} {write : Write}
    {connect : XmlRpcClient.Connect}
    (hstep : step execute p s (.client reads write connect) = some (p', s', e)) :
    PartyInv allowed (es ++ [e]) p' := by
  obtain ⟨hexecuting, hreads, handled, left, _, hturn, rfl, rfl, -, rfl⟩ := step_client hstep
  cases h.engaged hexecuting with
  | writing q mid hstate hrequest hcalling hlt hlink hdown hsince =>
    rw [hdown, List.prefix_nil] at hreads
    obtain ⟨w, hsent, hwrote⟩ :=
      XmlRpcClient.turn_of_writing hstate hrequest hlt.le hreads hturn
    cases hwrote with
    | more w hlt' hleft hstate' hwritten hsame hmonitored =>
      have hlink' := hlink.write hsent hlt'.le
      refine h.engage (hlink' _) hexecuting hsame hmonitored ?_
      refine .writing q (mid ++ [.silent]) hstate' (hsame.request.trans hrequest) hcalling
        (by rwa [hwritten]) ?_ (by simp [unread, hdown, hleft, hreads])
        (hsince.append (e := .silent) trivial)
      rw [asked_silent, ran_silent, hwritten]
      exact hlink' _
    | failed w hle hstate' hmonitored => exact h.failed (hlink.write hsent hle _) hmonitored hstate'
    | done m hgot =>
      exact h.gotNothing hexecuting (hlink.write hsent le_rfl _) hreads
        (fun hleft => by simp [unread, hdown, hleft]) hrequest hcalling hsince hgot
  | waiting q mid hexpecting hrequest hcalling hlink hdown hsince =>
    rw [hdown, List.prefix_nil] at hreads
    obtain ⟨hsent, hgot⟩ := XmlRpcClient.turn_of_expecting (hexpecting default)
      (by rw [hreads]; exact List.nil_prefix) hturn
    rw [hsent, List.append_nil]
    exact h.gotNothing hexecuting (hlink.down _) hreads
      (fun hleft => by simp [unread, hdown, hleft]) hrequest hcalling hsince hgot
  | reading q m d n mid hexpecting hrequest hcalling hallowed hlink hdown hsince hran =>
    have hprefix : d ++ bytes reads <+: m.text :=
      ((List.prefix_append_right_inj d).mpr hreads).trans (hdown ▸ List.take_prefix n m.text)
    obtain ⟨hsent, hgot⟩ := XmlRpcClient.turn_of_expecting hexpecting hprefix hturn
    rw [hsent, List.append_nil]
    cases hgot with
    | more x hbytes hexpecting' hsame hmonitored =>
      refine h.engage (hlink.down _) hexecuting hsame hmonitored ?_
      refine .reading q m (d ++ x) n (mid ++ [.silent]) hexpecting' (hsame.request.trans hrequest)
        hcalling hallowed ?_ ?_ (hsince.append (e := .silent) trivial) (List.mem_append_left _ hran)
      · rw [asked_silent, ran_silent]
        exact hlink.down _
      · have hmore : d ++ (p.links p.current).down =
            d ++ x ++ unread reads left (p.links p.current).down :=
          append_unread hreads (by rw [hbytes, List.append_assoc])
        rw [← hdown, hmore]
    | done hbytes hstate hresponse hmonitored =>
      obtain ⟨hidle, hunread⟩ := hlink.idle hdown hreads hbytes
      obtain ⟨hsafe, hunused⟩ := h.update (hidle.down (unread reads left _))
      unfold settle
      rw [if_pos hmonitored]
      dsimp only [XmlRpcClient.finish]
      rw [if_pos hstate, hresponse]
      refine .return (answered_returned h.answered hsince hran) hsafe hunused rfl fun _ => ?_
      rw [Function.update_self]
      exact ⟨hidle.down _, hunread⟩
    | failed _ hstate hmonitored => exact h.failed (hlink.down _) hmonitored hstate

end Client

/-- While the client writes, a part of the request is missing. -/
theorem Engaged.request_lt {client : XmlRpcClient} {k : ℕ} {calling : Name}
    (h : Engaged allowed es client link k calling)
    (hstate : client.connectionState = .writeRequest) :
    client.bytesWritten < client.request.length ∧ client.request.length < 2 ^ 31 := by
  cases h with
  | writing q _ _ hrequest _ hlt =>
    rw [hrequest]
    exact ⟨hlt, q.length_text⟩
  | waiting _ _ h => exact absurd hstate (h default).state_ne
  | reading _ _ _ _ _ h => exact absurd hstate h.state_ne

theorem Engaged.state_ne {client : XmlRpcClient} {k : ℕ} {calling : Name}
    (h : Engaged allowed es client link k calling) : client.connectionState ≠ .idle := by
  have hexpecting : ∀ {m d}, XmlRpcClient.Expecting m d client →
      client.connectionState ≠ .idle := by
    intro m d h
    cases h with
    | header _ hstate _ => simp [hstate]
    | response _ _ hin _ => simp [hin.state]
  cases h with
  | writing _ _ hstate => simp [hstate]
  | waiting _ _ h => exact hexpecting (h default)
  | reading _ _ _ _ _ h => exact hexpecting h

/-- The end of `work` without a response. -/
theorem partyInv_failure (h : PartyInv allowed es p) {erased : Bool}
    (hstep : step execute p s (.failure erased) = some (p', s', e)) :
    PartyInv allowed (es ++ [e]) p' := by
  obtain ⟨hexecuting, -, sources, rfl, rfl⟩ := step_failure hstep
  have hstate := (h.engaged hexecuting).state_ne
  rw [if_neg hstate]
  exact .return (answered_append h.answered (by simp)) h.safe h.unused rfl fun hidle =>
    absurd hidle hstate

/-- An event for a connection of the server. -/
theorem partyInv_server (h : PartyInv allowed es p) (hresponds : Responds execute allowed) {k : ℕ}
    {reads : List Read} {write : Write} {ssl : Bool}
    (hstep : step execute p s (.server k reads write ssl) = some (p', s', e)) :
    PartyInv allowed (es ++ [e]) p' := by
  obtain ⟨conn, handled, left, hconn, hreads, hrun, rfl, rfl, rfl⟩ := step_server hstep
  set link : Link := ⟨handled.conn, unread reads left (p.links k).up,
    (p.links k).down ++ handled.sent⟩ with hlink
  have hasked : ∀ j, asked j (es ++ [.ofRan k handled.ran]) = asked j es := fun j =>
    asked_calm (calm_ofRan _ _)
  have hnext : ∀ {stage}, (p.links k).At allowed (asked k es) (ran k es) stage →
      ∃ stage', Stage.Next handled.ran handled.sent stage' stage ∧
        link.At allowed (asked k (es ++ [.ofRan k handled.ran]))
          (ran k (es ++ [.ofRan k handled.ran])) stage' := by
    intro stage hat
    rw [hasked, ran_ofRan, if_pos rfl]
    exact hat.next hresponds hconn hreads hrun _
  have hnextIdle : (p.links k).At allowed (asked k es) (ran k es) .idle → (p.links k).down = [] →
      link.At allowed (asked k (es ++ [.ofRan k handled.ran]))
        (ran k (es ++ [.ofRan k handled.ran])) .idle ∧ link.down = [] := by
    intro hat hdown
    obtain ⟨stage', ⟨-, hsent, rfl⟩, hat'⟩ := hnext hat
    exact ⟨hat', by simp [hlink, hdown, hsent]⟩
  constructor
  · exact answered_append h.answered fun response heq => by
      have hcalm := calm_ofRan k handled.ran
      rw [heq] at hcalm
      exact hcalm
  · intro j
    dsimp only
    rcases eq_or_ne j k with rfl | hj
    · obtain ⟨stage, hat⟩ := h.safe j
      obtain ⟨stage', -, hat'⟩ := hnext hat
      rw [Function.update_self]
      exact ⟨stage', hat'⟩
    · rw [Function.update_of_ne hj, hasked, ran_ofRan, if_neg (Ne.symm hj)]
      exact h.safe j
  · intro j hj
    dsimp only at hj ⊢
    rcases eq_or_ne j k with rfl | hjk
    · obtain ⟨hat, hdown⟩ := h.unused j hj
      rw [Function.update_self]
      exact hnextIdle hat hdown
    · rw [Function.update_of_ne hjk, hasked, ran_ofRan, if_neg (Ne.symm hjk)]
      exact h.unused j hj
  · intro hexecuting
    dsimp only at hexecuting ⊢
    have hengaged := h.engaged hexecuting
    rcases eq_or_ne p.current k with rfl | hk
    · rw [Function.update_self]
      cases hengaged with
      | writing q mid hstate hrequest hcalling hlt hat hdown hsince =>
        have hsince' := hsince.append (calm_ofRan p.current handled.ran)
        obtain ⟨stage', ⟨-, hsent, rfl⟩ | ⟨r, n, hw, -⟩, hat'⟩ := hnext hat
        · exact .writing q _ hstate hrequest hcalling hlt hat' (by simp [hlink, hdown, hsent])
            hsince'
        · omega
      | waiting q mid hexpecting hrequest hcalling hat hdown hsince =>
        have hsince' := hsince.append (calm_ofRan p.current handled.ran)
        obtain ⟨stage', ⟨-, hsent, rfl⟩ | ⟨r, n, -, hran, hsent, rfl⟩, hat'⟩ := hnext hat
        · exact .waiting q _ hexpecting hrequest hcalling hat' (by simp [hlink, hdown, hsent])
            hsince'
        · refine .reading q r [] n _ (hexpecting r) hrequest hcalling hat.1 hat' ?_ hsince' ?_
          · simp [hlink, hdown, hsent]
          · simp [hran, Event.ofRan]
      | reading q m d n mid hexpecting hrequest hcalling hallowed hat hdown hsince hran =>
        have hsince' := hsince.append (calm_ofRan p.current handled.ran)
        obtain ⟨stage', ⟨-, n', hsent, rfl⟩, hat'⟩ := hnext hat
        refine .reading q m d n' _ hexpecting hrequest hcalling hallowed hat' ?_ hsince'
          (List.mem_append_left _ hran)
        rw [hlink, ← List.append_assoc, hdown, hsent]
    · rw [Function.update_of_ne hk]
      have hran' : ran p.current (es ++ [.ofRan k handled.ran]) = ran p.current es := by
        rw [ran_ofRan, if_neg (Ne.symm hk)]
      cases hengaged with
      | writing q mid hstate hrequest hcalling hlt hat hdown hsince =>
        exact .writing q _ hstate hrequest hcalling hlt (by rwa [hasked, hran']) hdown
          (hsince.append (calm_ofRan _ _))
      | waiting q mid hexpecting hrequest hcalling hat hdown hsince =>
        exact .waiting q _ hexpecting hrequest hcalling (by rwa [hasked, hran']) hdown
          (hsince.append (calm_ofRan _ _))
      | reading q m d n mid hexpecting hrequest hcalling hallowed hat hdown hsince hran =>
        exact .reading q m d n _ hexpecting hrequest hcalling hallowed (by rwa [hasked, hran'])
          hdown (hsince.append (calm_ofRan _ _)) (List.mem_append_left _ hran)
  · intro hexecuting hconnects
    dsimp only at hexecuting hconnects ⊢
    obtain ⟨hat, hdown⟩ := h.free hexecuting hconnects
    rcases eq_or_ne p.current k with rfl | hk
    · rw [Function.update_self]
      exact hnextIdle hat hdown
    · rw [Function.update_of_ne hk, hasked, ran_ofRan, if_neg (Ne.symm hk)]
      exact ⟨hat, hdown⟩
  · exact h.node
  · exact h.first

/-- What holds of a connection holds of it when the server has closed it. -/
theorem Link.At.close (h : link.At allowed requests runs stage) :
    Link.At allowed { link with conn := none } requests runs stage := by
  cases stage with
  | idle => exact ⟨h.1, h.2.1, by simp⟩
  | asking q w => exact ⟨h.1, h.2.1, h.2.2.1, by simp⟩
  | answering q r k => exact ⟨h.1, h.2.1, h.2.2.1, h.2.2.2.1, by simp⟩

theorem close_links (p : Party) (k j : ℕ) : (p.close k).links j = p.links j ∨
    (p.close k).links j = { p.links j with conn := none } := by
  rcases eq_or_ne j k with rfl | hj
  · exact Or.inr (Function.update_self ..)
  · exact Or.inl (Function.update_of_ne hj ..)

/-- The server closes a connection. -/
theorem PartyInv.close (h : PartyInv allowed es p) (k : ℕ) : PartyInv allowed es (p.close k) := by
  have hat : ∀ {j requests runs stage}, (p.links j).At allowed requests runs stage →
      ((p.close k).links j).At allowed requests runs stage := by
    intro j requests runs stage hat
    rcases close_links p k j with hlink | hlink <;> rw [hlink]
    · exact hat
    · exact hat.close
  have hdown : ∀ j, ((p.close k).links j).down = (p.links j).down := by
    intro j
    rcases close_links p k j with hlink | hlink <;> rw [hlink]
  constructor
  · exact h.answered
  · intro j
    obtain ⟨stage, hstage⟩ := h.safe j
    exact ⟨stage, hat hstage⟩
  · intro j hj
    obtain ⟨hidle, hnone⟩ := h.unused j hj
    exact ⟨hat hidle, (hdown j).trans hnone⟩
  · intro hexecuting
    cases h.engaged hexecuting with
    | writing q mid hstate hrequest hcalling hlt hlink hnone hsince =>
      exact .writing q mid hstate hrequest hcalling hlt (hat hlink) ((hdown _).trans hnone) hsince
    | waiting q mid hexpecting hrequest hcalling hlink hnone hsince =>
      exact .waiting q mid hexpecting hrequest hcalling (hat hlink) ((hdown _).trans hnone) hsince
    | reading q m d n mid hexpecting hrequest hcalling hallowed hlink hsome hsince hran =>
      have hsome' : d ++ ((p.close k).links p.current).down = m.text.take n := by
        rw [hdown, hsome]
      exact .reading q m d n mid hexpecting hrequest hcalling hallowed (hat hlink) hsome' hsince
        hran
  · intro hexecuting hconnects
    obtain ⟨hidle, hnone⟩ := h.free hexecuting hconnects
    exact ⟨hat hidle, (hdown _).trans hnone⟩
  · exact h.node
  · exact h.first

/-- Something happens elsewhere. -/
theorem PartyInv.silent (h : PartyInv allowed es p) : PartyInv allowed (es ++ [.silent]) p := by
  constructor
  · exact answered_append h.answered (by simp)
  · simpa only [asked_silent, ran_silent] using h.safe
  · simpa only [asked_silent, ran_silent] using h.unused
  · intro hexecuting
    cases h.engaged hexecuting with
    | writing q mid hstate hrequest hcalling hlt hat hdown hsince =>
      exact .writing q _ hstate hrequest hcalling hlt (by rwa [asked_silent, ran_silent]) hdown
        (hsince.append trivial)
    | waiting q mid hexpecting hrequest hcalling hat hdown hsince =>
      exact .waiting q _ hexpecting hrequest hcalling (by rwa [asked_silent, ran_silent]) hdown
        (hsince.append trivial)
    | reading q m d n mid hexpecting hrequest hcalling hallowed hat hdown hsince hran =>
      exact .reading q m d n _ hexpecting hrequest hcalling hallowed
        (by rwa [asked_silent, ran_silent]) hdown (hsince.append trivial)
        (List.mem_append_left _ hran)
  · simpa only [asked_silent, ran_silent] using h.free
  · exact h.node
  · exact h.first

/-- What a client may ask for. -/
def Action.Allowed (allowed : Message true → Prop) : Action σ → Prop
  | .call q _ => allowed q
  | _ => True

instance [DecidablePred allowed] : ∀ a : Action σ, Decidable (a.Allowed allowed)
  | .call q _ => inferInstanceAs (Decidable (allowed q))
  | .client _ _ _ | .failure _ | .server _ _ _ _ | .close _ _ | .other _ => .isTrue trivial

/-- What happens while a client waits for a response: an event for the client, or for the server and
the connection on which the client waits; a connection is not closed without an event. -/
def Action.Natural (p : Party) : Action σ → Prop
  | .server k _ _ _ => k = p.current
  | .call _ _ | .close _ _ => False
  | _ => True

/-- The client stays on its connection. -/
theorem current_of_natural {a : Action σ} (ha : a.Natural p)
    (hstep : step execute p s a = some (p', s', e)) : p'.current = p.current := by
  cases a with
  | call q connect => exact absurd ha id
  | client reads write connect =>
    obtain ⟨-, -, handled, left, _, -, -, rfl, -, -⟩ := step_client hstep
    unfold settle
    split_ifs <;> rfl
  | failure erased =>
    obtain ⟨-, -, sources, rfl, -⟩ := step_failure hstep
    rfl
  | server k reads write ssl =>
    obtain ⟨conn, handled, left, -, -, -, rfl, -, -⟩ := step_server hstep
    rfl
  | close k ssl => exact absurd ha id
  | other f =>
    obtain ⟨rfl, -, -⟩ : _ ∧ _ ∧ _ := by simpa [step] using hstep
    rfl

/-- Every step keeps what holds of a client and its connections. -/
theorem partyInv_step (hresponds : Responds execute allowed) {a : Action σ}
    (h : PartyInv allowed es p) (ha : a.Allowed allowed)
    (hstep : step execute p s a = some (p', s', e)) :
    PartyInv allowed (es ++ [e]) p' := by
  cases a with
  | call q connect => exact partyInv_call h ha hstep
  | client reads write connect => exact partyInv_client h hstep
  | failure erased => exact partyInv_failure h hstep
  | server k reads write ssl => exact partyInv_server h hresponds hstep
  | close k ssl =>
    obtain ⟨-, rfl, -, rfl⟩ := step_close hstep
    exact (h.close k).silent
  | other f =>
    obtain ⟨rfl, -, rfl⟩ : _ ∧ _ ∧ _ := by simpa [step] using hstep
    exact h.silent

end Network

end IvySync
