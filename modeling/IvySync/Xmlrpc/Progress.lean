import IvySync.Xmlrpc.Executions

/-!
# A call can be completed

Whatever has happened so far: as long as the server has not closed the connection on which a client
waits, three more events complete the call, if nothing goes wrong in them (`completes_of_run`).  In
the first the client writes the rest of its request, in the second the server reads what has come,
executes the request and writes the response, and in the third the client reads it.  So no pieces in
which bytes come and go, and no order of the events of other clients, can leave a call stuck.
-/

namespace IvySync

open Http XmlRpcSocket

/-! ### Whole pieces -/

namespace XmlRpcServerConnection

variable {σ : Type} {execute : Name → σ → Option (Name × σ)} {conn conn' : XmlRpcServerConnection}
  {m : Message true} {d r : Name} {left : List Read} {s : σ}

/-- A connection that waits for a part of a request reads what is there. -/
theorem receive_left (hw : Waiting m d conn) {read : Read}
    (h : receive conn [read] = some (conn', left)) : left = [] := by
  have hnothing : ∀ {conn₁ : XmlRpcServerConnection},
      readRequest conn₁ [] = some (conn', left) → left = [] := by
    intro conn₁ h
    unfold readRequest at h
    simp only [nbRead] at h
    split_ifs at h <;> simp_all
  cases hw with
  | header _ hstate _ _ =>
    rw [receive, if_pos hstate] at h
    obtain ⟨⟨conn₁, left₁⟩, hheader, hrest⟩ := Option.bind_eq_some_iff.mp h
    obtain ⟨header, e, hread⟩ : ∃ header e, nbRead conn.header [read] = (header, e, []) :=
      ⟨_, _, rfl⟩
    obtain rfl : left₁ = [] := by
      unfold readHeader at hheader
      simp only [hread] at hheader
      split_ifs at hheader <;> split at hheader <;> simp_all
    dsimp only at hrest
    split_ifs at hrest
    · exact hnothing hrest
    · exact (Prod.mk.inj (Option.some.inj hrest)).2.symm
  | request x _ hin hlt =>
    have hlt' : int32 conn.request.length < conn.contentLength := by
      rw [hin.request, hin.contentLength, int32_length hin.front]
      exact_mod_cast hlt
    obtain ⟨request, e, hread⟩ : ∃ request e, nbRead conn.request [read] = (request, e, []) :=
      ⟨_, _, rfl⟩
    rw [receive, if_neg (by simp [hin.state])] at h
    simp only [Option.bind_some, if_pos hin.state, readRequest, if_pos hlt', hread] at h
    split_ifs at h
    · exact (Prod.mk.inj (Option.some.inj h)).2.symm
    · exact (Prod.mk.inj (Option.some.inj h)).2.symm

/-- The rest of a response is written at once. -/
theorem sendResponse_rest (conn : XmlRpcServerConnection) (hr : conn.response.length < 2 ^ 31)
    (hne : conn.response ≠ []) :
    (sendResponse conn (conn.response.length, true)).2 = conn.response.drop conn.bytesWritten := by
  have hint : int32 conn.response.length = conn.response.length := by
    rw [int32, Int.bmod_eq_of_le] <;> omega
  unfold sendResponse
  rw [if_neg hne]
  simp [nbWrite, hint]

/-- With the rest of the request there, it is executed, and the response is written as a whole. -/
theorem handleEvent_whole (hw : Waiting m d conn) {up : Name} (h : d ++ up = m.text)
    {response : Name} {s' : σ} (hexecute : execute m.body s = some (response, s'))
    (hne : response ≠ []) (hlt : response.length < 2 ^ 31) :
    ∃ handled, handleEvent execute conn s [(up, .wouldBlock)] (response.length, true) =
        some (handled, []) ∧
      handled.sent = response ∧ handled.ran = some (m.body, response) ∧ handled.server = s' := by
  have hquiet : Quiet [(up, .wouldBlock)] := by simp [Quiet]
  have hbytes : bytes [(up, .wouldBlock)] = up := by simp [bytes]
  have hprefix : d ++ bytes [(up, .wouldBlock)] <+: m.text := by rw [hbytes, h]
  rcases receive_spec hw hprefix with ⟨hnot, -⟩ | ⟨conn₁, left, p, hreceive, hp, -, hreading⟩
  · exact absurd hquiet hnot
  obtain rfl := receive_left hw hreceive
  have hdp : d ++ p = m.text := by
    rw [← h, ← hbytes, hp]
    simp [bytes]
  rw [hdp] at hreading
  -- nothing of the request is missing any more
  have hreceived : Received m conn₁ := by
    rcases hreading with hwaiting | ⟨-, hreceived⟩
    · cases hwaiting with
      | header hhead _ _ _ =>
        have hle := hhead.length_le
        have hpos := m.pos
        rw [Message.text, List.length_append] at hle
        omega
      | request x hx _ hlt =>
        rw [Message.text] at hx
        rw [List.append_cancel_left hx] at hlt
        exact absurd hlt (lt_irrefl _)
    · exact hreceived
  obtain ⟨hstate, hrequest, hresponse⟩ := hreceived
  simp only [handleEvent, hreceive, if_pos hstate, writeResponse, if_pos hresponse, hrequest,
    hexecute, Option.map_some]
  refine ⟨_, rfl, ?_, rfl, rfl⟩
  exact sendResponse_rest { conn₁ with request := m.body, response, bytesWritten := 0 }
    hlt hne

/-- The rest of a response is written as a whole. -/
theorem handleEvent_rest {k : ℕ} (hr : r.length < 2 ^ 31) (h : Writing r k conn)
    (execute : Name → σ → Option (Name × σ)) (s : σ) :
    ∃ handled, handleEvent execute conn s [] (r.length, true) = some (handled, []) ∧
      handled.sent = r.drop k ∧ handled.ran = none ∧ handled.server = s := by
  obtain ⟨hstate, rfl, rfl, hlt⟩ := h
  have hne : conn.response ≠ [] := List.ne_nil_of_length_pos (by omega)
  have hreceive : receive conn [] = some (conn, []) := by simp [receive, hstate]
  simp only [handleEvent, hreceive, hstate, if_true, writeResponse, if_neg hne, Option.map_some]
  exact ⟨_, rfl, sendResponse_rest conn hr hne, rfl, rfl⟩

end XmlRpcServerConnection

namespace XmlRpcClient

variable {client : XmlRpcClient} {m : Message false} {d : Name}

/-- Where no end of the stream and no error is read, the client does not connect once more. -/
theorem kept_of_quiet (hnode : client.sources.node ≠ none) {reads : List Read}
    (hquiet : Quiet reads) (write : Write) (connect : Connect) :
    Kept client (handleEvent client reads write connect).1.client := by
  have hretries : ∀ client : XmlRpcClient, ¬ Retries client reads := by
    rintro client ⟨-, -, e, left, rfl, he⟩
    exact he (hquiet _ (List.mem_cons_self ..))
  rw [handleEvent_kept hnode]
  rintro ⟨⟨-, hagain⟩ | ⟨-, hagain⟩, -⟩ <;> exact hretries _ hagain

/-- A client that waits for a part of a response reads what is there. -/
theorem receive_left (hw : Expecting m d client) (read : Read) (connect : Connect) :
    (receive client [read] connect).2 = [] := by
  have hnothing : ∀ client₁ : XmlRpcClient, (readResponse client₁ []).2 = [] := by
    intro client₁
    unfold readResponse
    simp only [nbRead]
    split_ifs <;> rfl
  cases hw with
  | header _ hstate _ =>
    obtain ⟨header, e, hread⟩ : ∃ header e, nbRead client.header [read] = (header, e, []) :=
      ⟨_, _, rfl⟩
    have hheader : (readHeader client [read] connect).2 = [] := by
      unfold readHeader
      simp only [hread]
      split_ifs <;> first | rfl | (split <;> rfl)
    unfold receive
    rw [if_pos hstate]
    dsimp only
    split_ifs
    · rw [hheader]
      exact hnothing _
    · exact hheader
  | response x _ hin hlt =>
    have hlt' : int32 client.response.length < client.contentLength := by
      rw [hin.response, hin.contentLength, int32_length hin.front]
      exact_mod_cast hlt
    obtain ⟨response, e, hread⟩ : ∃ response e, nbRead client.response [read] = (response, e, []) :=
      ⟨_, _, rfl⟩
    have hreceive : receive client [read] connect = readResponse client [read] := by
      simp [receive, hin.state]
    rw [hreceive]
    simp only [readResponse, if_pos hlt', hread]
    split_ifs <;> rfl

/-- With the rest of the response there, the client has got it. -/
theorem turn_whole (hw : Expecting m d client) (hnode : client.sources.node ≠ none) {down : Name}
    (h : d ++ down = m.text) (connect : Connect) :
    ∃ handled, turn client [(down, .wouldBlock)] (0, true) connect = some (handled, []) ∧
      handled.sent = [] ∧ handled.monitored = false ∧
      handled.client.connectionState = .idle ∧ handled.client.response = m.body := by
  have hquiet : Quiet [(down, .wouldBlock)] := by simp [Quiet]
  have hbytes : bytes [(down, .wouldBlock)] = down := by simp [bytes]
  have hprefix : d ++ bytes [(down, .wouldBlock)] <+: m.text := by rw [hbytes, h]
  have hkept := kept_of_quiet hnode hquiet (0, true) connect
  have hleft : (handleEvent client [(down, .wouldBlock)] (0, true) connect).2 = [] := by
    unfold handleEvent
    rw [if_neg hw.state_ne]
    exact receive_left hw _ _
  obtain ⟨handled, hturn⟩ : ∃ handled,
      turn client [(down, .wouldBlock)] (0, true) connect = some (handled, []) := by
    unfold turn
    dsimp only
    rw [if_pos hkept, hleft]
    exact ⟨_, rfl⟩
  obtain ⟨hsent, hgot⟩ := turn_of_expecting hw hprefix hturn
  refine ⟨handled, hturn, hsent, ?_⟩
  cases hgot with
  | more p hp hexpecting =>
    have hdp : d ++ p = m.text := by
      rw [← h, ← hbytes, hp]
      simp [bytes]
    rw [hdp] at hexpecting
    cases hexpecting with
    | header hhead _ _ =>
      have hle := hhead.length_le
      have hpos := m.pos
      rw [Message.text, List.length_append] at hle
      omega
    | response x hx _ hlt =>
      rw [Message.text] at hx
      rw [List.append_cancel_left hx] at hlt
      exact absurd hlt (lt_irrefl _)
  | done _ hstate hresponse hmonitored => exact ⟨hmonitored, hstate, hresponse⟩
  | failed hnot => exact absurd hquiet hnot

/-- The rest of a request is written as a whole. -/
theorem turn_rest {q : Message true} (hstate : client.connectionState = .writeRequest)
    (hnode : client.sources.node ≠ none) (hrequest : client.request = q.text)
    (hw : client.bytesWritten ≤ q.text.length) (connect : Connect) :
    ∃ handled, turn client [] (q.text.length, true) connect = some (handled, []) ∧
      handled.sent = q.text.drop client.bytesWritten ∧ (∀ m, Expecting m [] handled.client) ∧
      Same client handled.client ∧ handled.monitored = true := by
  have hlength := q.length_text
  have hint : int32 q.text.length = q.text.length := by
    rw [int32, Int.bmod_eq_of_le] <;> omega
  have hwrite : nbWrite q.text client.bytesWritten (q.text.length, true) =
      (q.text.length, q.text.drop client.bytesWritten) := by
    have hsum : client.bytesWritten + (q.text.length - client.bytesWritten) = q.text.length := by
      omega
    simp [nbWrite, hint, hsum]
  have hempty : Http.readHeader false [] = .incomplete := rfl
  have hevent : handleEvent client [] (q.text.length, true) connect =
      ({ client := { client with
          bytesWritten := q.text.length
          header := []
          response := []
          connectionState := .readHeader
          eof := false }
         monitored := true
         sent := q.text.drop client.bytesWritten }, []) := by
    simp [handleEvent, hstate, writeRequest, hwrite, hrequest, hint, receive, readHeader, nbRead,
      hempty]
  have hkept := kept_of_quiet hnode (by simp [Quiet] : Quiet []) (q.text.length, true) connect
  unfold turn
  rw [hevent] at hkept ⊢
  dsimp only
  rw [if_pos hkept]
  exact ⟨_, rfl, rfl, fun m => .header List.nil_prefix rfl rfl, ⟨rfl, rfl, rfl, rfl⟩, rfl⟩

end XmlRpcClient

namespace Network

variable {σ : Type} {execute : Name → σ → Option (Name × σ)} {allowed : Message true → Prop}
  {p : Party} {s : σ} {q : Message true}

/-! ### The events that complete a call -/

/-- The request is on its way, and the server waits for what is missing of it. -/
structure Ready (q : Message true) (p : Party) : Prop where
  executing : p.client.executing = true
  node : p.client.sources.node ≠ none
  expecting : ∀ m, XmlRpcClient.Expecting m [] p.client
  down : (p.links p.current).down = []
  server : ∃ conn d, (p.links p.current).conn = some conn ∧
    XmlRpcServerConnection.Waiting q d conn ∧ d ++ (p.links p.current).up = q.text

/-- What is missing of the response is on its way. -/
structure Complete (p : Party) : Prop where
  executing : p.client.executing = true
  node : p.client.sources.node ≠ none
  response : ∃ m d, XmlRpcClient.Expecting m d p.client ∧ d ++ (p.links p.current).down = m.text

/-- The client writes the rest of its request. -/
theorem step_of_writing (execute : Name → σ → Option (Name × σ)) (allowed : Message true → Prop)
    (s : σ) (hexecuting : p.client.executing = true) (hnode : p.client.sources.node ≠ none)
    (hstate : p.client.connectionState = .writeRequest) (hrequest : p.client.request = q.text)
    (hw : p.client.bytesWritten ≤ q.text.length) (hdown : (p.links p.current).down = [])
    {conn : XmlRpcServerConnection} {d : Name} (hconn : (p.links p.current).conn = some conn)
    (hwaiting : XmlRpcServerConnection.Waiting q d conn)
    (hup : d ++ (p.links p.current).up = q.text.take p.client.bytesWritten) :
    ∃ a p' e, step execute p s a = some (p', s, e) ∧ (a.Allowed allowed ∧ a.Natural p) ∧
      Ready q p' := by
  obtain ⟨handled, hturn, hsent, hexpecting, hsame, hmonitored⟩ :=
    XmlRpcClient.turn_rest hstate hnode hrequest hw .noSocket
  refine ⟨.client [] (q.text.length, true) .noSocket, { p with
    client := handled.client
    links := Function.update p.links p.current
      { p.links p.current with
        up := (p.links p.current).up ++ handled.sent
        down := unread [] [] (p.links p.current).down } }, .silent, ?_, ⟨trivial, trivial⟩, ?_⟩
  · simp only [step, hturn, settle, hexecuting, hmonitored, bytes, List.flatMap_nil,
      List.nil_prefix, and_self, if_true, Bool.true_eq_false, if_false, Option.map_some]
  · refine ⟨hsame.executing.trans hexecuting, hsame.sources ▸ hnode, hexpecting, ?_, conn, d, ?_,
      hwaiting, ?_⟩
    · simp [unread, hdown, bytes]
    · dsimp only
      rw [Function.update_self]
      exact hconn
    · dsimp only
      rw [Function.update_self, hsent, ← List.append_assoc, hup, List.take_append_drop]

/-- The server reads the rest of the request, executes it and writes the response. -/
theorem Ready.step (h : Ready q p) (hq : allowed q) (hresponds : Responds execute allowed)
    (htotal : ∀ q, allowed q → ∀ s, (execute q.body s).isSome) :
    ∃ a p' s' e, step execute p s a = some (p', s', e) ∧ (a.Allowed allowed ∧ a.Natural p) ∧
      Complete p' := by
  obtain ⟨conn, d, hconn, hwaiting, hup⟩ := h.server
  obtain ⟨⟨response, s'⟩, hexecute⟩ := Option.isSome_iff_exists.mp (htotal q hq s)
  obtain ⟨m, rfl⟩ := hresponds q hq s response s' hexecute
  obtain ⟨handled, hevent, hsent, hran, hserver⟩ :=
    XmlRpcServerConnection.handleEvent_whole hwaiting hup hexecute m.text_ne_nil m.length_text
  have hbytes : bytes [((p.links p.current).up, End.wouldBlock)] = (p.links p.current).up := by
    simp [bytes]
  refine ⟨.server p.current [((p.links p.current).up, .wouldBlock)] (m.text.length, true) false,
    { p with links := Function.update p.links p.current ⟨handled.conn,
        unread [((p.links p.current).up, .wouldBlock)] [] (p.links p.current).up,
        (p.links p.current).down ++ handled.sent⟩ },
    handled.server, .ofRan p.current handled.ran, ?_, ⟨trivial, rfl⟩, ?_⟩
  · simp only [Network.step, hconn, hbytes, List.prefix_refl, if_true, hevent, Option.bind_some,
      Bool.false_eq_true, and_false, if_false]
  · refine ⟨h.executing, h.node, m, [], h.expecting m, ?_⟩
    dsimp only
    rw [Function.update_self, h.down, hsent]
    rfl

/-- The server writes the rest of the response. -/
theorem step_of_answering (execute : Name → σ → Option (Name × σ)) (allowed : Message true → Prop)
    (s : σ) (hexecuting : p.client.executing = true) (hnode : p.client.sources.node ≠ none)
    {m : Message false} {d : Name} {n : ℕ}
    (hexpecting : XmlRpcClient.Expecting m d p.client)
    (hdown : d ++ (p.links p.current).down = m.text.take n) {conn : XmlRpcServerConnection}
    (hconn : (p.links p.current).conn = some conn)
    (hwriting : XmlRpcServerConnection.Writing m.text n conn) :
    ∃ a p' e, step execute p s a = some (p', s, e) ∧ (a.Allowed allowed ∧ a.Natural p) ∧
      Complete p' := by
  obtain ⟨handled, hevent, hsent, hran, hserver⟩ :=
    XmlRpcServerConnection.handleEvent_rest m.length_text hwriting execute s
  refine ⟨.server p.current [] (m.text.length, true) false,
    { p with links := Function.update p.links p.current ⟨handled.conn,
        unread [] [] (p.links p.current).up, (p.links p.current).down ++ handled.sent⟩ },
    .ofRan p.current handled.ran, ?_, ⟨trivial, rfl⟩, ?_⟩
  · simp only [Network.step, hconn, bytes, List.flatMap_nil, List.nil_prefix, if_true, hevent,
      Option.bind_some, Bool.false_eq_true, and_false, if_false, hserver]
  · refine ⟨hexecuting, hnode, m, d, hexpecting, ?_⟩
    dsimp only
    rw [Function.update_self, hsent, ← List.append_assoc, hdown, List.take_append_drop]

/-- The client reads the rest of the response. -/
theorem Complete.step (h : Complete p) :
    ∃ a p' response, step execute p s a = some (p', s, .returned (some response)) ∧
      a.Allowed allowed ∧ a.Natural p := by
  obtain ⟨m, d, hexpecting, hdown⟩ := h.response
  obtain ⟨handled, hturn, hsent, hmonitored, hstate, hresponse⟩ :=
    XmlRpcClient.turn_whole hexpecting h.node hdown .noSocket
  have hbytes : bytes [((p.links p.current).down, End.wouldBlock)] = (p.links p.current).down := by
    simp [bytes]
  refine ⟨.client [((p.links p.current).down, .wouldBlock)] (0, true) .noSocket,
    { p with
      client := { handled.client with executing := false, response := [] }
      links := Function.update p.links p.current ⟨(p.links p.current).conn,
        (p.links p.current).up ++ handled.sent,
        unread [((p.links p.current).down, .wouldBlock)] [] (p.links p.current).down⟩ },
    handled.client.response, ?_, trivial, trivial⟩
  simp only [Network.step, h.executing, hbytes, List.prefix_refl, and_self, if_true, hturn,
    Option.map_some, settle, hmonitored, XmlRpcClient.finish, hstate]

/-! ### Runs -/

section Net

variable {ι : Type} [DecidableEq ι] {s₀ : σ} {t : Machine.Shared ι Party σ} {i : ι} {k : ℕ}
  {tr : List ((ι × Action σ) × Event)}

/-- A call of the client `i` can be completed by `k` events of its own and one more, with which it
returns. -/
def Completes (execute : Name → σ → Option (Name × σ)) (allowed : Message true → Prop) (i : ι)
    (k : ℕ) (t : Machine.Shared ι Party σ) : Prop :=
  ∃ tr a response t', (net ι execute).RunOn
      (fun s a => a.1 = i ∧ a.2.Allowed allowed ∧ a.2.Natural (s.party i)) t
      (tr ++ [((i, a), .returned (some response))]) t' ∧ tr.length ≤ k

theorem Completes.of_complete (h : Complete (t.party i)) : Completes execute allowed i 0 t := by
  obtain ⟨a, p', response, hstep, ha⟩ := h.step
  refine ⟨[], a, response, ⟨Function.update t.party i p', t.shared⟩, ?_, le_rfl⟩
  exact Machine.RunOn.single ⟨rfl, ha⟩ (Machine.interleave_next.mpr ⟨p', hstep, rfl⟩)

theorem Completes.cons {a : Action σ} {p' : Party} {s' : σ} {e : Event}
    (hstep : step execute (t.party i) t.shared a = some (p', s', e))
    (ha : a.Allowed allowed ∧ a.Natural (t.party i))
    (h : Completes execute allowed i k ⟨Function.update t.party i p', s'⟩) :
    Completes execute allowed i (k + 1) t := by
  obtain ⟨tr, a', response, t', hrun, hlength⟩ := h
  refine ⟨((i, a), e) :: tr, a', response, t', ?_, by simpa using hlength⟩
  exact Machine.RunOn.cons ⟨rfl, ha⟩ (Machine.interleave_next.mpr ⟨p', hstep, rfl⟩) hrun

theorem Completes.mono {k' : ℕ} (h : Completes execute allowed i k t) (hle : k ≤ k') :
    Completes execute allowed i k' t := by
  obtain ⟨tr, a, response, t', hrun, hlength⟩ := h
  exact ⟨tr, a, response, t', hrun, hlength.trans hle⟩

/-- After any run, whatever the pieces in which bytes have come and gone and whatever the other
clients have done: a call for which the server keeps the connection open can be completed, and
three events are enough. -/
theorem completes_of_run (hresponds : Responds execute allowed)
    (htotal : ∀ q, allowed q → ∀ s, (execute q.body s).isSome)
    (h : (net ι execute).RunOn (fun _ a => a.2.Allowed allowed) (start ι s₀) tr t)
    (hexecuting : (t.party i).client.executing = true)
    (hopen : ((t.party i).links (t.party i).current).conn ≠ none) :
    Completes execute allowed i 2 t := by
  obtain ⟨conn, hconn⟩ := Option.ne_none_iff_exists'.mp hopen
  have hafter : ∀ {p' : Party} {s' : σ},
      (⟨Function.update t.party i p', s'⟩ : Machine.Shared ι Party σ).party i = p' := by simp
  have hready : ∀ {q : Message true} {t : Machine.Shared ι Party σ}, allowed q →
      Ready q (t.party i) → Completes execute allowed i 1 t := by
    intro q t hq hready
    obtain ⟨a, p', s', e, hstep, ha, hcomplete⟩ := hready.step hq hresponds htotal
    exact .cons hstep ha (.of_complete (by simpa using hcomplete))
  have hinv := partyInv_of_run hresponds h i
  have hnode := hinv.node hexecuting
  cases hinv.engaged hexecuting with
  | writing q mid hstate hrequest _ hlt hlink hdown =>
    obtain ⟨hq, -, -, hwaiting⟩ := hlink
    obtain ⟨d, hwaiting, hup⟩ := hwaiting conn hconn
    obtain ⟨a, p', e, hstep, ha, hnext⟩ := step_of_writing execute allowed t.shared
      hexecuting hnode hstate hrequest hlt.le hdown hconn hwaiting hup
    exact .cons hstep ha (hready hq (by simpa using hnext))
  | waiting q mid hexpecting _ _ hlink hdown =>
    obtain ⟨hq, -, -, hwaiting⟩ := hlink
    obtain ⟨d, hwaiting, hup⟩ := hwaiting conn hconn
    rw [List.take_length] at hup
    exact (hready hq ⟨hexecuting, hnode, hexpecting, hdown, conn, d, hconn, hwaiting, hup⟩).mono
      (by omega)
  | reading q m d n mid hexpecting _ _ _ hlink hdown =>
    obtain ⟨-, -, -, hle, hresponding⟩ := hlink
    rcases hresponding conn hconn with hwriting | ⟨rfl, -⟩
    · obtain ⟨a, p', e, hstep, ha, hcomplete⟩ := step_of_answering execute allowed
        t.shared hexecuting hnode hexpecting hdown hconn hwriting
      exact (Completes.cons hstep ha (.of_complete (by simpa using hcomplete))).mono (by omega)
    · rw [List.take_length] at hdown
      exact (Completes.of_complete ⟨hexecuting, hnode, m, d, hexpecting, hdown⟩).mono (by omega)

end Net

end Network

end IvySync
