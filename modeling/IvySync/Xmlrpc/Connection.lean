import IvySync.Xmlrpc.Http

/-!
# A connection of the server

`XmlRpcServerConnection::handleEvent`, with which the dispatcher tells a connection that its socket
can be read or written.  What the socket does then is given by the bytes that the calls of `read`
find and by the number of those that the calls of `write` take, so that a message may arrive and
leave in any pieces.

`Waiting` and `Writing` say where a connection is between two events.  `handleEvent_of_waiting` and
`handleEvent_of_writing` are what one event does there: the request is executed when its last byte
is there, once, and as it was sent.
-/

namespace IvySync

open Http

/-! ### Sockets -/

namespace XmlRpcSocket

/-- How the calls of `read` of one `nbRead` end. -/
inductive End
  | wouldBlock
  | eof
  | error
  deriving DecidableEq, Repr

/-- What the calls of `read` of one `nbRead` find. -/
abbrev Read := Name × End

/-- `nbRead`: the text with what was read behind it, and how it ended.  What later calls find is
left; a socket of which nothing is left would block. -/
def nbRead (s : Name) : List Read → Name × End × List Read
  | [] => (s, .wouldBlock, [])
  | (bytes, e) :: reads => (s ++ bytes, e, reads)

/-- How many bytes the calls of `write` of one `nbWrite` take, and whether there was no error. -/
abbrev Write := ℕ × Bool

/-- `nbWrite`: how many bytes have been written then, and those that were written by it. -/
def nbWrite (s : Name) (bytesSoFar : ℕ) (write : Write) : ℕ × Name :=
  let n := min write.1 (int32 s.length - bytesSoFar).toNat
  (bytesSoFar + n, (s.drop bytesSoFar).take n)

/-- All bytes that are read. -/
def bytes (reads : List Read) : Name := reads.flatMap Prod.fst

/-- No end of the stream and no error is read. -/
def Quiet (reads : List Read) : Prop := ∀ read ∈ reads, read.2 = .wouldBlock

variable {s t : Name} {e : End} {reads left : List Read}

/-- The text of `nbRead` has what was read behind it. -/
theorem nbRead_spec (h : nbRead s reads = (t, e, left)) :
    ∃ p, t = s ++ p ∧ bytes reads = p ++ bytes left ∧
      (Quiet reads → e = .wouldBlock ∧ Quiet left) := by
  cases reads with
  | nil =>
    obtain ⟨rfl, he⟩ := Prod.mk.inj h
    obtain ⟨rfl, rfl⟩ := Prod.mk.inj he
    exact ⟨[], (List.append_nil _).symm, rfl, fun hquiet => ⟨rfl, hquiet⟩⟩
  | cons read reads =>
    obtain ⟨rfl, he⟩ := Prod.mk.inj h
    obtain ⟨rfl, rfl⟩ := Prod.mk.inj he
    exact ⟨read.1, rfl, rfl, fun hquiet => List.forall_mem_cons.mp hquiet⟩

/-- `nbWrite` goes on where it was, and stays within the text. -/
theorem nbWrite_spec (hs : s.length < 2 ^ 31) {k : ℕ} (hk : k ≤ s.length) (write : Write) :
    k ≤ (nbWrite s k write).1 ∧ (nbWrite s k write).1 ≤ s.length ∧
      s.take k ++ (nbWrite s k write).2 = s.take (nbWrite s k write).1 := by
  have hint : int32 s.length = s.length := by
    rw [int32, Int.bmod_eq_of_le] <;> omega
  simp only [nbWrite, hint]
  refine ⟨by omega, by omega, ?_⟩
  rw [List.take_add]

end XmlRpcSocket

open XmlRpcSocket

/-! ### The connection -/

/-- What a connection of the server is doing. -/
inductive ServerConnectionState
  | readHeader
  | readRequest
  | writeResponse
  deriving DecidableEq, Repr

/-- A connection of the server. -/
structure XmlRpcServerConnection where
  connectionState : ServerConnectionState := .readHeader
  header : Name := []
  contentLength : ℤ := 0
  request : Name := []
  response : Name := []
  bytesWritten : ℕ := 0
  keepAlive : Bool := true
  deriving DecidableEq, Repr

namespace XmlRpcServerConnection

/-- `readHeader`; `none` for `false`. -/
def readHeader (conn : XmlRpcServerConnection) (reads : List Read) :
    Option (XmlRpcServerConnection × List Read) :=
  let (header, e, reads) := nbRead conn.header reads
  if e = .error then none
  else
    match Http.readHeader true header with
    | .incomplete => if e = .eof then none else some ({ conn with header }, reads)
    | .invalid => none
    | .complete contentLength keepAlive request =>
      some ({ conn with
        contentLength, keepAlive, request
        header := []
        connectionState := .readRequest }, reads)

/-- `readRequest`. -/
def readRequest (conn : XmlRpcServerConnection) (reads : List Read) :
    Option (XmlRpcServerConnection × List Read) :=
  if int32 conn.request.length < conn.contentLength then
    let (request, e, reads) := nbRead conn.request reads
    if e = .error then none
    else if int32 request.length < conn.contentLength then
      if e = .eof then none else some ({ conn with request }, reads)
    else some ({ conn with request, connectionState := .writeResponse }, reads)
  else some ({ conn with connectionState := .writeResponse }, reads)

/-- What an event has led to: the connection, `none` where it is closed, the bytes that were
written, the request that was executed with its response, and the state of the server. -/
structure Handled (σ : Type) where
  conn : Option XmlRpcServerConnection := none
  sent : Name := []
  ran : Option (Name × Name) := none
  server : σ

variable {σ : Type} (execute : Name → σ → Option (Name × σ))

/-- The part of `writeResponse` behind `executeRequest`: the connection, and the bytes written. -/
def sendResponse (conn : XmlRpcServerConnection) (write : Write) :
    Option XmlRpcServerConnection × Name :=
  if conn.response = [] then (none, [])
  else
    let (bytesWritten, sent) := nbWrite conn.response conn.bytesWritten write
    if write.2 = false then (none, sent)
    else
      let conn := { conn with bytesWritten }
      let conn :=
        if bytesWritten = int32 conn.response.length then
          { conn with header := [], request := [], response := [], connectionState := .readHeader }
        else conn
      (if conn.keepAlive then some conn else none, sent)

/-- `writeResponse`, with what `executeRequest` of the server does, `none` where it does not come
back. -/
def writeResponse (conn : XmlRpcServerConnection) (s : σ) (write : Write) : Option (Handled σ) :=
  if conn.response = [] then
    (execute conn.request s).map fun (response, s) =>
      let sending := sendResponse { conn with response, bytesWritten := 0 } write
      { conn := sending.1, sent := sending.2, ran := some (conn.request, response), server := s }
  else
    let sending := sendResponse conn write
    some { conn := sending.1, sent := sending.2, server := s }

/-- The part of `handleEvent` that reads. -/
def receive (conn : XmlRpcServerConnection) (reads : List Read) :
    Option (XmlRpcServerConnection × List Read) :=
  (if conn.connectionState = .readHeader then readHeader conn reads
    else some (conn, reads)).bind fun (conn, reads) =>
  if conn.connectionState = .readRequest then readRequest conn reads else some (conn, reads)

/-- `handleEvent`.  Where it returns zero, the dispatcher closes the connection. -/
def handleEvent (conn : XmlRpcServerConnection) (s : σ) (reads : List Read) (write : Write) :
    Option (Handled σ × List Read) :=
  match receive conn reads with
  | none => some ({ server := s }, [])
  | some (conn, reads) =>
    if conn.connectionState = .writeResponse then
      (writeResponse execute conn s write).map fun handled => (handled, reads)
    else some ({ conn := some conn, server := s }, reads)

/-! ### Reading a request -/

variable {conn conn' : XmlRpcServerConnection} {m : Message true} {d : Name}
  {reads left : List Read} {s : σ} {write : Write}

/-- The connection has got the header of a request, and `x` of its body. -/
structure InBody (m : Message true) (x : Name) (conn : XmlRpcServerConnection) : Prop where
  state : conn.connectionState = .readRequest
  request : conn.request = x
  contentLength : conn.contentLength = m.body.length
  response : conn.response = []
  front : x <+: m.body
  ne : x ≠ []

/-- The connection has got `d` of a request and waits for the rest of it. -/
inductive Waiting (m : Message true) (d : Name) (conn : XmlRpcServerConnection) : Prop
  | header (h : d <+: m.head) (hstate : conn.connectionState = .readHeader)
      (hheader : conn.header = d) (hresponse : conn.response = [])
  | request (x : Name) (hd : d = m.head ++ x) (h : InBody m x conn) (hlt : x.length < m.body.length)

theorem Waiting.state_ne (h : Waiting m d conn) : conn.connectionState ≠ .writeResponse := by
  cases h with
  | header _ hstate _ _ => simp [hstate]
  | request _ _ h _ => simp [h.state]

/-- The connection has got the whole request. -/
structure Received (m : Message true) (conn : XmlRpcServerConnection) : Prop where
  state : conn.connectionState = .writeResponse
  request : conn.request = m.body
  response : conn.response = []

/-- What the connection is after it has read `d` of the request. -/
def Reading (m : Message true) (d : Name) (conn : XmlRpcServerConnection) : Prop :=
  Waiting m d conn ∨ d = m.text ∧ Received m conn

/-- The length of a part of the body is an `int`. -/
theorem int32_length {x : Name} (hx : x <+: m.body) : int32 x.length = x.length := by
  have hle := hx.length_le
  have hlt := m.lt
  rw [int32, Int.bmod_eq_of_le] <;> omega

/-- With enough of the body, the request is complete; else the connection waits for more. -/
theorem readRequest_spec {x : Name} (hin : InBody m x conn) (h : x ++ bytes reads <+: m.body) :
    (¬ Quiet reads ∧ readRequest conn reads = none) ∨
      ∃ conn' left p, readRequest conn reads = some (conn', left) ∧
        bytes reads = p ++ bytes left ∧ (Quiet reads → Quiet left) ∧
        Reading m (m.head ++ (x ++ p)) conn' := by
  obtain ⟨hstate, rfl, hlength, hresponse, hbody, hne⟩ := hin
  have hle := hbody.length_le
  unfold readRequest
  rw [int32_length hbody]
  split_ifs with hlt
  · obtain ⟨request, e, left, hread⟩ : ∃ request e left,
        nbRead conn.request reads = (request, e, left) := ⟨_, _, _, rfl⟩
    obtain ⟨p, rfl, hbytes, hquiet⟩ := nbRead_spec hread
    have hp : conn.request ++ p <+: m.body := by
      rw [hbytes, ← List.append_assoc] at h
      exact (List.prefix_append _ _).trans h
    have hp' := hp.length_le
    simp only [hread]
    split_ifs with herror hlt' heof
    · exact Or.inl ⟨fun hq => by simp [(hquiet hq).1] at herror, rfl⟩
    · exact Or.inl ⟨fun hq => by simp [(hquiet hq).1] at heof, rfl⟩
    · refine Or.inr ⟨_, left, p, rfl, hbytes, fun hq => (hquiet hq).2, Or.inl ?_⟩
      rw [int32_length hp] at hlt'
      exact .request _ rfl ⟨hstate, rfl, hlength, hresponse, hp, by simp [hne]⟩ (by omega)
    · refine Or.inr ⟨_, left, p, rfl, hbytes, fun hq => (hquiet hq).2, Or.inr ?_⟩
      rw [int32_length hp] at hlt'
      have heq : conn.request ++ p = m.body := hp.eq_of_length (by omega)
      exact ⟨by rw [heq, Message.text], ⟨rfl, heq, hresponse⟩⟩
  · refine Or.inr ⟨_, reads, [], rfl, rfl, id, Or.inr ?_⟩
    have heq : conn.request = m.body := hbody.eq_of_length (by omega)
    exact ⟨by rw [List.append_nil, heq, Message.text], ⟨rfl, heq, hresponse⟩⟩

/-- With a part of the body, the header is complete; else the connection waits for more of it. -/
theorem readHeader_spec (hstate : conn.connectionState = .readHeader)
    (hresponse : conn.response = []) (h : conn.header ++ bytes reads <+: m.text) :
    (¬ Quiet reads ∧ readHeader conn reads = none) ∨
      ∃ conn' left p, readHeader conn reads = some (conn', left) ∧
        bytes reads = p ++ bytes left ∧ (Quiet reads → Quiet left) ∧
        ((conn'.connectionState = .readHeader ∧ Waiting m (conn.header ++ p) conn') ∨
          ∃ x, conn.header ++ p = m.head ++ x ∧ InBody m x conn') := by
  obtain ⟨header, e, left, hread⟩ : ∃ header e left, nbRead conn.header reads = (header, e, left) :=
    ⟨_, _, _, rfl⟩
  obtain ⟨p, rfl, hbytes, hquiet⟩ := nbRead_spec hread
  have hp : conn.header ++ p <+: m.text := by
    rw [hbytes, ← List.append_assoc] at h
    exact (List.prefix_append _ _).trans h
  unfold readHeader
  simp only [hread]
  by_cases herror : e = .error
  · rw [if_pos herror]
    exact Or.inl ⟨fun hq => by simp [(hquiet hq).1] at herror, rfl⟩
  · rw [if_neg herror]
    rcases m.readHeader_prefix hp with
      ⟨hhead, hincomplete⟩ | ⟨x, keep, hne, hx, hsplit, hcomplete⟩
    · simp only [hincomplete]
      split_ifs with heof
      · exact Or.inl ⟨fun hq => by simp [(hquiet hq).1] at heof, rfl⟩
      · exact Or.inr ⟨_, left, p, rfl, hbytes, fun hq => (hquiet hq).2,
          Or.inl ⟨hstate, .header hhead hstate rfl hresponse⟩⟩
    · simp only [hcomplete]
      exact Or.inr ⟨_, left, p, rfl, hbytes, fun hq => (hquiet hq).2,
        Or.inr ⟨x, hsplit, rfl, rfl, rfl, hresponse, hx, hne⟩⟩

/-- Whatever pieces the request comes in, the connection waits for the rest of it or has got it as
it was sent. -/
theorem receive_spec (hw : Waiting m d conn) (h : d ++ bytes reads <+: m.text) :
    (¬ Quiet reads ∧ receive conn reads = none) ∨
      ∃ conn' left p, receive conn reads = some (conn', left) ∧ bytes reads = p ++ bytes left ∧
        (Quiet reads → Quiet left) ∧ Reading m (d ++ p) conn' := by
  have hbody : ∀ {x t : Name}, m.head ++ x ++ t <+: m.text → x ++ t <+: m.body := by
    intro x t h
    rw [List.append_assoc, Message.text] at h
    exact (List.prefix_append_right_inj _).mp h
  cases hw with
  | request x hd hin hlt =>
    subst hd
    have hreceive : receive conn reads = readRequest conn reads := by
      simp [receive, hin.state]
    rw [hreceive]
    simpa only [List.append_assoc] using readRequest_spec hin (hbody h)
  | header hhead hstate hheader hresponse =>
    subst hheader
    rw [receive, if_pos hstate]
    rcases readHeader_spec hstate hresponse h with
      ⟨hquiet, hnone⟩ | ⟨conn', left, p, hread, hbytes, hquiet, ⟨hstate', hw⟩ | ⟨x, hsplit, hin⟩⟩
    · rw [hnone]
      exact Or.inl ⟨hquiet, rfl⟩
    · refine Or.inr ⟨conn', left, p, ?_, hbytes, hquiet, Or.inl hw⟩
      simp [hread, hstate']
    · rw [hbytes, ← List.append_assoc, hsplit] at h
      have hrest : (readHeader conn reads).bind (fun (conn, reads) =>
          if conn.connectionState = .readRequest then readRequest conn reads
          else some (conn, reads)) = readRequest conn' left := by
        simp only [hread, Option.bind_some, hin.state, if_true]
      rw [hrest]
      rcases readRequest_spec hin (hbody h) with
        ⟨hq, hnone⟩ | ⟨conn₂, left₂, p₂, hread₂, hbytes₂, hquiet₂, hreading⟩
      · exact Or.inl ⟨fun hq' => hq (hquiet hq'), hnone⟩
      · refine Or.inr ⟨conn₂, left₂, p ++ p₂, hread₂, by rw [hbytes, hbytes₂, List.append_assoc],
          fun hq => hquiet₂ (hquiet hq), ?_⟩
        rwa [← List.append_assoc, hsplit, List.append_assoc]

/-! ### Writing a response -/

/-- The connection has written `k` bytes of a response. -/
structure Writing (r : Name) (k : ℕ) (conn : XmlRpcServerConnection) : Prop where
  state : conn.connectionState = .writeResponse
  response : conn.response = r
  bytesWritten : conn.bytesWritten = k
  lt : k < r.length

/-- The connection waits for the next request. -/
structure Fresh (conn : XmlRpcServerConnection) : Prop where
  state : conn.connectionState = .readHeader
  header : conn.header = []
  response : conn.response = []

/-- A new connection waits for its first request. -/
theorem fresh_new : Fresh {} := ⟨rfl, rfl, rfl⟩

/-- It waits for any request then. -/
theorem Fresh.waiting (h : Fresh conn) (m : Message true) : Waiting m [] conn :=
  .header List.nil_prefix h.state h.header h.response

/-- A connection that has got nothing of a request waits for the next one. -/
theorem Waiting.fresh (h : Waiting m [] conn) : Fresh conn := by
  cases h with
  | header _ hstate hheader hresponse => exact ⟨hstate, hheader, hresponse⟩
  | request x hd hin _ => exact absurd (List.append_eq_nil_iff.mp hd.symm).2 hin.ne

/-- What the connection is after it has written `k` bytes of a response. -/
def Responding (r : Name) (k : ℕ) (conn : XmlRpcServerConnection) : Prop :=
  Writing r k conn ∨ k = r.length ∧ Fresh conn

/-- The response is written on from where the connection was. -/
theorem sendResponse_spec (conn : XmlRpcServerConnection) (hr : conn.response.length < 2 ^ 31)
    (hstate : conn.connectionState = .writeResponse) (hne : conn.response ≠ [])
    (hk : conn.bytesWritten ≤ conn.response.length) (write : Write) :
    ∃ k, k ≤ conn.response.length ∧
      conn.response.take conn.bytesWritten ++ (sendResponse conn write).2 = conn.response.take k ∧
      ∀ conn' ∈ (sendResponse conn write).1, Responding conn.response k conn' := by
  obtain ⟨-, hle, hsent⟩ := nbWrite_spec hr hk write
  have hint : int32 conn.response.length = conn.response.length := by
    rw [int32, Int.bmod_eq_of_le] <;> omega
  unfold sendResponse
  rw [if_neg hne]
  dsimp only
  refine ⟨_, hle, ?_⟩
  split_ifs with herror hdone hkeep hkeep
  · exact ⟨hsent, by simp⟩
  · refine ⟨hsent, ?_⟩
    rintro _ ⟨⟩
    exact Or.inr ⟨by rw [hint] at hdone; exact_mod_cast hdone, rfl, rfl, rfl⟩
  · exact ⟨hsent, by simp⟩
  · refine ⟨hsent, ?_⟩
    rintro _ ⟨⟩
    have hlt : (nbWrite conn.response conn.bytesWritten write).1 ≠ conn.response.length := by
      rw [hint] at hdone
      exact_mod_cast hdone
    exact Or.inl ⟨hstate, rfl, rfl, by omega⟩
  · exact ⟨hsent, by simp⟩

/-! ### One event -/

/-- While a request comes in, nothing is written.  When it is there, it is executed as it was sent,
and the response is begun. -/
theorem handleEvent_of_waiting (hw : Waiting m d conn) (h : d ++ bytes reads <+: m.text)
    {handled : Handled σ} (hrun : handleEvent execute conn s reads write = some (handled, left)) :
    (handled.ran = none ∧ handled.sent = [] ∧ handled.server = s ∧
      ((handled.conn = none ∧ left = [] ∧ ¬ Quiet reads) ∨
        ∃ conn' p, handled.conn = some conn' ∧ bytes reads = p ++ bytes left ∧
          Waiting m (d ++ p) conn')) ∨
    ∃ response, execute m.body s = some (response, handled.server) ∧
      handled.ran = some (m.body, response) ∧ d ++ bytes reads = m.text ++ bytes left ∧
      (response ≠ [] → response.length < 2 ^ 31 → ∃ k, k ≤ response.length ∧
        handled.sent = response.take k ∧ ∀ conn' ∈ handled.conn, Responding response k conn') := by
  unfold handleEvent at hrun
  rcases receive_spec hw h with ⟨hquiet, hnone⟩ | ⟨conn', left', p, hreceive, hbytes, -, hreading⟩
  · simp only [hnone, Option.some.injEq, Prod.mk.injEq] at hrun
    obtain ⟨rfl, rfl⟩ := hrun
    exact Or.inl ⟨rfl, rfl, rfl, Or.inl ⟨rfl, rfl, hquiet⟩⟩
  · simp only [hreceive] at hrun
    rcases hreading with hwaiting | ⟨htext, hstate, hrequest, hresponse⟩
    · simp only [if_neg hwaiting.state_ne, Option.some.injEq, Prod.mk.injEq] at hrun
      obtain ⟨rfl, rfl⟩ := hrun
      exact Or.inl ⟨rfl, rfl, rfl, Or.inr ⟨conn', p, rfl, hbytes, hwaiting⟩⟩
    · simp only [if_pos hstate, writeResponse, if_pos hresponse, Option.map_map] at hrun
      obtain ⟨⟨response, s'⟩, hexecute, heq⟩ := Option.map_eq_some_iff.mp hrun
      obtain ⟨rfl, rfl⟩ := Prod.mk.inj heq
      rw [hrequest] at hexecute
      refine Or.inr ⟨response, hexecute, by simp only [hrequest],
        by rw [hbytes, ← List.append_assoc, htext], ?_⟩
      intro hne hlt
      obtain ⟨k, hk, hsent, hconn⟩ := sendResponse_spec
        { conn' with response, bytesWritten := 0 } hlt hstate hne (Nat.zero_le _) write
      exact ⟨k, hk, by simpa using hsent, hconn⟩

/-- While the response is written, nothing is read or executed. -/
theorem handleEvent_of_writing {r : Name} {k : ℕ} (hr : r.length < 2 ^ 31) (h : Writing r k conn)
    {handled : Handled σ} (hrun : handleEvent execute conn s reads write = some (handled, left)) :
    left = reads ∧ handled.ran = none ∧ handled.server = s ∧
      ∃ k', k' ≤ r.length ∧ r.take k ++ handled.sent = r.take k' ∧
        ∀ conn' ∈ handled.conn, Responding r k' conn' := by
  obtain ⟨hstate, rfl, rfl, hlt⟩ := h
  have hne : conn.response ≠ [] := List.ne_nil_of_length_pos (by omega)
  have hreceive : receive conn reads = some (conn, reads) := by
    simp [receive, hstate]
  simp only [handleEvent, hreceive, hstate, if_true, writeResponse, if_neg hne, Option.map_some,
    Option.some.injEq, Prod.mk.injEq] at hrun
  obtain ⟨rfl, rfl⟩ := hrun
  exact ⟨rfl, rfl, rfl, sendResponse_spec conn hr hstate hne hlt.le write⟩

end XmlRpcServerConnection

end IvySync
