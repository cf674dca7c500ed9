import IvySync.Xmlrpc.Connection

/-!
# The client

`XmlRpcClient::execute` writes a request and waits for the response in `handleEvent`, which the
client's own dispatcher calls.  Where the server has closed the connection before a byte of the
response has come, the client connects once more to send the request again.  The dispatcher holds
the node of its list that the client was in before that, and goes on to use it (`turn`).

`Expecting` says how much of a response the client has got between two events;
`turn_of_expecting` and `turn_of_writing` are what one turn of the dispatcher does.
-/

namespace IvySync

open Http XmlRpcSocket

/-- What a client is doing. -/
inductive ClientConnectionState
  | noConnection
  | connecting
  | writeRequest
  | readHeader
  | readResponse
  | idle
  deriving DecidableEq, Repr

/-- The list `_sources` of the dispatcher of a client, in which there is no other source: the node
of the client, if it is in the list.  A node has the number of the `push_back` that has made it, so
that no node is taken for one that was erased. -/
structure OwnSource where
  node : Option ℕ := none
  made : ℕ := 0
  lt : ∀ n ∈ node, n < made := by simp
  deriving DecidableEq

namespace OwnSource

/-- `XmlRpcDispatch::removeSource`. -/
def removeSource (sources : OwnSource) : OwnSource := { made := sources.made }

/-- `XmlRpcDispatch::addSource`, for a client that is not in the list. -/
def addSource (sources : OwnSource) : OwnSource where
  node := some sources.made
  made := sources.made + 1

end OwnSource

/-- A client without SSL, which keeps its connection open. -/
structure XmlRpcClient where
  connectionState : ClientConnectionState := .noConnection
  request : Name := []
  header : Name := []
  response : Name := []
  sendAttempts : ℕ := 0
  bytesWritten : ℕ := 0
  executing : Bool := false
  eof : Bool := false
  contentLength : ℤ := 0
  sources : OwnSource := {}
  deriving DecidableEq

namespace XmlRpcClient

/-! ### Generating a request -/

/-- Where the server is, and who logs in there. -/
structure Server where
  host : Name
  port : ℤ
  uri : Name := bytesOf "/RPC2"
  login : Name := []
  password : Name := []

/-- The lines of `generateHeader` in front of the last one. -/
def headerLines (server : Server) : List Name :=
  [bytesOf "POST " ++ server.uri ++ bytesOf " HTTP/1.1",
    bytesOf "User-Agent: " ++ XmlRpcServer.version,
    bytesOf "Host: " ++ server.host ++ bytesOf ":" ++ printD server.port] ++
  (if server.login = [] then []
    else [bytesOf "Authorization: Basic " ++
      (Base64.put 0 (server.login ++ bytesOf ":" ++ server.password)).filter
        fun c => c ≠ 13 ∧ c ≠ 10]) ++
  [bytesOf "Content-Type: text/xml"]

/-- `generateHeader`. -/
def generateHeader (server : Server) (body : Name) : Name :=
  headerOf (headerLines server) (int32 body.length)

/-- `generateRequest`. -/
def generateRequest (floats : Floats) (server : Server) (methodName : Name) (params : XmlRpcValue) :
    Name :=
  generateHeader server (requestBody floats methodName params) ++
    requestBody floats methodName params

/-! ### Executing -/

/-- What `doConnect` comes to: there is no socket, or one that cannot be made non-blocking or
connected, or the client is connected. -/
inductive Connect
  | noSocket
  | refused
  | connected
  deriving DecidableEq, Repr

/-- `XmlRpcClient::close`. -/
def close (client : XmlRpcClient) : XmlRpcClient :=
  { client with connectionState := .noConnection, sources := client.sources.removeSource }

/-- `doConnect`. -/
def doConnect (client : XmlRpcClient) : Connect → XmlRpcClient × Bool
  | .noSocket => (client, false)
  | .refused => (client.close, false)
  | .connected => (client, true)

/-- `setupConnection`. -/
def setupConnection (client : XmlRpcClient) (connect : Connect) : XmlRpcClient × Bool :=
  let client :=
    if client.connectionState ≠ .noConnection ∧ client.connectionState ≠ .idle ∨ client.eof then
      client.close
    else client
  let client := { client with eof := false }
  let (client, ok) :=
    if client.connectionState = .noConnection then client.doConnect connect else (client, true)
  if ok then
    ({ client with
      connectionState := .writeRequest
      bytesWritten := 0
      sources := client.sources.removeSource.addSource }, true)
  else (client, false)

/-- Whether `setupConnection` calls `doConnect`. -/
def Connects (client : XmlRpcClient) : Prop := client.connectionState ≠ .idle ∨ client.eof

instance (client : XmlRpcClient) : Decidable client.Connects :=
  inferInstanceAs (Decidable (_ ∨ _))

/-- `execute` up to the call of `work`; `none` if a request is being executed. -/
def start (client : XmlRpcClient) (request : Name) (connect : Connect) :
    Option (XmlRpcClient × Bool) :=
  if client.executing then none
  else
    let (client, ok) := setupConnection { client with sendAttempts := 0 } connect
    some (if ok then { client with request, executing := true } else client, ok)

/-- `execute` behind the call of `work`: the text that is parsed. -/
def finish (client : XmlRpcClient) : XmlRpcClient × Option Name :=
  ({ client with executing := false, response := [] },
    if client.connectionState = .idle then some client.response else none)

/-- What an event has led to: the client, whether its socket is still monitored, and the bytes that
were written. -/
structure Handled where
  client : XmlRpcClient
  monitored : Bool
  sent : Name := []

/-- `writeRequest`. -/
def writeRequest (client : XmlRpcClient) (write : Write) : Handled :=
  let (bytesWritten, sent) := nbWrite client.request client.bytesWritten write
  let client := { client with bytesWritten }
  if write.2 = false then { client, monitored := false, sent }
  else if bytesWritten = int32 client.request.length then
    { client := { client with header := [], response := [], connectionState := .readHeader }
      monitored := true, sent }
  else { client, monitored := true, sent }

/-- `readHeader`. -/
def readHeader (client : XmlRpcClient) (reads : List Read) (connect : Connect) :
    Handled × List Read :=
  let (header, e, reads) := nbRead client.header reads
  let client := { client with header, eof := decide (e = .eof) }
  if e = .error ∨ e = .eof ∧ header = [] then
    if header = [] then
      let retry := client.sendAttempts = 0
      let client := { client with sendAttempts := client.sendAttempts + 1 }
      if retry then
        let client := { client with connectionState := .noConnection, eof := false }
        let (client, ok) := setupConnection client connect
        ({ client, monitored := ok }, reads)
      else ({ client, monitored := false }, reads)
    else ({ client, monitored := false }, reads)
  else
    match Http.readHeader false header with
    | .incomplete => ({ client, monitored := decide (e ≠ .eof) }, reads)
    | .invalid => ({ client, monitored := false }, reads)
    | .complete contentLength _ response =>
      ({ client := { client with
          contentLength, response
          header := []
          connectionState := .readResponse }
         monitored := true }, reads)

/-- `readResponse`. -/
def readResponse (client : XmlRpcClient) (reads : List Read) : Handled × List Read :=
  if int32 client.response.length < client.contentLength then
    let (response, e, reads) := nbRead client.response reads
    let client := { client with response, eof := decide (e = .eof) }
    if e = .error then ({ client, monitored := false }, reads)
    else if int32 response.length < client.contentLength then
      ({ client, monitored := decide (e ≠ .eof) }, reads)
    else ({ client := { client with connectionState := .idle }, monitored := false }, reads)
  else ({ client := { client with connectionState := .idle }, monitored := false }, reads)

/-- The part of `handleEvent` that reads. -/
def receive (client : XmlRpcClient) (reads : List Read) (connect : Connect) : Handled × List Read :=
  let (handled, reads) :=
    if client.connectionState = .readHeader then readHeader client reads connect
    else ({ client, monitored := true }, reads)
  if handled.monitored = true ∧ handled.client.connectionState = .readResponse then
    readResponse handled.client reads
  else (handled, reads)

/-- `handleEvent`, where no exception is signalled. -/
def handleEvent (client : XmlRpcClient) (reads : List Read) (write : Write) (connect : Connect) :
    Handled × List Read :=
  let written :=
    if client.connectionState = .writeRequest then writeRequest client write
    else { client, monitored := true }
  if written.monitored then
    let (handled, reads) := receive written.client reads connect
    ({ handled with sent := written.sent }, reads)
  else (written, reads)

/-- The dispatcher holds a node of its list, and it is still there. -/
def Kept (client client' : XmlRpcClient) : Prop :=
  client.sources.node ≠ none ∧ client'.sources.node = client.sources.node

instance (client client' : XmlRpcClient) : Decidable (Kept client client') :=
  inferInstanceAs (Decidable (_ ∧ _))

/-- A turn of the loop of the client's dispatcher, if the client is in its list.  The mask that
`handleEvent` returns is written to the node that the dispatcher has held since before the call, or
this node is erased; what happens is not defined if `handleEvent` has freed it. -/
def turn (client : XmlRpcClient) (reads : List Read) (write : Write) (connect : Connect) :
    Option (Handled × List Read) :=
  let (handled, reads) := handleEvent client reads write connect
  if Kept client handled.client then
    some (if handled.monitored then handled
      else { handled with
        client := { handled.client with sources := handled.client.sources.removeSource } }, reads)
  else none

/-- The client is going to write its request, if it is connected. -/
theorem setupConnection_spec (client : XmlRpcClient) (connect : Connect) :
    (setupConnection client connect).1.executing = client.executing ∧
      (setupConnection client connect).1.sendAttempts = client.sendAttempts ∧
      ((setupConnection client connect).2 = false →
        (setupConnection client connect).1.connectionState = .noConnection) ∧
      ((setupConnection client connect).2 = true →
        (setupConnection client connect).1.connectionState = .writeRequest ∧
        (setupConnection client connect).1.bytesWritten = 0 ∧
        (setupConnection client connect).1.sources.node = some client.sources.made) := by
  unfold setupConnection
  by_cases hclose : client.connectionState ≠ .noConnection ∧ client.connectionState ≠ .idle ∨
      client.eof = true
  · simp only [if_pos hclose]
    cases connect <;> simp [close, doConnect, OwnSource.removeSource, OwnSource.addSource]
  · simp only [if_neg hclose]
    by_cases hstate : client.connectionState = .noConnection
    · cases connect <;>
        simp [hstate, close, doConnect, OwnSource.removeSource, OwnSource.addSource]
    · simp [hstate, OwnSource.removeSource, OwnSource.addSource]

/-- What `execute` does before it waits. -/
theorem start_spec {client client' : XmlRpcClient} {request : Name} {connect : Connect} {ok : Bool}
    (h : start client request connect = some (client', ok)) :
    client.executing = false ∧
      (ok = false → client'.executing = false ∧ client'.connectionState = .noConnection) ∧
      (ok = true → client'.executing = true ∧ client'.connectionState = .writeRequest ∧
        client'.request = request ∧ client'.bytesWritten = 0 ∧ client'.sendAttempts = 0 ∧
        client'.sources.node ≠ none) := by
  unfold start at h
  split_ifs at h with hexecuting
  rw [Bool.not_eq_true] at hexecuting
  have hspec := setupConnection_spec { client with sendAttempts := 0 } connect
  rcases hsetup : setupConnection { client with sendAttempts := 0 } connect with ⟨client₁, ok₁⟩
  rw [hsetup] at hspec h
  dsimp only at hspec h
  obtain ⟨hsame, hattempts, hfailed, hok⟩ := hspec
  obtain ⟨rfl, rfl⟩ := Prod.mk.inj (Option.some.inj h)
  refine ⟨hexecuting, ?_, ?_⟩
  · intro h
    rw [if_neg (by simp [h])]
    exact ⟨hsame.trans hexecuting, hfailed h⟩
  · intro h
    obtain ⟨hstate, hwritten, hnode⟩ := hok h
    rw [if_pos h]
    exact ⟨rfl, hstate, rfl, hwritten, hattempts, by simp [hnode]⟩

/-! ### The node of the dispatcher -/

section Node

variable {client : XmlRpcClient} {reads : List Read} {write : Write} {connect : Connect}

/-- The client finds the end of the stream or an error before it has got a byte of a response, for
the first time. -/
def Retries (client : XmlRpcClient) (reads : List Read) : Prop :=
  client.header = [] ∧ client.sendAttempts = 0 ∧
    ∃ e left, reads = ([], e) :: left ∧ e ≠ .wouldBlock

theorem nbRead_eq_nil {s : Name} :
    ((nbRead s reads).1 = [] ∧ ((nbRead s reads).2.1 = .error ∨ (nbRead s reads).2.1 = .eof)) ↔
      s = [] ∧ ∃ e left, reads = ([], e) :: left ∧ e ≠ .wouldBlock := by
  cases reads with
  | nil => simp [nbRead]
  | cons read reads =>
    obtain ⟨bytes, e⟩ := read
    cases e <;> simp [nbRead, and_assoc]

/-- The node of the dispatcher stays in the list, unless the client makes a new socket. -/
theorem readHeader_kept (hnode : client.sources.node ≠ none) :
    Kept client (readHeader client reads connect).1.client ↔
      ¬ (Retries client reads ∧ connect ≠ .noSocket) := by
  have hretries : Retries client reads ↔
      ((nbRead client.header reads).1 = [] ∧ ((nbRead client.header reads).2.1 = .error ∨
        (nbRead client.header reads).2.1 = .eof)) ∧ client.sendAttempts = 0 := by
    rw [nbRead_eq_nil, Retries]
    tauto
  obtain ⟨header, e, left, hread⟩ : ∃ header e left,
      nbRead client.header reads = (header, e, left) := ⟨_, _, _, rfl⟩
  have hmade : client.sources.node ≠ some client.sources.made := fun heq =>
    absurd (client.sources.lt _ heq) (lt_irrefl _)
  rw [hretries, hread, Kept]
  unfold readHeader
  simp only [hread]
  split_ifs with herror hempty hretry
  · -- the request is to be sent again
    have heof : e = .error ∨ e = .eof := herror.imp_right And.left
    simp only [hempty, hretry, heof]
    cases connect
    · simp [setupConnection, doConnect, hnode]
    · simp [setupConnection, doConnect, close, OwnSource.removeSource, hnode.symm]
    · simp [setupConnection, doConnect, OwnSource.removeSource, OwnSource.addSource, hmade.symm]
  · simp [hretry, hnode]
  · simp [hempty, hnode]
  · have hnot : ¬ (header = [] ∧ (e = .error ∨ e = .eof)) := by tauto
    simp only [hnot, false_and, not_false_eq_true, iff_true]
    split <;> exact ⟨hnode, rfl⟩

theorem readResponse_sources (client : XmlRpcClient) (reads : List Read) :
    (readResponse client reads).1.client.sources = client.sources := by
  unfold readResponse
  dsimp only
  split_ifs <;> rfl

theorem receive_kept (reads : List Read) (connect : Connect) (hnode : client.sources.node ≠ none) :
    Kept client (receive client reads connect).1.client ↔
      ¬ (client.connectionState = .readHeader ∧ Retries client reads ∧ connect ≠ .noSocket) := by
  have hsources : (receive client reads connect).1.client.sources =
      if client.connectionState = .readHeader then
        (readHeader client reads connect).1.client.sources
      else client.sources := by
    unfold receive
    split_ifs with hstate
    all_goals
      dsimp only
      split_ifs
      · exact readResponse_sources _ _
      · rfl
  unfold Kept
  rw [hsources]
  split_ifs with hstate
  · simpa [hstate, Kept] using readHeader_kept hnode
  · simp [hstate, hnode]

/-- The request has been written when this is. -/
def Written (client : XmlRpcClient) (write : Write) : Prop :=
  client.connectionState = .writeRequest ∧ write.2 = true ∧
    (nbWrite client.request client.bytesWritten write).1 = int32 client.request.length

/-- The node of the dispatcher stays in the list, unless the client has written its request and then
makes a new socket. -/
theorem handleEvent_kept (hnode : client.sources.node ≠ none) :
    Kept client (handleEvent client reads write connect).1.client ↔
      ¬ ((client.connectionState = .readHeader ∧ Retries client reads ∨
          Written client write ∧ Retries { client with header := [] } reads) ∧
        connect ≠ .noSocket) := by
  by_cases hstate : client.connectionState = .writeRequest
  · simp only [handleEvent, Written, hstate, true_and]
    by_cases herror : write.2 = false
    · simp [writeRequest, herror, Kept, hnode]
    · by_cases hdone : (nbWrite client.request client.bytesWritten write).1 =
          int32 client.request.length
      · -- the request is written, and the client looks for the response at once
        set client₁ : XmlRpcClient := { client with
          bytesWritten := (nbWrite client.request client.bytesWritten write).1
          header := []
          response := []
          connectionState := .readHeader } with hclient₁
        have hwritten : writeRequest client write =
            { client := client₁
              monitored := true
              sent := (nbWrite client.request client.bytesWritten write).2 } := by
          simp [writeRequest, herror, hdone, hclient₁]
        have hkept := receive_kept reads connect
          (show client₁.sources.node ≠ none from hnode)
        simpa [hwritten, hdone, Kept, Retries, hclient₁, herror] using hkept
      · have hwritten : (writeRequest client write).client.connectionState ≠ .readHeader ∧
            (writeRequest client write).monitored = true ∧
            (writeRequest client write).client.sources = client.sources := by
          simp [writeRequest, herror, hdone, hstate]
        obtain ⟨hstate₁, hmonitored, hsources⟩ := hwritten
        have hkept := receive_kept reads connect
          (show (writeRequest client write).client.sources.node ≠ none by rwa [hsources])
        simpa [hmonitored, hdone, hstate₁, Kept, hsources, hnode] using hkept
  · have hkept := receive_kept reads connect hnode
    simpa [handleEvent, hstate, Written, and_assoc] using hkept

end Node

/-! ### Reading a response -/

variable {client : XmlRpcClient} {m : Message false} {d x : Name} {reads left : List Read}
  {write : Write} {connect : Connect} {handled : Handled}

/-- The client has got the header of a response, and `x` of its body. -/
structure InBody (m : Message false) (x : Name) (client : XmlRpcClient) : Prop where
  state : client.connectionState = .readResponse
  response : client.response = x
  contentLength : client.contentLength = m.body.length
  front : x <+: m.body
  ne : x ≠ []

/-- The client has got `d` of a response and waits for the rest of it. -/
inductive Expecting (m : Message false) (d : Name) (client : XmlRpcClient) : Prop
  | header (h : d <+: m.head) (hstate : client.connectionState = .readHeader)
      (hheader : client.header = d)
  | response (x : Name) (hd : d = m.head ++ x) (h : InBody m x client)
      (hlt : x.length < m.body.length)

/-- A client that waits for a response has written its request. -/
theorem Expecting.state_ne (h : Expecting m d client) :
    client.connectionState ≠ .writeRequest := by
  cases h with
  | header _ hstate _ => simp [hstate]
  | response _ _ hin _ => simp [hin.state]

/-- What does not change while the client reads. -/
structure Same (client client' : XmlRpcClient) : Prop where
  request : client'.request = client.request
  executing : client'.executing = client.executing
  sendAttempts : client'.sendAttempts = client.sendAttempts
  sources : client'.sources = client.sources

namespace Same

theorem refl (client : XmlRpcClient) : Same client client := ⟨rfl, rfl, rfl, rfl⟩

theorem trans {client₁ client₂ : XmlRpcClient} (h : Same client client₁)
    (h' : Same client₁ client₂) : Same client client₂ :=
  ⟨h'.1.trans h.1, h'.2.trans h.2, h'.3.trans h.3, h'.4.trans h.4⟩

end Same

/-- What reading leads to for a client that has got `d` of a response. -/
inductive Got (m : Message false) (d : Name) (client : XmlRpcClient) (reads : List Read)
    (handled : Handled) (left : List Read) : Prop
  /-- It waits for more. -/
  | more (p : Name) (hbytes : bytes reads = p ++ bytes left)
      (h : Expecting m (d ++ p) handled.client) (hsame : Same client handled.client)
      (hmonitored : handled.monitored = true)
  /-- It has got the whole response. -/
  | done (hbytes : d ++ bytes reads = m.text ++ bytes left)
      (hstate : handled.client.connectionState = .idle)
      (hresponse : handled.client.response = m.body) (hmonitored : handled.monitored = false)
  /-- There is an error, or the end of the stream. -/
  | failed (hquiet : ¬ Quiet reads) (hstate : handled.client.connectionState ≠ .idle)
      (hmonitored : handled.monitored = false)

/-- The length of a part of the body is an `int`. -/
theorem int32_length (hx : x <+: m.body) : int32 x.length = x.length := by
  have hle := hx.length_le
  have hlt := m.lt
  rw [int32, Int.bmod_eq_of_le] <;> omega

/-- With enough of the body, the response is complete; else the client waits for more. -/
theorem readResponse_spec (hin : InBody m x client) (h : x ++ bytes reads <+: m.body) :
    Got m (m.head ++ x) client reads (readResponse client reads).1
      (readResponse client reads).2 := by
  obtain ⟨hstate, rfl, hlength, hbody, hne⟩ := hin
  have hle := hbody.length_le
  unfold readResponse
  rw [int32_length hbody]
  split_ifs with hlt
  · obtain ⟨response, e, left, hread⟩ : ∃ response e left,
        nbRead client.response reads = (response, e, left) := ⟨_, _, _, rfl⟩
    obtain ⟨p, rfl, hbytes, hquiet⟩ := nbRead_spec hread
    have hp : client.response ++ p <+: m.body := by
      rw [hbytes, ← List.append_assoc] at h
      exact (List.prefix_append _ _).trans h
    have hp' := hp.length_le
    simp only [hread]
    split_ifs with herror hlt'
    · exact .failed (fun hq => by simp [(hquiet hq).1] at herror) (by simp [hstate]) rfl
    · rw [int32_length hp] at hlt'
      by_cases heof : e = .eof
      · exact .failed (fun hq => by simp [(hquiet hq).1] at heof) (by simp [hstate]) (by simp [heof])
      · refine .more p hbytes ?_ ⟨rfl, rfl, rfl, rfl⟩ (by simp [heof])
        exact .response _ (List.append_assoc _ _ _) ⟨hstate, rfl, hlength, hp, by simp [hne]⟩
          (by omega)
    · rw [int32_length hp] at hlt'
      have heq : client.response ++ p = m.body := hp.eq_of_length (by omega)
      refine .done ?_ rfl heq rfl
      rw [hbytes, Message.text, ← heq]
      simp only [List.append_assoc]
  · have heq : client.response = m.body := hbody.eq_of_length (by omega)
    exact .done (by rw [heq, Message.text]) rfl heq rfl

/-- With a part of the body, the header is complete. -/
theorem readHeader_spec (hstate : client.connectionState = .readHeader)
    (h : client.header ++ bytes reads <+: m.text)
    (hkept : Kept client (readHeader client reads connect).1.client) :
    (Got m client.header client reads (readHeader client reads connect).1
        (readHeader client reads connect).2 ∧
      ((readHeader client reads connect).1.monitored = true →
        (readHeader client reads connect).1.client.connectionState ≠ .readResponse)) ∨
      ∃ x p, client.header ++ p = m.head ++ x ∧
        bytes reads = p ++ bytes (readHeader client reads connect).2 ∧
        (Quiet reads → Quiet (readHeader client reads connect).2) ∧
        InBody m x (readHeader client reads connect).1.client ∧
        Same client (readHeader client reads connect).1.client ∧
        (readHeader client reads connect).1.monitored = true := by
  have hretry := (readHeader_kept hkept.1).mp hkept
  obtain ⟨header, e, left, hread⟩ : ∃ header e left,
      nbRead client.header reads = (header, e, left) := ⟨_, _, _, rfl⟩
  obtain ⟨p, rfl, hbytes, hquiet⟩ := nbRead_spec hread
  have hp : client.header ++ p <+: m.text := by
    rw [hbytes, ← List.append_assoc] at h
    exact (List.prefix_append _ _).trans h
  unfold readHeader
  simp only [hread]
  split_ifs with herror hempty hattempts
  · -- the request would be sent again, but there is no socket
    have hq : ¬ Quiet reads := fun hq => by simp [(hquiet hq).1] at herror
    obtain ⟨hnil, -⟩ := List.append_eq_nil_iff.mp hempty
    have hend := nbRead_eq_nil.mp (show (nbRead client.header reads).1 = [] ∧
        ((nbRead client.header reads).2.1 = .error ∨ (nbRead client.header reads).2.1 = .eof) by
      rw [hread]
      exact ⟨hempty, herror.imp_right And.left⟩)
    obtain rfl : connect = .noSocket := by
      by_contra hsocket
      exact hretry ⟨⟨hnil, hattempts, hend.2⟩, hsocket⟩
    exact Or.inl ⟨.failed hq (by simp [setupConnection, doConnect]) rfl,
      by simp [setupConnection, doConnect]⟩
  · have hq : ¬ Quiet reads := fun hq => by simp [(hquiet hq).1] at herror
    exact Or.inl ⟨.failed hq (by simp [hstate]) rfl, by simp⟩
  · have hq : ¬ Quiet reads := fun hq => by simp [(hquiet hq).1] at herror
    exact Or.inl ⟨.failed hq (by simp [hstate]) rfl, by simp⟩
  · rcases m.readHeader_prefix hp with
      ⟨hhead, hincomplete⟩ | ⟨x, keep, hne, hx, hsplit, hcomplete⟩
    · simp only [hincomplete]
      refine Or.inl ⟨?_, by simp [hstate]⟩
      by_cases heof : e = .eof
      · exact .failed (fun hq => by simp [(hquiet hq).1] at heof) (by simp [hstate]) (by simp [heof])
      · exact .more p hbytes (.header hhead hstate rfl) ⟨rfl, rfl, rfl, rfl⟩ (by simp [heof])
    · simp only [hcomplete]
      exact Or.inr ⟨x, p, hsplit, hbytes, fun hq => (hquiet hq).2, ⟨rfl, rfl, rfl, hx, hne⟩,
        ⟨rfl, rfl, rfl, rfl⟩, trivial⟩

/-- Whatever pieces the response comes in, the client waits for the rest of it or has got it as it
was sent, unless there is an error. -/
theorem receive_spec (hw : Expecting m d client) (h : d ++ bytes reads <+: m.text)
    (hkept : Kept client (receive client reads connect).1.client) :
    Got m d client reads (receive client reads connect).1 (receive client reads connect).2 := by
  have hbody : ∀ {x t : Name}, m.head ++ x ++ t <+: m.text → x ++ t <+: m.body := by
    intro x t h
    rw [List.append_assoc, Message.text] at h
    exact (List.prefix_append_right_inj _).mp h
  cases hw with
  | response x hd hin hlt =>
    subst hd
    have hreceive : receive client reads connect = readResponse client reads := by
      simp [receive, hin.state]
    rw [hreceive]
    exact readResponse_spec hin (hbody h)
  | header hhead hstate hheader =>
    subst hheader
    have hretry := (receive_kept _ _ hkept.1).mp hkept
    have hkept' : Kept client (readHeader client reads connect).1.client :=
      (readHeader_kept hkept.1).mpr fun hretries => hretry ⟨hstate, hretries⟩
    unfold receive
    rw [if_pos hstate]
    rcases readHeader_spec hstate h hkept' with
      ⟨hgot, hstop⟩ | ⟨x, p, hsplit, hbytes, hquiet, hin, hsame, hmonitored⟩
    · dsimp only
      rw [if_neg fun hrest => hstop hrest.1 hrest.2]
      exact hgot
    · dsimp only
      rw [if_pos ⟨hmonitored, hin.state⟩]
      rw [hbytes, ← List.append_assoc, hsplit] at h
      have hrest := readResponse_spec hin (hbody h)
      set left := (readHeader client reads connect).2
      set client' := (readHeader client reads connect).1.client
      cases hrest with
      | more q hq hexpecting hsame' hmonitored' =>
        refine .more (p ++ q) (by rw [hbytes, hq, List.append_assoc]) ?_ (hsame.trans hsame')
          hmonitored'
        rwa [← List.append_assoc, hsplit]
      | done hq hstate' hresponse hmonitored' =>
        refine .done ?_ hstate' hresponse hmonitored'
        rw [hbytes, ← List.append_assoc, hsplit, hq]
      | failed hq hstate' hmonitored' =>
        exact .failed (fun hquiet' => hq (hquiet hquiet')) hstate' hmonitored'

/-! ### One event -/

/-- A response of which nothing has come may be any one. -/
theorem Expecting.any (h : Expecting m [] client) (m' : Message false) :
    Expecting m' [] client := by
  cases h with
  | header _ hstate hheader => exact .header List.nil_prefix hstate hheader
  | response x hd hin => exact absurd (List.append_eq_nil_iff.mp hd.symm).2 hin.ne

/-- What is written at the same time makes no difference. -/
theorem Got.sent {client₁ : XmlRpcClient} (h : Got m d client₁ reads handled left)
    (hsame : Same client client₁) (sent : Name) :
    Got m d client reads { handled with sent } left := by
  cases h with
  | more p hbytes h hsame' hmonitored => exact .more p hbytes h (hsame.trans hsame') hmonitored
  | done hbytes hstate hresponse hmonitored => exact .done hbytes hstate hresponse hmonitored
  | failed hquiet hstate hmonitored => exact .failed hquiet hstate hmonitored

/-- A client that is not monitored any more is erased from the sources. -/
theorem Got.erased (h : Got m d client reads handled left) (sources : OwnSource) :
    Got m d client reads (if handled.monitored then handled
      else { handled with client := { handled.client with sources } }) left := by
  cases h with
  | more p hbytes h hsame hmonitored =>
    rw [if_pos hmonitored]
    exact .more p hbytes h hsame hmonitored
  | done hbytes hstate hresponse hmonitored =>
    rw [if_neg (by simp [hmonitored])]
    exact .done hbytes hstate hresponse hmonitored
  | failed hquiet hstate hmonitored =>
    rw [if_neg (by simp [hmonitored])]
    exact .failed hquiet hstate hmonitored

/-- A turn of the dispatcher that is defined. -/
theorem turn_eq_some (h : turn client reads write connect = some (handled, left)) :
    Kept client (handleEvent client reads write connect).1.client ∧
      left = (handleEvent client reads write connect).2 ∧
      handled.sent = (handleEvent client reads write connect).1.sent ∧
      ∃ sources, handled = if (handleEvent client reads write connect).1.monitored then
          (handleEvent client reads write connect).1
        else { (handleEvent client reads write connect).1 with
          client := { (handleEvent client reads write connect).1.client with sources } } := by
  unfold turn at h
  dsimp only at h
  by_cases hkept : Kept client (handleEvent client reads write connect).1.client
  · rw [if_pos hkept] at h
    obtain ⟨rfl, rfl⟩ := Prod.mk.inj (Option.some.inj h)
    refine ⟨hkept, rfl, ?_, _, rfl⟩
    split_ifs <;> rfl
  · rw [if_neg hkept] at h
    simp at h

/-- While the client waits for a response, nothing is written. -/
theorem handleEvent_of_expecting (hw : Expecting m d client) (h : d ++ bytes reads <+: m.text)
    (hkept : Kept client (handleEvent client reads write connect).1.client) :
    (handleEvent client reads write connect).1.sent = [] ∧
      Got m d client reads (handleEvent client reads write connect).1
        (handleEvent client reads write connect).2 := by
  unfold handleEvent at hkept ⊢
  rw [if_neg hw.state_ne] at hkept ⊢
  exact ⟨rfl, (receive_spec hw h hkept).sent (.refl _) []⟩

theorem turn_of_expecting (hw : Expecting m d client) (h : d ++ bytes reads <+: m.text)
    (hturn : turn client reads write connect = some (handled, left)) :
    handled.sent = [] ∧ Got m d client reads handled left := by
  obtain ⟨hkept, rfl, hsent, sources, rfl⟩ := turn_eq_some hturn
  obtain ⟨hnothing, hgot⟩ := handleEvent_of_expecting hw h hkept
  exact ⟨hsent.trans hnothing, hgot.erased sources⟩

/-- What one event leads to for a client that has written a part of a request. -/
inductive Wrote (q : Message true) (client : XmlRpcClient) (reads : List Read) (handled : Handled)
    (left : List Read) : ℕ → Prop
  /-- There is more to write. -/
  | more (w : ℕ) (hlt : w < q.text.length) (hleft : left = reads)
      (hstate : handled.client.connectionState = .writeRequest)
      (hwritten : handled.client.bytesWritten = w) (hsame : Same client handled.client)
      (hmonitored : handled.monitored = true) :
      Wrote q client reads handled left w
  /-- There is an error. -/
  | failed (w : ℕ) (hle : w ≤ q.text.length) (hstate : handled.client.connectionState ≠ .idle)
      (hmonitored : handled.monitored = false) :
      Wrote q client reads handled left w
  /-- The request is written, and nothing of the response is there. -/
  | done (m : Message false) (h : Got m [] client reads handled left) :
      Wrote q client reads handled left q.text.length

theorem Wrote.erased {q : Message true} {w : ℕ} (h : Wrote q client reads handled left w)
    (sources : OwnSource) :
    Wrote q client reads (if handled.monitored then handled
      else { handled with client := { handled.client with sources } }) left w := by
  cases h with
  | more w hlt hleft hstate hwritten hsame hmonitored =>
    rw [if_pos hmonitored]
    exact .more w hlt hleft hstate hwritten hsame hmonitored
  | failed w hle hstate hmonitored =>
    rw [if_neg (by simp [hmonitored])]
    exact .failed w hle hstate hmonitored
  | done m h => exact .done m (h.erased sources)

/-- The request is written on from where the client was. -/
theorem writeRequest_spec {q : Message true} (hstate : client.connectionState = .writeRequest)
    (hrequest : client.request = q.text) (hw : client.bytesWritten ≤ q.text.length)
    (write : Write) :
    ∃ w, w ≤ q.text.length ∧
      q.text.take client.bytesWritten ++ (writeRequest client write).sent = q.text.take w ∧
      Same client (writeRequest client write).client ∧
      ((writeRequest client write).monitored = false ∧
          (writeRequest client write).client.connectionState = .writeRequest ∨
        (writeRequest client write).monitored = true ∧ w < q.text.length ∧
          (writeRequest client write).client.connectionState = .writeRequest ∧
          (writeRequest client write).client.bytesWritten = w ∨
        (writeRequest client write).monitored = true ∧ w = q.text.length ∧
          (writeRequest client write).client.connectionState = .readHeader ∧
          (writeRequest client write).client.header = []) := by
  have hlength := q.length_text
  rw [← hrequest] at hlength hw ⊢
  obtain ⟨-, hle, hsent⟩ := nbWrite_spec hlength hw write
  have hint : int32 client.request.length = client.request.length := by
    rw [int32, Int.bmod_eq_of_le] <;> omega
  refine ⟨_, hle, ?_⟩
  unfold writeRequest
  dsimp only
  rw [hint]
  split_ifs with herror hdone
  · exact ⟨hsent, ⟨rfl, rfl, rfl, rfl⟩, Or.inl ⟨rfl, hstate⟩⟩
  · exact ⟨hsent, ⟨rfl, rfl, rfl, rfl⟩, Or.inr (Or.inr ⟨rfl, by exact_mod_cast hdone, rfl, rfl⟩)⟩
  · have hlt : (nbWrite client.request client.bytesWritten write).1 ≠ client.request.length := by
      exact_mod_cast hdone
    exact ⟨hsent, ⟨rfl, rfl, rfl, rfl⟩, Or.inr (Or.inl ⟨rfl, by omega, hstate, rfl⟩)⟩

/-- While the request is written, no part of a response is there. -/
theorem handleEvent_of_writing {q : Message true} (hstate : client.connectionState = .writeRequest)
    (hrequest : client.request = q.text) (hw : client.bytesWritten ≤ q.text.length)
    (h : bytes reads = [])
    (hkept : Kept client (handleEvent client reads write connect).1.client) :
    ∃ w, q.text.take client.bytesWritten ++ (handleEvent client reads write connect).1.sent =
        q.text.take w ∧
      Wrote q client reads (handleEvent client reads write connect).1
        (handleEvent client reads write connect).2 w := by
  obtain ⟨w, hle, hsent, hsame, hcases⟩ := writeRequest_spec hstate hrequest hw write
  refine ⟨w, ?_⟩
  unfold handleEvent at hkept ⊢
  rw [if_pos hstate] at hkept ⊢
  dsimp only at hkept ⊢
  set written := writeRequest client write
  rcases hcases with ⟨hmonitored, hstate'⟩ | ⟨hmonitored, hlt, hstate', hwritten⟩ |
    ⟨hmonitored, rfl, hstate', hheader⟩
  · rw [if_neg (by simp [hmonitored])]
    exact ⟨hsent, .failed w hle (by simp [hstate']) hmonitored⟩
  · have hreceive : receive written.client reads connect =
        ({ client := written.client, monitored := true }, reads) := by
      simp [receive, hstate']
    rw [if_pos hmonitored, hreceive]
    exact ⟨hsent, .more w hlt rfl hstate' hwritten hsame rfl⟩
  · have hexpecting : Expecting default [] written.client :=
      .header List.nil_prefix hstate' hheader
    have hprefix : [] ++ bytes reads <+: (default : Message false).text := by
      rw [h]
      exact List.nil_prefix
    rw [if_pos hmonitored] at hkept ⊢
    have hkept' : Kept written.client (receive written.client reads connect).1.client := by
      rwa [Kept, hsame.sources]
    exact ⟨hsent, .done default ((receive_spec hexpecting hprefix hkept').sent hsame _)⟩

theorem turn_of_writing {q : Message true} (hstate : client.connectionState = .writeRequest)
    (hrequest : client.request = q.text) (hw : client.bytesWritten ≤ q.text.length)
    (h : bytes reads = []) (hturn : turn client reads write connect = some (handled, left)) :
    ∃ w, q.text.take client.bytesWritten ++ handled.sent = q.text.take w ∧
      Wrote q client reads handled left w := by
  obtain ⟨hkept, rfl, hsent, sources, rfl⟩ := turn_eq_some hturn
  obtain ⟨w, hwritten, hwrote⟩ := handleEvent_of_writing hstate hrequest hw h hkept
  exact ⟨w, hsent ▸ hwritten, hwrote.erased sources⟩

end XmlRpcClient

end IvySync
