import IvySync.Xmlrpc.Executions
import IvySync.Xmlrpc.Server

/-!
# Remote calls

The clients and the server with the messages that they generate and parse.  The text of
`generateRequest` is a message that the server reads (`exists_isCall`), and the response to any
request is a message that the client reads (`responds_serve`).  Together with the runs of the
network: what a call returns is what the method that it names has done to the state of the server
at a moment between the begin and the end of the call, for the parameters that were sent, as the
server has received them (`remote_call`).
-/

namespace IvySync

open Http XmlRpcValue

/-! ### Messages -/

/-- A number has a sign and digits. -/
theorem mem_printD {n : ℤ} {c : UInt8} (h : c ∈ printD n) : c = 45 ∨ isdigit c = true := by
  unfold printD at h
  split_ifs at h
  · exact (List.mem_cons.mp h).imp_right (digits_decimal _ c)
  · exact Or.inr (digits_decimal _ c h)

/-- The lines of a header and a body, with the length of the body as an `int`. -/
theorem Http.Message.exists_of_lines (server : Bool) {lines : List Name} {body : Name}
    (h : ∀ line ∈ lines, Line line) (hne : body ≠ []) (hnul : 0 ∉ body)
    (hlt : (headerOf lines (int32 body.length) ++ body).length < 2 ^ 31) :
    ∃ m : Message server, m.head = headerOf lines (int32 body.length) ∧ m.body = body := by
  have hlength : int32 body.length = body.length := by
    rw [List.length_append] at hlt
    rw [int32, Int.bmod_eq_of_le] <;> omega
  rw [hlength] at hlt ⊢
  exact ⟨Message.ofLines lines body h hne hlt hnul, rfl, rfl⟩

namespace XmlRpcServer

/-- The lines of `generateHeader` in front of the last one. -/
def headerLines : List Name :=
  [bytesOf "HTTP/1.1 200 OK", bytesOf "Server: " ++ version, bytesOf "Content-Type: text/xml"]

theorem headerOf_headerLines (n : ℤ) : headerOf headerLines n =
    bytesOf "HTTP/1.1 200 OK\r\nServer: " ++ version ++
      bytesOf "\r\nContent-Type: text/xml\r\nContent-length: " ++ printD n ++
      bytesOf "\r\n\r\n" := by
  have hstatus : bytesOf "HTTP/1.1 200 OK\r\nServer: " =
      bytesOf "HTTP/1.1 200 OK" ++ (crlf ++ bytesOf "Server: ") := rfl
  have htype : bytesOf "\r\nContent-Type: text/xml\r\nContent-length: " =
      crlf ++ (bytesOf "Content-Type: text/xml" ++ (crlf ++ contentLength)) := rfl
  rw [hstatus, htype]
  simp only [headerOf, headerLines, List.flatMap_cons, List.flatMap_nil, List.append_assoc,
    List.nil_append, crlfcrlf]

theorem generateHeader_eq (body : Name) :
    generateHeader body = headerOf headerLines (int32 body.length) := by
  rw [headerOf_headerLines]
  rfl

theorem line_headerLines : ∀ line ∈ headerLines, Line line := by
  unfold Line
  decide

end XmlRpcServer

namespace XmlRpcClient

/-- Where the server is can stand in one line. -/
structure Server.Addressed (server : Server) : Prop where
  host : 13 ∉ server.host ∧ 10 ∉ server.host
  uri : 13 ∉ server.uri ∧ 10 ∉ server.uri

/-- A text between two others that are not the end of a line. -/
theorem line_append {front line back : Name} (hfront : Line front) (hline : 13 ∉ line ∧ 10 ∉ line)
    (hback : 13 ∉ back ∧ 10 ∉ back) : Line (front ++ (line ++ back)) := by
  refine ⟨fun hnil => hfront.1 (List.append_eq_nil_iff.mp hnil).1, ?_, ?_⟩
  · simp [hfront.2.1, hline.1, hback.1]
  · simp [hfront.2.2, hline.2, hback.2]

theorem printD_line (n : ℤ) : 13 ∉ printD n ∧ 10 ∉ printD n := by
  constructor <;> intro hmem <;> rcases mem_printD hmem with hsign | hdigit
  · exact absurd hsign (by decide)
  · exact absurd hdigit (by decide)
  · exact absurd hsign (by decide)
  · exact absurd hdigit (by decide)

theorem line_headerLines {server : Server} (h : server.Addressed) :
    ∀ line ∈ headerLines server, Line line := by
  have hpost : Line (bytesOf "POST ") := by
    unfold Line
    decide
  have hhost : Line (bytesOf "Host: ") := by
    unfold Line
    decide
  have hport : 13 ∉ bytesOf ":" ++ printD server.port ∧ 10 ∉ bytesOf ":" ++ printD server.port := by
    obtain ⟨h13, h10⟩ := printD_line server.port
    simp [h13, h10, bytesOf]
  intro line hline
  simp only [headerLines, List.mem_append, List.mem_cons, List.not_mem_nil, or_false] at hline
  rcases hline with ((rfl | rfl | rfl) | hlogin) | rfl
  · rw [List.append_assoc]
    exact line_append hpost h.uri (by decide)
  · unfold Line
    decide
  · rw [List.append_assoc, List.append_assoc]
    exact line_append hhost h.host hport
  · -- the line ends that base64 puts between its lines are taken out
    split_ifs at hlogin with hlogged
    · simp at hlogin
    · rw [List.mem_singleton.mp hlogin]
      refine ⟨fun hnil => ?_, ?_, ?_⟩
      · simp [bytesOf] at hnil
      · simp [bytesOf]
      · simp [bytesOf]
  · unfold Line
    decide

end XmlRpcClient

/-! ### Calls and responses -/

namespace XmlRpcClient

variable {floats : Floats} {name : Name} {params : XmlRpcValue}

/-- A request that `generateRequest` makes, for a name without a tag and parameters that can be
sent. -/
structure IsCall (floats : Floats) (name : Name) (params : XmlRpcValue) (q : Message true) :
    Prop where
  ne : name ≠ []
  plain : 60 ∉ name
  sendable : ∀ v ∈ paramList params, Sendable floats v
  head : ∃ server, q.head = generateHeader server (requestBody floats name params)
  body : q.body = requestBody floats name params

/-- The server reads the name and the parameters of a call. -/
theorem IsCall.parse {q : Message true} (h : IsCall floats name params q) :
    XmlRpcServer.parseRequest floats q.body =
      (name, XmlRpcServer.ofParams ((paramList params).map received)) := by
  rw [h.body, XmlRpcServer.parseRequest_body h.ne h.plain h.sendable]

/-- The text of `generateRequest` is a message, unless it is longer than an `int` can count or has a
NUL in its body. -/
theorem exists_isCall {server : Server} (haddressed : server.Addressed) (hne : name ≠ [])
    (hname : 60 ∉ name) (hsendable : ∀ v ∈ paramList params, Sendable floats v)
    (hnul : 0 ∉ requestBody floats name params)
    (hlt : (generateRequest floats server name params).length < 2 ^ 31) :
    ∃ q, IsCall floats name params q ∧ q.text = generateRequest floats server name params := by
  obtain ⟨q, hhead, hbody⟩ := Message.exists_of_lines true (line_headerLines haddressed)
    (List.append_ne_nil_of_left_ne_nil (by decide : xmlVersion ≠ []) _) hnul hlt
  refine ⟨q, ⟨hne, hname, hsendable, ⟨server, hhead⟩, hbody⟩, ?_⟩
  rw [Message.text, hhead, hbody]
  rfl

/-- Whatever pieces the text of `generateRequest` comes in: the server waits for the end of the
header, then it knows the length of the body and what is there of it, and it reads from the whole
body the name and the parameters as they are received. -/
theorem generateRequest_read {server : Server} (haddressed : server.Addressed) (hne : name ≠ [])
    (hname : 60 ∉ name) (hsendable : ∀ v ∈ paramList params, Sendable floats v)
    (hnul : 0 ∉ requestBody floats name params)
    (hlt : (generateRequest floats server name params).length < 2 ^ 31) :
    ∃ head body, generateRequest floats server name params = head ++ body ∧
      (∀ d, d <+: head ++ body → d <+: head ∧ Http.readHeader true d = .incomplete ∨
        ∃ x keep, d = head ++ x ∧ Http.readHeader true d = .complete body.length keep x) ∧
      XmlRpcServer.parseRequest floats body =
        (name, XmlRpcServer.ofParams ((paramList params).map received)) := by
  obtain ⟨q, hcall, htext⟩ := exists_isCall haddressed hne hname hsendable hnul hlt
  refine ⟨q.head, q.body, htext.symm, ?_, hcall.parse⟩
  intro d hd
  rcases q.readHeader_prefix hd with hincomplete | ⟨x, keep, -, -, hsplit, hcomplete⟩
  · exact Or.inl hincomplete
  · exact Or.inr ⟨x, keep, hsplit, hcomplete⟩

/-- A request with a name that has to be encoded among its parameters. -/
theorem generateRequest_read_play :
    ∃ head body, generateRequest Floats.integers { host := bytesOf "localhost", port := 2640 }
        (bytesOf "Open") (.array [.int 1, .string (bytesOf "a<b.avi")]) = head ++ body ∧
      XmlRpcServer.parseRequest Floats.integers body =
        (bytesOf "Open", .array [.int 1, .string (bytesOf "a<b.avi")]) := by
  have hsendable : ∀ v ∈ paramList (.array [.int 1, .string (bytesOf "a<b.avi")]),
      Sendable Floats.integers v := by
    intro v hv
    simp only [paramList, List.mem_cons, List.not_mem_nil, or_false] at hv
    rcases hv with rfl | rfl
    · exact .int 1 (by omega)
    · exact .string _
  have haddressed : Server.Addressed { host := bytesOf "localhost", port := 2640 } :=
    ⟨by decide, by decide⟩
  obtain ⟨head, body, htext, -, hparse⟩ := generateRequest_read haddressed
    (by decide : bytesOf "Open" ≠ []) (by decide) hsendable (by decide +kernel) (by decide +kernel)
  exact ⟨head, body, htext, hparse⟩

end XmlRpcClient

namespace XmlRpcServer

open XmlRpcClient Xmlrpc Network

variable {σ : Type} {floats : Floats} {methods : MethodMap σ} {fuel : ℕ}
  {allowed : Message true → Prop}

/-- What a connection of the server calls.  Where a method does not come back, this does not. -/
def serve (floats : Floats) (methods : MethodMap σ) (fuel : ℕ) (request : Name) (s : σ) :
    Option (Name × σ) :=
  match executeRequest floats methods fuel request s with
  | some (.ok response, s) => some (response, s)
  | _ => none

theorem serve_eq_some {request response : Name} {s s' : σ} :
    serve floats methods fuel request s = some (response, s') ↔
      executeRequest floats methods fuel request s = some (.ok response, s') := by
  unfold serve
  split
  · next heq => rw [heq]; simp
  · next hnot =>
    refine ⟨fun h => by simp at h, fun h => absurd h (hnot _ _)⟩

/-- The responses to the requests that may be sent have no NUL and are no longer than an `int` can
count. -/
def Fits (execute : Name → σ → Option (Name × σ)) (allowed : Message true → Prop) : Prop :=
  ∀ q, allowed q → ∀ s response s', execute q.body s = some (response, s') →
    0 ∉ response ∧ response.length < 2 ^ 31

/-- Whatever the bytes of a request are: a response of a length that an `int` can count, without a
NUL, is a message, whose body the client can read, and is told there how the method that was named
has ended. -/
theorem executeRequest_message (hsends : Sends floats methods) {request response : Name} {s s' : σ}
    (h : executeRequest floats methods fuel request s = some (.ok response, s'))
    (hnul : 0 ∉ response) (hlt : response.length < 2 ^ 31) :
    ∃ (m : Message false) (r : _), m.text = response ∧
      dispatch methods (executeMulticall methods (parseRequest floats request).2 fuel)
        (parseRequest floats request).1 (parseRequest floats request).2 s = some (r, s') ∧
      told (parseRequest floats request).1 r ≠ none ∧
      parseResponse floats m.body = told (parseRequest floats request).1 r := by
  obtain ⟨body, r, rfl, hdispatch, htold, hread⟩ := executeRequest_answer hsends h
  have hne : body ≠ [] := by
    rintro rfl
    exact htold hread.symm
  rw [generateHeader_eq] at hnul hlt ⊢
  obtain ⟨m, hhead, rfl⟩ := Message.exists_of_lines false line_headerLines hne
    (fun hmem => hnul (List.mem_append_right _ hmem)) hlt
  exact ⟨m, r, by rw [Message.text, hhead], hdispatch, htold, hread⟩

/-- Whatever bytes a client sends as a request, and whatever pieces the response comes in, if it has
no NUL: the client waits for the end of the header, then it knows the length of the body and what is
there of it, and it reads from the whole body how the method that was named has ended. -/
theorem executeRequest_read (hsends : Sends floats methods) {request response : Name} {s s' : σ}
    (h : executeRequest floats methods fuel request s = some (.ok response, s'))
    (hnul : 0 ∉ response) (hlt : response.length < 2 ^ 31) :
    ∃ head body r, response = head ++ body ∧
      (∀ d, d <+: response → d <+: head ∧ Http.readHeader false d = .incomplete ∨
        ∃ x keep, d = head ++ x ∧ Http.readHeader false d = .complete body.length keep x) ∧
      dispatch methods (executeMulticall methods (parseRequest floats request).2 fuel)
        (parseRequest floats request).1 (parseRequest floats request).2 s = some (r, s') ∧
      parseResponse floats body = told (parseRequest floats request).1 r ∧
      told (parseRequest floats request).1 r ≠ none := by
  obtain ⟨m, r, rfl, hdispatch, htold, hread⟩ := executeRequest_message hsends h hnul hlt
  refine ⟨m.head, m.body, r, rfl, ?_, hdispatch, hread, htold⟩
  intro d hd
  rcases m.readHeader_prefix hd with hincomplete | ⟨x, keep, -, -, hsplit, hcomplete⟩
  · exact Or.inl hincomplete
  · exact Or.inr ⟨x, keep, hsplit, hcomplete⟩

/-- A request that is no XML at all. -/
theorem executeRequest_read_unknown :
    ∃ head body, generateFaultResponse Floats.integers (bytesOf ": unknown method name") (-1) =
        head ++ body ∧
      parseResponse Floats.integers body =
        some (faultStruct (-1) (bytesOf ": unknown method name"), true) := by
  have hsends : Sends Floats.integers counter := by
    intro name execute hexecute params s
    unfold counter at hexecute
    split_ifs at hexecute
    rw [← Option.some.inj hexecute]
    exact Sendable.string _
  have hexecute : executeRequest Floats.integers counter 1 (bytesOf "play!") 0 =
      some (.ok (generateFaultResponse Floats.integers (bytesOf ": unknown method name") (-1)),
        0) := rfl
  obtain ⟨head, body, r, htext, -, hdispatch, hread, -⟩ := executeRequest_read hsends hexecute
    (by decide +kernel) (by decide +kernel)
  obtain rfl : Except.ok none = r := (Prod.mk.inj (Option.some.inj hdispatch)).1
  exact ⟨head, body, htext, hread⟩

/-- The server answers the requests that may be sent with messages. -/
theorem responds_serve (hsends : Sends floats methods)
    (hfits : Fits (serve floats methods fuel) allowed) :
    Responds (serve floats methods fuel) allowed := by
  intro q hq s response s' h
  obtain ⟨hnul, hlt⟩ := hfits q hq s response s' h
  obtain ⟨m, r, hm, -⟩ := executeRequest_message hsends (serve_eq_some.mp h) hnul hlt
  exact ⟨m, hm⟩

/-! ### Runs -/

section Run

variable {ι : Type} [DecidableEq ι] {s₀ : σ} {t : Machine.Shared ι Party σ}
  {u v : List ((ι × Network.Action σ) × Network.Event)} {i : ι} {a : Network.Action σ}
  {response : Name}

/-- Whatever happens to the connections: when a call returns, the client parses how the method that
the call names has ended for the parameters that were sent, as the server has received them, on the
state that the server had at a moment between the begin and the end of the call. -/
theorem remote_call (hsends : Sends floats methods)
    (hcalls : ∀ q, allowed q → ∃ name params, IsCall floats name params q)
    (hfits : Fits (serve floats methods fuel) allowed)
    (h : (net ι (serve floats methods fuel)).RunOn (fun _ a => a.2.Allowed allowed) (start ι s₀)
      (u ++ ((i, a), .returned (some response)) :: v) t) :
    ∃ q answer name params n n' r, allowed q ∧ IsCall floats name params q ∧
      During (serve floats methods fuel) allowed s₀ i u q answer n n' ∧
      dispatch methods (executeMulticall methods (ofParams ((paramList params).map received)) fuel)
        name (ofParams ((paramList params).map received)) n.shared = some (r, n'.shared) ∧
      parseResponse floats response = told name r ∧ told name r ≠ none := by
  obtain ⟨q, n, n', m, hq, hduring, hserve, rfl⟩ := returned_of_run (responds_serve hsends hfits) h
  obtain ⟨name, params, hcall⟩ := hcalls q hq
  obtain ⟨hnul, hlt⟩ := hfits q hq _ _ _ hserve
  obtain ⟨m', r, htext, hdispatch, htold, hread⟩ :=
    executeRequest_message hsends (serve_eq_some.mp hserve) hnul hlt
  rw [hcall.parse] at hdispatch htold hread
  rw [Message.body_eq htext] at hread
  exact ⟨q, m.text, name, params, n, n', r, hq, hcall, hduring, hdispatch, hread, htold⟩

end Run

end XmlRpcServer

end IvySync
