import IvySync.Xmlrpc.Roundtrip

/-!
# Requests and responses

The bodies of the messages: `XmlRpcClient::generateRequest` with `XmlRpcServer::parseRequest`, and
`XmlRpcServer::generateResponse` and `generateFaultResponse` with `XmlRpcClient::parseResponse`.
The server reads the method and the parameters that the client has sent (`parseRequest_body`), and
the client reads the result (`parseResponse_responseBody`) or the fault (`parseResponse_faultBody`)
that the server has sent.
-/

namespace IvySync

open XmlRpcUtil XmlRpcValue

/-- The first line of every message. -/
def xmlVersion : Name := bytesOf "<?xml version=\"1.0\"?>\r\n"

/-- The end of a line. -/
def crlf : Name := bytesOf "\r\n"

/-! ### Requests -/

namespace XmlRpcClient

variable (floats : Floats)

/-- The parameters that a value stands for: each item of an array is one. -/
def paramList : XmlRpcValue → List XmlRpcValue
  | .invalid => []
  | .array items => items
  | v => [v]

/-- The text of the parameters. -/
def paramsToXml : List XmlRpcValue → Name
  | [] => []
  | v :: vs => tag "param" ++ (toXml floats v ++ (etag "param" ++ paramsToXml vs))

/-- The part of the body for the parameters, if there are any. -/
def paramsBody : XmlRpcValue → Name
  | .invalid => []
  | params => tag "params" ++ (paramsToXml floats (paramList params) ++ etag "params")

/-- The body of `generateRequest`. -/
def requestBody (methodName : Name) (params : XmlRpcValue) : Name :=
  xmlVersion ++ (tag "methodCall" ++ (tag "methodName" ++ (methodName ++ (etag "methodName" ++
    (crlf ++ (paramsBody floats params ++ (etag "methodCall" ++ crlf)))))))

end XmlRpcClient

namespace XmlRpcServer

variable (floats : Floats)

/-- The loop of `parseRequest` with some fuel.  A parameter that is no value is kept as an invalid
one. -/
def paramsFuel : ℕ → Name → List XmlRpcValue
  | 0, _ => []
  | fuel + 1, request =>
    match nextTagIs (tag "param") request with
    | none => []
    | some rest =>
      let (v, rest) := (fromXml floats rest).getD (.invalid, rest)
      v :: paramsFuel fuel ((nextTagIs (etag "param") rest).getD rest)

/-- The array that `params[nArgs++]` makes. -/
def ofParams : List XmlRpcValue → XmlRpcValue
  | [] => .invalid
  | vs => .array vs

/-- `parseRequest`: the name of the method and the parameters. -/
def parseRequest (request : Name) : Name × XmlRpcValue :=
  let (methodName, rest) := parseTag (tag "methodName") request
  if methodName = [] then (methodName, .invalid)
  else
    match findTag (tag "params") rest with
    | none => (methodName, .invalid)
    | some rest => (methodName, ofParams (paramsFuel floats (rest.length + 1) rest))

end XmlRpcServer

/-! ### Responses -/

namespace XmlRpcServer

variable (floats : Floats)

/-- The body of `generateResponse`. -/
def responseBody (resultXml : Name) : Name :=
  xmlVersion ++ (tag "methodResponse" ++ (tag "params" ++ (tag "param" ++ (bytesOf "\r\n\t" ++
    (resultXml ++ (crlf ++ (etag "param" ++ (etag "params" ++ (etag "methodResponse" ++
      crlf)))))))))

/-- The struct that describes a fault. -/
def faultStruct (errorCode : ℤ) (errorMsg : Name) : XmlRpcValue :=
  .struct (insert (bytesOf "faultString") (.string errorMsg)
    (insert (bytesOf "faultCode") (.int errorCode) []))

/-- The body of `generateFaultResponse`. -/
def faultBody (errorMsg : Name) (errorCode : ℤ) : Name :=
  xmlVersion ++ (tag "methodResponse" ++ (tag "fault" ++ (bytesOf "\r\n\t" ++
    (toXml floats (faultStruct errorCode errorMsg) ++ (crlf ++ (etag "fault" ++
      (etag "methodResponse" ++ crlf)))))))

end XmlRpcServer

namespace XmlRpcClient

variable (floats : Floats)

/-- `parseResponse`: the result, and whether it is a fault. -/
def parseResponse (response : Name) : Option (XmlRpcValue × Bool) :=
  match findTag (tag "methodResponse") response with
  | none => none
  | some rest =>
    let params := nextTagIs (tag "params") rest
    match params.bind (nextTagIs (tag "param")) with
    | some rest => (fromXml floats rest).map fun (v, _) => (v, false)
    | none =>
      match nextTagIs (tag "fault") (params.getD rest) with
      | some rest => (fromXml floats rest).map fun (v, _) => (v, true)
      | none => none

end XmlRpcClient

/-! ### What the server reads -/

variable {floats : Floats} {v : XmlRpcValue} {vs : List XmlRpcValue}

/-- Blanks in front of a value are skipped. -/
theorem XmlRpcValue.fromXml_blank (gap : Name) {s : Name} (hgap : ∀ c ∈ gap, isspace c = true) :
    fromXml floats (gap ++ s) = fromXml floats s := by
  simp only [fromXml_eq, fromXmlWith, nextTagIs_blank hgap]

namespace XmlRpcServer

open XmlRpcClient

/-- The loop of `parseRequest` reads what the loop of `generateRequest` has written. -/
theorem paramsFuel_paramsToXml (h : ∀ v ∈ vs, Sendable floats v) {fuel : ℕ} {post : Name}
    (hpost : nextTagIs (tag "param") post = none) (hfuel : vs.length < fuel) :
    paramsFuel floats fuel (paramsToXml floats vs ++ post) = vs.map received := by
  induction vs generalizing fuel with
  | nil =>
    obtain ⟨fuel, rfl⟩ := Nat.exists_eq_add_one_of_ne_zero (by omega : fuel ≠ 0)
    rw [paramsToXml, List.nil_append, paramsFuel, hpost]
    rfl
  | cons v vs ih =>
    obtain ⟨hv, hvs⟩ := List.forall_mem_cons.mp h
    obtain ⟨fuel, rfl⟩ := Nat.exists_eq_add_one_of_ne_zero (by omega : fuel ≠ 0)
    have hparam : nextTagIs (tag "param") (paramsToXml floats (v :: vs) ++ post) =
        some (toXml floats v ++ (etag "param" ++ (paramsToXml floats vs ++ post))) := by
      simp only [paramsToXml, List.append_assoc]
      exact nextTagIs_append
    have hend : nextTagIs (etag "param") (etag "param" ++ (paramsToXml floats vs ++ post)) =
        some (paramsToXml floats vs ++ post) := nextTagIs_append
    rw [paramsFuel, hparam]
    simp only [fromXml_toXml hv, Option.getD_some, hend, List.map_cons]
    rw [ih hvs (by simpa using hfuel)]

/-- The text of the parameters is longer than their number. -/
theorem length_le_paramsToXml (floats : Floats) (vs : List XmlRpcValue) :
    vs.length ≤ (paramsToXml floats vs).length := by
  induction vs with
  | nil => simp
  | cons v vs ih =>
    have hpos : 0 < (tag "param").length := Nat.zero_lt_succ _
    simp only [paramsToXml, List.length_append, List.length_cons]
    omega

/-- The server reads the name of the method and the parameters that were sent. -/
theorem parseRequest_body {methodName : Name} {params : XmlRpcValue} (hne : methodName ≠ [])
    (hname : 60 ∉ methodName) (h : ∀ v ∈ paramList params, Sendable floats v) :
    parseRequest floats (requestBody floats methodName params) =
      (methodName, ofParams ((paramList params).map received)) := by
  have hmethod : parseTag (tag "methodName") (requestBody floats methodName params) =
      (methodName, crlf ++ (paramsBody floats params ++ (etag "methodCall" ++ crlf))) := by
    rw [requestBody, ← List.append_assoc xmlVersion]
    exact parseTag_of_indexOf (xmlVersion ++ tag "methodCall") (by decide) hname
  unfold parseRequest
  simp only [hmethod, hne, if_false]
  by_cases hparams : params = .invalid
  · subst hparams
    rfl
  · have hbody : paramsBody floats params =
        tag "params" ++ (paramsToXml floats (paramList params) ++ etag "params") := by
      cases params <;> first | rfl | exact absurd rfl hparams
    have hfind : findTag (tag "params") (crlf ++ (paramsBody floats params ++
        (etag "methodCall" ++ crlf))) =
        some (paramsToXml floats (paramList params) ++ (etag "params" ++
          (etag "methodCall" ++ crlf))) := by
      rw [hbody, List.append_assoc, List.append_assoc]
      exact findTag_append (by decide)
    have hfuel : (paramList params).length < (paramsToXml floats (paramList params) ++
        (etag "params" ++ (etag "methodCall" ++ crlf))).length + 1 := by
      have hle := length_le_paramsToXml floats (paramList params)
      rw [List.length_append]
      omega
    simp only [hfind]
    rw [paramsFuel_paramsToXml h rfl hfuel]

theorem faultStruct_eq (errorCode : ℤ) (errorMsg : Name) : faultStruct errorCode errorMsg =
    .struct [(bytesOf "faultCode", .int errorCode), (bytesOf "faultString", .string errorMsg)] := by
  have hlt : ¬ bytesOf "faultString" < bytesOf "faultCode" := by decide
  have hne : bytesOf "faultString" ≠ bytesOf "faultCode" := by decide
  simp only [faultStruct, XmlRpcValue.insert, hlt, hne, if_false]

/-- A fault can be sent. -/
theorem sendable_faultStruct {errorCode : ℤ} (errorMsg : Name)
    (h : -2 ^ 31 ≤ errorCode ∧ errorCode < 2 ^ 31) :
    Sendable floats (faultStruct errorCode errorMsg) := by
  rw [faultStruct_eq]
  refine .struct _ ?_ ?_
  · intro m hm
    simp only [List.mem_cons, List.not_mem_nil, or_false] at hm
    rcases hm with rfl | rfl
    · exact .int _ h
    · exact .string _
  · have hlt : bytesOf "faultCode" < bytesOf "faultString" := by decide
    exact List.pairwise_pair.mpr hlt

end XmlRpcServer

/-! ### What the client reads -/

namespace XmlRpcClient

open XmlRpcServer

/-- The client reads the result that was sent, and takes it for no fault. -/
theorem parseResponse_responseBody (h : Sendable floats v) :
    parseResponse floats (responseBody (toXml floats v)) = some (received v, false) := by
  set post := crlf ++ (etag "param" ++ (etag "params" ++ (etag "methodResponse" ++ crlf)))
    with hpost
  have hfind : findTag (tag "methodResponse") (responseBody (toXml floats v)) =
      some (tag "params" ++ (tag "param" ++ (bytesOf "\r\n\t" ++ (toXml floats v ++ post)))) :=
    findTag_of_indexOf xmlVersion (by decide)
  have hparams : nextTagIs (tag "params")
      (tag "params" ++ (tag "param" ++ (bytesOf "\r\n\t" ++ (toXml floats v ++ post)))) =
      some (tag "param" ++ (bytesOf "\r\n\t" ++ (toXml floats v ++ post))) := nextTagIs_append
  have hparam : nextTagIs (tag "param") (tag "param" ++ (bytesOf "\r\n\t" ++
      (toXml floats v ++ post))) = some (bytesOf "\r\n\t" ++ (toXml floats v ++ post)) :=
    nextTagIs_append
  unfold parseResponse
  simp only [hfind, hparams, Option.bind_some, hparam, fromXml_blank (bytesOf "\r\n\t")
    (by decide +kernel), fromXml_toXml h, Option.map_some]

/-- The client reads the code and the message of a fault. -/
theorem parseResponse_faultBody {errorCode : ℤ} (errorMsg : Name)
    (h : -2 ^ 31 ≤ errorCode ∧ errorCode < 2 ^ 31) :
    parseResponse floats (faultBody floats errorMsg errorCode) =
      some (faultStruct errorCode errorMsg, true) := by
  set post := crlf ++ (etag "fault" ++ (etag "methodResponse" ++ crlf)) with hpost
  set xml := toXml floats (faultStruct errorCode errorMsg) with hxml
  have hfind : findTag (tag "methodResponse") (faultBody floats errorMsg errorCode) =
      some (tag "fault" ++ (bytesOf "\r\n\t" ++ (xml ++ post))) :=
    findTag_of_indexOf xmlVersion (by decide)
  have hparams : nextTagIs (tag "params") (tag "fault" ++ (bytesOf "\r\n\t" ++ (xml ++ post))) =
      none := rfl
  have hfault : nextTagIs (tag "fault") (tag "fault" ++ (bytesOf "\r\n\t" ++ (xml ++ post))) =
      some (bytesOf "\r\n\t" ++ (xml ++ post)) := nextTagIs_append
  have hsend : Sendable floats (faultStruct errorCode errorMsg) := sendable_faultStruct errorMsg h
  have hreceived : received (faultStruct errorCode errorMsg) = faultStruct errorCode errorMsg := by
    rw [received_eq_self_iff hsend.wellFormed, faultStruct_eq]
    simp only [memberNames, membersNames, List.nil_append, List.mem_cons, List.not_mem_nil,
      or_false]
    rintro name (rfl | rfl) <;> unfold Plain <;> decide +kernel
  have hread := fromXml_toXml hsend post
  rw [hreceived, ← hxml] at hread
  unfold parseResponse
  simp only [hfind, hparams, Option.bind_none, Option.getD_none, hfault,
    fromXml_blank (bytesOf "\r\n\t") (by decide +kernel), hread, Option.map_some]

end XmlRpcClient

end IvySync
