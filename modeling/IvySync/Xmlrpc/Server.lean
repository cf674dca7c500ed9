import IvySync.Xmlrpc.Methods
import IvySync.Xmlrpc.Request

/-!
# The execution of requests

`XmlRpcServer::executeRequest`, with the methods that have been added to the server as a parameter.
A request runs one method, or several of them one after another with `system.multicall`.  Whatever
the bytes of a request are, the client can read the answer (`executeRequest_answer`).

`executeMulticall` calls itself with its own parameters when one of the calls names it, so that it
has fuel here and `none` is a computation that does not end.
-/

namespace IvySync

open XmlRpcUtil XmlRpcValue

namespace XmlRpcServer

/-- `XMLRPC_VERSION`. -/
def version : Name := bytesOf "XMLRPC++ 0.8"

/-- `generateHeader`. -/
def generateHeader (body : Name) : Name :=
  bytesOf "HTTP/1.1 200 OK\r\nServer: " ++ version ++
    bytesOf "\r\nContent-Type: text/xml\r\nContent-length: " ++ printD (int32 body.length) ++
    bytesOf "\r\n\r\n"

/-- `generateResponse`. -/
def generateResponse (resultXml : Name) : Name :=
  generateHeader (responseBody resultXml) ++ responseBody resultXml

/-- `generateFaultResponse`. -/
def generateFaultResponse (floats : Floats) (errorMsg : Name) (errorCode : ℤ) : Name :=
  generateHeader (faultBody floats errorMsg errorCode) ++ faultBody floats errorMsg errorCode

/-- How a method may fail: it throws an exception, or it does not come back. -/
inductive Failure
  | thrown (e : XmlRpcException)
  | lost
  deriving DecidableEq, Repr

variable {σ : Type}

/-- The methods of a server by their names: what each does to the state, and its result. -/
abbrev MethodMap (σ : Type) := Name → Option (XmlRpcValue → σ → Except Failure XmlRpcValue × σ)

/-- A method that leaves its result alone has the empty string for it. -/
def ensureValid : XmlRpcValue → XmlRpcValue
  | .invalid => .string []
  | v => v

/-- `executeMethod`: the result, `none` if there is no such method. -/
def executeMethod (methods : MethodMap σ) (methodName : Name) (params : XmlRpcValue) (s : σ) :
    Except Failure (Option XmlRpcValue) × σ :=
  match methods methodName with
  | none => (.ok none, s)
  | some execute =>
    match execute params s with
    | (.ok result, s) => (.ok (some (ensureValid result)), s)
    | (.error e, s) => (.error e, s)

/-- `MULTICALL`. -/
def multicall : Name := bytesOf "system.multicall"

/-- A method, or else `executeMulticall`. -/
def dispatch (methods : MethodMap σ)
    (nested : Name → σ → Option (Except Failure (Option XmlRpcValue) × σ)) (methodName : Name)
    (params : XmlRpcValue) (s : σ) : Option (Except Failure (Option XmlRpcValue) × σ) :=
  match executeMethod methods methodName params s with
  | (.ok none, s) => nested methodName s
  | r => some r

/-- A member of a struct. -/
def member (name : Name) : XmlRpcValue → Option XmlRpcValue
  | .struct members => members.lookup name
  | _ => none

/-- The entry of the results for a call that has ended.  An exception of the method is caught. -/
def entry (methodName : Name) :
    Except Failure (Option XmlRpcValue) × σ → Except Failure XmlRpcValue × σ
  | (.ok (some result), s) => (.ok (.array [result]), s)
  | (.ok none, s) => (.ok (faultStruct (-1) (methodName ++ bytesOf ": unknown method name")), s)
  | (.error (.thrown e), s) => (.ok (faultStruct e.code (bytesOf e.message)), s)
  | (.error .lost, s) => (.error .lost, s)

/-- One turn of the loop of `executeMulticall`.  A name that is no string is an exception that is
not caught. -/
def oneCall (methods : MethodMap σ)
    (nested : Name → σ → Option (Except Failure (Option XmlRpcValue) × σ)) (call : XmlRpcValue)
    (s : σ) : Option (Except Failure XmlRpcValue × σ) :=
  match member (bytesOf "methodName") call, member (bytesOf "params") call with
  | some name, some methodParams =>
    match name.toString with
    | .error e => some (.error (.thrown e), s)
    | .ok methodName => (dispatch methods nested methodName methodParams s).map (entry methodName)
  | _, _ =>
    some (.ok (faultStruct (-1) (multicall ++ bytesOf
      ": Invalid argument (expected a struct with members methodName and params)")), s)

/-- The loop of `executeMulticall`. -/
def allCalls (methods : MethodMap σ)
    (nested : Name → σ → Option (Except Failure (Option XmlRpcValue) × σ)) :
    List XmlRpcValue → σ → Option (Except Failure (List XmlRpcValue) × σ)
  | [], s => some (.ok [], s)
  | call :: calls, s =>
    match oneCall methods nested call s with
    | none => none
    | some (.error e, s) => some (.error e, s)
    | some (.ok result, s) =>
      (allCalls methods nested calls s).map fun (results, s) => (results.map (result :: ·), s)

/-- The calls that `executeMulticall` finds in its parameters: there ought to be one parameter, an
array. -/
def callsOf (params : XmlRpcValue) : Except XmlRpcException (List XmlRpcValue) := do
  let invalidArgument : XmlRpcException :=
    { message := "system.multicall: Invalid argument (expected an array)" }
  if (← params.size) ≠ 1 then throw invalidArgument
  match ← params.item 0 with
  | .array calls => return calls
  | _ => throw invalidArgument

/-- `executeMulticall`: the results, `none` if this is not what was called. -/
def executeMulticall (methods : MethodMap σ) (params : XmlRpcValue) :
    ℕ → Name → σ → Option (Except Failure (Option XmlRpcValue) × σ)
  | 0, _, _ => none
  | fuel + 1, methodName, s =>
    if methodName ≠ multicall then some (.ok none, s)
    else
      match callsOf params with
      | .error e => some (.error (.thrown e), s)
      | .ok calls =>
        (allCalls methods (executeMulticall methods params fuel) calls s).map
          fun (results, s) => (results.map fun vs => some (.array vs), s)

/-- The response to a request that has been executed. -/
def respond (floats : Floats) (methodName : Name) :
    Except Failure (Option XmlRpcValue) × σ → Except Failure Name × σ
  | (.ok (some result), s) => (.ok (generateResponse (toXml floats result)), s)
  | (.ok none, s) =>
    (.ok (generateFaultResponse floats (methodName ++ bytesOf ": unknown method name") (-1)), s)
  | (.error (.thrown e), s) => (.ok (generateFaultResponse floats (bytesOf e.message) e.code), s)
  | (.error .lost, s) => (.error .lost, s)

/-- `executeRequest`. -/
def executeRequest (floats : Floats) (methods : MethodMap σ) (fuel : ℕ) (request : Name) (s : σ) :
    Option (Except Failure Name × σ) :=
  let (methodName, params) := parseRequest floats request
  (dispatch methods (executeMulticall methods params fuel) methodName params s).map
    (respond floats methodName)

/-! ### Several calls -/

variable {floats : Floats} {methods : MethodMap σ} {params : XmlRpcValue}
  {call : XmlRpcValue} {calls : List XmlRpcValue} {s s' : σ}

/-- The name of the method of a call, if the call has its two members. -/
def calledName (call : XmlRpcValue) : Option (Except XmlRpcException Name) :=
  match member (bytesOf "methodName") call, member (bytesOf "params") call with
  | some name, some _ => some name.toString
  | _, _ => none

/-- Among the calls that are made, one names `system.multicall`.  A name that is no string is the
end of the calls. -/
def Reached : List XmlRpcValue → Prop
  | [] => False
  | call :: calls =>
    match calledName call with
    | some (.ok name) => name = multicall ∨ Reached calls
    | some (.error _) => False
    | none => Reached calls

/-- The result of one call that names a method, or no method. -/
def answer (methods : MethodMap σ) (call : XmlRpcValue) (s : σ) : Except Failure XmlRpcValue × σ :=
  match member (bytesOf "methodName") call, member (bytesOf "params") call with
  | some name, some methodParams =>
    match name.toString with
    | .error e => (.error (.thrown e), s)
    | .ok methodName => entry methodName (executeMethod methods methodName methodParams s)
  | _, _ =>
    (.ok (faultStruct (-1) (multicall ++ bytesOf
      ": Invalid argument (expected a struct with members methodName and params)")), s)

/-- The results of some calls, each made on the state that the one before it has left. -/
def answers (methods : MethodMap σ) :
    List XmlRpcValue → σ → Except Failure (List XmlRpcValue) × σ
  | [], s => (.ok [], s)
  | call :: calls, s =>
    match answer methods call s with
    | (.error e, s) => (.error e, s)
    | (.ok result, s) =>
      let (results, s) := answers methods calls s
      (results.map (result :: ·), s)

/-- There is one result for each call. -/
theorem length_answers {results : List XmlRpcValue}
    (h : answers methods calls s = (.ok results, s')) : results.length = calls.length := by
  induction calls generalizing s results with
  | nil =>
    obtain ⟨hresults, -⟩ := Prod.mk.inj h
    rw [← Except.ok.inj hresults]
  | cons call calls ih =>
    rw [answers] at h
    split at h
    · simp at h
    · next result left _ =>
      dsimp only at h
      cases hrest : answers methods calls left with
      | mk rest last =>
        cases rest with
        | error e => simp [hrest, Except.map] at h
        | ok rest =>
          rw [hrest] at h
          obtain ⟨hresults, rfl⟩ := Prod.mk.inj h
          rw [← Except.ok.inj hresults, List.length_cons, List.length_cons, ih hrest]

/-- Any other name than `system.multicall` is none that `executeMulticall` knows. -/
theorem executeMulticall_of_ne {name : Name} (hname : name ≠ multicall) (fuel : ℕ) (s : σ) :
    executeMulticall methods params (fuel + 1) name s = some (.ok none, s) := by
  rw [executeMulticall, if_pos hname]

/-- A call that does not name `system.multicall` is answered. -/
theorem oneCall_eq (h : calledName call ≠ some (.ok multicall)) (fuel : ℕ) (s : σ) :
    oneCall methods (executeMulticall methods params (fuel + 1)) call s =
      some (answer methods call s) := by
  unfold oneCall answer
  unfold calledName at h
  split
  · next name methodParams hname hparams =>
    simp only [hname, hparams] at h ⊢
    cases hstring : name.toString with
    | error e => rfl
    | ok methodName =>
      have hne : methodName ≠ multicall := by
        rintro rfl
        exact h (by rw [hstring])
      simp only [dispatch]
      split
      · next s' hmethod => simp only [executeMulticall_of_ne hne, Option.map_some, hmethod]
      · rfl
  · rfl

/-- Calls of which none that is made names `system.multicall` are answered one after another. -/
theorem allCalls_eq (h : ¬ Reached calls) (fuel : ℕ) (s : σ) :
    allCalls methods (executeMulticall methods params (fuel + 1)) calls s =
      some (answers methods calls s) := by
  induction calls generalizing s with
  | nil => rfl
  | cons call calls ih =>
    rw [Reached] at h
    have hname : calledName call ≠ some (.ok multicall) := by
      intro heq
      rw [heq] at h
      simp at h
    rw [allCalls, oneCall_eq hname, answers]
    cases hanswer : answer methods call s with
    | mk result left =>
      cases result with
      | error e => rfl
      | ok result =>
        have hrest : ¬ Reached calls := by
          intro hreached
          split at h
          · exact h (Or.inr hreached)
          · next e heq =>
            unfold calledName at heq
            unfold answer at hanswer
            split at heq
            · next name methodParams hname hparams =>
              simp only [hname, hparams, Option.some.inj heq] at hanswer
              simp at hanswer
            · simp at heq
          · exact h hreached
        simp only [ih hrest, Option.map_some]

/-- A call catches every exception of its method. -/
theorem entry_error {name : Name} {r : Except Failure (Option XmlRpcValue) × σ} {e : Failure}
    (h : entry name r = (.error e, s')) : e = .lost := by
  unfold entry at h
  split at h <;> simp_all

/-- Where a call is made that names `system.multicall`, the calls do not come to an end. -/
theorem allCalls_of_reached (hreached : Reached calls)
    {nested : Name → σ → Option (Except Failure (Option XmlRpcValue) × σ)}
    (hmethod : methods multicall = none)
    (hnested : ∀ s r s', nested multicall s = some (r, s') → r = .error .lost)
    {r : Except Failure (List XmlRpcValue)}
    (h : allCalls methods nested calls s = some (r, s')) : r = .error .lost := by
  induction calls generalizing s r with
  | nil => exact absurd hreached id
  | cons call calls ih =>
    have hrest : ∀ {result : XmlRpcValue} {left : σ}, Reached calls →
        (allCalls methods nested calls left).map (fun (results, s) =>
          (results.map (result :: ·), s)) = some (r, s') → r = .error .lost := by
      intro result left hcalls hmap
      obtain ⟨⟨results, last⟩, hall, heq⟩ := Option.map_eq_some_iff.mp hmap
      obtain ⟨rfl, rfl⟩ := Prod.mk.inj heq
      rw [ih hcalls hall]
      rfl
    rw [Reached] at hreached
    rw [allCalls] at h
    unfold oneCall at h
    unfold calledName at hreached
    cases hname : member (bytesOf "methodName") call with
    | none =>
      simp only [hname] at hreached h
      exact hrest hreached h
    | some name =>
      cases hparams : member (bytesOf "params") call with
      | none =>
        simp only [hname, hparams] at hreached h
        exact hrest hreached h
      | some methodParams =>
        simp only [hname, hparams] at hreached h
        cases hstring : name.toString with
        | error e =>
          rw [hstring] at hreached
          exact absurd hreached id
        | ok methodName =>
          simp only [hstring] at hreached h
          cases hcall : dispatch methods nested methodName methodParams s with
          | none => simp [hcall] at h
          | some called =>
            simp only [hcall, Option.map_some] at h
            split at h
            · simp at h
            · next e left hentry =>
              obtain ⟨rfl, -⟩ := Prod.mk.inj (Option.some.inj h)
              rw [entry_error (Option.some.inj hentry)]
            · next result left hentry =>
              rcases hreached with rfl | hreached
              · -- the call that names `system.multicall` does not come back
                have hunknown : executeMethod methods multicall methodParams s = (.ok none, s) := by
                  rw [executeMethod, hmethod]
                simp only [dispatch, hunknown] at hcall
                obtain ⟨called, last⟩ := called
                rw [hnested s called last hcall] at hentry
                simp [entry] at hentry
              · exact hrest hreached h

theorem answer_thrown {e : XmlRpcException} : answer methods call s = (.error (.thrown e), s') ↔
    calledName call = some (.error e) ∧ s' = s := by
  unfold answer calledName
  split
  · next name methodParams hname hparams =>
    cases hstring : name.toString with
    | error e' => simp [eq_comm]
    | ok methodName =>
      simp only [Option.some.injEq, reduceCtorEq, false_and, iff_false]
      intro h
      exact Failure.noConfusion (entry_error h)
  · simp

/-- The calls fail with the first one that does, on the state that the ones before it have left. -/
theorem answers_error {f : Failure} : answers methods calls s = (.error f, s') ↔
    ∃ before call after results left, calls = before ++ call :: after ∧
      answers methods before s = (.ok results, left) ∧
      answer methods call left = (.error f, s') := by
  induction calls generalizing s with
  | nil => simp [answers]
  | cons call calls ih =>
    rw [answers]
    rcases hanswer : answer methods call s with ⟨e | result, left⟩
    · dsimp only
      constructor
      · intro h
        obtain ⟨he, rfl⟩ := Prod.mk.inj h
        rw [Except.error.inj he] at hanswer
        exact ⟨[], call, calls, [], s, rfl, rfl, hanswer⟩
      · rintro ⟨_ | ⟨call', before⟩, call'', after, results, left', hcalls, hbefore, hfails⟩
        · obtain ⟨rfl, rfl⟩ := List.cons.inj hcalls
          obtain ⟨-, rfl⟩ := Prod.mk.inj hbefore
          obtain ⟨he, rfl⟩ := Prod.mk.inj (hanswer.symm.trans hfails)
          rw [Except.error.inj he]
        · obtain ⟨rfl, rfl⟩ := List.cons.inj hcalls
          simp [answers, hanswer] at hbefore
    · have hmap : ((answers methods calls left).1.map (result :: ·), (answers methods calls left).2) =
          (.error f, s') ↔ answers methods calls left = (.error f, s') := by
        rcases answers methods calls left with ⟨_ | _, _⟩ <;> simp [Except.map]
      refine hmap.trans (ih.trans ⟨?_, ?_⟩)
      · rintro ⟨before, call', after, results, left', rfl, hbefore, hfails⟩
        refine ⟨call :: before, call', after, result :: results, left', rfl, ?_, hfails⟩
        simp [answers, hanswer, hbefore, Except.map]
      · rintro ⟨_ | ⟨call', before⟩, call'', after, results, left', hcalls, hbefore, hfails⟩
        · obtain ⟨rfl, rfl⟩ := List.cons.inj hcalls
          obtain ⟨-, rfl⟩ := Prod.mk.inj hbefore
          simp [hanswer] at hfails
        · obtain ⟨rfl, rfl⟩ := List.cons.inj hcalls
          rw [answers, hanswer] at hbefore
          dsimp only at hbefore
          rcases hrest : answers methods before left with ⟨_ | results', last⟩
          · simp [hrest, Except.map] at hbefore
          · rw [hrest] at hbefore
            obtain ⟨-, rfl⟩ := Prod.mk.inj hbefore
            exact ⟨before, call'', after, results', last, rfl, hrest, hfails⟩

/-- `system.multicall` answers its calls one after another, if none that is made names
`system.multicall` again, with one result for each; but a name of a method that is no string is one
exception for all of them, behind the calls in front of it.  If one does, the request is never
answered: what ends it is a method that does not come back, if anything does. -/
theorem executeMulticall_spec (hmethod : methods multicall = none)
    (hcalls : callsOf params = .ok calls) :
    (¬ Reached calls → ∀ fuel s, executeMulticall methods params (fuel + 2) multicall s =
      some ((answers methods calls s).1.map (fun vs => some (.array vs)),
        (answers methods calls s).2) ∧
      (∀ results, (answers methods calls s).1 = .ok results → results.length = calls.length) ∧
      ∀ e s', answers methods calls s = (.error (.thrown e), s') ↔
        ∃ before call after results, calls = before ++ call :: after ∧
          answers methods before s = (.ok results, s') ∧ calledName call = some (.error e)) ∧
    (Reached calls → ∀ fuel s r s',
      executeMulticall methods params fuel multicall s = some (r, s') →
      r = .error .lost) := by
  constructor
  · intro h fuel s
    rw [executeMulticall, if_neg (not_not_intro rfl), hcalls]
    simp only [allCalls_eq h, Option.map_some, true_and]
    refine ⟨fun results hresults => length_answers (Prod.ext hresults rfl), fun e s' => ?_⟩
    rw [answers_error]
    constructor
    · rintro ⟨before, call, after, results, left, hsplit, hbefore, hfails⟩
      obtain ⟨hname, rfl⟩ := answer_thrown.mp hfails
      exact ⟨before, call, after, results, hsplit, hbefore, hname⟩
    · rintro ⟨before, call, after, results, hsplit, hbefore, hname⟩
      exact ⟨before, call, after, results, s', hsplit, hbefore, answer_thrown.mpr ⟨hname, rfl⟩⟩
  · intro h fuel
    induction fuel with
    | zero =>
      intro s r s' hr
      simp [executeMulticall] at hr
    | succ fuel ih =>
      intro s r s' hr
      rw [executeMulticall, if_neg (not_not_intro rfl), hcalls] at hr
      obtain ⟨⟨results, last⟩, hall, heq⟩ := Option.map_eq_some_iff.mp hr
      obtain ⟨rfl, -⟩ := Prod.mk.inj heq
      rw [allCalls_of_reached h hmethod ih hall]
      rfl

/-- A server with one method, which counts how often it is called. -/
def counter : MethodMap ℕ := fun name =>
  if name = bytesOf "count" then some fun _ n => (.ok (.string (decimal n)), n + 1) else none

/-- A call of that method. -/
def countCall : XmlRpcValue :=
  .struct [(bytesOf "methodName", .string (bytesOf "count")), (bytesOf "params", .array [])]

/-- Two calls in one request. -/
theorem executeMulticall_spec_counter :
    executeMulticall counter (.array [.array [countCall, countCall]]) 2 multicall 5 =
      some (.ok (some (.array [.array [.string [53]], .array [.string [54]]])), 7) := by
  have hreached : ¬ Reached [countCall, countCall] := by
    have hname : calledName countCall = some (.ok (bytesOf "count")) := rfl
    have hne : bytesOf "count" ≠ multicall := by decide
    simp [Reached, hname, hne]
  have hmethod : counter multicall = none := rfl
  exact (executeMulticall_spec hmethod (by rfl)).1 hreached 0 5 |>.1

/-! ### The answer to a request -/

/-- The code of a fault is an `int`. -/
def Code (errorCode : ℤ) : Prop := -2 ^ 31 ≤ errorCode ∧ errorCode < 2 ^ 31

/-- How a computation may end so that its end can be told to the client. -/
def Telling {α : Type} (P : α → Prop) : Except Failure α → Prop
  | .ok a => P a
  | .error (.thrown e) => Code e.code
  | .error .lost => True

/-- Methods of which every result can be sent. -/
def Sends (floats : Floats) (methods : MethodMap σ) : Prop :=
  ∀ ⦃name execute⦄, methods name = some execute → ∀ params s,
    Telling (fun v => Sendable floats (ensureValid v)) (execute params s).1

/-- The codes of the exceptions of the library. -/
theorem code_neg_one : Code (-1) := by
  unfold Code
  omega

/-- A result that can be sent, if there is one. -/
def SendableResult (floats : Floats) (result : Option XmlRpcValue) : Prop :=
  ∀ v ∈ result, Sendable floats v

theorem telling_executeMethod (hsends : Sends floats methods) (name : Name) (params : XmlRpcValue)
    (s : σ) :
    Telling (SendableResult floats) (executeMethod methods name params s).1 := by
  unfold executeMethod
  cases hmethod : methods name with
  | none => exact fun v hv => by simp at hv
  | some execute =>
    have htelling := hsends hmethod params s
    dsimp only
    rcases hexecute : execute params s with ⟨e | result, left⟩
    · rw [hexecute] at htelling
      cases e <;> exact htelling
    · rw [hexecute] at htelling
      intro v hv
      rw [← Option.some.inj hv]
      exact htelling

theorem telling_dispatch (hsends : Sends floats methods)
    {nested : Name → σ → Option (Except Failure (Option XmlRpcValue) × σ)}
    (hnested : ∀ name s r s', nested name s = some (r, s') → Telling (SendableResult floats) r)
    {name : Name} {r : Except Failure (Option XmlRpcValue)}
    (h : dispatch methods nested name params s = some (r, s')) :
    Telling (SendableResult floats) r := by
  unfold dispatch at h
  split at h
  · exact hnested _ _ _ _ h
  · have htelling := telling_executeMethod hsends name params s
    rw [Option.some.inj h] at htelling
    exact htelling

theorem telling_entry (name : Name) {r : Except Failure (Option XmlRpcValue)}
    (h : Telling (SendableResult floats) r) (s : σ) :
    Telling (Sendable floats) (entry name (r, s)).1 := by
  unfold entry
  split
  · next result _ heq =>
    obtain ⟨rfl, -⟩ := Prod.mk.inj heq
    refine Sendable.array _ ?_
    intro v hv
    rw [List.mem_singleton.mp hv]
    exact h result rfl
  · exact sendable_faultStruct _ code_neg_one
  · next e _ heq =>
    obtain ⟨rfl, -⟩ := Prod.mk.inj heq
    exact sendable_faultStruct _ h
  · trivial

theorem toString_error {v : XmlRpcValue} {e : XmlRpcException} (h : v.toString = .error e) :
    e = { message := "type error" } := by
  unfold XmlRpcValue.toString at h
  split at h
  · simp at h
  · simp at h
  · exact (Except.error.inj h).symm

theorem telling_oneCall (hsends : Sends floats methods)
    {nested : Name → σ → Option (Except Failure (Option XmlRpcValue) × σ)}
    (hnested : ∀ name s r s', nested name s = some (r, s') → Telling (SendableResult floats) r)
    {r : Except Failure XmlRpcValue} (h : oneCall methods nested call s = some (r, s')) :
    Telling (Sendable floats) r := by
  unfold oneCall at h
  split at h
  · next name methodParams _ _ =>
    split at h
    · next e hstring =>
      obtain ⟨rfl, -⟩ := Prod.mk.inj (Option.some.inj h)
      rw [toString_error hstring]
      exact code_neg_one
    · next methodName _ =>
      obtain ⟨⟨called, left⟩, hcall, hentry⟩ := Option.map_eq_some_iff.mp h
      have htelling := telling_entry methodName (telling_dispatch hsends hnested hcall) left
      rwa [hentry] at htelling
  · obtain ⟨rfl, -⟩ := Prod.mk.inj (Option.some.inj h)
    exact sendable_faultStruct _ code_neg_one

theorem telling_allCalls (hsends : Sends floats methods)
    {nested : Name → σ → Option (Except Failure (Option XmlRpcValue) × σ)}
    (hnested : ∀ name s r s', nested name s = some (r, s') → Telling (SendableResult floats) r)
    {r : Except Failure (List XmlRpcValue)} (h : allCalls methods nested calls s = some (r, s')) :
    Telling (fun vs => ∀ v ∈ vs, Sendable floats v) r := by
  induction calls generalizing s r with
  | nil =>
    obtain ⟨rfl, -⟩ := Prod.mk.inj (Option.some.inj h)
    exact fun v hv => by simp at hv
  | cons call calls ih =>
    rw [allCalls] at h
    split at h
    · simp at h
    · next e left hcall =>
      obtain ⟨rfl, -⟩ := Prod.mk.inj (Option.some.inj h)
      have htelling := telling_oneCall hsends hnested hcall
      cases e <;> exact htelling
    · next result left hcall =>
      obtain ⟨⟨results, last⟩, hall, heq⟩ := Option.map_eq_some_iff.mp h
      obtain ⟨rfl, rfl⟩ := Prod.mk.inj heq
      have hresult : Sendable floats result := telling_oneCall hsends hnested hcall
      have hresults := ih hall
      cases results with
      | error e => cases e <;> exact hresults
      | ok vs => exact List.forall_mem_cons.mpr ⟨hresult, hresults⟩

theorem size_error {e : XmlRpcException} (h : params.size = .error e) :
    e = { message := "type error" } := by
  cases params <;> simp_all [XmlRpcValue.size]

theorem item_error {e : XmlRpcException} {i : ℕ} (h : params.item i = .error e) :
    e = { message := "type error: expected an array" } := by
  unfold XmlRpcValue.item at h
  cases harray : params.assertArray (i + 1) with
  | ok items => simp [harray, bind, Except.bind, pure, Except.pure] at h
  | error e' =>
    obtain rfl : e' = e := by simpa [harray, bind, Except.bind] using h
    cases params with
    | array items =>
      rw [XmlRpcValue.assertArray] at harray
      split_ifs at harray
    | _ => simp_all [XmlRpcValue.assertArray]

theorem code_callsOf {e : XmlRpcException} (h : callsOf params = .error e) : Code e.code := by
  unfold callsOf at h
  simp only [bind, Except.bind] at h
  split at h
  · next e' hsize =>
    rw [← Except.error.inj h]
    rw [size_error hsize]
    exact code_neg_one
  · split at h
    · rw [← Except.error.inj h]
      exact code_neg_one
    · dsimp only [pure, Except.pure] at h
      split at h
      · next e' hitem =>
        rw [← Except.error.inj h]
        rw [item_error hitem]
        exact code_neg_one
      · split at h
        · simp at h
        · rw [← Except.error.inj h]
          exact code_neg_one

theorem telling_executeMulticall (hsends : Sends floats methods) (fuel : ℕ) {name : Name}
    {r : Except Failure (Option XmlRpcValue)}
    (h : executeMulticall methods params fuel name s = some (r, s')) :
    Telling (SendableResult floats) r := by
  induction fuel generalizing name s r s' with
  | zero => simp [executeMulticall] at h
  | succ fuel ih =>
    rw [executeMulticall] at h
    split at h
    · obtain ⟨rfl, -⟩ := Prod.mk.inj (Option.some.inj h)
      exact fun v hv => by simp at hv
    · split at h
      · next e hcalls =>
        obtain ⟨rfl, -⟩ := Prod.mk.inj (Option.some.inj h)
        exact code_callsOf hcalls
      · next calls hcalls =>
        obtain ⟨⟨results, last⟩, hall, heq⟩ := Option.map_eq_some_iff.mp h
        obtain ⟨rfl, rfl⟩ := Prod.mk.inj heq
        have hresults := telling_allCalls hsends (fun _ _ _ _ h => ih h) hall
        cases results with
        | error e => cases e <;> exact hresults
        | ok vs =>
          intro v hv
          rw [← Option.some.inj hv]
          exact Sendable.array _ hresults

/-- What the client is told about the end of a method: the result, or a fault. -/
def told (methodName : Name) : Except Failure (Option XmlRpcValue) → Option (XmlRpcValue × Bool)
  | .ok (some result) => some (received result, false)
  | .ok none => some (faultStruct (-1) (methodName ++ bytesOf ": unknown method name"), true)
  | .error (.thrown e) => some (faultStruct e.code (bytesOf e.message), true)
  | .error .lost => none

/-- The client can read the response, and reads what it is to be told. -/
theorem respond_spec {methodName : Name} {r : Except Failure (Option XmlRpcValue)}
    (htelling : Telling (SendableResult floats) r) {response : Name}
    (h : respond floats methodName (r, s) = (.ok response, s')) :
    ∃ body, response = generateHeader body ++ body ∧ s' = s ∧
      XmlRpcClient.parseResponse floats body = told methodName r := by
  unfold respond at h
  split at h
  · next result _ heq =>
    obtain ⟨rfl, rfl⟩ := Prod.mk.inj heq
    obtain ⟨hresponse, rfl⟩ := Prod.mk.inj h
    exact ⟨_, (Except.ok.inj hresponse).symm, rfl,
      XmlRpcClient.parseResponse_responseBody (htelling result rfl)⟩
  · next heq =>
    obtain ⟨rfl, rfl⟩ := Prod.mk.inj heq
    obtain ⟨hresponse, rfl⟩ := Prod.mk.inj h
    exact ⟨_, (Except.ok.inj hresponse).symm, rfl,
      XmlRpcClient.parseResponse_faultBody _ code_neg_one⟩
  · next e _ heq =>
    obtain ⟨rfl, rfl⟩ := Prod.mk.inj heq
    obtain ⟨hresponse, rfl⟩ := Prod.mk.inj h
    exact ⟨_, (Except.ok.inj hresponse).symm, rfl,
      XmlRpcClient.parseResponse_faultBody _ htelling⟩
  · simp at h

/-- Whatever bytes a client sends for a request: if there is a response, the client can read it, and
is told how the method that was named has ended. -/
theorem executeRequest_answer (hsends : Sends floats methods) {fuel : ℕ} {request response : Name}
    (h : executeRequest floats methods fuel request s = some (.ok response, s')) :
    ∃ body r, response = generateHeader body ++ body ∧
      dispatch methods (executeMulticall methods (parseRequest floats request).2 fuel)
        (parseRequest floats request).1 (parseRequest floats request).2 s = some (r, s') ∧
      told (parseRequest floats request).1 r ≠ none ∧
      XmlRpcClient.parseResponse floats body = told (parseRequest floats request).1 r := by
  obtain ⟨⟨r, left⟩, hdispatch, hrespond⟩ := Option.map_eq_some_iff.mp h
  have htelling := telling_dispatch hsends
    (fun _ _ _ _ hcall => telling_executeMulticall hsends fuel hcall) hdispatch
  obtain ⟨body, hresponse, rfl, hread⟩ := respond_spec htelling hrespond
  refine ⟨body, r, hresponse, hdispatch, ?_, hread⟩
  rcases r with (_ | _) | _ | _ <;> simp_all [told, respond]

end XmlRpcServer

end IvySync
