import IvySync.Xmlrpc.Progress
import IvySync.Xmlrpc.Quit
import IvySync.Xmlrpc.Remote

/-!
# The daemon

The methods of the daemon under the names that `main` adds them to the server with.  A method sets
its result to a `double`, to an `int` or not at all.  All that they send is short
(`fits_methods`), so that every remote call of a method does what the method does, on the decoders
as they are at a moment of the call (`daemon_call`).

`Open` takes its path from a string that is destroyed before the path is used.  What happens is only
defined by what the memory still holds, so that the method does not come back here where this is
something else.
-/

namespace IvySync

namespace Xmlrpc

open Http XmlRpcUtil XmlRpcValue XmlRpcServer

/-- What the methods work on: the decoders, with those of which the thread was joined, the flag
`syncstart` and the static variable `quit`; and what the world answers: `fopen` and the memory of
new entries, whether a path is still `held` by the memory of its string when that is gone, and what
the threads do during `Quit`. -/
structure Daemon where
  decoders : Playlist Decoder
  joined : Finset ℕ := ∅
  syncstart : Bool := false
  quit : Bool := false
  world : World
  held : Name → Bool
  schedule : Schedule := {}

/-- The operator `(*decoders)[decnum]` finds a decoder. -/
def found (params : XmlRpcValue) (decoders : Playlist Decoder) : Bool :=
  match decnum params with
  | .ok num => (decoders.pick num).isSome
  | .error _ => false

namespace Method

/-- The name of a method. -/
def name : Method → Name
  | .play => bytesOf "Play"
  | .stop => bytesOf "Stop"
  | .pause => bytesOf "Pause"
  | .getPos => bytesOf "GetPos"
  | .setPos => bytesOf "SetPos"
  | .getOffset => bytesOf "GetOffset"
  | .setOffset => bytesOf "SetOffset"
  | .open => bytesOf "Open"

/-- The methods in the order in which they are added. -/
def all : List Method := [.play, .stop, .pause, .getPos, .setPos, .getOffset, .setOffset, .open]

/-- What `result` is set to.  The offset of a decoder is an `int`, any other number a `double`. -/
def result (m : Method) (found : Bool) : Option ℤ → XmlRpcValue
  | none => .invalid
  | some n => if m = .getOffset ∧ found = true then .int n else .double (doubleOf n)

/-- `Open` is going to use a path that the memory does not hold any more. -/
def dangles (m : Method) (params : XmlRpcValue) (s : Daemon) : Bool :=
  match m, params.size, path params with
  | .open, .ok size, .ok path => decide (2 ≤ size) && found params s.decoders && !s.held path
  | _, _, _ => false

/-- How a method fails. -/
def failure : Fault → Failure
  | .thrown e => .thrown e
  | .nullPointer => .lost

/-- `execute` on the decoders of the daemon. -/
def run (m : Method) (params : XmlRpcValue) (s : Daemon) : Except Failure XmlRpcValue × Daemon :=
  if m.dangles params s then (.error .lost, s)
  else
    let (r, decoders) := call (m.execute s.world params) s.decoders
    ((r.mapError failure).map (m.result (found params s.decoders)), { s with decoders })

end Method

/-- The name of `Quit`. -/
def quitName : Name := bytesOf "Quit"

/-- `Quit::execute`, with its result. -/
def Quit.run (_ : XmlRpcValue) (s : Daemon) : Except Failure XmlRpcValue × Daemon :=
  match Quit.execute s.syncstart s.schedule ⟨s.decoders, s.joined⟩ with
  | none => (.error .lost, s)
  | some q =>
    (.ok (.double (doubleOf 1)),
      { s with decoders := q.decoders, joined := q.joined, quit := true })

/-- The methods of the server. -/
def methods : MethodMap Daemon := fun name =>
  match Method.all.find? fun m => m.name = name with
  | some m => some m.run
  | none => if name = quitName then some Quit.run else none

theorem methods_name (m : Method) : methods m.name = some m.run := by
  cases m <;> rfl

theorem methods_eq_some {name : Name}
    {run : XmlRpcValue → Daemon → Except Failure XmlRpcValue × Daemon}
    (h : methods name = some run) : (∃ m : Method, run = m.run) ∨ run = Quit.run := by
  unfold methods at h
  split at h
  · next m _ => exact Or.inl ⟨m, (Option.some.inj h).symm⟩
  · split_ifs at h
    exact Or.inr (Option.some.inj h).symm

/-! ### What the methods send -/

variable {m : Method} {w : World} {params : XmlRpcValue} {ds : Playlist Decoder} {dec : Decoder}
  {n : ℤ}

theorem request_range {r : Option Request} (h : m.request w params dec = .ok (some n, r)) :
    -2 ^ 31 ≤ n ∧ n < 2 ^ 31 := by
  cases m with
  | «open» =>
    obtain ⟨name, hpath, ⟨hread, -⟩ | ⟨-, hresult, -⟩⟩ := request_open_eq h
    · obtain ⟨rfl, -⟩ : 0 = n ∧ _ := by simpa [Method.request, hpath, hread] using h
      omega
    · rw [Option.some.inj hresult]
      omega
  | play | stop | pause =>
    obtain ⟨rfl, -⟩ : 1 = n ∧ _ := by simpa [Method.request] using h
    omega
  | getPos =>
    simp only [Method.request] at h
    split at h
    · simp at h
    · next percent hpercent =>
      obtain ⟨rfl, -⟩ : percent = n ∧ _ := by simpa using h
      unfold Decoder.getpos at hpercent
      split_ifs at hpercent
      · rw [← Option.some.inj hpercent]
        omega
      · obtain ⟨_, -, rfl⟩ := Option.map_eq_some_iff.mp hpercent
        exact int32_mem _
  | getOffset =>
    obtain ⟨rfl, -⟩ : int32 dec.getoffset = n ∧ _ := by simpa [Method.request] using h
    exact int32_mem _
  | setPos | setOffset =>
    simp only [Method.request] at h
    split at h <;> simp at h

/-- A method sets its result to an `int`. -/
theorem execute_range (h : (call (m.execute w params) ds).1 = .ok (some n)) :
    -2 ^ 31 ≤ n ∧ n < 2 ^ 31 := by
  have hspec := execute_spec m w params ds
  generalize call (m.execute w params) ds = out at h hspec
  cases hspec with
  | noSize | noNumber => simp at h
  | tooFew size hs hlt =>
    obtain rfl : 0 = n := by
      cases m <;> simp_all [Method.invalid]
    omega
  | missing size num hs hle hn hp =>
    obtain rfl : 0 = n := by simpa using h
    omega
  | found size num dec hs hle hn hp =>
    cases hreq : m.request w params dec with
    | error e => simp [hreq, answer] at h
    | ok answered =>
      obtain ⟨result, _ | r⟩ := answered
      all_goals
        rw [hreq] at h
        obtain rfl := Except.ok.inj h
        exact request_range hreq

/-- The exceptions that the conversions of a parameter throw. -/
def TypeError (e : XmlRpcException) : Prop :=
  e = { message := "type error" } ∨ e = { message := "type error: expected an array" }

theorem toInt_error {v : XmlRpcValue} {e : XmlRpcException} (h : v.toInt = .error e) :
    e = { message := "type error" } := by
  unfold XmlRpcValue.toInt at h
  split at h
  · simp at h
  · simp at h
  · exact (Except.error.inj h).symm

theorem decnum_error {e : XmlRpcException} (h : decnum params = .error e) : TypeError e := by
  unfold decnum at h
  cases hitem : params.item 0 with
  | error e' =>
    obtain rfl : e' = e := by simpa [hitem, bind, Except.bind] using h
    exact Or.inr (item_error hitem)
  | ok v => exact Or.inl (toInt_error (by simpa [hitem, bind, Except.bind] using h))

theorem pos_error {e : XmlRpcException} (h : pos params = .error e) : TypeError e := by
  unfold pos at h
  cases hitem : params.item 1 with
  | error e' =>
    obtain rfl : e' = e := by simpa [hitem, bind, Except.bind] using h
    exact Or.inr (item_error hitem)
  | ok v => exact Or.inl (toInt_error (by simpa [hitem, bind, Except.bind] using h))

theorem path_error {e : XmlRpcException} (h : path params = .error e) : TypeError e := by
  unfold path at h
  cases hitem : params.item 1 with
  | error e' =>
    obtain rfl : e' = e := by simpa [hitem, bind, Except.bind] using h
    exact Or.inr (item_error hitem)
  | ok v =>
    cases hstring : v.toString with
    | error e' =>
      obtain rfl : e' = e := by simpa [hitem, hstring, bind, Except.bind] using h
      exact Or.inl (toString_error hstring)
    | ok s => simp [hitem, hstring, bind, Except.bind, pure, Except.pure] at h

theorem request_error {e : XmlRpcException} (h : m.request w params dec = .error (.thrown e)) :
    TypeError e := by
  cases m with
  | «open» =>
    simp only [Method.request] at h
    split at h
    · next hpath =>
      obtain rfl := Fault.thrown.inj (Except.error.inj h)
      exact path_error hpath
    · split_ifs at h
  | play | stop | pause | getOffset => simp [Method.request] at h
  | getPos =>
    simp only [Method.request] at h
    split at h <;> simp at h
  | setPos | setOffset =>
    simp only [Method.request] at h
    split at h
    · next hpos =>
      obtain rfl := Fault.thrown.inj (Except.error.inj h)
      exact pos_error hpos
    · simp at h

/-- A method throws what the conversions of its parameters throw. -/
theorem execute_error {e : XmlRpcException}
    (h : (call (m.execute w params) ds).1 = .error (.thrown e)) : TypeError e := by
  have hspec := execute_spec m w params ds
  generalize call (m.execute w params) ds = out at h hspec
  cases hspec with
  | noSize e' hs =>
    obtain rfl := Fault.thrown.inj (Except.error.inj h)
    exact Or.inl (size_error hs)
  | noNumber size e' hs hle hn =>
    obtain rfl := Fault.thrown.inj (Except.error.inj h)
    exact decnum_error hn
  | tooFew | missing => simp at h
  | found size num dec hs hle hn hp =>
    cases hreq : m.request w params dec with
    | error e' =>
      rw [hreq] at h
      obtain rfl := Except.error.inj h
      exact request_error hreq
    | ok answered =>
      obtain ⟨result, _ | r⟩ := answered <;> simp [hreq, answer] at h

/-- The results of a method. -/
inductive Result : XmlRpcValue → Prop
  | invalid : Result .invalid
  | int (n : ℤ) (h : -2 ^ 31 ≤ n ∧ n < 2 ^ 31) : Result (.int n)
  | double (n : ℤ) (h : -2 ^ 31 ≤ n ∧ n < 2 ^ 31) : Result (.double (doubleOf n))

variable {s : Daemon}

/-- How a method may end: with a result, with an exception, or not at all. -/
theorem run_spec {name : Name} {run : XmlRpcValue → Daemon → Except Failure XmlRpcValue × Daemon}
    (h : methods name = some run) (params : XmlRpcValue) (s : Daemon) :
    (∃ v, (run params s).1 = .ok v ∧ Result v) ∨
      (∃ e, (run params s).1 = .error (.thrown e) ∧ TypeError e) ∨
      (run params s).1 = .error .lost := by
  rcases methods_eq_some h with ⟨m, rfl⟩ | rfl
  · unfold Method.run
    split_ifs
    · exact Or.inr (Or.inr rfl)
    dsimp only
    cases hcall : (call (m.execute s.world params) s.decoders).1 with
    | error e =>
      cases e with
      | thrown e => exact Or.inr (Or.inl ⟨e, rfl, execute_error hcall⟩)
      | nullPointer => exact Or.inr (Or.inr rfl)
    | ok result =>
      refine Or.inl ⟨_, rfl, ?_⟩
      cases result with
      | none => exact .invalid
      | some n =>
        have hrange := execute_range hcall
        unfold Method.result
        dsimp only
        split_ifs
        · exact .int n hrange
        · exact .double n hrange
  · unfold Quit.run
    split
    · exact Or.inr (Or.inr rfl)
    · exact Or.inl ⟨_, rfl, .double 1 (by omega)⟩

theorem zero_notMem_printD (n : ℤ) : 0 ∉ printD n := by
  intro hmem
  rcases mem_printD hmem with hsign | hdigit
  · exact absurd hsign (by decide)
  · exact absurd hdigit (by decide)

/-- The numbers that are results are written without a NUL, and read as they were. -/
def Numbers (floats : Floats) : Prop :=
  ∀ n : ℤ, -2 ^ 31 ≤ n ∧ n < 2 ^ 31 →
    0 ∉ floats.print (doubleOf n) ∧ Exact floats (doubleOf n)

theorem numbers_integers : Numbers Floats.integers := by
  intro n hn
  refine ⟨?_, exact_integers hn⟩
  have hprint : Floats.integers.print (doubleOf n) = printD n ++ zeros := by
    simp only [Floats.integers, intOf_doubleOf (show n.natAbs < 2 ^ 53 by omega)]
  have hzeros : 0 ∉ zeros := by decide
  rw [hprint, List.mem_append, not_or]
  exact ⟨zero_notMem_printD n, hzeros⟩

variable {floats : Floats} {v : XmlRpcValue}

theorem Result.sendable (hfloats : Numbers floats) (h : Result v) :
    Sendable floats (ensureValid v) := by
  cases h with
  | invalid => exact .string []
  | int n hn => exact .int n hn
  | double n hn => exact .double _ (hfloats n hn).2

theorem TypeError.code {e : XmlRpcException} (h : TypeError e) : e.code = -1 := by
  rcases h with rfl | rfl <;> rfl

/-- What the methods send can be sent. -/
theorem sends_methods (hfloats : Numbers floats) : Sends floats methods := by
  intro name run hname params s
  rcases run_spec hname params s with ⟨v, hv, hresult⟩ | ⟨e, he, herror⟩ | hlost
  · rw [hv]
    exact hresult.sendable hfloats
  · rw [he, Telling, herror.code]
    exact code_neg_one
  · rw [hlost]
    trivial

/-! ### The length of what they send -/

/-- A text without a NUL of at most `k` bytes. -/
structure Short (k : ℕ) (s : Name) : Prop where
  nul : 0 ∉ s
  length : s.length ≤ k

theorem Short.append {k l : ℕ} {s t : Name} (hs : Short k s) (ht : Short l t) :
    Short (k + l) (s ++ t) where
  nul := by simp [hs.nul, ht.nul]
  length := by
    have hs' := hs.length
    have ht' := ht.length
    rw [List.length_append]
    omega

theorem short_snprintf {s : Name} (h : 0 ∉ s) : Short 254 (snprintf 255 s) where
  nul hmem := h (List.mem_of_mem_take hmem)
  length := List.length_take_le _ _

/-- A result is short in XML. -/
theorem Result.short (hfloats : Numbers floats) (h : Result v) :
    Short 300 (toXml floats (ensureValid v)) := by
  cases h with
  | invalid =>
    have hempty : toXml floats (ensureValid .invalid) = tag "value" ++ etag "value" := rfl
    rw [hempty]
    exact ⟨by decide, by decide⟩
  | int n hn =>
    have hwrap : toXml floats (ensureValid (.int n)) = (tag "value" ++ tag "i4") ++
        (snprintf 255 (printD n) ++ (etag "i4" ++ etag "value")) := by
      simp [ensureValid, toXml, intToXml, wrap]
    have hfront : Short 11 (tag "value" ++ tag "i4") := ⟨by decide, by decide⟩
    have hback : Short 35 (etag "i4" ++ etag "value") := ⟨by decide, by decide⟩
    rw [hwrap]
    exact hfront.append ((short_snprintf (zero_notMem_printD n)).append hback)
  | double n hn =>
    have hwrap : toXml floats (ensureValid (.double (doubleOf n))) =
        (tag "value" ++ tag "double") ++
          (snprintf 255 (floats.print (doubleOf n)) ++ (etag "double" ++ etag "value")) := by
      simp [ensureValid, toXml, doubleToXml, wrap]
    have hfront : Short 15 (tag "value" ++ tag "double") := ⟨by decide, by decide⟩
    have hback : Short 31 (etag "double" ++ etag "value") := ⟨by decide, by decide⟩
    rw [hwrap]
    exact hfront.append ((short_snprintf (hfloats n hn).1).append hback)

/-- A message with a short body is short. -/
theorem short_message {k : ℕ} {body : Name} (h : Short k body) :
    Short (354 + k) (generateHeader body ++ body) := by
  have hsplit : generateHeader body = (bytesOf "HTTP/1.1 200 OK\r\nServer: " ++ version ++
      bytesOf "\r\nContent-Type: text/xml\r\nContent-length: ") ++
      (snprintf 255 (printD (int32 body.length)) ++ bytesOf "\r\n\r\n") := by
    rw [snprintf_printD (int32_mem _), generateHeader, List.append_assoc _ (printD _)]
  have hfront : Short 90 (bytesOf "HTTP/1.1 200 OK\r\nServer: " ++ version ++
      bytesOf "\r\nContent-Type: text/xml\r\nContent-length: ") := ⟨by decide, by decide⟩
  have hback : Short 10 (bytesOf "\r\n\r\n") := ⟨by decide, by decide⟩
  rw [hsplit]
  exact (hfront.append ((short_snprintf (zero_notMem_printD _)).append hback)).append h

/-- The response with a short result. -/
theorem short_generateResponse {xml : Name} (h : Short 300 xml) :
    Short 1000 (generateResponse xml) := by
  have hbody : responseBody xml = (xmlVersion ++ (tag "methodResponse" ++ (tag "params" ++
      (tag "param" ++ bytesOf "\r\n\t")))) ++ (xml ++ (crlf ++ (etag "param" ++
        (etag "params" ++ (etag "methodResponse" ++ crlf))))) := by
    simp [responseBody]
  have hfront : Short 100 (xmlVersion ++ (tag "methodResponse" ++ (tag "params" ++
      (tag "param" ++ bytesOf "\r\n\t")))) := ⟨by decide, by decide⟩
  have hback : Short 100 (crlf ++ (etag "param" ++ (etag "params" ++
      (etag "methodResponse" ++ crlf)))) := ⟨by decide, by decide⟩
  have hshort : Short 500 (responseBody xml) := by
    rw [hbody]
    exact hfront.append (h.append hback)
  have hmessage := short_message hshort
  exact ⟨hmessage.nul, hmessage.length.trans (by decide)⟩

/-- The response to a request with parameters of a wrong type. -/
theorem short_generateFaultResponse {e : XmlRpcException} (h : TypeError e) :
    Short 1000 (generateFaultResponse floats (bytesOf e.message) e.code) := by
  have hbody : ∀ message : Name, faultBody floats message (-1) =
      xmlVersion ++ (tag "methodResponse" ++ (tag "fault" ++ (bytesOf "\r\n\t" ++
        (wrap "struct" (tag "member" ++ (tag "name" ++ (xmlEncode (bytesOf "faultCode") ++
          (etag "name" ++ (intToXml (-1) ++ (etag "member" ++ (tag "member" ++ (tag "name" ++
          (xmlEncode (bytesOf "faultString") ++ (etag "name" ++ (stringToXml message ++
          etag "member"))))))))))) ++ (crlf ++ (etag "fault" ++
            (etag "methodResponse" ++ crlf))))))) := by
    intro message
    simp only [faultBody, faultStruct_eq, toXml, membersToXml, List.append_nil]
  have hshort : Short 600 (faultBody floats (bytesOf e.message) e.code) := by
    rw [h.code, hbody]
    rcases h with rfl | rfl <;> exact ⟨by decide +kernel, by decide +kernel⟩
  have hmessage := short_message hshort
  exact ⟨hmessage.nul, hmessage.length.trans (by decide)⟩

/-! ### Remote calls -/

open XmlRpcClient Network

variable {fuel : ℕ} {name : Name}
  {run : XmlRpcValue → Daemon → Except Failure XmlRpcValue × Daemon}

/-- How a method ends for the server. -/
def ended (r : Except Failure XmlRpcValue) : Except Failure (Option XmlRpcValue) :=
  r.map fun v => some (ensureValid v)

/-- The server dispatches the name of a method to the method. -/
theorem dispatch_of_some (hname : methods name = some run) (params : XmlRpcValue) (s : Daemon)
    (nested : Name → Daemon → Option (Except Failure (Option XmlRpcValue) × Daemon)) :
    dispatch methods nested name params s = some (ended (run params s).1, (run params s).2) := by
  unfold dispatch executeMethod ended
  rw [hname]
  dsimp only
  rcases run params s with ⟨_ | _, _⟩ <;> rfl

/-- A request for one of the methods. -/
def MethodCall (floats : Floats) (q : Message true) : Prop :=
  ∃ name params, (∃ run, methods name = some run) ∧ IsCall floats name params q

/-- A request for a method is answered with how the method ends. -/
theorem executeRequest_method (hname : methods name = some run) {q : Message true}
    (hcall : IsCall floats name params q) (s : Daemon) :
    executeRequest floats methods fuel q.body s =
      some (respond floats name (ended (run (ofParams ((paramList params).map received)) s).1,
        (run (ofParams ((paramList params).map received)) s).2)) := by
  rw [executeRequest, hcall.parse]
  simp only [dispatch_of_some hname, Option.map_some]

/-- The responses to the methods can be sent: they are short. -/
theorem fits_methods (hfloats : Numbers floats) :
    Fits (serve floats methods fuel) (MethodCall floats) := by
  rintro q ⟨name, params, ⟨run, hname⟩, hcall⟩ s response s' hserve
  have hexecute := serve_eq_some.mp hserve
  rw [executeRequest_method hname hcall, Option.some.injEq, ended] at hexecute
  have hshort : Short 1000 response := by
    rcases run_spec hname (ofParams ((paramList params).map received)) s with
      ⟨v, hv, hresult⟩ | ⟨e, he, herror⟩ | hlost
    · rw [hv] at hexecute
      rw [← Except.ok.inj (Prod.mk.inj hexecute).1]
      exact short_generateResponse (hresult.short hfloats)
    · rw [he] at hexecute
      rw [← Except.ok.inj (Prod.mk.inj hexecute).1]
      exact short_generateFaultResponse herror
    · rw [hlost] at hexecute
      simp [Except.map, respond] at hexecute
  exact ⟨hshort.nul, hshort.length.trans_lt (by decide)⟩

section Run

variable {ι : Type} [DecidableEq ι] {s₀ : Daemon} {t : Machine.Shared ι Party Daemon}
  {u v : List ((ι × Network.Action Daemon) × Network.Event)} {i : ι} {a : Network.Action Daemon}
  {response : Name}

/-- Whatever happens to the connections and to the decoders: when the remote call of a method
returns, the method has been executed, and has come back, on the decoders as they were at a moment
of the call, for the parameters as the server has received them, and the client parses how it ended
there. -/
theorem daemon_call (hfloats : Numbers floats)
    (h : (net ι (serve floats methods fuel)).RunOn
      (fun _ a => a.2.Allowed (MethodCall floats)) (start ι s₀)
      (u ++ ((i, a), .returned (some response)) :: v) t) :
    ∃ q answer name params run n n',
      During (serve floats methods fuel) (MethodCall floats) s₀ i u q answer n n' ∧
      IsCall floats name params q ∧ methods name = some run ∧
      n'.shared = (run (ofParams ((paramList params).map received)) n.shared).2 ∧
      (run (ofParams ((paramList params).map received)) n.shared).1 ≠ .error .lost ∧
      parseResponse floats response =
        told name (ended (run (ofParams ((paramList params).map received)) n.shared).1) := by
  obtain ⟨q, answer, name, args, n, n', r, ⟨name', params, ⟨run, hname⟩, hcall⟩, hcall', hduring,
    hdispatch, hread, htold⟩ := remote_call (sends_methods hfloats)
      (fun q ⟨name, params, _, hcall⟩ => ⟨name, params, hcall⟩) (fits_methods hfloats) h
  -- what the request names does not depend on how it is read
  obtain ⟨rfl, hargs⟩ := Prod.mk.inj (hcall'.parse.symm.trans hcall.parse)
  rw [hargs, dispatch_of_some hname] at hdispatch
  obtain ⟨rfl, hstate⟩ := Prod.mk.inj (Option.some.inj hdispatch)
  refine ⟨q, answer, name, params, run, n, n', hduring, hcall, hname, hstate.symm, ?_, hread⟩
  intro hlost
  rw [ended, hlost] at htold
  exact htold rfl

/-- `Play` on the first decoder comes back. -/
theorem run_play (s : Daemon) : ∃ v, (Method.play.run (.array [.int 1]) s).1 = .ok v := by
  have hspec := execute_spec .play s.world (.array [.int 1]) s.decoders
  have hrun : (Method.play.run (.array [.int 1]) s).1 =
      ((call (Method.play.execute s.world (.array [.int 1])) s.decoders).1.mapError
        Method.failure).map (Method.play.result (found (.array [.int 1]) s.decoders)) := rfl
  rw [hrun]
  generalize call (Method.play.execute s.world (.array [.int 1])) s.decoders = out at hspec ⊢
  cases hspec with
  | noSize e hs => simp [XmlRpcValue.size] at hs
  | noNumber size e hs hle hn =>
    have hnum : decnum (.array [.int 1]) = .ok 1 := rfl
    simp [hnum] at hn
  | tooFew | missing | found => exact ⟨_, rfl⟩

/-- A daemon with one decoder. -/
def oneDecoder : Daemon where
  decoders := [Decoder.new 3 false .single []]
  world := ⟨fun _ => true, []⟩
  held _ := true

/-- A call of `Play` that is completed. -/
theorem daemon_call_play :
    ∃ u q answer n n', During (serve Floats.integers methods 1) (MethodCall Floats.integers)
      oneDecoder () u q answer n n' := by
  have hsendable : ∀ v ∈ paramList (.array [.int 1]), Sendable Floats.integers v := by
    intro v hv
    rw [List.mem_singleton.mp hv]
    exact .int 1 (by omega)
  have haddressed : Server.Addressed { host := bytesOf "localhost", port := 2640 } :=
    ⟨by decide, by decide⟩
  obtain ⟨q, hcall, -⟩ := exists_isCall haddressed (by decide : Method.play.name ≠ []) (by decide)
    hsendable (by decide +kernel) (by decide +kernel)
  -- among the runs with no other call there is one in which the call returns
  let allowed : Message true → Prop := IsCall Floats.integers Method.play.name (.array [.int 1])
  have hmethod : ∀ q, allowed q → MethodCall Floats.integers q :=
    fun q h => ⟨_, _, ⟨_, methods_name .play⟩, h⟩
  have hresponds : Responds (serve Floats.integers methods 1) allowed :=
    responds_serve (sends_methods numbers_integers)
      fun q hq => fits_methods numbers_integers q (hmethod q hq)
  have htotal : ∀ q, allowed q → ∀ s, (serve Floats.integers methods 1 q.body s).isSome := by
    intro q hq s
    obtain ⟨v, hv⟩ := run_play s
    have hargs : ofParams ((paramList (.array [.int 1])).map received) = .array [.int 1] := rfl
    rw [serve, executeRequest_method (methods_name .play) hq, hargs, ended, hv]
    rfl
  obtain ⟨p, hstep, hexecuting, hopen⟩ : ∃ p, step (serve Floats.integers methods 1) {} oneDecoder
      (.call q .connected) = some (p, oneDecoder, .asked 1 q.body) ∧
      p.client.executing = true ∧ (p.links p.current).conn ≠ none :=
    ⟨_, rfl, rfl, Option.some_ne_none _⟩
  have hrun : (net Unit (serve Floats.integers methods 1)).RunOn
      (fun _ a => a.2.Allowed allowed) (start Unit oneDecoder)
      [(((), .call q .connected), .asked 1 q.body)]
      ⟨Function.update (fun _ => {}) () p, oneDecoder⟩ :=
    .single hcall (Machine.interleave_next.mpr ⟨p, hstep, rfl⟩)
  obtain ⟨tr, a, response, t, hrest, -⟩ := completes_of_run (i := ()) hresponds htotal hrun
    (by simpa using hexecuting) (by simpa using hopen)
  have hallowed : ∀ (s : Machine.Shared Unit Party Daemon) (a : Unit × Network.Action Daemon),
      a.2.Allowed allowed → a.2.Allowed (MethodCall Floats.integers) := by
    rintro s ⟨i, a⟩ ha
    cases a with
    | call q connect => exact hmethod q ha
    | _ => trivial
  have hwhole := (hrun.append (hrest.mono fun _ _ h => h.2.1)).mono hallowed
  rw [← List.append_assoc] at hwhole
  obtain ⟨q, answer, name, params, run, n, n', hduring, -⟩ := daemon_call numbers_integers hwhole
  exact ⟨_, q, answer, n, n', hduring⟩

end Run

end Xmlrpc

end IvySync
