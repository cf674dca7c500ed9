import IvySync.Linklist.Refinement
import IvySync.Process.Step
import IvySync.Xmlrpc.Value

/-!
# The methods of the daemon

`Open`, `Play`, `Stop`, `Pause`, `GetPos`, `SetPos`, `GetOffset` and `SetOffset` on parameters of
any number and any type.  A method is a computation on the list of decoders that may end early, and
then keeps what it has changed so far, as a C++ exception does.  That nothing is changed on any way
that fails is therefore something to prove: `execute_atomic`.

All of them begin alike, with `method`.  `execute_spec` states what each does as one request of the
named decoder at most, and `execute_process` that this is the command of `Process/Defs`.
-/

namespace IvySync

namespace Xmlrpc

/-- What ends a method early. -/
inductive Fault
  | thrown (e : XmlRpcException)
  /-- A NULL pointer has been used. -/
  | nullPointer
  deriving DecidableEq, Repr

/-- A computation on the decoders that may end early. -/
abbrev Rpc := ExceptT Fault (StateM (Playlist Decoder))

/-- Run a computation: how it ends and what it leaves. -/
def call {α : Type} (x : Rpc α) (decoders : Playlist Decoder) :
    Except Fault α × Playlist Decoder :=
  x.run.run decoders

/-- What the world answers during a method: whether `fopen` succeeds on a path, and what the memory
held that `new Entry()` gets. -/
structure World where
  fopen : Name → Bool
  memory : List UInt8

/-- Look at a parameter. -/
def look {α : Type} : Except XmlRpcException α → Rpc α
  | .ok a => pure a
  | .error e => throw (.thrown e)

/-- Change the decoder at a position of the list. -/
def change (decnum : ℤ) (f : Decoder → Decoder) : Rpc Unit :=
  modify fun decoders => decoders.modify (decnum - 1).toNat f

/-- The first parameter, as the number of a decoder. -/
def decnum (params : XmlRpcValue) : Except XmlRpcException ℤ := do (← params.item 0).toInt

/-- The second parameter, as a number. -/
def pos (params : XmlRpcValue) : Except XmlRpcException ℤ := do (← params.item 1).toInt

/-- The second parameter, as a C string. -/
def path (params : XmlRpcValue) : Except XmlRpcException Name :=
  return cString (← (← params.item 1).toString)

/-- What all methods have in common: the number of parameters is tested, with `invalid` as the
result when there are fewer than `arity`, and the decoder is looked up.  A result is the number that
`result` is set to, `none` when it is left alone. -/
def method (arity : ℤ) (invalid : Option ℤ) (body : ℤ → Decoder → Rpc (Option ℤ))
    (params : XmlRpcValue) : Rpc (Option ℤ) := do
  if (← look params.size) < arity then return invalid
  let decnum ← look (decnum params)
  match (← get).pick decnum with
  | none => return some 0
  | some dec => body decnum dec

/-- `Open::execute`, as long as the memory holds the path whose string is gone. -/
def Open.execute (w : World) (params : XmlRpcValue) : Rpc (Option ℤ) :=
  method 2 (some 0) (fun decnum _ => do
    let path ← look (path params)
    if !w.fopen path then return some 0
    change decnum Decoder.stop
    change decnum Decoder.empty
    change decnum (Decoder.append (stored w.memory path))
    return some 1) params

/-- `Play::execute`. -/
def Play.execute (params : XmlRpcValue) : Rpc (Option ℤ) :=
  method 1 (some 0) (fun decnum _ => do
    change decnum Decoder.play
    return some 1) params

/-- `Stop::execute`. -/
def Stop.execute (params : XmlRpcValue) : Rpc (Option ℤ) :=
  method 1 (some 0) (fun decnum _ => do
    change decnum Decoder.stop
    return some 1) params

/-- `Pause::execute`. -/
def Pause.execute (params : XmlRpcValue) : Rpc (Option ℤ) :=
  method 1 (some 0) (fun decnum _ => do
    change decnum Decoder.pause
    return some 1) params

/-- `GetPos::execute`. -/
def GetPos.execute (params : XmlRpcValue) : Rpc (Option ℤ) :=
  method 1 none (fun _ dec =>
    match dec.getpos with
    | none => throw .nullPointer
    | some percent => return some percent) params

/-- `GetOffset::execute`. -/
def GetOffset.execute (params : XmlRpcValue) : Rpc (Option ℤ) :=
  method 1 none (fun _ dec => return some (int32 dec.getoffset)) params

/-- `SetPos::execute`. -/
def SetPos.execute (params : XmlRpcValue) : Rpc (Option ℤ) :=
  method 2 none (fun decnum _ => do
    let pos ← look (pos params)
    change decnum (Decoder.setpos pos)
    return none) params

/-- `SetOffset::execute`. -/
def SetOffset.execute (params : XmlRpcValue) : Rpc (Option ℤ) :=
  method 2 none (fun decnum _ => do
    let pos ← look (pos params)
    change decnum (Decoder.setoffset pos)
    return none) params

/-- The methods that concern one decoder. -/
inductive Method
  | open
  | play
  | stop
  | pause
  | getPos
  | getOffset
  | setPos
  | setOffset
  deriving DecidableEq, Repr

namespace Method

/-- Execute a method. -/
def execute (w : World) (params : XmlRpcValue) : Method → Rpc (Option ℤ)
  | .open => Open.execute w params
  | .play => Play.execute params
  | .stop => Stop.execute params
  | .pause => Pause.execute params
  | .getPos => GetPos.execute params
  | .getOffset => GetOffset.execute params
  | .setPos => SetPos.execute params
  | .setOffset => SetOffset.execute params

/-- How many parameters a method asks for. -/
def arity : Method → ℤ
  | .open | .setPos | .setOffset => 2
  | _ => 1

/-- The result of a method when there are too few parameters. -/
def invalid : Method → Option ℤ
  | .open | .play | .stop | .pause => some 0
  | _ => none

/-- The result of a method on a decoder that was found, and the request that it makes of it. -/
def request (w : World) (params : XmlRpcValue) (dec : Decoder) :
    Method → Except Fault (Option ℤ × Option Request)
  | .open =>
    match path params with
    | .error e => .error (.thrown e)
    | .ok path =>
      if w.fopen path then .ok (some 1, some (.open (stored w.memory path)))
      else .ok (some 0, none)
  | .play => .ok (some 1, some .play)
  | .stop => .ok (some 1, some .stop)
  | .pause => .ok (some 1, some .pause)
  | .getPos =>
    match dec.getpos with
    | none => .error .nullPointer
    | some percent => .ok (some percent, none)
  | .getOffset => .ok (some (int32 dec.getoffset), none)
  | .setPos =>
    match pos params with
    | .error e => .error (.thrown e)
    | .ok pos => .ok (none, some (.setpos pos))
  | .setOffset =>
    match pos params with
    | .error e => .error (.thrown e)
    | .ok pos => .ok (none, some (.setoffset pos))

end Method

/-! ### Running a computation -/

variable {α β : Type} {ds ds' : Playlist Decoder}

@[simp] theorem call_pure (a : α) : call (pure a) ds = (.ok a, ds) := rfl

@[simp] theorem call_throw (e : Fault) : call (throw e : Rpc α) ds = (.error e, ds) := rfl

@[simp] theorem call_get : call get ds = (.ok ds, ds) := rfl

@[simp] theorem call_change (decnum : ℤ) (f : Decoder → Decoder) :
    call (change decnum f) ds = (.ok (), ds.modify (decnum - 1).toNat f) := rfl

@[simp] theorem call_look_ok (a : α) : call (look (.ok a)) ds = (.ok a, ds) := rfl

@[simp] theorem call_look_error (e : XmlRpcException) :
    call (look (.error e) : Rpc α) ds = (.error (.thrown e), ds) := rfl

/-- One computation after another: an early end of the first is the end. -/
theorem call_bind (x : Rpc α) (f : α → Rpc β) :
    call (x >>= f) ds =
      match call x ds with
      | (.ok a, ds') => call (f a) ds'
      | (.error e, ds') => (.error e, ds') := by
  simp only [call, ExceptT.run_bind, StateT.run_bind]
  rcases x.run.run ds with ⟨_ | _, _⟩ <;> rfl

/-- What a request of the decoder at a position leaves. -/
def answer (decnum : ℤ) (decoders : Playlist Decoder) :
    Except Fault (Option ℤ × Option Request) → Except Fault (Option ℤ) × Playlist Decoder
  | .error e => (.error e, decoders)
  | .ok (result, none) => (.ok result, decoders)
  | .ok (result, some r) =>
    (.ok result, decoders.modify (decnum - 1).toNat (Decoder.apply · r))

/-- The branches of a method. -/
inductive Executed (m : Method) (w : World) (params : XmlRpcValue) (ds : Playlist Decoder) :
    Except Fault (Option ℤ) × Playlist Decoder → Prop
  | noSize (e : XmlRpcException) (hs : params.size = .error e) :
      Executed m w params ds (.error (.thrown e), ds)
  | tooFew (size : ℤ) (hs : params.size = .ok size) (hlt : size < m.arity) :
      Executed m w params ds (.ok m.invalid, ds)
  | noNumber (size : ℤ) (e : XmlRpcException) (hs : params.size = .ok size)
      (hle : m.arity ≤ size) (hn : decnum params = .error e) :
      Executed m w params ds (.error (.thrown e), ds)
  | missing (size num : ℤ) (hs : params.size = .ok size) (hle : m.arity ≤ size)
      (hn : decnum params = .ok num) (hp : ds.pick num = none) :
      Executed m w params ds (.ok (some 0), ds)
  | found (size num : ℤ) (dec : Decoder) (hs : params.size = .ok size) (hle : m.arity ≤ size)
      (hn : decnum params = .ok num) (hp : ds.pick num = some dec) :
      Executed m w params ds (answer num ds (m.request w params dec))

variable {m : Method} {w : World} {params : XmlRpcValue}

/-- The common part of the methods is one of the branches, if the body answers the request. -/
theorem method_spec {body : ℤ → Decoder → Rpc (Option ℤ)}
    (hbody : ∀ num dec, call (body num dec) ds = answer num ds (m.request w params dec)) :
    Executed m w params ds (call (method m.arity m.invalid body params) ds) := by
  unfold method
  rw [call_bind]
  cases hsize : params.size with
  | error e => exact Executed.noSize e hsize
  | ok size =>
    simp only [call_look_ok]
    split_ifs with hlt
    · exact Executed.tooFew size hsize hlt
    · push Not at hlt
      rw [call_bind]
      cases hnum : decnum params with
      | error e => exact Executed.noNumber size e hsize hlt hnum
      | ok num =>
        simp only [call_look_ok, call_bind, call_get]
        cases hpick : ds.pick num with
        | none => exact Executed.missing size num hsize hlt hnum hpick
        | some dec =>
          simp only [hbody]
          exact Executed.found size num dec hsize hlt hnum hpick

/-- `Open` stops the decoder, empties its playlist and adds the path. -/
theorem modify_open (n : ℕ) (name : Name) :
    ((ds.modify n Decoder.stop).modify n Decoder.empty).modify n (Decoder.append name) =
      ds.modify n (Decoder.apply · (.open name)) := by
  rw [List.modify_modify_eq, List.modify_modify_eq]
  rfl

/-- Every method is one of the branches. -/
theorem execute_spec (m : Method) (w : World) (params : XmlRpcValue) (ds : Playlist Decoder) :
    Executed m w params ds (call (m.execute w params) ds) := by
  cases m with
  | «open» =>
    refine method_spec ?_
    intro num dec
    simp only [Method.request, call_bind]
    cases hpath : path params with
    | error e => rfl
    | ok path =>
      cases hread : w.fopen path with
      | false => simp [hread, answer]
      | true =>
        simp only [call_look_ok, hread, Bool.not_true, Bool.false_eq_true, if_false, if_true,
          call_bind, call_change, call_pure, modify_open, answer]
  | play => exact method_spec fun num dec => rfl
  | stop => exact method_spec fun num dec => rfl
  | pause => exact method_spec fun num dec => rfl
  | getPos =>
    refine method_spec ?_
    intro num dec
    simp only [Method.request]
    cases dec.getpos <;> rfl
  | getOffset => exact method_spec fun num dec => rfl
  | setPos =>
    refine method_spec ?_
    intro num dec
    simp only [Method.request, call_bind]
    cases pos params <;> rfl
  | setOffset =>
    refine method_spec ?_
    intro num dec
    simp only [Method.request, call_bind]
    cases pos params <;> rfl

/-! ### Atomicity -/

/-- A request that is turned down without an exception: it has too few parameters, names a decoder
that is not there, or is to open a file that cannot be read. -/
inductive Refused (m : Method) (w : World) (params : XmlRpcValue) (ds : Playlist Decoder) : Prop
  | tooFew (size : ℤ) (hs : params.size = .ok size) (hlt : size < m.arity)
  | missing (num : ℤ) (hn : decnum params = .ok num) (hp : ds.pick num = none)
  | unreadable (name : Name) (hm : m = .open) (hp : path params = .ok name)
      (hr : w.fopen name = false)

/-- A request that faults or is turned down. -/
def Fails (m : Method) (w : World) (params : XmlRpcValue) (ds : Playlist Decoder) : Prop :=
  (∃ e, (call (m.execute w params) ds).1 = .error e) ∨ Refused m w params ds

/-- The path of an `Open` is a C string. -/
theorem zero_notMem_path {name : Name} (h : path params = .ok name) : 0 ∉ name := by
  unfold path at h
  cases hitem : params.item 1 with
  | error e => simp [hitem, bind, Except.bind] at h
  | ok value =>
    cases hstring : value.toString with
    | error e => simp [hitem, hstring, bind, Except.bind] at h
    | ok s =>
      obtain rfl : cString s = name := by
        simpa [hitem, hstring, bind, Except.bind, pure, Except.pure] using h
      exact zero_notMem_cString s

/-- An `Open` that is carried out leaves a playlist of this one path, if it fits into an entry. -/
theorem open_playlist {name : Name} (dec : Decoder) (memory : List UInt8) (hnul : 0 ∉ name)
    (hlength : name.length ≤ 510) :
    (dec.apply (.open (stored memory name))).playlist = [name] := by
  have hfits : name.length < maxEntryName - 1 := by
    unfold maxEntryName
    omega
  rw [stored_eq_self memory hnul hfits]
  rfl

/-- What `Open` requests of a decoder that was found. -/
theorem request_open_eq {dec : Decoder} {result : Option ℤ} {r : Option Request}
    (h : Method.open.request w params dec = .ok (result, r)) :
    ∃ name, path params = .ok name ∧
      (w.fopen name = false ∧ r = none ∨
        w.fopen name = true ∧ result = some 1 ∧ r = some (.open (stored w.memory name))) := by
  simp only [Method.request] at h
  cases hpath : path params with
  | error e => simp [hpath] at h
  | ok name =>
    refine ⟨name, rfl, ?_⟩
    cases hread : w.fopen name <;> simp_all

/-- Whatever the decoders, their states and the parameters are: a request that fails leaves every
decoder exactly as it was, and any other changes no decoder but the one that it names.  An `Open`
that does not fail leaves a playlist of its path alone, if that has at most 510 bytes. -/
theorem execute_atomic (m : Method) (w : World) (params : XmlRpcValue) (ds : Playlist Decoder) :
    (Fails m w params ds → (call (m.execute w params) ds).2 = ds) ∧
      (¬ Fails m w params ds → ∃ num dec, decnum params = .ok num ∧
        (∀ i, (call (m.execute w params) ds).2.pick i = if i = num then some dec else ds.pick i) ∧
        (m = .open → (call (m.execute w params) ds).1 = .ok (some 1) ∧
          ∃ name, path params = .ok name ∧ (name.length ≤ 510 → dec.playlist = [name]))) := by
  have hspec := execute_spec m w params ds
  generalize hout : call (m.execute w params) ds = out at hspec
  unfold Fails
  rw [hout]
  cases hspec with
  | noSize e hs => exact ⟨fun _ => rfl, fun h => absurd (Or.inl ⟨_, rfl⟩) h⟩
  | tooFew size hs hlt => exact ⟨fun _ => rfl, fun h => absurd (Or.inr (.tooFew size hs hlt)) h⟩
  | noNumber size e hs hle hn => exact ⟨fun _ => rfl, fun h => absurd (Or.inl ⟨_, rfl⟩) h⟩
  | missing size num hs hle hn hp =>
    exact ⟨fun _ => rfl, fun h => absurd (Or.inr (.missing num hn hp)) h⟩
  | found size num dec hs hle hn hp =>
    have hsame : ∀ i, ds.pick i = if i = num then some dec else ds.pick i := by
      intro i
      split_ifs with hi
      · rw [hi, hp]
      · rfl
    cases hreq : m.request w params dec with
    | error e => exact ⟨fun _ => rfl, fun h => absurd (Or.inl ⟨e, rfl⟩) h⟩
    | ok answered =>
      obtain ⟨result, r⟩ := answered
      cases r with
      | none =>
        refine ⟨fun _ => rfl, fun h => ⟨num, dec, hn, hsame, ?_⟩⟩
        rintro rfl
        obtain ⟨name, hpath, ⟨hread, -⟩ | ⟨-, -, hr⟩⟩ := request_open_eq hreq
        · exact absurd (Or.inr (.unreadable name rfl hpath hread)) h
        · simp at hr
      | some r =>
        refine ⟨?_, fun _ => ⟨num, dec.apply r, hn, Playlist.pick_modify hp _, ?_⟩⟩
        · rintro (⟨e, he⟩ | ⟨size', hs', hlt⟩ | ⟨num', hn', hp'⟩ | ⟨name, rfl, hpath, hread⟩)
          · simp [answer] at he
          · rw [hs] at hs'
            obtain rfl := Except.ok.inj hs'
            omega
          · rw [hn] at hn'
            obtain rfl := Except.ok.inj hn'
            rw [hp] at hp'
            simp at hp'
          · simp [Method.request, hpath, hread] at hreq
        · rintro rfl
          obtain ⟨name, hpath, ⟨-, hr⟩ | ⟨-, hresult, hr⟩⟩ := request_open_eq hreq
          · simp at hr
          · obtain rfl := Option.some.inj hr
            refine ⟨?_, name, hpath, fun hlength => ?_⟩
            · rw [hresult]
              rfl
            · exact open_playlist dec w.memory (zero_notMem_path hpath) hlength

/-! ### The commands of the process -/

variable {n : ℕ}

/-- The list of the decoders of a process is looked up as its decoders are. -/
theorem pick_ofFn (f : Fin n → Decoder) (num : ℤ) :
    Playlist.pick (List.ofFn f) num = (Process.pick num).map f := by
  unfold Playlist.pick Process.pick
  rw [List.length_ofFn]
  split_ifs with hout hin hin
  · omega
  · rfl
  · have hlt : (num - 1).toNat < n := by omega
    rw [List.getElem?_ofFn, dif_pos hlt]
    rfl
  · omega

/-- Changing an entry of the list of the decoders is changing that decoder. -/
theorem modify_ofFn (f : Fin n → Decoder) (i : Fin n) (g : Decoder → Decoder) :
    (List.ofFn f).modify i g = List.ofFn (Function.update f i (g (f i))) := by
  refine List.ext_getElem (by simp) ?_
  intro k hk hk'
  have hkn : k < n := by simpa using hk
  by_cases hik : i.val = k
  · subst hik
    simp
  · have hne : (⟨k, hkn⟩ : Fin n) ≠ i := by
      intro he
      exact hik (congrArg Fin.val he).symm
    simp [hik, Function.update_of_ne hne]

/-- The request of a method is that of a remote command. -/
theorem exists_command {dec : Decoder} {result : Option ℤ} {r : Request}
    (h : m.request w params dec = .ok (result, some r)) (num : ℤ) :
    ∃ c readable, c ≠ Command.quit ∧ c.request readable = some (num, r) := by
  cases m with
  | «open» =>
    obtain ⟨name, -, ⟨-, hr⟩ | ⟨-, -, hr⟩⟩ := request_open_eq h
    · simp at hr
    · rw [Option.some.inj hr]
      exact ⟨.open num (stored w.memory name), true, by simp, rfl⟩
  | play => exact ⟨.play num, true, by simp_all [Method.request, Command.request]⟩
  | stop => exact ⟨.stop num, true, by simp_all [Method.request, Command.request]⟩
  | pause => exact ⟨.pause num, true, by simp_all [Method.request, Command.request]⟩
  | getPos =>
    simp only [Method.request] at h
    split at h <;> simp at h
  | getOffset => simp [Method.request] at h
  | setPos =>
    cases hpos : pos params with
    | error e => simp [Method.request, hpos] at h
    | ok pos => exact ⟨.setPos num pos, true, by simp_all [Method.request, Command.request]⟩
  | setOffset =>
    cases hpos : pos params with
    | error e => simp [Method.request, hpos] at h
    | ok pos => exact ⟨.setOffset num pos, true, by simp_all [Method.request, Command.request]⟩

/-- Whatever a client sends to one of the methods, it does to the decoders of a process what one of
its remote commands does. -/
theorem execute_process (s : Process n) (m : Method) (w : World) (params : XmlRpcValue) :
    ∃ c readable, c ≠ Command.quit ∧
      (call (m.execute w params) (List.ofFn s.decoders)).2 =
        List.ofFn (s.execute readable c).1.decoders := by
  have hnothing : ∃ c readable, c ≠ Command.quit ∧
      List.ofFn s.decoders = List.ofFn (s.execute readable c).1.decoders :=
    ⟨.getPos 0, true, by simp, rfl⟩
  have hspec := execute_spec m w params (List.ofFn s.decoders)
  generalize call (m.execute w params) (List.ofFn s.decoders) = out at hspec
  cases hspec with
  | noSize e hs => exact hnothing
  | tooFew size hs hlt => exact hnothing
  | noNumber size e hs hle hn => exact hnothing
  | missing size num hs hle hn hp => exact hnothing
  | found size num dec hs hle hn hp =>
    rw [pick_ofFn] at hp
    obtain ⟨i, hi, rfl⟩ := Option.map_eq_some_iff.mp hp
    cases hreq : m.request w params (s.decoders i) with
    | error e => exact hnothing
    | ok answered =>
      obtain ⟨result, _ | r⟩ := answered
      · exact hnothing
      · obtain ⟨c, readable, hc, hr⟩ := exists_command hreq num
        refine ⟨c, readable, hc, ?_⟩
        have hnum : (num - 1).toNat = i.val := by
          unfold Process.pick at hi
          split_ifs at hi
          exact congrArg Fin.val (Option.some.inj hi)
        rw [answer, hnum, modify_ofFn, Process.execute, if_neg hc, hr]
        simp only [hi]
        rfl

end Xmlrpc

end IvySync
