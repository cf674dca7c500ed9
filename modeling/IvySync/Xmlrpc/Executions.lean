import IvySync.Foundation.Interleave
import IvySync.Xmlrpc.Network

/-!
# Executions and calls

All clients of a server, which take their steps in any order.  What follows for every run from what
holds of one client: the server has executed the requests one after another, in the order of each
connection (`executions_run`); the dispatcher of a client goes on with a node that was freed exactly
where the client connects once more (`retry_of_run`); and what a call returns was made by an
execution of its request while the call went on (`returned_of_run`).
-/

namespace IvySync

open Http XmlRpcSocket

namespace Network

variable {ι σ : Type} [DecidableEq ι]

/-- The clients of a server. -/
abbrev net (ι : Type) [DecidableEq ι] (execute : Name → σ → Option (Name × σ)) :
    Machine (Machine.Shared ι Party σ) (ι × Action σ) Event :=
  Machine.interleave (step execute)

/-- Before anything has happened. -/
def start (ι : Type) (s₀ : σ) : Machine.Shared ι Party σ := ⟨fun _ => {}, s₀⟩

/-- A server that executes one request after another, with other changes of its state between
them. -/
def atomic (execute : Name → σ → Option (Name × σ)) :
    Machine σ (Name ⊕ (σ → σ)) (Option Name) where
  next s
    | .inl request => (execute request s).map fun r => (r.2, some r.1)
    | .inr f => some (f s, none)

/-- An execution of a request. -/
def Event.executed : Event → Option (Name × Name)
  | .ran _ request response => some (request, response)
  | _ => none

/-- What a step does to the state of the server. -/
def effect : Action σ → Event → Option ((Name ⊕ (σ → σ)) × Option Name)
  | .other f, _ => some (.inr f, none)
  | _, e => e.executed.map fun r => (.inl r.1, some r.2)

variable {execute : Name → σ → Option (Name × σ)} {allowed : Message true → Prop} {p p' : Party}
  {e : Event} {s s' s₀ : σ} {t : Machine.Shared ι Party σ} {tr : List ((ι × Action σ) × Event)}

/-- A connection of the server executes a request with `execute`, or does not touch the state. -/
theorem handleEvent_ran {conn : XmlRpcServerConnection} {reads left : List Read} {write : Write}
    {handled : XmlRpcServerConnection.Handled σ}
    (h : conn.handleEvent execute s reads write = some (handled, left)) :
    (handled.ran = none → handled.server = s) ∧ ∀ q r, handled.ran = some (q, r) →
      execute q s = some (r, handled.server) := by
  unfold XmlRpcServerConnection.handleEvent at h
  split at h
  · obtain ⟨rfl, -⟩ := Prod.mk.inj (Option.some.inj h)
    exact ⟨fun _ => rfl, by simp⟩
  · split_ifs at h
    · obtain ⟨written, hwritten, heq⟩ := Option.map_eq_some_iff.mp h
      obtain ⟨rfl, -⟩ := Prod.mk.inj heq
      unfold XmlRpcServerConnection.writeResponse at hwritten
      split_ifs at hwritten
      · obtain ⟨⟨response, s'⟩, hexecute, rfl⟩ := Option.map_eq_some_iff.mp hwritten
        refine ⟨by simp, ?_⟩
        rintro q r hran
        obtain ⟨rfl, rfl⟩ := Prod.mk.inj (Option.some.inj hran)
        exact hexecute
      · obtain rfl := Option.some.inj hwritten
        exact ⟨fun _ => rfl, by simp⟩
    · obtain ⟨rfl, -⟩ := Prod.mk.inj (Option.some.inj h)
      exact ⟨fun _ => rfl, by simp⟩

theorem executed_ofRan (k : ℕ) (o : Option (Name × Name)) : (Event.ofRan k o).executed = o := by
  cases o <;> rfl

/-- A step executes a request, or does not touch the state of the server, unless that is what it is
for. -/
theorem step_executed {a : Action σ} (h : step execute p s a = some (p', s', e)) :
    (e.executed = none → (∀ f, a ≠ .other f) → s' = s) ∧
      ∀ q r, e.executed = some (q, r) → execute q s = some (r, s') := by
  have hsilent : s' = s → e.executed = none → (e.executed = none → (∀ f, a ≠ .other f) → s' = s) ∧
      ∀ q r, e.executed = some (q, r) → execute q s = some (r, s') :=
    fun hs he => ⟨fun _ _ => hs, fun q r hqr => by simp [he] at hqr⟩
  cases a with
  | call q connect =>
    obtain ⟨rfl, client, ⟨-, -, rfl⟩ | ⟨-, -, rfl⟩⟩ := step_call h <;> exact hsilent rfl rfl
  | client reads write connect =>
    obtain ⟨-, -, handled, left, link, -, -, -, rfl, rfl⟩ := step_client h
    refine hsilent rfl ?_
    unfold settle
    split_ifs <;> rfl
  | failure erased =>
    obtain ⟨-, rfl, sources, -, rfl⟩ := step_failure h
    exact hsilent rfl rfl
  | server k reads write ssl =>
    obtain ⟨conn, handled, left, -, -, hrun, -, rfl, rfl⟩ := step_server h
    rw [executed_ofRan]
    obtain ⟨hnone, hsome⟩ := handleEvent_ran hrun
    exact ⟨fun he _ => hnone he, hsome⟩
  | close k ssl =>
    obtain ⟨-, -, rfl, rfl⟩ := step_close h
    exact hsilent rfl rfl
  | other f =>
    obtain ⟨-, -, rfl⟩ : _ ∧ _ ∧ _ := by simpa [step] using h
    exact ⟨fun _ hother => absurd rfl (hother f), by simp [Event.executed]⟩

/-- What a step does to the state of the server is one step of the server that executes requests one
after another, if it is anything. -/
theorem step_effect {a : Action σ} (h : step execute p s a = some (p', s', e)) :
    (effect a e = none → s' = s) ∧
      ∀ b d, effect a e = some (b, d) → (atomic execute).next s b = some (s', d) := by
  obtain ⟨hnone, hsome⟩ := step_executed h
  by_cases hother : ∃ f, a = .other f
  · obtain ⟨f, rfl⟩ := hother
    obtain ⟨-, rfl, -⟩ : _ ∧ _ ∧ _ := by simpa [step] using h
    refine ⟨by simp [effect], ?_⟩
    rintro b d hbd
    obtain ⟨rfl, rfl⟩ := Prod.mk.inj (Option.some.inj hbd)
    rfl
  · have heffect : effect a e = e.executed.map fun r => (.inl r.1, some r.2) := by
      cases a with
      | other f => exact absurd ⟨f, rfl⟩ hother
      | _ => rfl
    rw [heffect]
    refine ⟨fun he => hnone (Option.map_eq_none_iff.mp he) fun f hf => hother ⟨f, hf⟩, ?_⟩
    rintro b d hbd
    obtain ⟨⟨q, r⟩, he, heq⟩ := Option.map_eq_some_iff.mp hbd
    obtain ⟨rfl, rfl⟩ := Prod.mk.inj heq
    simp only [atomic, hsome q r he, Option.map_some]

/-- What a run does to the state of the server. -/
def effects (tr : List ((ι × Action σ) × Event)) : List ((Name ⊕ (σ → σ)) × Option Name) :=
  tr.filterMap fun x => effect x.1.2 x.2

/-- After any run, what holds of one client holds of each. -/
theorem partyInv_of_run (hresponds : Responds execute allowed)
    (h : (net ι execute).RunOn (fun _ a => a.2.Allowed allowed) (start ι s₀) tr t) (i : ι) :
    PartyInv allowed (Machine.history i tr) (t.party i) :=
  h.party_invariant (fun _ _ _ _ _ _ _ hinv ha hstep => partyInv_step hresponds hinv ha hstep)
    (fun _ => partyInv_new) i

/-- Whatever happens to the connections: the server is in the state that executing the requests one
after another leads to, with what else changes it between them; and on a connection, requests are
executed in the order in which they were sent, each at most once. -/
theorem executions_run (hresponds : Responds execute allowed)
    (h : (net ι execute).RunOn (fun _ a => a.2.Allowed allowed) (start ι s₀) tr t) :
    (atomic execute).Run s₀ (effects tr) t.shared ∧
      ∀ i k, (ran k (Machine.history i tr)).map Prod.fst <+: asked k (Machine.history i tr) := by
  refine ⟨h.shared_run (M := atomic execute) effect fun _ _ _ _ _ _ => step_effect, ?_⟩
  intro i k
  obtain ⟨stage, hat⟩ := (partyInv_of_run hresponds h i).safe k
  exact hat.prefix

/-- A server that counts the requests and gives the same answer to all of them. -/
def counting (_ : Name) (n : ℕ) : Option (Name × ℕ) := some ((default : Message false).text, n + 1)

theorem responds_counting : Responds counting fun _ => True := by
  intro q _ s response s' h
  exact ⟨default, (Prod.mk.inj (Option.some.inj h)).1⟩

/-- The connection of one client ends before its response has been sent, and its next call makes
another one, while the request of a second client is executed. -/
theorem executions_run_counting : ∃ tr t, (atomic counting).Run 0 (effects tr) t ∧ t = 3 ∧
    (ran 1 (Machine.history true tr)).map Prod.fst <+: asked 1 (Machine.history true tr) ∧
    asked 2 (Machine.history true tr) ≠ [] := by
  let request : List Read := [((default : Message true).text, .wouldBlock)]
  have hreaches : (net Bool counting).Reaches (fun _ a => a.2.Allowed fun _ => True) (start Bool 0)
      [(true, .call default .connected), (true, .client [] (100, true) .connected),
        (false, .call default .connected), (true, .server 1 request (5, false) false),
        (true, .client [([], .error)] (0, true) .noSocket), (false, .client [] (100, true) .noSocket),
        (true, .call default .connected), (true, .client [] (100, true) .connected),
        (true, .server 2 request (100, true) false), (false, .server 1 request (7, true) false)]
      (fun tr t => t.shared = 3 ∧ asked 2 (Machine.history true tr) ≠ []) := by decide +kernel
  obtain ⟨tr, t, hrun, hshared, hasked⟩ := hreaches.exists_runOn
  obtain ⟨hatomic, horder⟩ := executions_run responds_counting hrun
  exact ⟨tr, t.shared, hatomic, hshared, horder true 1, hasked⟩

/-- After any run: what the dispatcher of a client does when there is an event is not defined where
the client has written its request, finds the end of the stream or an error in front of the first
byte of the response and gets another socket, and nowhere else. -/
theorem retry_of_run (hresponds : Responds execute allowed)
    (h : (net ι execute).RunOn (fun _ a => a.2.Allowed allowed) (start ι s₀) tr t) {i : ι}
    (hexecuting : (t.party i).client.executing = true) {reads : List Read}
    (hreads : bytes reads <+: ((t.party i).links (t.party i).current).down) (write : Write)
    (connect : XmlRpcClient.Connect) :
    (net ι execute).next t (i, .client reads write connect) = none ↔
      connect ≠ .noSocket ∧ (∃ e left, reads = ([], e) :: left ∧ e ≠ .wouldBlock) ∧
        ((t.party i).client.connectionState = .readHeader ∧ (t.party i).client.header = [] ∨
          (t.party i).client.connectionState = .writeRequest ∧ write.2 = true ∧
            (t.party i).client.request.length ≤ (t.party i).client.bytesWritten + write.1) := by
  have hinv := partyInv_of_run hresponds h i
  have hnext : (net ι execute).next t (i, .client reads write connect) = none ↔
      ¬ XmlRpcClient.Kept (t.party i).client
        ((t.party i).client.handleEvent reads write connect).1.client := by
    simp [Machine.interleave, step, hexecuting, hreads, XmlRpcClient.turn]
  have hlength : (t.party i).client.connectionState = .writeRequest →
      ((nbWrite (t.party i).client.request (t.party i).client.bytesWritten write).1 =
          int32 (t.party i).client.request.length ↔
        (t.party i).client.request.length ≤ (t.party i).client.bytesWritten + write.1) := by
    intro hstate
    obtain ⟨hlt, hlong⟩ := (hinv.engaged hexecuting).request_lt hstate
    have hint : int32 (t.party i).client.request.length = (t.party i).client.request.length := by
      rw [int32, Int.bmod_eq_of_le] <;> omega
    simp only [nbWrite, hint]
    omega
  rw [hnext, XmlRpcClient.handleEvent_kept (hinv.node hexecuting), not_not]
  unfold XmlRpcClient.Retries XmlRpcClient.Written
  simp only [hinv.first hexecuting, true_and]
  constructor
  · rintro ⟨⟨hstate, hheader, hend⟩ | ⟨⟨hstate, hwrite, hwritten⟩, hend⟩, hsocket⟩
    · exact ⟨hsocket, hend, Or.inl ⟨hstate, hheader⟩⟩
    · exact ⟨hsocket, hend, Or.inr ⟨hstate, hwrite, (hlength hstate).mp hwritten⟩⟩
  · rintro ⟨hsocket, hend, ⟨hstate, hheader⟩ | ⟨hstate, hwrite, hwritten⟩⟩
    · exact ⟨Or.inl ⟨hstate, hheader, hend⟩, hsocket⟩
    · exact ⟨Or.inr ⟨⟨hstate, hwrite, (hlength hstate).mpr hwritten⟩, hend⟩, hsocket⟩

/-- The server closes a connection on which it has not read the request. -/
theorem retry_of_run_counting : ∃ t : Machine.Shared Unit Party ℕ,
    (t.party ()).client.executing = true ∧
      (net Unit counting).next t ((), .client [([], .eof)] (0, true) .connected) = none := by
  have hreaches : (net Unit counting).Reaches (fun _ a => a.2.Allowed fun _ => True) (start Unit 0)
      [((), .call default .connected), ((), .client [] (100, true) .noSocket),
        ((), .close 1 false)]
      (fun _ t => (t.party ()).client.executing = true ∧
        (t.party ()).client.connectionState = .readHeader ∧
        (t.party ()).client.header = []) := by
    decide +kernel
  obtain ⟨tr, t, hrun, hexecuting, hstate, hheader⟩ := hreaches.exists_runOn
  have hreads : bytes [([], .eof)] <+: ((t.party ()).links (t.party ()).current).down :=
    List.nil_prefix
  exact ⟨t, hexecuting, (retry_of_run responds_counting hrun hexecuting hreads _ _).mpr
    ⟨by simp, ⟨.eof, [], rfl, by simp⟩, Or.inl ⟨hstate, hheader⟩⟩⟩

/-- A call that has begun and has not returned. -/
def Pending (allowed : Message true → Prop) (i : ι) (tr : List ((ι × Action σ) × Event))
    (calling : Name) : Prop :=
  ∃ u q connect k w, tr = u ++ ((i, .call q connect), .asked k q.body) :: w ∧ allowed q ∧
    calling = q.body ∧ ∀ e ∈ Machine.history i w, e.Calm

theorem Pending.snoc {calling : Name} (h : Pending allowed i tr calling)
    {x : (ι × Action σ) × Event} (hx : x.1.1 = i → x.2.Calm) :
    Pending allowed i (tr ++ [x]) calling := by
  obtain ⟨u, q, connect, k, w, rfl, hallowed, rfl, hw⟩ := h
  refine ⟨u, q, connect, k, w ++ [x], by simp, hallowed, rfl, ?_⟩
  rw [Machine.history_snoc]
  split_ifs with hi
  · intro e he
    rcases List.mem_append.mp he with he | he
    · exact hw e he
    · rw [List.mem_singleton.mp he]
      exact hx hi
  · exact hw

/-- A client executes a request after a step: the step has begun the call, or the call goes on. -/
theorem step_executing {a : Action σ} (h : step execute p s a = some (p', s', e))
    (hexecuting : p'.client.executing = true) :
    (∃ q connect k, a = .call q connect ∧ e = .asked k q.body ∧ p'.calling = q.body) ∨
      p.client.executing = true ∧ p'.calling = p.calling ∧ e.Calm := by
  cases a with
  | call q connect =>
    obtain ⟨-, client, ⟨hstart, rfl, rfl⟩ | ⟨-, rfl, rfl⟩⟩ := step_call h
    · obtain ⟨-, hfailed, -⟩ := XmlRpcClient.start_spec hstart
      simp [(hfailed rfl).1] at hexecuting
    · exact Or.inl ⟨q, connect, _, rfl, rfl, rfl⟩
  | client reads write connect =>
    obtain ⟨hbefore, -, handled, left, link, -, -, rfl, -, rfl⟩ := step_client h
    refine Or.inr ⟨hbefore, ?_⟩
    unfold settle at hexecuting ⊢
    split_ifs at hexecuting ⊢
    · simp [XmlRpcClient.finish] at hexecuting
    · exact ⟨rfl, trivial⟩
  | failure erased =>
    obtain ⟨-, -, sources, rfl, -⟩ := step_failure h
    simp at hexecuting
  | server k reads write ssl =>
    obtain ⟨conn, handled, left, -, -, -, rfl, -, rfl⟩ := step_server h
    exact Or.inr ⟨hexecuting, rfl, calm_ofRan _ _⟩
  | close k ssl =>
    obtain ⟨-, rfl, -, rfl⟩ := step_close h
    exact Or.inr ⟨hexecuting, rfl, trivial⟩
  | other f =>
    obtain ⟨rfl, -, rfl⟩ : _ ∧ _ ∧ _ := by simpa [step] using h
    exact Or.inr ⟨hexecuting, rfl, trivial⟩

/-- Only a client that executes a request returns a response. -/
theorem step_returned {a : Action σ} {response : Name}
    (h : step execute p s a = some (p', s', .returned (some response))) :
    p.client.executing = true := by
  cases a with
  | call q connect =>
    obtain ⟨-, client, ⟨-, -, heq⟩ | ⟨-, -, heq⟩⟩ := step_call h <;> simp at heq
  | client reads write connect => exact (step_client h).1
  | failure erased => exact (step_failure h).1
  | server k reads write ssl =>
    obtain ⟨conn, handled, left, -, -, -, -, -, heq⟩ := step_server h
    have hcalm := calm_ofRan k handled.ran
    rw [← heq] at hcalm
    exact absurd hcalm id
  | close k ssl => exact absurd (step_close h).2.2.2 (by simp)
  | other f => simp [step] at h

/-- After any run, a client that executes a request has begun a call that has not returned. -/
theorem pending_of_run
    (h : (net ι execute).RunOn (fun _ a => a.2.Allowed allowed) (start ι s₀) tr t) (i : ι)
    (hexecuting : (t.party i).client.executing = true) :
    Pending allowed i tr (t.party i).calling := by
  refine h.invariant_trace (I := fun tr (t : Machine.Shared ι Party σ) =>
    (t.party i).client.executing = true → Pending allowed i tr (t.party i).calling) ?_ ?_ hexecuting
  · intro tr s ⟨j, a⟩ t e hI hallowed hnext hexecuting
    obtain ⟨p, hstep, hparty⟩ := Machine.interleave_next.mp hnext
    rw [hparty] at hexecuting ⊢
    rcases eq_or_ne j i with rfl | hj
    · rw [Function.update_self] at hexecuting ⊢
      rcases step_executing hstep hexecuting with ⟨q, connect, k, rfl, rfl, hcalling⟩ |
        ⟨hbefore, hcalling, he⟩
      · exact ⟨tr, q, connect, k, [], rfl, hallowed, hcalling, by simp⟩
      · rw [hcalling]
        exact (hI hbefore).snoc fun _ => he
    · rw [Function.update_of_ne hj.symm] at hexecuting ⊢
      exact (hI hexecuting).snoc fun hi => absurd hi hj
  · intro hnew
    simp [start] at hnew

/-- The last request that was sent is that of the call. -/
theorem Since.suffix {k k' : ℕ} {q q' : Name} {es before mid rest : List Event}
    (h : Since k q es mid) (heq : es = before ++ .asked k' q' :: rest)
    (hrest : ∀ e ∈ rest, e.Calm) : q = q' ∧ mid = rest := by
  obtain ⟨⟨front, hfront⟩, hmid⟩ := h
  rw [heq] at hfront
  rcases List.append_eq_append_iff.mp hfront with ⟨xs, -, hxs⟩ | ⟨xs, -, hxs⟩ <;>
    rcases xs with _ | ⟨x, xs⟩
  · obtain ⟨hhead, rfl⟩ := List.cons.inj hxs
    exact ⟨(Event.asked.inj hhead).2.symm, rfl⟩
  · -- nothing was sent behind the begin of the call
    obtain ⟨-, rfl⟩ := List.cons.inj hxs
    exact absurd (hrest (.asked k q) (by simp)) id
  · obtain ⟨hhead, rfl⟩ := List.cons.inj hxs
    exact ⟨(Event.asked.inj hhead).2, rfl⟩
  · obtain ⟨-, rfl⟩ := List.cons.inj hxs
    exact absurd (hmid (.asked k' q') (by simp)) id

/-- The call of a client that goes on after `u` is for the request `q`, and the server has executed
it during the call, with a response, in the step from `n` to `n'`. -/
def During (execute : Name → σ → Option (Name × σ)) (allowed : Message true → Prop) (s₀ : σ) (i : ι)
    (u : List ((ι × Action σ) × Event)) (q : Message true) (response : Name)
    (n n' : Machine.Shared ι Party σ) : Prop :=
  ∃ u₀ connect k w₁ w₂ a k', u = u₀ ++ ((i, .call q connect), .asked k q.body) ::
      (w₁ ++ ((i, a), .ran k' q.body response) :: w₂) ∧
    (∀ r, .returned r ∉ Machine.history i (w₁ ++ w₂)) ∧
    (net ι execute).RunOn (fun _ a => a.2.Allowed allowed) (start ι s₀)
      (u₀ ++ ((i, .call q connect), .asked k q.body) :: w₁) n ∧
    (net ι execute).next n (i, a) = some (n', .ran k' q.body response)

/-- When `execute` returns a response, the server has executed the request of that call between its
begin and its end, on the state in which it was then, and the response is the one that was made
there. -/
theorem returned_of_run (hresponds : Responds execute allowed) {i : ι} {response : Name}
    {a : Action σ} {u v : List ((ι × Action σ) × Event)}
    (h : (net ι execute).RunOn (fun _ a => a.2.Allowed allowed) (start ι s₀)
      (u ++ ((i, a), .returned (some response)) :: v) t) :
    ∃ q n n', ∃ m : Message false, allowed q ∧ During execute allowed s₀ i u q m.text n n' ∧
      execute q.body n.shared = some (m.text, n'.shared) ∧ m.body = response := by
  obtain ⟨k', q', mid, m, hsince, hran, hbody⟩ := (partyInv_of_run hresponds h i).answered
    (Machine.history i u) response (Machine.history i v) (by
      rw [Machine.history_append, Machine.history_cons, if_pos rfl])
  -- the call that returns is the one that is pending before the step
  obtain ⟨n₁, n₂, hrun, -, hnext, -⟩ := h.exists_of_mem_split
  obtain ⟨p, hstep, -⟩ := Machine.interleave_next.mp hnext
  obtain ⟨u₀, q, connect, k, w, rfl, hallowed, -, hw⟩ :=
    pending_of_run hrun i (step_returned hstep)
  have hsplit : Machine.history i (u₀ ++ ((i, .call q connect), .asked k q.body) :: w) =
      Machine.history i u₀ ++ .asked k q.body :: Machine.history i w := by
    rw [Machine.history_append, Machine.history_cons, if_pos rfl]
  obtain ⟨rfl, rfl⟩ := hsince.suffix hsplit hw
  -- its request was executed since
  obtain ⟨es₁, es₂, hes⟩ := List.append_of_mem hran
  obtain ⟨w₁, a', w₂, rfl, -, -⟩ := Machine.history_eq_append hes
  have hrun' : (net ι execute).RunOn (fun _ a => a.2.Allowed allowed) (start ι s₀)
      ((u₀ ++ ((i, .call q connect), .asked k q.body) :: w₁) ++
        ((i, a'), .ran k' q.body m.text) :: w₂) n₁ := by
    simpa only [List.append_assoc, List.cons_append] using hrun
  obtain ⟨n, n', hn, -, hnext', -⟩ := hrun'.exists_of_mem_split
  obtain ⟨p', hstep', -⟩ := Machine.interleave_next.mp hnext'
  refine ⟨q, n, n', m, hallowed, ⟨u₀, connect, k, w₁, w₂, a', k', rfl, ?_, hn, hnext'⟩,
    (step_executed hstep').2 q.body _ rfl, hbody⟩
  intro r hr
  have hmem : .returned r ∈ Machine.history i (w₁ ++ ((i, a'), .ran k' q.body m.text) :: w₂) := by
    rw [Machine.history_append] at hr ⊢
    rw [Machine.history_cons, if_pos rfl]
    rcases List.mem_append.mp hr with hr | hr
    · exact List.mem_append_left _ hr
    · exact List.mem_append_right _ (List.mem_cons_of_mem _ hr)
  exact absurd (hw _ hmem) id

end Network

end IvySync
