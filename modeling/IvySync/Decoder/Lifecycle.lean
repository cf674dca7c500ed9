import IvySync.Decoder.Step
import IvySync.Foundation.Handles
import IvySync.Saved.Defs

/-!
# The life of a decoder

A decoder is made, given a device by `init` and a buffer by `setup`, launched, closed and destroyed,
by calls that come one after another, while its thread runs and other threads make their requests.
`Life` is a decoder with the descriptors that are open for it, and `lifecycle` shows the calls of the
kernel in each step, as far as they concern a device.

`close` tests `running`, waits for the thread and closes the descriptor, and `clear` closes and
opens it again; neither `running` nor `fd` is ever taken back, so a second `close` does it all once
more.  `Careful` says what the calls must observe for this not to happen.
-/

namespace IvySync

open Handles

namespace Decoder

/-- `Decoder::init` with the descriptor that `open` returns, as far as the device is concerned. -/
def init (fd : ℤ) (d : Decoder) : Decoder × Bool :=
  if d.dummy then (d, true) else ({ d with fd := fd }, 0 ≤ fd)

end Decoder

/-- `init` gives a channel if it succeeds. -/
theorem Channel.init_eq (dev : Name) (fd : ℤ) (d : Decoder) :
    Channel.init dev fd d =
      if (d.init fd).2 then some ⟨(d.init fd).1, strncpy [] dev maxPath, number dev⟩ else none := by
  unfold Channel.init Decoder.init
  cases d.dummy with
  | true => rfl
  | false =>
    by_cases hfd : fd < 0
    · simp [hfd, Int.not_le.mpr hfd]
    · simp [hfd, Int.not_lt.mp hfd]

namespace Control

/-- Here the device is closed and opened again. -/
def reopens : Control → Bool
  | .reopen _ => true
  | _ => false

/-- Here `clear` has found a device. -/
def clearing : Control → Bool
  | .poll (.clear _) | .seek (.clear _) | .seekSet (.clear _) | .reopen _ => true
  | _ => false

end Control

/-- Where a call of `close` stands. -/
inductive Stage
  /-- `if(running)`. -/
  | test
  /-- `join()`. -/
  | join
  /-- `if(fd) ::close(fd)`. -/
  | fd
  deriving DecidableEq, Repr

/-- A decoder, and what it has of the kernel. -/
structure Life where
  decoder : Decoder
  /-- The descriptors of a device that are open. -/
  table : Finset ℕ
  /-- The `close` that has been called and has not returned, and whether the destructor called it. -/
  call : Option (Stage × Bool)
  /-- `close` has closed the descriptor that is in `fd`. -/
  ended : Bool
  /-- How often the thread has been joined. -/
  joins : ℕ
  destroyed : Bool
  deriving DecidableEq

/-- The calls that make up the life of a decoder, the steps of its thread and the requests. -/
inductive Lifecycle
  | init (fd : ℤ)
  | setup (calloc : Bool) (bufsize : ℤ)
  | launch (created : Bool)
  | close
  /-- `~Decoder`. -/
  | destroy
  /-- The call of `close` goes on. -/
  | proceed
  | thread (a : Answers)
  | request (r : Request)
  deriving DecidableEq, Repr

/-- What is seen of a step. -/
structure Sight where
  /-- The calls of the kernel on a device. -/
  calls : List (Call ℕ) := []
  /-- The thread was joined. -/
  joined : Bool := false
  deriving DecidableEq, Repr

namespace Life

/-- A decoder that has just been made. -/
def new (dummy : Bool) (playmode : Playmode) : Life :=
  ⟨Decoder.new 0 dummy playmode [], ∅, none, false, 0, false⟩

/-- A descriptor is closed; `fd` holds one if it is positive. -/
def closeCalls (fd : ℤ) : List (Call ℕ) := if 0 < fd then [.closed fd.toNat] else []

/-- `open` has returned. -/
def openCalls (fd : ℤ) : List (Call ℕ) := if 0 ≤ fd then [.opened fd.toNat] else []

/-- The descriptor is given to `write` or `poll`. -/
def useCalls (fd : ℤ) : List (Call ℕ) := if 0 < fd then [.used fd.toNat] else []

/-- The calls in the next step of the thread, with what the world answers. -/
def threadCalls (a : Answers) (d : Decoder) : List (Call ℕ) :=
  match d.pc with
  | .writing => if d.writing = 0 ∨ d.dummy then [] else useCalls d.fd
  | .poll _ => useCalls d.fd
  | .reopen _ => closeCalls d.fd ++ openCalls a.reopen
  | _ => []

/-- No other call is made before a call of `close` has returned, and none when the decoder is
gone. -/
def busy (s : Life) : Bool := s.call.isSome || s.destroyed

/-- The state after some calls of the kernel. -/
def kernel (cs : List (Call ℕ)) (s : Life) : Life := { s with table := cs.foldl effect s.table }

/-- One step.  The kernel gives no descriptor that is open already, a second `launch` waits for the
mutex for ever, and `join` waits for the thread. -/
def next (s : Life) : Lifecycle → Option (Life × Sight)
  | .init fd =>
    if s.busy then none
    else if s.decoder.dummy then some (s, {})
    else if 0 ≤ fd ∧ fd.toNat ∈ s.table then none
    else some ({ s with decoder := (s.decoder.init fd).1, ended := false }.kernel (openCalls fd),
      { calls := openCalls fd })
  | .setup calloc bufsize =>
    if s.busy then none
    else some ({ s with decoder := (s.decoder.setup calloc bufsize).1 }, {})
  | .launch created =>
    if s.busy ∨ s.decoder.locked then none
    else some ({ s with decoder := s.decoder.launch created }, {})
  | .close =>
    if s.busy then none
    else some ({ s with decoder := s.decoder.apply .quit, call := some (.test, false) }, {})
  | .destroy =>
    if s.busy then none
    else some ({ s with decoder := s.decoder.apply .quit, call := some (.test, true) }, {})
  | .proceed =>
    match s.call with
    | none => none
    | some (.test, gone) =>
      some ({ s with call := some (if s.decoder.running then .join else .fd, gone) }, {})
    | some (.join, gone) =>
      if s.decoder.alive then none
      else some ({ s with call := some (.fd, gone), joins := s.joins + 1 }, { joined := true })
    | some (.fd, gone) =>
      some ({ s with
          decoder := { s.decoder.apply .close with buffo := if gone then [] else s.decoder.buffo }
          call := none
          ended := true
          destroyed := gone }.kernel (closeCalls s.decoder.fd),
        { calls := closeCalls s.decoder.fd })
  | .thread a =>
    let cs := threadCalls a s.decoder
    if s.decoder.alive = false then none
    else if s.decoder.pc.reopens ∧ 0 ≤ a.reopen ∧
        a.reopen.toNat ∈ (closeCalls s.decoder.fd).foldl effect s.table then none
    else some ({ s with
        decoder := (s.decoder.step a).1
        ended := s.ended && !s.decoder.pc.reopens }.kernel cs, { calls := cs })
  | .request r =>
    if r = .quit ∨ r = .close then none
    else some ({ s with decoder := s.decoder.apply r }, {})

end Life

/-- The life of a decoder. -/
def lifecycle : Machine Life Lifecycle Sight where
  next := Life.next

namespace Life

/-- All calls of a run, in order. -/
def calls (tr : List (Lifecycle × Sight)) : List (Call ℕ) := tr.flatMap fun y => y.2.calls

/-- How often the thread has been joined in a run. -/
def joined (tr : List (Lifecycle × Sight)) : ℕ := tr.countP fun y => y.2.joined

/-- What the calls observe: `init` is not called over a descriptor that is open, and never gets the
descriptor nought, nor does `clear`; a thread is not launched on a descriptor that `close` has
closed; `close` and the destructor are not called for such a descriptor, nor once the thread has been
joined, and do not find a thread that has been launched and has not begun. -/
def Careful (s : Life) : Lifecycle → Prop
  | .init fd => s.decoder.dummy = false → (s.decoder.fd ≤ 0 ∨ s.ended = true) ∧ fd ≠ 0
  | .launch _ => 0 < s.decoder.fd → s.ended = false
  | .close | .destroy =>
    (0 < s.decoder.fd → s.ended = false) ∧ (s.decoder.running = true → s.joins = 0)
  | .proceed => ∀ gone, s.call = some (.test, gone) → s.decoder.pc = .start → s.decoder.fd = 0
  | .thread a => s.decoder.pc.reopens = true → a.reopen ≠ 0
  | _ => True

instance (s : Life) (x : Lifecycle) : Decidable (s.Careful x) :=
  match x with
  | .init fd => inferInstanceAs (Decidable
      (s.decoder.dummy = false → (s.decoder.fd ≤ 0 ∨ s.ended = true) ∧ fd ≠ 0))
  | .setup _ _ => inferInstanceAs (Decidable True)
  | .launch _ => inferInstanceAs (Decidable (0 < s.decoder.fd → s.ended = false))
  | .close => inferInstanceAs (Decidable
      ((0 < s.decoder.fd → s.ended = false) ∧ (s.decoder.running = true → s.joins = 0)))
  | .destroy => inferInstanceAs (Decidable
      ((0 < s.decoder.fd → s.ended = false) ∧ (s.decoder.running = true → s.joins = 0)))
  | .proceed => inferInstanceAs (Decidable
      (∀ gone, s.call = some (.test, gone) → s.decoder.pc = .start → s.decoder.fd = 0))
  | .thread a => inferInstanceAs (Decidable (s.decoder.pc.reopens = true → a.reopen ≠ 0))
  | .request _ => inferInstanceAs (Decidable True)

/-- The descriptor in `fd`, if it holds one that `close` has not closed. -/
def held (ended : Bool) (fd : ℤ) : Finset ℕ := if ended = false ∧ 0 < fd then {fd.toNat} else ∅

/-- What holds of a decoder as long as its calls are careful. -/
structure Kept (s : Life) : Prop where
  table : s.table = held s.ended s.decoder.fd
  device : s.decoder.alive = true ∨ s.call.isSome → 0 < s.decoder.fd → s.ended = false
  begun : s.decoder.alive = true → s.decoder.pc ≠ .start → s.decoder.running = true
  clearing : s.decoder.pc.clearing = true → s.decoder.fd ≠ 0
  closing : ∀ gone, s.call = some (.fd, gone) → s.decoder.alive = true → s.decoder.fd = 0
  joining : ∀ gone, s.call = some (.join, gone) → s.decoder.running = true
  unjoined : ∀ gone, s.call = some (.test, gone) ∨ s.call = some (.join, gone) → s.joins = 0
  joins : s.joins = 0 ∨ s.joins = 1 ∧ s.decoder.running = true
  destroyed : s.destroyed = true →
    s.call = none ∧ s.ended = true ∧ (s.decoder.alive = true → s.decoder.fd = 0)

variable {s t : Life}

/-! ### The calls of the kernel -/

theorem afterAll_closeCalls {o : Finset ℕ} {fd : ℤ} (h : 0 < fd → fd.toNat ∈ o) :
    afterAll o (closeCalls fd) = some ((closeCalls fd).foldl effect o) :=
  afterAll_ite h

theorem afterAll_openCalls {o : Finset ℕ} {fd : ℤ} (h : ¬ (0 ≤ fd ∧ fd.toNat ∈ o)) :
    afterAll o (openCalls fd) = some ((openCalls fd).foldl effect o) :=
  afterAll_ite fun hfd hmem => h ⟨hfd, hmem⟩

theorem afterAll_useCalls {o : Finset ℕ} {fd : ℤ} (h : 0 < fd → fd.toNat ∈ o) :
    afterAll o (useCalls fd) = some ((useCalls fd).foldl effect o) :=
  afterAll_ite h

/-- The descriptor that a thread or a call of `close` finds is open. -/
theorem Kept.mem_table (h : Kept s) (hs : s.decoder.alive = true ∨ s.call.isSome)
    (hfd : 0 < s.decoder.fd) : s.decoder.fd.toNat ∈ s.table := by
  rw [h.table, held, if_pos ⟨h.device hs hfd, hfd⟩]
  exact Finset.mem_singleton_self _

/-- When it is closed no descriptor is open. -/
theorem Kept.table_close (h : Kept s) (hs : s.decoder.alive = true ∨ s.call.isSome) :
    (closeCalls s.decoder.fd).foldl effect s.table = ∅ := by
  unfold closeCalls
  split_ifs with hfd
  · simp [effect, h.table, held, h.device hs hfd, hfd]
  · simp [h.table, held, hfd]

/-- When none is open, one is if `open` gives it. -/
theorem foldl_openCalls (fd : ℤ) :
    (openCalls fd).foldl effect ∅ = if 0 ≤ fd then {fd.toNat} else (∅ : Finset ℕ) := by
  unfold openCalls
  split_ifs <;> rfl

/-- A thread that does not open the device again only uses it. -/
theorem threadCalls_of_not_reopens {a : Answers} {d : Decoder} (h : d.pc.reopens = false) :
    threadCalls a d = [] ∨ threadCalls a d = useCalls d.fd := by
  unfold threadCalls
  split
  case h_1 => split_ifs <;> simp
  case h_2 => exact Or.inr rfl
  case h_3 hpc => simp [Control.reopens, hpc] at h
  case h_4 => exact Or.inl rfl

/-- A thread that opens the device again closes it first. -/
theorem threadCalls_of_reopens {a : Answers} {d : Decoder} (h : d.pc.reopens = true) :
    threadCalls a d = closeCalls d.fd ++ openCalls a.reopen := by
  unfold threadCalls
  split <;> simp_all [Control.reopens]

/-- Using a descriptor leaves it open. -/
theorem foldl_useCalls (o : Finset ℕ) (fd : ℤ) : (useCalls fd).foldl effect o = o := by
  unfold useCalls
  split_ifs <;> rfl

/-! ### What a step can be -/

/-- The branches of a step. -/
inductive Lived (s : Life) : Lifecycle → Life → Sight → Prop
  | initDummy (fd : ℤ) (hb : s.busy = false) (hd : s.decoder.dummy = true) :
      Lived s (.init fd) s {}
  | init (fd : ℤ) (hb : s.busy = false) (hd : s.decoder.dummy = false)
      (hfree : ¬ (0 ≤ fd ∧ fd.toNat ∈ s.table)) :
      Lived s (.init fd)
        ({ s with decoder := { s.decoder with fd := fd }, ended := false }.kernel (openCalls fd))
        { calls := openCalls fd }
  | setup (calloc : Bool) (bufsize : ℤ) (hb : s.busy = false) :
      Lived s (.setup calloc bufsize)
        { s with decoder := (s.decoder.setup calloc bufsize).1 } {}
  | launch (created : Bool) (hb : s.busy = false) (hl : s.decoder.locked = false) :
      Lived s (.launch created) { s with decoder := s.decoder.launch created } {}
  | close (hb : s.busy = false) :
      Lived s .close
        { s with decoder := s.decoder.apply .quit, call := some (.test, false) } {}
  | destroy (hb : s.busy = false) :
      Lived s .destroy
        { s with decoder := s.decoder.apply .quit, call := some (.test, true) } {}
  | test (gone : Bool) (hc : s.call = some (.test, gone)) :
      Lived s .proceed
        { s with call := some (if s.decoder.running then .join else .fd, gone) } {}
  | join (gone : Bool) (hc : s.call = some (.join, gone)) (hal : s.decoder.alive = false) :
      Lived s .proceed
        { s with call := some (.fd, gone), joins := s.joins + 1 } { joined := true }
  | fd (gone : Bool) (buffo : List UInt8) (hc : s.call = some (.fd, gone)) :
      Lived s .proceed
        ({ s with decoder := { s.decoder.apply .close with buffo := buffo }, call := none,
                  ended := true, destroyed := gone }.kernel (closeCalls s.decoder.fd))
        { calls := closeCalls s.decoder.fd }
  | thread (a : Answers) (hal : s.decoder.alive = true)
      (hfree : s.decoder.pc.reopens = true →
        ¬ (0 ≤ a.reopen ∧
          a.reopen.toNat ∈ (closeCalls s.decoder.fd).foldl effect s.table)) :
      Lived s (.thread a)
        ({ s with decoder := (s.decoder.step a).1,
                  ended := s.ended && !s.decoder.pc.reopens }.kernel (threadCalls a s.decoder))
        { calls := threadCalls a s.decoder }
  | request (r : Request) (hq : r ≠ .quit) (hc : r ≠ .close) :
      Lived s (.request r) { s with decoder := s.decoder.apply r } {}

/-- Every step is one of the branches. -/
theorem next_spec {x : Lifecycle} {y : Sight} (h : lifecycle.next s x = some (t, y)) :
    Lived s x t y := by
  cases x with
  | init fd =>
    simp only [lifecycle, next] at h
    split_ifs at h with hb hd hfree
    · obtain ⟨rfl, rfl⟩ := Prod.mk.inj (Option.some.inj h)
      exact Lived.initDummy fd (by simpa using hb) hd
    · obtain ⟨rfl, rfl⟩ := Prod.mk.inj (Option.some.inj h)
      rw [Decoder.init, if_neg hd]
      exact Lived.init fd (by simpa using hb) (by simpa using hd) hfree
  | setup calloc bufsize =>
    simp only [lifecycle, next] at h
    split_ifs at h with hb
    obtain ⟨rfl, rfl⟩ := Prod.mk.inj (Option.some.inj h)
    exact Lived.setup calloc bufsize (by simpa using hb)
  | launch created =>
    simp only [lifecycle, next] at h
    split_ifs at h with hb
    obtain ⟨rfl, rfl⟩ := Prod.mk.inj (Option.some.inj h)
    push Not at hb
    exact Lived.launch created (by simpa using hb.1) (by simpa using hb.2)
  | close =>
    simp only [lifecycle, next] at h
    split_ifs at h with hb
    obtain ⟨rfl, rfl⟩ := Prod.mk.inj (Option.some.inj h)
    exact Lived.close (by simpa using hb)
  | destroy =>
    simp only [lifecycle, next] at h
    split_ifs at h with hb
    obtain ⟨rfl, rfl⟩ := Prod.mk.inj (Option.some.inj h)
    exact Lived.destroy (by simpa using hb)
  | proceed =>
    simp only [lifecycle, next] at h
    split at h
    case h_1 => cases h
    case h_2 gone hc =>
      obtain ⟨rfl, rfl⟩ := Prod.mk.inj (Option.some.inj h)
      exact Lived.test gone hc
    case h_3 gone hc =>
      split_ifs at h with hal
      obtain ⟨rfl, rfl⟩ := Prod.mk.inj (Option.some.inj h)
      exact Lived.join gone hc (by simpa using hal)
    case h_4 gone hc =>
      obtain ⟨rfl, rfl⟩ := Prod.mk.inj (Option.some.inj h)
      exact Lived.fd gone _ hc
  | thread a =>
    simp only [lifecycle, next] at h
    split_ifs at h with hal hfree
    obtain ⟨rfl, rfl⟩ := Prod.mk.inj (Option.some.inj h)
    exact Lived.thread a (by simpa using hal) fun hr hn => hfree ⟨hr, hn⟩
  | request r =>
    simp only [lifecycle, next] at h
    split_ifs at h with hr
    obtain ⟨rfl, rfl⟩ := Prod.mk.inj (Option.some.inj h)
    push Not at hr
    exact Lived.request r hr.1 hr.2

/-! ### What a step keeps -/

/-- The device of a thread is another one only when it has been opened again. -/
theorem fd_of_step {a : Answers} {d d' : Decoder} {e : Event} (hs : Decoder.Step a d d' e) :
    d'.fd = if d.pc.reopens then a.reopen else d.fd := by
  cases hs <;> simp_all [Control.reopens]

/-- A thread that has begun says so. -/
theorem begun_of_step {a : Answers} {d d' : Decoder} {e : Event} (hs : Decoder.Step a d d' e)
    (h : d.pc ≠ .start → d.running = true) : d'.alive = true → d'.running = true := by
  cases hs <;> simp_all [Decoder.alive]

/-- `running` is not taken back. -/
theorem running_of_step {a : Answers} {d d' : Decoder} {e : Event} (hs : Decoder.Step a d d' e)
    (h : d.running = true) : d'.running = true := by
  cases hs
  case start => rfl
  all_goals exact h

/-- `clear` goes on with the device that it has found. -/
theorem clearing_of_step {a : Answers} {d d' : Decoder} {e : Event} (hs : Decoder.Step a d d' e)
    (h : d.pc.clearing = true → d.fd ≠ 0) : d'.pc.clearing = true → d'.fd ≠ 0 := by
  cases hs <;> (try cases ‹Caller›) <;> simp_all [Control.clearing, Caller.resume]

/-- Only `clear` opens a device again, and only one that it has found. -/
theorem clearing_of_reopens {pc : Control} (h : pc.reopens = true) : pc.clearing = true := by
  cases pc <;> simp_all [Control.reopens, Control.clearing]

/-- The calls of a step of the thread are allowed, and leave the descriptor in `fd` open. -/
theorem Kept.threadCalls {a : Answers} (h : Kept s) (hal : s.decoder.alive = true)
    (hfree : s.decoder.pc.reopens = true →
      ¬ (0 ≤ a.reopen ∧ a.reopen.toNat ∈ (closeCalls s.decoder.fd).foldl effect s.table)) :
    afterAll s.table (threadCalls a s.decoder) =
        some ((Life.threadCalls a s.decoder).foldl effect s.table) ∧
      (Life.threadCalls a s.decoder).foldl effect s.table =
        if s.decoder.pc.reopens then if 0 ≤ a.reopen then {a.reopen.toNat} else ∅ else s.table := by
  have hopen : 0 < s.decoder.fd → s.decoder.fd.toNat ∈ s.table := h.mem_table (Or.inl hal)
  cases hr : s.decoder.pc.reopens with
  | true =>
    rw [threadCalls_of_reopens hr, List.foldl_append, afterAll_append, afterAll_closeCalls hopen]
    refine ⟨afterAll_openCalls (hfree hr), ?_⟩
    rw [h.table_close (Or.inl hal), foldl_openCalls, if_pos rfl]
  | false =>
    rw [if_neg (by simp)]
    rcases threadCalls_of_not_reopens (a := a) hr with hcs | hcs
    · rw [hcs]
      exact ⟨rfl, rfl⟩
    · rw [hcs, afterAll_useCalls hopen]
      exact ⟨rfl, foldl_useCalls _ _⟩

/-- One step of the thread. -/
theorem Kept.thread {a : Answers} {d' : Decoder} {e : Event} (h : Kept s)
    (hc : s.Careful (.thread a)) (hal : s.decoder.alive = true)
    (hfree : s.decoder.pc.reopens = true →
      ¬ (0 ≤ a.reopen ∧ a.reopen.toNat ∈ (closeCalls s.decoder.fd).foldl effect s.table))
    (hs : Decoder.Step a s.decoder d' e) :
    Kept ({ s with decoder := d', ended := s.ended && !s.decoder.pc.reopens }.kernel
      (Life.threadCalls a s.decoder)) := by
  have hfd := fd_of_step hs
  have htable := (h.threadCalls hal hfree).2
  -- where `close` is about to close the descriptor, there is none
  have hnone : s.decoder.fd = 0 → d'.fd = 0 := by
    intro h0
    cases hr : s.decoder.pc.reopens with
    | true => exact absurd h0 (h.clearing (clearing_of_reopens hr))
    | false => rwa [hfd, hr, if_neg (by simp)]
  refine ⟨?_, ?_, ?_, ?_, ?_, ?_, ?_, ?_, ?_⟩
  · dsimp only [kernel]
    rw [htable, hfd]
    cases hr : s.decoder.pc.reopens with
    | true =>
      have hne : a.reopen ≠ 0 := hc hr
      have hiff : 0 ≤ a.reopen ↔ 0 < a.reopen := by omega
      simp [held, hiff]
    | false => simpa using h.table
  · intro hal' hpos
    dsimp only [kernel] at hal' hpos ⊢
    cases hr : s.decoder.pc.reopens with
    | true => simp
    | false =>
      rw [hfd, hr, if_neg (by simp)] at hpos
      simp [h.device (Or.inl hal) hpos]
  · intro hal' _
    exact begun_of_step hs (h.begun hal) hal'
  · exact clearing_of_step hs h.clearing
  · intro gone hcall _
    exact hnone (h.closing gone hcall hal)
  · intro gone hcall
    exact running_of_step hs (h.joining gone hcall)
  · exact h.unjoined
  · rcases h.joins with h0 | ⟨h1, hrun⟩
    · exact Or.inl h0
    · exact Or.inr ⟨h1, running_of_step hs hrun⟩
  · intro hgone
    obtain ⟨hcall, hended, hfd0⟩ := h.destroyed hgone
    have h0 := hfd0 hal
    have hr : s.decoder.pc.reopens = false := by
      by_contra hr
      exact h.clearing (clearing_of_reopens (by simpa using hr)) h0
    exact ⟨hcall, by simp [kernel, hended, hr], fun _ => hnone h0⟩

/-- `init` gets another descriptor when none is open. -/
theorem Kept.init {fd : ℤ} (h : Kept s) (hb : s.busy = false)
    (hc : (s.decoder.fd ≤ 0 ∨ s.ended = true) ∧ fd ≠ 0) :
    Kept ({ s with decoder := { s.decoder with fd := fd }, ended := false }.kernel
      (openCalls fd)) := by
  obtain ⟨hcall, hgone⟩ : s.call = none ∧ s.destroyed = false := by simpa [busy] using hb
  have hempty : s.table = ∅ := by
    rw [h.table, held, if_neg]
    rintro ⟨hended, hpos⟩
    rcases hc.1 with hle | he
    · omega
    · simp [hended] at he
  refine ⟨?_, fun _ _ => rfl, h.begun, fun _ => hc.2, ?_, h.joining, h.unjoined, h.joins, ?_⟩
  · have hiff : 0 ≤ fd ↔ 0 < fd := by omega
    dsimp only [kernel]
    rw [hempty, foldl_openCalls]
    simp [held, hiff]
  · intro gone hclose
    simp [kernel, hcall] at hclose
  · intro hdestroyed
    simp [kernel, hgone] at hdestroyed

/-- `launch` starts the thread on a device that is not closed. -/
theorem Kept.launch {created : Bool} (h : Kept s) (hb : s.busy = false)
    (hc : 0 < s.decoder.fd → s.ended = false) :
    Kept { s with decoder := s.decoder.launch created } := by
  obtain ⟨hcall, hgone⟩ : s.call = none ∧ s.destroyed = false := by simpa [busy] using hb
  refine ⟨h.table, fun _ hpos => hc hpos, ?_, ?_, ?_, h.joining, h.unjoined, h.joins, ?_⟩
  · cases created with
    | true => exact fun _ hpc => absurd rfl hpc
    | false => exact h.begun
  · cases created with
    | true => simp [Decoder.launch, Control.clearing]
    | false => exact h.clearing
  · intro gone hclose
    simp [hcall] at hclose
  · intro hdestroyed
    simp [hgone] at hdestroyed

/-- A call of `close` begins. -/
theorem Kept.close (h : Kept s) (hb : s.busy = false) (gone : Bool)
    (hc : (0 < s.decoder.fd → s.ended = false) ∧ (s.decoder.running = true → s.joins = 0)) :
    Kept { s with decoder := s.decoder.apply .quit, call := some (.test, gone) } := by
  obtain ⟨-, hgone⟩ : s.call = none ∧ s.destroyed = false := by simpa [busy] using hb
  refine ⟨h.table, fun _ hpos => hc.1 hpos, h.begun, h.clearing, ?_, ?_, ?_, h.joins, ?_⟩
  · simp
  · simp
  · intro gone' _
    rcases h.joins with h0 | ⟨-, hrun⟩
    · exact h0
    · exact hc.2 hrun
  · intro hdestroyed
    simp [hgone] at hdestroyed

/-- `close` tests `running`. -/
theorem Kept.test {gone : Bool} (h : Kept s) (hcall : s.call = some (.test, gone))
    (hc : s.decoder.pc = .start → s.decoder.fd = 0) :
    Kept { s with call := some (if s.decoder.running then .join else .fd, gone) } := by
  refine ⟨h.table, fun _ hpos => h.device (Or.inr (by simp [hcall])) hpos, h.begun, h.clearing,
    ?_, ?_, fun _ _ => h.unjoined gone (Or.inl hcall), h.joins, ?_⟩
  · intro gone' hclose hal
    cases hrun : s.decoder.running with
    | true => simp [hrun] at hclose
    | false =>
      by_contra hfd
      have hbegun := h.begun hal fun hpc => hfd (hc hpc)
      simp [hrun] at hbegun
  · intro gone' hjoin
    cases hrun : s.decoder.running with
    | true => rfl
    | false => simp [hrun] at hjoin
  · intro hdestroyed
    exact absurd (h.destroyed hdestroyed).1 (by simp [hcall])

/-- `close` has waited for the thread. -/
theorem Kept.join {gone : Bool} (h : Kept s) (hcall : s.call = some (.join, gone))
    (hal : s.decoder.alive = false) :
    Kept { s with call := some (.fd, gone), joins := s.joins + 1 } := by
  refine ⟨h.table, fun _ hpos => h.device (Or.inr (by simp [hcall])) hpos, h.begun, h.clearing,
    ?_, ?_, ?_, ?_, ?_⟩
  · intro gone' _ hal'
    simp [hal] at hal'
  · simp
  · simp
  · right
    exact ⟨by simp [h.unjoined gone (Or.inr hcall)], h.joining gone hcall⟩
  · intro hdestroyed
    exact absurd (h.destroyed hdestroyed).1 (by simp [hcall])

/-- `close` closes the descriptor and returns. -/
theorem Kept.fd {gone : Bool} (h : Kept s) (hcall : s.call = some (.fd, gone))
    (buffo : List UInt8) :
    Kept ({ s with decoder := { s.decoder.apply .close with buffo := buffo }, call := none,
                   ended := true, destroyed := gone }.kernel (closeCalls s.decoder.fd)) := by
  have hnone : s.decoder.alive = true → s.decoder.fd = 0 := h.closing gone hcall
  refine ⟨?_, ?_, h.begun, h.clearing, ?_, ?_, ?_, h.joins, ?_⟩
  · exact h.table_close (Or.inr (by simp [hcall]))
  · rintro (hal | hcall') hpos
    · have h0 := hnone hal
      have hpos' : 0 < s.decoder.fd := hpos
      omega
    · simp [kernel] at hcall'
  · simp [kernel]
  · simp [kernel]
  · simp [kernel]
  · exact fun _ => ⟨rfl, rfl, hnone⟩

/-- A request leaves the device alone. -/
theorem Kept.request (h : Kept s) (r : Request) :
    Kept { s with decoder := s.decoder.apply r } := by
  obtain ⟨_, _, _, _, _, _, _, heq, -⟩ := Decoder.exists_apply_eq s.decoder r
  rw [heq]
  exact ⟨h.table, h.device, h.begun, h.clearing, h.closing, h.joining, h.unjoined, h.joins,
    h.destroyed⟩

/-- `setup` leaves the device alone. -/
theorem Kept.setup (h : Kept s) (calloc : Bool) (bufsize : ℤ) :
    Kept { s with decoder := (s.decoder.setup calloc bufsize).1 } := by
  obtain ⟨_, _, _, heq, -⟩ := Decoder.exists_setup_eq calloc bufsize s.decoder
  rw [heq]
  exact ⟨h.table, h.device, h.begun, h.clearing, h.closing, h.joining, h.unjoined, h.joins,
    h.destroyed⟩

/-- A careful step makes no call that is not allowed. -/
theorem Kept.step {x : Lifecycle} {y : Sight} (h : Kept s) (hc : s.Careful x)
    (hn : lifecycle.next s x = some (t, y)) :
    Kept t ∧ afterAll s.table y.calls = some t.table ∧
      t.joins = s.joins + if y.joined then 1 else 0 := by
  cases next_spec hn with
  | initDummy fd hb hd => exact ⟨h, rfl, rfl⟩
  | init fd hb hd hfree => exact ⟨h.init hb (hc hd), afterAll_openCalls hfree, rfl⟩
  | setup calloc bufsize hb => exact ⟨h.setup calloc bufsize, rfl, rfl⟩
  | launch created hb hl => exact ⟨h.launch hb hc, rfl, rfl⟩
  | close hb => exact ⟨h.close hb false hc, rfl, rfl⟩
  | destroy hb => exact ⟨h.close hb true hc, rfl, rfl⟩
  | test gone hcall => exact ⟨h.test hcall (hc gone hcall), rfl, rfl⟩
  | join gone hcall hal => exact ⟨h.join hcall hal, rfl, rfl⟩
  | fd gone buffo hcall =>
    exact ⟨h.fd hcall buffo,
      afterAll_closeCalls fun hpos => h.mem_table (Or.inr (by simp [hcall])) hpos, rfl⟩
  | thread a hal hfree =>
    exact ⟨h.thread hc hal hfree (Decoder.step_spec a s.decoder hal),
      (h.threadCalls hal hfree).1, rfl⟩
  | request r hq hc' => exact ⟨h.request r, rfl, rfl⟩

/-- A new decoder has no device. -/
theorem kept_new (dummy : Bool) (playmode : Playmode) : Kept (new dummy playmode) := by
  refine ⟨rfl, ?_, ?_, ?_, ?_, ?_, ?_, Or.inl rfl, ?_⟩ <;>
    simp [new, Decoder.new, Decoder.alive, Control.clearing]

@[simp] theorem calls_nil : calls [] = [] := rfl

@[simp] theorem calls_snoc (tr : List (Lifecycle × Sight)) (x : Lifecycle) (y : Sight) :
    calls (tr ++ [(x, y)]) = calls tr ++ y.calls := by
  simp [calls]

@[simp] theorem joined_snoc (tr : List (Lifecycle × Sight)) (x : Lifecycle) (y : Sight) :
    joined (tr ++ [(x, y)]) = joined tr + if y.joined then 1 else 0 := by
  simp [joined, List.countP_append, List.countP_cons]

/-- In every run of careful calls the calls of the kernel are allowed, one after another. -/
theorem Kept.run {tr : List (Lifecycle × Sight)} (hs : Kept s) (hempty : s.table = ∅)
    (hjoins : s.joins = 0) (hrun : lifecycle.RunOn Careful s tr t) :
    Kept t ∧ afterAll ∅ (calls tr) = some t.table ∧ t.joins = joined tr := by
  refine hrun.invariant_trace
    (I := fun tr t => Kept t ∧ afterAll ∅ (calls tr) = some t.table ∧ t.joins = joined tr) ?_
    ⟨hs, by rw [hempty]; rfl, hjoins⟩
  rintro tr v x w y ⟨hv, hcalls, hj⟩ hc hn
  obtain ⟨hw, hstep, hjstep⟩ := hv.step hc hn
  refine ⟨hw, ?_, ?_⟩
  · rw [calls_snoc, afterAll_append, hcalls]
    exact hstep
  · rw [joined_snoc, hjstep, hj]

/-- In every run of careful calls a descriptor of a device is open whenever it is used or closed,
each has been closed exactly once when the decoder is gone, and the thread is joined at most
once. -/
theorem closed_once {dummy : Bool} {playmode : Playmode} {tr : List (Lifecycle × Sight)}
    (hrun : lifecycle.RunOn Careful (new dummy playmode) tr s) :
    (∀ (cs cs' : List (Call ℕ)) (n : ℕ),
      calls tr = cs ++ .used n :: cs' ∨ calls tr = cs ++ .closed n :: cs' →
        cs.count (.opened n) = cs.count (.closed n) + 1) ∧
    (s.destroyed = true → ∀ n, (calls tr).count (.opened n) = (calls tr).count (.closed n)) ∧
    joined tr ≤ 1 := by
  obtain ⟨hs, hcalls, hjoins⟩ := (kept_new dummy playmode).run rfl rfl hrun
  refine ⟨?_, ?_, ?_⟩
  · rintro cs cs' n (heq | heq)
    · rw [heq] at hcalls
      exact count_opened_before hcalls (Or.inl rfl)
    · rw [heq] at hcalls
      exact count_opened_before hcalls (Or.inr rfl)
  · intro hgone n
    have hempty : s.table = ∅ := by
      rw [hs.table, (hs.destroyed hgone).2.1]
      simp [held]
    have hcount := count_opened hcalls n
    rw [hempty] at hcount
    simpa using hcount
  · rcases hs.joins with h0 | ⟨h1, -⟩
    · omega
    · omega

/-- A decoder is given a device, launched and destroyed; its thread opens the device once more. -/
theorem closed_once_destroyed : ∃ tr s, lifecycle.RunOn Careful (new false .single) tr s ∧
    calls tr = [.opened 3, .used 3, .closed 3, .opened 4, .closed 4] ∧ joined tr ≤ 1 := by
  have hexec : lifecycle.Reaches Careful (new false .single)
      ([.init 3, .setup true 1, .launch true, .thread {}, .destroy, .proceed] ++
        List.replicate 4 (.thread {}) ++ [.thread { reopen := 4 }, .thread {}] ++
        List.replicate 2 .proceed)
      fun tr s => s.destroyed = true ∧
        calls tr = [.opened 3, .used 3, .closed 3, .opened 4, .closed 4] := by
    decide +kernel
  obtain ⟨tr, s, hrun, -, hcalls⟩ := hexec.exists_runOn
  exact ⟨tr, s, hrun, hcalls, (closed_once hrun).2.2⟩

/-- A decoder is given a device, closed and destroyed, as the signal handler does it. -/
theorem not_closed_once :
    ¬ ∀ (dummy : Bool) (playmode : Playmode) (tr : List (Lifecycle × Sight)) (s : Life),
      lifecycle.Run (new dummy playmode) tr s →
      (∀ (cs cs' : List (Call ℕ)) (n : ℕ),
        calls tr = cs ++ .used n :: cs' ∨ calls tr = cs ++ .closed n :: cs' →
          cs.count (.opened n) = cs.count (.closed n) + 1) ∧
      (s.destroyed = true → ∀ n, (calls tr).count (.opened n) = (calls tr).count (.closed n)) ∧
      joined tr ≤ 1 := by
  have hexec : lifecycle.Reaches (fun _ _ => True) (new false .single)
      [.init 3, .close, .proceed, .proceed, .destroy, .proceed, .proceed]
      fun tr s => s.destroyed = true ∧ calls tr = [.opened 3, .closed 3, .closed 3] := by
    decide +kernel
  obtain ⟨tr, s, hrun, hgone, hcalls⟩ := hexec.exists_runOn
  intro hall
  have hcount := (hall false .single tr s hrun).2.1 hgone 3
  rw [hcalls] at hcount
  exact absurd hcount (by decide)

end Life

end IvySync
