import IvySync.Xmlrpc.Methods

/-!
# The end of the daemon

`Quit::execute` stops and closes one decoder after another.  `close` waits for the thread of its
decoder, and meanwhile the threads of all decoders take the steps that a `Schedule` has for them.
Where the thread does not end, or was joined before, `Quit` does not come back.

What `Quit` does is what the process does from its command `quit` on: `execute_process`.
-/

namespace IvySync

namespace Xmlrpc

/-- The steps that the threads of the decoders take during `Quit`, each with the position of its
decoder in the list: before a decoder is stopped, and while its thread is waited for. -/
structure Schedule where
  before : ℕ → List (ℕ × Answers) := fun _ => []
  waiting : ℕ → List (ℕ × Answers) := fun _ => []

/-- A step of the thread of a decoder, if it has one to take. -/
def threadStep (syncstart : Bool) (decoders : Playlist Decoder) (x : ℕ × Answers) :
    Playlist Decoder :=
  decoders.modify x.1 fun d => if d.alive then (d.step { x.2 with syncstart }).1 else d

namespace Quit

/-- The decoders, with those of which the thread was joined. -/
structure State where
  decoders : Playlist Decoder
  joined : Finset ℕ := ∅

/-- One turn of the loop: `stop` and `close` of the decoder at a position. -/
def turn (syncstart : Bool) (schedule : Schedule) (s : State) (i : ℕ) : Option State :=
  let decoders := (schedule.before i).foldl (threadStep syncstart) s.decoders
  let decoders := decoders.modify i fun d => (d.apply .stop).apply .quit
  let decoders := (schedule.waiting i).foldl (threadStep syncstart) decoders
  match decoders[i]? with
  | none => none
  | some d =>
    if d.running ∧ (d.alive ∨ i ∈ s.joined) then none
    else some {
      decoders := decoders.modify i (·.apply .close)
      joined := if d.running then insert i s.joined else s.joined }

/-- The loop of `Quit::execute`. -/
def execute (syncstart : Bool) (schedule : Schedule) (s : State) : Option State :=
  (List.range s.decoders.length).foldlM (turn syncstart schedule) s

/-! ### The process -/

variable {n : ℕ} {cfg : Config n} {s : Process n} {q q' : State} {schedule : Schedule}

/-- Steps of the threads of a process. -/
theorem threads_process (hmain : s.main ≠ .exited) (steps : List (ℕ × Answers)) :
    ∃ tr t, (Process.machine cfg).Run s tr t ∧
      steps.foldl (threadStep s.syncstart) (List.ofFn s.decoders) = List.ofFn t.decoders ∧
      t.main = s.main ∧ t.syncstart = s.syncstart ∧ t.quit = s.quit := by
  induction steps generalizing s with
  | nil => exact ⟨[], s, .nil, rfl, rfl, rfl, rfl⟩
  | cons x steps ih =>
    obtain ⟨k, a⟩ := x
    rw [List.foldl_cons]
    by_cases hstep : ∃ i : Fin n, i.val = k ∧ (s.decoders i).alive = true
    · obtain ⟨i, rfl, halive⟩ := hstep
      set d := ((s.decoders i).step { a with syncstart := s.syncstart }).1 with hd
      have hnext : (Process.machine cfg).next s (.thread i a) =
          some (s.set i d, .thread i ((s.decoders i).step { a with syncstart := s.syncstart }).2) := by
        simp [Process.machine, hmain, Process.threadStep, halive, hd]
      have hone : threadStep s.syncstart (List.ofFn s.decoders) (i.val, a) =
          List.ofFn (s.set i d).decoders := by
        rw [threadStep, modify_ofFn, if_pos halive]
        rfl
      obtain ⟨tr, t, hrun, hdecoders, hmain', hsync, hquit⟩ := ih (s := s.set i d) hmain
      rw [hone]
      exact ⟨_, t, .cons trivial hnext hrun, hdecoders, hmain', hsync, hquit⟩
    · have hnone : threadStep s.syncstart (List.ofFn s.decoders) (k, a) = List.ofFn s.decoders := by
        unfold threadStep
        by_cases hk : k < n
        · have halive : (s.decoders ⟨k, hk⟩).alive = false := by
            simpa using fun h => hstep ⟨⟨k, hk⟩, rfl, h⟩
          have hmodify := modify_ofFn s.decoders ⟨k, hk⟩
            fun d => if d.alive then (d.step { a with syncstart := s.syncstart }).1 else d
          rw [halive, if_neg Bool.false_ne_true, Function.update_eq_self] at hmodify
          exact hmodify
        · rw [List.modify_eq_self (by simpa using hk)]
      rw [hnone]
      exact ih hmain

/-- One turn of the loop. -/
theorem turn_process {i : Fin n} (hmain : s.main = .quitting i)
    (hdecoders : q.decoders = List.ofFn s.decoders)
    (h : turn s.syncstart schedule q i = some q') :
    ∃ tr t, (Process.machine cfg).Run s tr t ∧ q'.decoders = List.ofFn t.decoders ∧
      t.syncstart = s.syncstart ∧
      ((hi : i.val + 1 < n) → t.main = .quitting ⟨i.val + 1, hi⟩) ∧
      (¬ i.val + 1 < n → t.main = .serve ∧ t.quit = true) := by
  obtain ⟨tr₁, s₁, hrun₁, hbefore, hmain₁, hsync₁, -⟩ := threads_process
    (show s.main ≠ .exited by simp [hmain]) (schedule.before i)
  rw [hmain] at hmain₁
  -- the decoder is stopped, and its thread is told to end
  set s₂ := (s₁.set i (((s₁.decoders i).apply .stop).apply .quit)).goto (.join i) with hs₂
  have hstop : (Process.machine cfg).next s₁ (.main {}) = some (s₂, .request i .quit) := by
    simp [Process.machine, hmain₁, Process.mainStep, hs₂]
  obtain ⟨tr₃, s₃, hrun₃, hwaiting, hmain₃, hsync₃, -⟩ := threads_process
    (show s₂.main ≠ .exited by simp [hs₂]) (schedule.waiting i)
  have hsync₂ : s₂.syncstart = s.syncstart := hsync₁
  have hdecoders₃ : (schedule.waiting i).foldl (threadStep s.syncstart)
      (((schedule.before i).foldl (threadStep s.syncstart) q.decoders).modify i
        fun d => (d.apply .stop).apply .quit) = List.ofFn s₃.decoders := by
    rw [hdecoders, hbefore, modify_ofFn, ← hwaiting, hsync₂]
    rfl
  unfold turn at h
  simp only [hdecoders₃] at h
  have hlookup : (List.ofFn s₃.decoders)[i.val]? = some (s₃.decoders i) := by
    rw [List.getElem?_ofFn, dif_pos i.isLt]
  rw [hlookup] at h
  dsimp only at h
  -- the thread is not waited for any more
  obtain ⟨hended, hclosed⟩ : ¬ ((s₃.decoders i).running = true ∧ (s₃.decoders i).alive = true) ∧
      q'.decoders = List.ofFn (s₃.set i ((s₃.decoders i).apply .close)).decoders := by
    have hmodify : (List.ofFn s₃.decoders).modify i.val (·.apply .close) =
        List.ofFn (s₃.set i ((s₃.decoders i).apply .close)).decoders := modify_ofFn _ _ _
    split_ifs at h with hjoin
    all_goals
      refine ⟨fun hnot => hjoin ⟨hnot.1, Or.inl hnot.2⟩, ?_⟩
      rw [← hmodify, ← Option.some.inj h]
  have hprefix := hrun₁.append (.cons trivial hstop hrun₃)
  by_cases hi : i.val + 1 < n
  · have hclose : (Process.machine cfg).next s₃ (.main {}) =
        some ((s₃.set i ((s₃.decoders i).apply .close)).goto (.quitting ⟨i.val + 1, hi⟩),
          .request i .close) := by
      simp [Process.machine, hmain₃, hs₂, Process.mainStep, hended, hi]
    exact ⟨_, _, hprefix.append (.single trivial hclose), hclosed, hsync₃.trans hsync₂,
      fun _ => rfl, fun hnot => absurd hi hnot⟩
  · have hclose : (Process.machine cfg).next s₃ (.main {}) =
        some ({ s₃.set i ((s₃.decoders i).apply .close) with quit := true, main := .serve },
          .request i .close) := by
      simp [Process.machine, hmain₃, hs₂, Process.mainStep, hended, hi]
    exact ⟨_, _, hprefix.append (.single trivial hclose), hclosed, hsync₃.trans hsync₂,
      fun hnot => absurd hnot hi, fun _ => ⟨rfl, rfl⟩⟩

/-- The turns that are left. -/
theorem turns_process {k : ℕ} {i : Fin n} (hk : i.val + (k + 1) = n) (hmain : s.main = .quitting i)
    (hdecoders : q.decoders = List.ofFn s.decoders)
    (h : (List.range' i.val (k + 1)).foldlM (turn s.syncstart schedule) q = some q') :
    ∃ tr t, (Process.machine cfg).Run s tr t ∧ q'.decoders = List.ofFn t.decoders ∧
      t.main = .serve ∧ t.quit = true := by
  induction k generalizing s q i with
  | zero =>
    rw [List.range'_one, List.foldlM_cons] at h
    obtain ⟨q₁, hturn, hnil⟩ := Option.bind_eq_some_iff.mp h
    obtain rfl := Option.some.inj hnil
    obtain ⟨tr, t, hrun, hdecoders', -, -, hlast⟩ := turn_process hmain hdecoders hturn
    exact ⟨tr, t, hrun, hdecoders', hlast (by omega)⟩
  | succ k ih =>
    rw [List.range'_succ, List.foldlM_cons] at h
    obtain ⟨q₁, hturn, hrest⟩ := Option.bind_eq_some_iff.mp h
    obtain ⟨tr, t, hrun, hdecoders', hsync, hfollowing, -⟩ := turn_process hmain hdecoders hturn
    have hi : i.val + 1 < n := by omega
    rw [← hsync] at hrest
    obtain ⟨tr', t', hrun', hend⟩ := ih (i := ⟨i.val + 1, hi⟩) (by dsimp only; omega)
      (hfollowing hi) hdecoders' hrest
    exact ⟨tr ++ tr', t', hrun.append hrun', hend⟩

/-- Where `Quit` comes back, a process that has been sent the command does the same, and waits for
the next one with `quit` set. -/
theorem execute_process (hn : 0 < n) (hserve : s.main = .serve) (hquit : s.quit = false)
    (hdecoders : q.decoders = List.ofFn s.decoders)
    (h : execute s.syncstart schedule q = some q') :
    ∃ e tr t, (Process.machine cfg).Run s
        ((.main { command := some .quit }, e) :: tr) t ∧
      q'.decoders = List.ofFn t.decoders ∧ t.main = .serve ∧ t.quit = true := by
  have hfirst : (Process.machine cfg).next s (.main { command := some .quit }) =
      some (s.goto (.quitting ⟨0, hn⟩), .silent) := by
    simp [Process.machine, hserve, Process.mainStep, hquit, Process.execute, Process.first, hn]
  obtain ⟨k, rfl⟩ : ∃ k, n = k + 1 := ⟨n - 1, by omega⟩
  rw [execute, hdecoders, List.length_ofFn, List.range_eq_range'] at h
  obtain ⟨tr, t, hrun, hend⟩ : ∃ tr t,
      (Process.machine cfg).Run (s.goto (.quitting ⟨0, hn⟩)) tr t ∧
        q'.decoders = List.ofFn t.decoders ∧ t.main = .serve ∧ t.quit = true :=
    turns_process (i := ⟨0, hn⟩) (Nat.zero_add _) rfl hdecoders h
  exact ⟨_, tr, t, .cons trivial hfirst hrun, hend⟩

end Quit

end Xmlrpc

end IvySync
