import IvySync.Process.Daemon

/-!
# The end of all channels

`main` waits until it has gone once through all decoders without finding one that plays.  It looks
at them one after another, and the threads go on in the meantime.  What it found stays true all the
same: nobody but `main` starts a decoder, so one that does not play any more stays so
(`Counted.step`), and the flag is cleared between two movies only (`Settled`).
-/

namespace IvySync

namespace Control

/-- The thread has no movie and is not about to open one. -/
def between (pc : Control) : Bool := !pc.inMovie && !pc.ending && pc ≠ .open

end Control

namespace Decoder

variable {a : Answers} {d d' : Decoder} {e : Event}

/-- A decoder that does not play has no movie, and one that is to end does not look for one. -/
structure Settled (d : Decoder) : Prop where
  playing : d.playing = false → d.pc.between = true
  quit : d.quit = true →
    d.pc.between = true ∧ d.pc ≠ .quitCheck ∧ d.pc ≠ .stopCheck ∧ d.pc ≠ .playWait

/-- The thread clears the flag between two movies only, and goes on to a movie only while it is
set. -/
theorem Settled.step (h : d.Settled) (hs : Step a d d' e) : d'.Settled := by
  obtain ⟨hplaying, hquit⟩ := h
  constructor
  all_goals
    cases hs <;> (try cases ‹Caller›) <;> (try cases ‹Ending›) <;>
      simp_all [Control.between, Control.inMovie, Control.ending, Caller.inMovie, Caller.ending,
        Ending.ofMovie, Caller.resume]

/-- A decoder that has not been launched is settled. -/
theorem settled_of_idle (hpc : d.pc = .idle) : d.Settled := by
  constructor <;> intro _ <;> simp [hpc, Control.between, Control.inMovie, Control.ending]

/-- A thread whose decoder does not play writes nothing, and leaves the flag cleared. -/
theorem Settled.bytes_eq_nil (h : d.Settled) (hp : d.playing = false) (hs : Step a d d' e) :
    e.bytes = [] ∧ d'.playing = false := by
  refine ⟨?_, hs.playlist.2.2 hp⟩
  have hbetween := h.playing hp
  cases hs
  case wrote hpc hw hd count n hr hn =>
    simp [hpc, Control.between, Control.inMovie] at hbetween
  all_goals rfl

/-- A settled decoder that does not play has no stream. -/
theorem Settled.closed (h : d.Settled) (hm : d.StreamInMovie) (hp : d.playing = false) :
    d.playlistFd = none ∧ d.pc.inMovie = false := by
  have hbetween := h.playing hp
  simp only [Control.between, Bool.and_eq_true, Bool.not_eq_true', decide_eq_true_eq] at hbetween
  refine ⟨?_, hbetween.1.1⟩
  by_contra hopen
  rcases hm (Option.isSome_iff_ne_none.mpr hopen) with hin | hin
  · rw [hin] at hbetween
    cases hbetween.1.1
  · rw [hin] at hbetween
    cases hbetween.1.2

end Decoder

namespace Process

variable {n : ℕ} {cfg : Config n} {s s' : Process n}

/-! ### The decoders of a process that is not controlled from outside -/

/-- What `main` does to a decoder outside of the loop of the daemon leaves it settled. -/
theorem Treated.settled {m : Main n} {i : Fin n} {d d' : Decoder} (h : Treated cfg m i d d')
    (hidle : Unlaunched i m → d.pc = .idle) (hm : ¬ Serving m) (hd : d.Settled) :
    d'.Settled := by
  cases h with
  | untouched => exact hd
  | setup calloc hsetup =>
    obtain ⟨_, _, _, heq, -⟩ := Decoder.exists_setup_eq calloc cfg.videobuf d
    refine Decoder.settled_of_idle ?_
    rw [heq]
    exact hidle (by rw [hsetup]; exact le_refl i)
  | launch created hlaunch =>
    have hpc : d.pc = .idle := hidle (by rw [hlaunch]; exact le_refl i)
    constructor <;> intro _ <;> cases created <;>
      simp [Decoder.launch, hpc, Control.between, Control.inMovie, Control.ending]
  | load k line _ => exact ⟨hd.playing, hd.quit⟩
  | play _ => exact ⟨by simp [Decoder.play], hd.quit⟩
  | command c readable decnum r hserve _ => exact absurd (Or.inl hserve) hm
  | quitting hquit => exact absurd (Or.inr ⟨i, Or.inl hquit⟩) hm
  | close hclose _ => exact absurd (Or.inr ⟨i, Or.inr hclose⟩) hm

/-- While `main` goes through the decoders without having found one that plays, those it has looked
at do not play. -/
def Counted (s : Process n) : Prop :=
  ∀ i, s.main = .count i 0 → ∀ j < i, (s.decoders j).playing = false

/-- How `main` comes to look at a decoder: at the start of a pass, or behind the one before. -/
theorem MainStep.to_count {a : MainAnswers} {e : Event n} (h : MainStep cfg a s s' e) {i : Fin n}
    {k : ℕ} (hm : s'.main = .count i k) :
    i.val = 0 ∨ ∃ i₀ k₀, s.main = .count i₀ k₀ ∧ i.val = i₀.val + 1 ∧
      k = k₀ + (if (s.decoders i₀).playing then 1 else 0) ∧ s'.decoders = s.decoders := by
  have hfirst : ∀ {k'}, first (n := n) (.count · k') = .count i k → i.val = 0 := by
    intro k' hi
    unfold first at hi
    split_ifs at hi
    cases hi
    rfl
  cases h
  case wait hm₀ =>
    rw [goto_main] at hm
    split_ifs at hm
    exact Or.inl (hfirst hm)
  case count i₀ k₀ k₁ hm₀ hk =>
    rw [goto_main] at hm
    unfold following at hm
    split_ifs at hm with hlt h0
    · cases hm
      exact Or.inr ⟨i₀, k₀, hm₀, rfl, hk, rfl⟩
    · exact Or.inl (hfirst hm)
  case udpLaunched | noUdp | quit =>
    exact absurd hm (first_rule (P := (· ≠ .count i k)) (by simp) (by simp))
  case play =>
    exact absurd hm (following_rule (P := (· ≠ .count i k)) (by simp) (by simp))
  case launch =>
    rw [goto_main] at hm
    split_ifs at hm
    exact absurd hm (following_rule (P := (· ≠ .count i k)) (by simp) (by simp))
  case syncing =>
    rw [goto_main] at hm
    split_ifs at hm
  case serveNothing hm₀ _ | request hm₀ _ _ _ _ _ _ _ => simp_all
  all_goals cases hm

/-- `main` ends the process behind the last decoder, when it has found none that plays. -/
theorem MainStep.count_exit {a : MainAnswers} {e : Event n} (h : MainStep cfg a s s' e) {i : Fin n}
    {k : ℕ} (hm : s.main = .count i k) (hexit : s'.main = .exited) :
    n ≤ i.val + 1 ∧ k = 0 ∧ (s.decoders i).playing = false ∧ s'.decoders = s.decoders := by
  cases h
  case count i₀ k₀ k₁ hm₀ hk =>
    rw [hm] at hm₀
    cases hm₀
    rw [goto_main] at hexit
    unfold following at hexit
    split_ifs at hexit with hlt h0
    · have hplaying : (s.decoders i).playing = false := by
        by_contra hp
        rw [Bool.not_eq_false] at hp
        rw [if_pos hp] at hk
        omega
      exact ⟨by omega, by omega, hplaying, rfl⟩
    · have hn : 0 < n := i.pos
      simp [first, hn] at hexit
  all_goals simp_all

/-- The process as long as it is not controlled from outside: its decoders are settled, and `main`
is right about those it has looked at. -/
structure Undisturbed (s : Process n) : Prop where
  streaming : ∀ i, Streaming s i
  settled : Served s.main ∨ ∀ i, (s.decoders i).Settled
  counted : s.Counted

/-- Every step keeps the invariant. -/
theorem Undisturbed.step {x : Action n} {e : Event n} (h : Undisturbed s)
    (hn : (machine cfg).next s x = some (s', e)) : Undisturbed s' := by
  obtain ⟨streaming, settled, counted⟩ := h
  refine ⟨fun i => (streaming i).step hn, ?_, ?_⟩
  · by_cases hserved : Served s.main
    · exact Or.inl (served_step hserved hn).2
    · have hsettled := settled.resolve_left hserved
      rcases machine_cases hn with ⟨a, rfl, hs⟩ | ⟨j, a, d', e', rfl, hs, rfl, rfl⟩ |
        ⟨r, rfl, hu, rfl, rfl⟩ | ⟨r, rfl, hu, rfl, rfl⟩
      · exact Or.inr fun i => (hs.treated i).settled (streaming i).unlaunched
          (fun hserving => hserved (Or.inl hserving)) (hsettled i)
      · exact Or.inr fun i => set_rule (fun h => h.step hs) (hsettled i)
      · exact Or.inr hsettled
      · exact Or.inr hsettled
  · intro i hm j hj
    rcases machine_cases hn with ⟨a, rfl, hs⟩ | ⟨i', a, d', e', rfl, hs, rfl, rfl⟩ |
      ⟨r, rfl, hu, rfl, rfl⟩ | ⟨r, rfl, hu, rfl, rfl⟩
    · rcases hs.to_count hm with h0 | ⟨i₀, k₀, hm₀, hi, hk, hdecoders⟩
      · exact absurd (Fin.lt_def.mp hj) (by omega)
      · have hplaying : (s.decoders i₀).playing = false := by
          by_contra hp
          rw [Bool.not_eq_false] at hp
          rw [if_pos hp] at hk
          omega
        have hk₀ : k₀ = 0 := by omega
        subst hk₀
        rw [hdecoders]
        rcases Nat.lt_or_ge j.val i₀.val with hlt | hge
        · exact counted i₀ hm₀ j hlt
        · have hij : j = i₀ := Fin.ext (by have := Fin.lt_def.mp hj; omega)
          rwa [hij]
    · exact set_rule (P := (·.playing = false)) hs.playlist.2.2 (counted i hm j hj)
    · exact counted i hm j hj
    · exact counted i hm j hj

/-- The process starts so. -/
theorem undisturbed_init (cfg : Config n) : Undisturbed (init cfg) := by
  refine ⟨fun i => ⟨fun _ => rfl, ?_, Or.inr (Or.inl rfl), ?_⟩, ?_, ?_⟩
  · simp [Decoder.StreamInMovie, init, Decoder.new]
  · simp [Decoder.StreamFound, init, Decoder.new]
  · exact Or.inr fun i => Decoder.settled_of_idle rfl
  · intro i hm
    cases hm

/-! ### The end of the process -/

/-- The threads of a process whose `main` has left its last loop: they go on until the process has
ended. -/
def threads (n : ℕ) : Machine (Process n) (Action n) (Event n) where
  next s
    | .main _ => none
    | .thread i a => s.threadStep i a
    | .udp r => s.udpStep r

/-- No decoder plays, and all are settled. -/
def Finished (s : Process n) : Prop :=
  ∀ i, (s.decoders i).playing = false ∧ (s.decoders i).Settled ∧ (s.decoders i).StreamInMovie

/-- The bytes that the device of a decoder accepted in a step of the process. -/
def Event.bytes : Event n → List (Option UInt8)
  | .thread _ e => e.bytes
  | _ => []

/-- The threads of such a process write nothing and leave it so. -/
theorem Finished.step {x : Action n} {e : Event n} (h : s.Finished)
    (hn : (threads n).next s x = some (s', e)) : s'.Finished ∧ e.bytes = [] := by
  cases x with
  | main a => cases hn
  | thread i a =>
    simp only [threads, threadStep] at hn
    split_ifs at hn with halive
    cases hn
    have hs := Decoder.step_spec { a with syncstart := s.syncstart } (s.decoders i) halive
    refine ⟨fun j => ?_, ((h i).2.1.bytes_eq_nil (h i).1 hs).1⟩
    exact set_rule
      (P := fun d => d.playing = false ∧ d.Settled ∧ d.StreamInMovie)
      (fun h => ⟨hs.playlist.2.2 h.1, h.2.1.step hs, h.2.2.step hs⟩) (h j)
  | udp r =>
    simp only [threads, udpStep] at hn
    split at hn <;> cases hn
    · exact ⟨h, rfl⟩
    · exact ⟨h, rfl⟩

/-- When `main` leaves the loop that waits for the end of all channels, and for as long as the
threads go on from there, no decoder plays, none is inside a movie, and nothing is written to any
device. -/
theorem finished_at_exit {tr : List (Action n × Event n)} (h : (machine cfg).Run (init cfg) tr s)
    {i : Fin n} {k : ℕ} (hm : s.main = .count i k) {a : MainAnswers} {e : Event n}
    (hn : (machine cfg).next s (.main a) = some (s', e)) (hexit : s'.main = .exited)
    {tr' : List (Action n × Event n)} {t : Process n} (ht : (threads n).Run s' tr' t) :
    (∀ j, (t.decoders j).playing = false ∧ (t.decoders j).playlistFd = none ∧
      (t.decoders j).pc.inMovie = false) ∧
    ∀ y ∈ tr', y.2.bytes = [] := by
  have hundisturbed : Undisturbed s :=
    h.invariant (fun _ _ _ _ hI _ hnext => hI.step hnext) (undisturbed_init cfg)
  have hfinished : s'.Finished := by
    obtain ⟨streaming, settled, counted⟩ := hundisturbed
    have hsettled := settled.resolve_left (by rw [hm]; simp [Served, Serving])
    rcases machine_cases hn with ⟨a', hx, hs⟩ | ⟨_, _, _, _, hx, -⟩ | ⟨_, hx, -⟩ | ⟨_, hx, -⟩
    · obtain ⟨hlast, rfl, hplaying, hdecoders⟩ := hs.count_exit hm hexit
      intro j
      rw [hdecoders]
      refine ⟨?_, hsettled j, (streaming j).inMovie⟩
      rcases Nat.lt_or_ge j.val i.val with hlt | hge
      · exact counted i hm j hlt
      · have hij : j = i := Fin.ext (by omega)
        rwa [hij]
    all_goals cases hx
  constructor
  · have hend : t.Finished := by
      refine ht.invariant ?_ hfinished
      intro s x t e hI _ hnext
      exact (hI.step hnext).1
    intro j
    exact ⟨(hend j).1, (hend j).2.1.closed (hend j).2.2 (hend j).1⟩
  · refine ht.forall_steps (I := Finished) (P := fun y => y.2.bytes = []) ?_ hfinished
    intro s x t e hI _ hnext
    exact hI.step hnext

/-- A command line with two decoders, each with a playlist of one entry. -/
def duo : Config 2 where
  build := .player
  rpcdaemon := false
  videobuf := 1
  fd i := 3 + i.val
  dummy _ := false
  playmode _ := .single
  files _ := [[97]]
  saved _ := []

/-- The first decoder plays its movie and stops while the second one still plays; after the second
one has stopped, too, `main` looks at both of them and leaves the loop, and the thread of the second
one takes one more step. -/
theorem finished_at_exit_duo :
    ∃ tr s, (machine duo).Run (init duo) tr s ∧ s.main = .count 1 0 ∧
      (∃ y ∈ tr, y.2.bytes.length = 1024) ∧ ∃ q ∈ (machine duo).next s (.main {}),
        q.1.main = .exited ∧ ∃ r ∈ (threads 2).next q.1 (.thread 1 {}),
          (∀ j, (r.1.decoders j).playing = false) ∧ r.2.bytes = [] := by
  let movie : Answers :=
    { fopen64 := .stream (List.replicate 1025 7), write := .accepted 1024 }
  have hexec : (machine duo).Reaches (fun _ _ => True) (init duo)
      (List.replicate 13 (.main {}) ++ List.replicate 30 (.thread 0 movie) ++
        List.replicate 2 (.main {}) ++ List.replicate 30 (.thread 1 movie) ++ [.main {}])
      fun tr s => s.main = .count 1 0 ∧ (∃ y ∈ tr, y.2.bytes.length = 1024) ∧
        ∃ q ∈ (machine duo).next s (.main {}),
          q.1.main = .exited ∧ ((threads 2).next q.1 (.thread 1 {})).isSome := by
    decide +kernel
  obtain ⟨tr, s, h, hm, hwrote, q, hq, hexit, hnext⟩ := hexec.exists_runOn
  obtain ⟨r, hr⟩ := Option.isSome_iff_exists.mp hnext
  obtain ⟨hend, hbytes⟩ := finished_at_exit h hm hq hexit (Machine.RunOn.single trivial hr)
  exact ⟨tr, s, h, hm, hwrote, q, hq, hexit, r, hr, fun j => (hend j).1,
    hbytes _ (List.mem_singleton_self _)⟩

end Process

end IvySync
