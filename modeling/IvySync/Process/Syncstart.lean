import IvySync.Process.Step

/-!
# Who raises syncstart, and what waits for it

A thread comes to its writing loop through the test of `syncstart` only, so no decoder writes while
the flag is down (`Signalled`).  It is raised by `main` in the standalone player, and by the UDP
server after `recvmsg` has returned, be it with an error; in the daemon nobody raises it.
-/

namespace IvySync

namespace Control

/-- The thread is in the writing loop. -/
def inWriting : Control → Bool
  | .writing | .poll .writing | .seek .writing | .seekSet .writing => true
  | _ => false

end Control

namespace Decoder

/-- While `syncstart` is down a thread does not come to the writing loop. -/
theorem Step.held {a : Answers} {d d' : Decoder} {e : Event} (h : Step a d d' e)
    (ha : a.syncstart = false) (hd : d.pc.inWriting = false) : d'.pc.inWriting = false := by
  cases h <;> (try cases ‹Caller›) <;> simp_all [Control.inWriting, Caller.resume]

/-- A thread writes in the writing loop only. -/
theorem Step.inWriting_of_wrote {a : Answers} {d d' : Decoder} {buf : ℤ} {asked : ℕ}
    {bytes : List (Option UInt8)} (h : Step a d d' (.wrote buf asked bytes)) :
    d.pc.inWriting = true := by
  cases h with
  | wrote hpc => rw [hpc]; rfl

/-- What a thread sees of `syncstart` is what it reads there. -/
theorem Step.sync_eq {a : Answers} {d d' : Decoder} {b : Bool} (h : Step a d d' (.sync b)) :
    a.syncstart = b := by
  cases h with
  | syncPass _ hs => exact hs
  | syncWaiting _ hs => exact hs

end Decoder

namespace Process

open Machine (Seen seen_nil seen_snoc)

variable {n : ℕ} {cfg : Config n} {s s' : Process n}

/-! ### What a step of main changes -/

/-- `main` moves the control point of a thread only when it creates it. -/
theorem Handled.pc {d d' : Decoder} (h : Handled d d') : d'.pc = d.pc ∨ d'.pc = .start := by
  cases h with
  | untouched => exact Or.inl rfl
  | setup calloc bufsize =>
    simp only [Decoder.setup]
    split_ifs <;> exact Or.inl rfl
  | launch created =>
    cases created
    · exact Or.inl rfl
    · exact Or.inr rfl
  | request r => exact Or.inl (Decoder.apply_frame d r).1
  | quitting => exact Or.inl rfl

/-- `main` raises `syncstart` at one control point only. -/
theorem MainStep.syncstart {a : MainAnswers} {e : Event n} (h : MainStep cfg a s s' e) :
    s'.syncstart = s.syncstart ∧ e ≠ .raised ∨ s.main = .raise ∧ e = .raised ∧
      s'.syncstart = true := by
  cases h
  case raise hm => exact Or.inr ⟨hm, rfl, rfl⟩
  all_goals exact Or.inl ⟨rfl, by simp⟩

/-- `main` comes to raise `syncstart` only when it is not a daemon and there is no UDP server. -/
theorem MainStep.to_raise {a : MainAnswers} {e : Event n} (h : MainStep cfg a s s' e)
    (hm' : s'.main = .raise) : s'.rpcdaemon = false ∧ cfg.build ≠ .udplite := by
  cases h
  case syncing hm =>
    simp only [goto_main, goto_rpcdaemon] at hm' ⊢
    split_ifs at hm' with hb
    simpa using hb
  case udpLaunched | noUdp | quit =>
    exact absurd hm' (first_rule (P := (· ≠ .raise)) (by simp) (by simp))
  case launch i hm =>
    rw [goto_main] at hm'
    split_ifs at hm'
    exact absurd hm' (following_rule (P := (· ≠ .raise)) (by simp) (by simp))
  case play i hm => exact absurd hm' (following_rule (P := (· ≠ .raise)) (by simp) (by simp))
  case wait hm =>
    rw [goto_main] at hm'
    split_ifs at hm'
    exact absurd hm' (first_rule (P := (· ≠ .raise)) (by simp) (by simp))
  case count => exact absurd hm' (count_rule (P := (· ≠ .raise)) (by simp) (by simp))
  all_goals simp_all

/-- `main` launches the UDP server in its own build only. -/
theorem MainStep.udp {a : MainAnswers} {e : Event n} (h : MainStep cfg a s s' e) :
    s'.udp = s.udp ∨ cfg.build = .udplite ∧ s'.udp = .receiving := by
  cases h
  case udpLaunched hm hb hc => exact Or.inr ⟨hb, rfl⟩
  all_goals exact Or.inl rfl

/-- The process does not become a daemon. -/
theorem MainStep.rpcdaemon {a : MainAnswers} {e : Event n} (h : MainStep cfg a s s' e)
    (hd : s.rpcdaemon = false) : s'.rpcdaemon = false := by
  cases h
  case begin hm hn daemon hdaemon => simp [hdaemon, hd]
  all_goals exact hd

/-! ### The flag and the trace -/

/-- The invariant of the flag. -/
structure Signalled (cfg : Config n) (tr : List (Action n × Event n)) (s : Process n) : Prop where
  /-- While the flag is down no thread is in its writing loop. -/
  held : s.syncstart = false → ∀ i, (s.decoders i).pc.inWriting = false
  /-- The flag has been raised by `main` or by the UDP server. -/
  signal : s.syncstart = true → Seen (· = .raised) tr ∨ Seen (· = .udpRaised) tr
  /-- `main` raises the flag in a player without a UDP server only. -/
  main : s.main = .raise ∨ Seen (· = .raised) tr → s.rpcdaemon = false ∧ cfg.build ≠ .udplite
  /-- There is a UDP server in its own build only. -/
  udp : s.udp ≠ .idle ∨ Seen (· = .udpRaised) tr → cfg.build = .udplite

/-- The flag is down at the start. -/
theorem signalled_init (cfg : Config n) : Signalled cfg [] (init cfg) :=
  ⟨fun _ _ => rfl, by simp [init], by simp [init], by simp [init]⟩

/-- A step of `main` keeps the invariant of the flag. -/
theorem Signalled.mainStep {tr : List (Action n × Event n)} {a : MainAnswers} {e : Event n}
    (h : Signalled cfg tr s) (hs : MainStep cfg a s s' e) :
    Signalled cfg (tr ++ [(.main a, e)]) s' := by
  obtain ⟨held, signal, main, udp⟩ := h
  have hudpRaised : e ≠ .udpRaised := by cases hs <;> simp
  constructor
  · intro hdown i
    have hdown' : s.syncstart = false := by
      rcases hs.syncstart with ⟨hflag, -⟩ | ⟨-, -, hflag⟩
      · rw [← hflag, hdown]
      · simp [hflag] at hdown
    rcases (hs.handled i).pc with hpc | hpc
    · rw [hpc]
      exact held hdown' i
    · rw [hpc]
      rfl
  · intro hup
    simp only [seen_snoc]
    rcases hs.syncstart with ⟨hflag, -⟩ | ⟨-, he, -⟩
    · exact (signal (hflag ▸ hup)).imp Or.inl Or.inl
    · exact Or.inl (Or.inr he)
  · intro hraise
    rw [seen_snoc] at hraise
    rcases hraise with hm | hseen | he
    · exact hs.to_raise hm
    · obtain ⟨hd, hb⟩ := main (Or.inr hseen)
      exact ⟨hs.rpcdaemon hd, hb⟩
    · rcases hs.syncstart with ⟨-, hne⟩ | ⟨hm, -, -⟩
      · exact absurd he hne
      · obtain ⟨hd, hb⟩ := main (Or.inl hm)
        exact ⟨hs.rpcdaemon hd, hb⟩
  · intro hudp
    rw [seen_snoc] at hudp
    rcases hudp with hne | hseen | he
    · rcases hs.udp with heq | ⟨hb, -⟩
      · exact udp (Or.inl (heq ▸ hne))
      · exact hb
    · exact udp (Or.inr hseen)
    · exact absurd he hudpRaised

/-- Every step keeps the invariant of the flag. -/
theorem Signalled.step {tr : List (Action n × Event n)} {x : Action n} {e : Event n}
    (h : Signalled cfg tr s) (hn : (machine cfg).next s x = some (s', e)) :
    Signalled cfg (tr ++ [(x, e)]) s' := by
  rcases machine_cases hn with ⟨a, rfl, hs⟩ | ⟨i, a, d', e', rfl, hs, rfl, rfl⟩ |
    ⟨r, rfl, hu, rfl, rfl⟩ | ⟨r, rfl, hu, rfl, rfl⟩
  · exact h.mainStep hs
  · obtain ⟨held, signal, main, udp⟩ := h
    refine ⟨?_, by simpa using signal, by simpa using main, by simpa using udp⟩
    intro hdown j
    exact set_rule (P := (·.pc.inWriting = false)) (hs.held hdown) (held hdown j)
  · obtain ⟨held, signal, main, udp⟩ := h
    exact ⟨held, by simpa using signal, by simpa using main, fun _ => udp (by simp [hu])⟩
  · obtain ⟨held, signal, main, udp⟩ := h
    exact ⟨by simp, by simp, by simpa using main, fun _ => udp (by simp [hu])⟩

/-- The invariant of the flag holds along every run. -/
theorem signalled_run {tr : List (Action n × Event n)} (h : (machine cfg).Run (init cfg) tr s) :
    Signalled cfg tr s := by
  refine h.invariant_trace (I := Signalled cfg) ?_ (signalled_init cfg)
  intro tr s x t e hI _ hn
  exact hI.step hn

/-- A step in which a device is written to is taken with the flag up. -/
theorem syncstart_of_wrote {tr : List (Action n × Event n)} {x : Action n} {i : Fin n} {buf : ℤ}
    {asked : ℕ} {bytes : List (Option UInt8)} (h : Signalled cfg tr s)
    (hn : (machine cfg).next s x = some (s', .thread i (.wrote buf asked bytes))) :
    s.syncstart = true := by
  have hin : (s.decoders i).pc.inWriting = true := by
    rcases machine_cases hn with ⟨a, rfl, hs⟩ | ⟨j, a, d', e', rfl, hs, rfl, he⟩ |
      ⟨r, rfl, hu, rfl, he⟩ | ⟨r, rfl, hu, rfl, he⟩
    · cases hs
    · cases he
      exact hs.inWriting_of_wrote
    · cases he
    · cases he
  by_contra hdown
  have hheld := h.held (by simpa using hdown) i
  simp [hheld] at hin

/-- Once up, the flag stays up, and every test of it passes. -/
theorem syncstart_step {x : Action n} {e : Event n} (h : s.syncstart = true)
    (hn : (machine cfg).next s x = some (s', e)) :
    s'.syncstart = true ∧ ∀ i b, e = .thread i (.sync b) → b = true := by
  rcases machine_cases hn with ⟨a, rfl, hs⟩ | ⟨j, a, d', e', rfl, hs, rfl, rfl⟩ |
    ⟨r, rfl, hu, rfl, rfl⟩ | ⟨r, rfl, hu, rfl, rfl⟩
  · refine ⟨?_, ?_⟩
    · rcases hs.syncstart with ⟨hflag, -⟩ | ⟨-, -, hflag⟩
      · rw [hflag, h]
      · exact hflag
    · rintro i b rfl
      cases hs
  · refine ⟨h, ?_⟩
    rintro i b he
    cases he
    rw [← hs.sync_eq]
    exact h
  · exact ⟨h, by simp⟩
  · exact ⟨rfl, by simp⟩

/-! ### The standalone player -/

/-- In the standalone player no device is written to before `main` has raised `syncstart`, and after
that every test of it lets the decoder through. -/
theorem wrote_after_raised (hb : cfg.build = .player) {tr : List (Action n × Event n)}
    (h : (machine cfg).Run (init cfg) tr s) :
    (∀ tr₁ x i buf asked bytes tr₂, tr = tr₁ ++ (x, .thread i (.wrote buf asked bytes)) :: tr₂ →
      Seen (· = .raised) tr₁) ∧
    (∀ tr₁ x tr₂, tr = tr₁ ++ (x, .raised) :: tr₂ →
      ∀ y ∈ tr₂, ∀ i b, y.2 = .thread i (.sync b) → b = true) := by
  refine ⟨?_, ?_⟩
  · rintro tr₁ x i buf asked bytes tr₂ rfl
    obtain ⟨t, t', h₁, -, hn, -⟩ := h.exists_of_mem_split
    have hsig := signalled_run h₁
    rcases hsig.signal (syncstart_of_wrote hsig hn) with hraised | hudp
    · exact hraised
    · simp [hsig.udp (Or.inr hudp)] at hb
  · rintro tr₁ x tr₂ rfl
    obtain ⟨t, t', -, -, hn, h₂⟩ := h.exists_of_mem_split
    have hup : t'.syncstart = true := by
      rcases machine_cases hn with ⟨a, rfl, hs⟩ | ⟨j, a, d', e', rfl, hs, rfl, he⟩ |
        ⟨r, rfl, hu, rfl, he⟩ | ⟨r, rfl, hu, rfl, he⟩
      · rcases hs.syncstart with ⟨-, hne⟩ | ⟨-, -, hflag⟩
        · exact absurd rfl hne
        · exact hflag
      all_goals cases he
    refine h₂.forall_steps (I := fun s => s.syncstart = true)
      (P := fun y => ∀ i b, y.2 = .thread i (.sync b) → b = true) ?_ hup
    intro s y t e hI _ hn
    exact syncstart_step hI hn

/-- A player that has raised `syncstart` and writes the first bytes of its movie. -/
theorem wrote_after_raised_solo :
    ∃ tr x s bytes, (machine (solo .player false)).Run (init (solo .player false))
      (tr ++ [(x, .thread 0 (.wrote 0 1024 bytes))]) s ∧ Seen (· = .raised) tr := by
  have hexec : (machine (solo .player false)).Reaches (fun _ _ => True)
      (init (solo .player false))
      (List.replicate 8 (.main {}) ++ toWrite (List.replicate 1024 7))
      fun _ s => ∃ q ∈ (machine (solo .player false)).next s (.thread 0 { write := .accepted 2 }),
        q.2 = .thread 0 (.wrote 0 1024 [some 7, some 7]) := by decide +kernel
  obtain ⟨tr, s, h, ⟨s', e⟩, hn, rfl⟩ := hexec.exists_runOn
  have h' := h.snoc trivial (Option.mem_def.mp hn)
  exact ⟨tr, _, s', _, h', (wrote_after_raised rfl h').1 tr _ _ _ _ _ [] rfl⟩

/-! ### The UDP server -/

/-- `recvmsg` returns a datagram. -/
def Receives (s : Process n) : Action n → Prop
  | .udp r => s.udp = .receiving → r = .datagram
  | _ => True

instance (s : Process n) (x : Action n) : Decidable (s.Receives x) :=
  match x with
  | .main _ => inferInstanceAs (Decidable True)
  | .thread _ _ => inferInstanceAs (Decidable True)
  | .udp r => inferInstanceAs (Decidable (s.udp = .receiving → r = .datagram))

/-- In the UDP build no device is written to before a datagram has been received, in every run in
which `recvmsg` does not return with an error. -/
theorem wrote_after_datagram (hb : cfg.build = .udplite) {tr : List (Action n × Event n)}
    (h : (machine cfg).RunOn Receives (init cfg) tr s) :
    ∀ tr₁ x i buf asked bytes tr₂, tr = tr₁ ++ (x, .thread i (.wrote buf asked bytes)) :: tr₂ →
      Seen (· = .received .datagram) tr₁ := by
  rintro tr₁ x i buf asked bytes tr₂ rfl
  obtain ⟨t, t', h₁, -, hn, -⟩ := h.exists_of_mem_split
  have hsig := signalled_run h₁.run
  have hreceived : t.udp = .raise ∨ Seen (· = .udpRaised) tr₁ →
      Seen (· = .received .datagram) tr₁ := by
    refine h₁.invariant_trace (I := fun tr s => s.udp = .raise ∨ Seen (· = .udpRaised) tr →
      Seen (· = .received .datagram) tr) ?_ (by simp [init])
    intro tr s x s' e hI hC hn hraise
    rw [seen_snoc] at hraise ⊢
    rcases machine_cases hn with ⟨a, rfl, hs⟩ | ⟨j, a, d', e', rfl, hs, rfl, rfl⟩ |
      ⟨r, rfl, hu, rfl, rfl⟩ | ⟨r, rfl, hu, rfl, rfl⟩
    · rcases hraise with hm | hseen | he
      · rcases hs.udp with heq | ⟨-, hreceiving⟩
        · exact Or.inl (hI (Or.inl (heq ▸ hm)))
        · simp [hreceiving] at hm
      · exact Or.inl (hI (Or.inr hseen))
      · subst he
        cases hs
    · exact Or.inl (hI (by simpa using hraise))
    · rw [hC hu]
      exact Or.inr rfl
    · exact Or.inl (hI (Or.inl hu))
  rcases hsig.signal (syncstart_of_wrote hsig hn) with hraised | hudp
  · exact absurd hb (hsig.main (Or.inr hraised)).2
  · exact hreceived (Or.inr hudp)

/-- A player of the UDP build that writes after a datagram. -/
theorem wrote_after_datagram_solo :
    ∃ tr x s bytes, (machine (solo .udplite false)).Run (init (solo .udplite false))
      (tr ++ [(x, .thread 0 (.wrote 0 1024 bytes))]) s ∧ Seen (· = .received .datagram) tr := by
  have hexec : (machine (solo .udplite false)).Reaches Receives (init (solo .udplite false))
      (List.replicate 7 (.main {}) ++ List.replicate 2 (.udp .datagram) ++
        toWrite (List.replicate 1024 7))
      fun _ s => ∃ q ∈ (machine (solo .udplite false)).next s (.thread 0 { write := .accepted 2 }),
        q.2 = .thread 0 (.wrote 0 1024 [some 7, some 7]) := by decide +kernel
  obtain ⟨tr, s, h, ⟨s', e⟩, hn, rfl⟩ := hexec.exists_runOn
  have h' := h.snoc (show s.Receives (.thread 0 { write := .accepted 2 }) from trivial)
    (Option.mem_def.mp hn)
  exact ⟨tr, _, s', _, h'.run, wrote_after_datagram rfl h' tr _ _ _ _ _ [] rfl⟩

/-- An error of `recvmsg` starts the movie. -/
theorem not_wrote_after_datagram :
    ¬ ∀ (n : ℕ) (cfg : Config n) (tr : List (Action n × Event n)) (s : Process n),
      cfg.build = .udplite → (machine cfg).Run (init cfg) tr s →
      ∀ tr₁ x i buf asked bytes tr₂, tr = tr₁ ++ (x, .thread i (.wrote buf asked bytes)) :: tr₂ →
        Seen (· = .received .datagram) tr₁ := by
  have hexec : (machine (solo .udplite false)).Reaches (fun _ _ => True)
      (init (solo .udplite false))
      (List.replicate 7 (.main {}) ++ List.replicate 2 (.udp .error) ++
        toWrite (List.replicate 1024 7))
      fun tr s => ¬ Seen (· = .received .datagram) tr ∧
        ∃ q ∈ (machine (solo .udplite false)).next s (.thread 0 { write := .accepted 2 }),
          q.2 = .thread 0 (.wrote 0 1024 [some 7, some 7]) := by decide +kernel
  obtain ⟨tr, s, h, hnone, ⟨s', e⟩, hn, rfl⟩ := hexec.exists_runOn
  intro hall
  exact hnone (hall 1 _ _ s' rfl (h.snoc trivial (Option.mem_def.mp hn)) tr _ _ _ _ _ [] rfl)

/-! ### The daemon -/

/-- The process serves remote commands. -/
def Serving (m : Main n) : Prop := m = .serve ∨ ∃ i, m = .quitting i ∨ m = .join i

/-- The event is an `Open` that has been executed. -/
def IsOpen (e : Event n) : Prop := ∃ i path, e = .request i (.open path)

/-- A step of a daemon leaves it one. -/
theorem MainStep.daemon {a : MainAnswers} {e : Event n} (h : MainStep cfg a s s' e)
    (hd : s.rpcdaemon = true) (hm : s.main ≠ .begin) :
    s'.rpcdaemon = true ∧ s'.main ≠ .begin := by
  cases h
  case noDecoder hbegin hn => exact absurd hbegin hm
  case begin hbegin _ _ _ => exact absurd hbegin hm
  case udpLaunched | noUdp | quit =>
    exact ⟨hd, first_rule (P := (· ≠ .begin)) (by simp) (by simp)⟩
  case launch i _ =>
    refine ⟨hd, ?_⟩
    rw [goto_main, if_pos hd]
    exact following_rule (P := (· ≠ .begin)) (by simp) (by simp)
  case play => exact ⟨hd, following_rule (P := (· ≠ .begin)) (by simp) (by simp)⟩
  case syncing =>
    refine ⟨hd, ?_⟩
    rw [goto_main]
    split_ifs <;> simp
  case wait =>
    refine ⟨hd, ?_⟩
    rw [goto_main]
    split_ifs
    · simp
    · exact first_rule (P := (· ≠ .begin)) (by simp) (by simp)
  case count => exact ⟨hd, count_rule (P := (· ≠ .begin)) (by simp) (by simp)⟩
  all_goals exact ⟨hd, by simp_all⟩

/-- `main` comes to serve remote commands as a daemon only. -/
theorem MainStep.to_serving {a : MainAnswers} {e : Event n} (h : MainStep cfg a s s' e)
    (hm' : Serving s'.main) : Serving s.main ∨ s.main = .wait ∧ s.rpcdaemon = true := by
  cases h
  case wait hm =>
    refine Or.inr ⟨hm, ?_⟩
    rw [goto_main] at hm'
    split_ifs at hm' with hd
    · exact hd.2
    · exact absurd hm' (first_rule (P := (¬ Serving ·)) (by simp [Serving]) (by simp [Serving]))
  case udpLaunched | noUdp =>
    exact absurd hm' (first_rule (P := (¬ Serving ·)) (by simp [Serving]) (by simp [Serving]))
  case launch i hm =>
    rw [goto_main] at hm'
    split_ifs at hm'
    · exact absurd hm'
        (following_rule (P := (¬ Serving ·)) (by simp [Serving]) (by simp [Serving]))
    · simp [Serving] at hm'
  case play =>
    exact absurd hm' (following_rule (P := (¬ Serving ·)) (by simp [Serving]) (by simp [Serving]))
  case syncing =>
    rw [goto_main] at hm'
    split_ifs at hm' <;> simp [Serving] at hm'
  case count =>
    exact absurd hm' (count_rule (P := (¬ Serving ·)) (by simp [Serving]) (by simp [Serving]))
  case serveQuit hm _ | serveNothing hm _ | quit hm _ => exact Or.inl (Or.inl hm)
  case request hm _ _ _ _ _ _ _ => exact Or.inl (Or.inl hm)
  case quitting i hm => exact Or.inl (Or.inr ⟨i, Or.inl hm⟩)
  case join i hm _ _ | joinLast i hm _ _ => exact Or.inl (Or.inr ⟨i, Or.inr hm⟩)
  all_goals simp [Serving] at hm'

/-- Remote commands are executed while `main` serves them. -/
theorem MainStep.serving_of_isOpen {a : MainAnswers} {e : Event n} (h : MainStep cfg a s s' e)
    (he : IsOpen e) : Serving s.main := by
  obtain ⟨i, path, rfl⟩ := he
  cases h
  case request hm _ _ _ _ _ => exact Or.inl hm

/-- The invariant of the daemon: `main` serves remote commands, or has executed one, as a daemon
only. -/
def Remote (tr : List (Action n × Event n)) (s : Process n) : Prop :=
  Serving s.main ∨ Seen IsOpen tr → s.rpcdaemon = true ∧ s.main ≠ .begin

/-- Every step keeps the invariant of the daemon. -/
theorem Remote.step {tr : List (Action n × Event n)} {x : Action n} {e : Event n}
    (h : Remote tr s) (hn : (machine cfg).next s x = some (s', e)) :
    Remote (tr ++ [(x, e)]) s' := by
  intro hpre
  rw [seen_snoc] at hpre
  rcases machine_cases hn with ⟨a, rfl, hs⟩ | ⟨j, a, d', e', rfl, hs, rfl, rfl⟩ |
    ⟨r, rfl, hu, rfl, rfl⟩ | ⟨r, rfl, hu, rfl, rfl⟩
  · have hs' : Serving s.main ∨ Seen IsOpen tr ∨ s.main = .wait ∧ s.rpcdaemon = true := by
      rcases hpre with hm' | hseen | he
      · exact (hs.to_serving hm').imp_right Or.inr
      · exact Or.inr (Or.inl hseen)
      · exact Or.inl (hs.serving_of_isOpen he)
    rcases hs' with hm | hseen | ⟨hm, hd⟩
    · obtain ⟨hd, hne⟩ := h (Or.inl hm)
      exact hs.daemon hd hne
    · obtain ⟨hd, hne⟩ := h (Or.inr hseen)
      exact hs.daemon hd hne
    · exact hs.daemon hd (by simp [hm])
  · exact h (by simpa [IsOpen] using hpre)
  · exact h (by simpa [IsOpen] using hpre)
  · exact h (by simpa [IsOpen] using hpre)

/-- The remote commands `Open`, `Stop`, `Pause` and `Quit`, each of which takes back a `Play`. -/
def revokes : Request → Bool
  | .stop | .pause | .open _ | .quit => true
  | _ => false

/-- Decoder `i` has been sent a successful `Open` of `path` and then a `Play`, with no later `Open`,
`Stop`, `Pause` or `Quit`. -/
def OpenedAndPlayed (i : Fin n) (path : Name) (es : List (Event n)) : Prop :=
  ∃ es₁ es₂ es₃, es = es₁ ++ .request i (.open path) :: es₂ ++ .request i .play :: es₃ ∧
    ∀ r, .request i r ∈ es₂ ++ es₃ → revokes r = false

/-- Then an `Open` has been executed. -/
theorem OpenedAndPlayed.seen {i : Fin n} {path : Name} {tr : List (Action n × Event n)}
    (h : OpenedAndPlayed i path (tr.map Prod.snd)) : Seen IsOpen tr := by
  obtain ⟨es₁, es₂, es₃, hes, -⟩ := h
  have hmem : .request i (.open path) ∈ tr.map Prod.snd := by simp [hes]
  obtain ⟨y, hy, he⟩ := List.mem_map.mp hmem
  exact ⟨y, hy, i, path, he⟩

/-- A continuation of the run from `s` in which the device of decoder `i` receives bytes. -/
def CanWrite (cfg : Config n) (s : Process n) (i : Fin n) : Prop :=
  ∃ tr' s' x buf asked bytes, (machine cfg).Run s tr' s' ∧ bytes ≠ [] ∧
    (x, .thread i (.wrote buf asked bytes)) ∈ tr'

/-- In the daemon no continuation writes after an `Open`: nobody raises `syncstart`. -/
theorem not_canWrite_of_seen {tr : List (Action n × Event n)} {i : Fin n}
    (hb : cfg.build = .xmlrpc) (h : (machine cfg).Run (init cfg) tr s)
    (ho : Seen IsOpen tr) : ¬ CanWrite cfg s i := by
  rintro ⟨tr', s', x, buf, asked, bytes, h', -, hmem⟩
  obtain ⟨tr₁, tr₂, rfl⟩ := List.append_of_mem hmem
  obtain ⟨t, t', h₁, -, hn, -⟩ := h'.exists_of_mem_split
  have ht := h.append h₁
  have hsig : Signalled cfg (tr ++ tr₁) t := signalled_run ht
  have hremote : Remote (tr ++ tr₁) t := by
    refine ht.invariant_trace (I := Remote) ?_ (by simp [Remote, Serving, init])
    intro tr s x t e hI _ hn
    exact hI.step hn
  obtain ⟨y, hy, hopen⟩ := ho
  have hseen : Seen IsOpen (tr ++ tr₁) := ⟨y, List.mem_append_left _ hy, hopen⟩
  have hdaemon : t.rpcdaemon = true := (hremote (Or.inr hseen)).1
  rcases hsig.signal (syncstart_of_wrote hsig hn) with hraised | hudp
  · simp [(hsig.main (Or.inr hraised)).1] at hdaemon
  · simp [hsig.udp (Or.inr hudp)] at hb

/-- In the XMLRPC daemon a decoder that has been told to open and to play a file is stuck in every
state: no continuation of the run writes to its device. -/
theorem not_canWrite (hb : cfg.build = .xmlrpc) {tr : List (Action n × Event n)} {i : Fin n}
    {path : Name} (h : (machine cfg).Run (init cfg) tr s)
    (ho : OpenedAndPlayed i path (tr.map Prod.snd)) : ¬ CanWrite cfg s i :=
  not_canWrite_of_seen hb h ho.seen

/-- A daemon with one decoder that has been told to open and to play a file of two buffers: the
thread has read the first one and waits for `syncstart`. -/
theorem exists_opened_and_played :
    ∃ tr s, (machine (solo .xmlrpc true)).RunOn
        (Reads fun _ => .stream (List.replicate 2048 7)) (init (solo .xmlrpc true)) tr s ∧
      (s.decoders 0).pc = .syncWait ∧ OpenedAndPlayed 0 [98] (tr.map Prod.snd) := by
  have hexec : (machine (solo .xmlrpc true)).Reaches
      (Reads fun _ => .stream (List.replicate 2048 7)) (init (solo .xmlrpc true))
      (List.replicate 6 (.main {}) ++ List.replicate 4 (.thread 0 {}) ++
        [.main { command := some (.open 1 [98]) }, .main { command := some (.play 1) }] ++
        List.replicate 6 (.thread 0 { fopen64 := .stream (List.replicate 2048 7) }))
      fun tr s => (s.decoders 0).pc = .syncWait ∧ tr.map Prod.snd =
        (List.replicate 6 .silent ++ List.replicate 4 (.thread 0 .silent)) ++
          .request 0 (.open [98]) :: [] ++ .request 0 .play ::
          [.thread 0 .silent, .thread 0 (.opened [98]), .thread 0 .silent, .thread 0 .silent,
            .thread 0 .silent, .thread 0 (.chunk (List.replicate 1024 7))] := by decide +kernel
  obtain ⟨tr, s, h, hpc, hes⟩ := hexec.exists_runOn
  refine ⟨tr, s, h, hpc, _, _, _, hes, ?_⟩
  intro r hr
  simp only [List.nil_append, List.mem_cons, List.not_mem_nil, reduceCtorEq, or_self] at hr

/-- A daemon with one decoder, told to open and to play a file, does not write. -/
theorem not_canWrite_solo :
    ∃ tr s, (machine (solo .xmlrpc true)).Run (init (solo .xmlrpc true)) tr s ∧
      (s.decoders 0).pc = .syncWait ∧ ¬ CanWrite (solo .xmlrpc true) s 0 := by
  obtain ⟨tr, s, h, hpc, ho⟩ := exists_opened_and_played
  exact ⟨tr, s, h.run, hpc, not_canWrite rfl h.run ho⟩

/-- A daemon does not always get a decoder to write that has been told to open and to play a file
longer than its buffer. -/
theorem not_canWrite_of_readable :
    ¬ ∀ (n : ℕ) (cfg : Config n) (fopen64 : Name → FopenResult) (tr : List (Action n × Event n))
        (s : Process n) (i : Fin n) (path : Name) (movie : List UInt8),
      cfg.build = .xmlrpc → cfg.rpcdaemon = true → cfg.fd i ≠ 0 → cfg.dummy i = false →
      (machine cfg).RunOn (Reads fopen64) (init cfg) tr s → (s.decoders i).alive = true →
      fopen64 path = .stream movie → sizeT (int32 (cfg.videobuf * 1024)) < movie.length →
      OpenedAndPlayed i path (tr.map Prod.snd) → CanWrite cfg s i := by
  obtain ⟨tr, s, h, hpc, ho⟩ := exists_opened_and_played
  intro hall
  have hdevice : (solo .xmlrpc true).fd 0 ≠ 0 := by decide
  have halive : (s.decoders 0).alive = true := by simp [Decoder.alive, hpc]
  have hlong : sizeT (int32 ((solo .xmlrpc true).videobuf * 1024)) <
      (List.replicate 2048 (7 : UInt8)).length := by
    rw [List.length_replicate]
    decide
  have hwrite : CanWrite (solo .xmlrpc true) s 0 :=
    hall 1 (solo .xmlrpc true) (fun _ => .stream (List.replicate 2048 7)) tr s 0 [98]
      (List.replicate 2048 7) rfl rfl hdevice rfl h halive rfl hlong ho
  exact not_canWrite_of_seen rfl h.run ho.seen hwrite

end Process

end IvySync
