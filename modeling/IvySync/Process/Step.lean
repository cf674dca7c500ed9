import IvySync.Process.Defs
import IvySync.Decoder.Step

/-!
# What a step of the process can do

`Process.MainStep` lists the branches of a step of `main`, and `machine_cases` the threads that a
step of the process can belong to.
-/

namespace IvySync

namespace Process

variable {n : ℕ}

@[simp] theorem set_main (s : Process n) (i : Fin n) (d : Decoder) :
    (s.set i d).main = s.main := rfl

@[simp] theorem set_rpcdaemon (s : Process n) (i : Fin n) (d : Decoder) :
    (s.set i d).rpcdaemon = s.rpcdaemon := rfl

@[simp] theorem set_syncstart (s : Process n) (i : Fin n) (d : Decoder) :
    (s.set i d).syncstart = s.syncstart := rfl

@[simp] theorem set_udp (s : Process n) (i : Fin n) (d : Decoder) : (s.set i d).udp = s.udp := rfl

@[simp] theorem set_decoders_self (s : Process n) (i : Fin n) (d : Decoder) :
    (s.set i d).decoders i = d := by
  simp [set]

theorem set_decoders_of_ne (s : Process n) {i j : Fin n} (d : Decoder) (h : j ≠ i) :
    (s.set i d).decoders j = s.decoders j := by
  simp [set, h]

/-- The rule for one decoder: what its new state has whenever the old one has it is kept by every
decoder. -/
theorem set_rule {P : Decoder → Prop} {s : Process n} {i j : Fin n} {d : Decoder}
    (hself : P (s.decoders i) → P d) (h : P (s.decoders j)) : P ((s.set i d).decoders j) := by
  by_cases hij : j = i
  · subst hij
    rw [set_decoders_self]
    exact hself h
  · rwa [set_decoders_of_ne s d hij]

@[simp] theorem goto_main (s : Process n) (m : Main n) : (s.goto m).main = m := rfl

@[simp] theorem goto_rpcdaemon (s : Process n) (m : Main n) :
    (s.goto m).rpcdaemon = s.rpcdaemon := rfl

@[simp] theorem goto_syncstart (s : Process n) (m : Main n) :
    (s.goto m).syncstart = s.syncstart := rfl

@[simp] theorem goto_udp (s : Process n) (m : Main n) : (s.goto m).udp = s.udp := rfl

@[simp] theorem goto_decoders (s : Process n) (m : Main n) :
    (s.goto m).decoders = s.decoders := rfl

/-- The branches of one step of `main` from `s` with the answers `a`. -/
inductive MainStep (cfg : Config n) (a : MainAnswers) (s : Process n) : Process n → Event n → Prop
  | noDecoder (hm : s.main = .begin) (hn : n = 0) : MainStep cfg a s (s.goto .exited) .silent
  | begin (hm : s.main = .begin) (hn : n ≠ 0) (daemon : Bool)
      (hd : daemon = (s.rpcdaemon && (cfg.build ≠ .xmlrpc || a.bind))) :
      MainStep cfg a s { s with rpcdaemon := daemon, main := .udpInit } .silent
  | udpLaunched (hm : s.main = .udpInit) (hb : cfg.build = .udplite) (hc : a.created = true) :
      MainStep cfg a s { s with udp := .receiving, main := first .setup } .silent
  | noUdp (hm : s.main = .udpInit) (hb : cfg.build = .udplite → a.created = false) :
      MainStep cfg a s { s with main := first .setup } .silent
  | setup (i : Fin n) (hm : s.main = .setup i) :
      MainStep cfg a s
        ((s.set i ((s.decoders i).setup a.calloc cfg.videobuf).1).goto (.launch i)) .silent
  | launch (i : Fin n) (hm : s.main = .launch i) :
      MainStep cfg a s ((s.set i ((s.decoders i).launch a.created)).goto
        (if s.rpcdaemon then following .setup .syncing i else .load i 0)) .silent
  | load (i : Fin n) (k : ℕ) (line : Name) (hm : s.main = .load i k)
      (hl : (cfg.saved i)[k]? = some line) :
      MainStep cfg a s ((s.set i ((s.decoders i).append line)).goto (.load i (k + 1)))
        (.request i (.append line))
  | loaded (i : Fin n) (k : ℕ) (hm : s.main = .load i k) (hl : (cfg.saved i)[k]? = none) :
      MainStep cfg a s (s.goto (.play i)) .silent
  | play (i : Fin n) (hm : s.main = .play i) :
      MainStep cfg a s ((s.set i (s.decoders i).play).goto (following .setup .syncing i))
        (.request i .play)
  | syncing (hm : s.main = .syncing) :
      MainStep cfg a s (s.goto (if s.rpcdaemon ∨ cfg.build = .udplite then .wait else .raise))
        .silent
  | raise (hm : s.main = .raise) :
      MainStep cfg a s { s with syncstart := true, main := .wait } .raised
  | wait (hm : s.main = .wait) :
      MainStep cfg a s
        (s.goto (if cfg.build = .xmlrpc ∧ s.rpcdaemon then .serve else first (.count · 0))) .silent
  | serveQuit (hm : s.main = .serve) (hq : s.quit = true) :
      MainStep cfg a s (s.goto .exited) .silent
  | serveNothing (hm : s.main = .serve) (hq : s.quit = false) : MainStep cfg a s s .silent
  | quit (hm : s.main = .serve) (hq : s.quit = false) :
      MainStep cfg a s (s.goto (first .quitting)) .silent
  | request (hm : s.main = .serve) (hq : s.quit = false) (i : Fin n) (c : Command) (decnum : ℤ)
      (r : Request) (hc : c.request a.readable = some (decnum, r)) (hi : pick decnum = some i) :
      MainStep cfg a s (s.set i ((s.decoders i).apply r)) (.request i r)
  | quitting (i : Fin n) (hm : s.main = .quitting i) :
      MainStep cfg a s ((s.set i ((s.decoders i).apply .stop |>.apply .quit)).goto (.join i))
        (.request i .quit)
  | join (i : Fin n) (hm : s.main = .join i)
      (hr : (s.decoders i).running = true → (s.decoders i).alive = false) (hi : i.val + 1 < n) :
      MainStep cfg a s
        ((s.set i ((s.decoders i).apply .close)).goto (.quitting ⟨i.val + 1, hi⟩))
        (.request i .close)
  | joinLast (i : Fin n) (hm : s.main = .join i)
      (hr : (s.decoders i).running = true → (s.decoders i).alive = false) (hi : n ≤ i.val + 1) :
      MainStep cfg a s { s.set i ((s.decoders i).apply .close) with quit := true, main := .serve }
        (.request i .close)
  | count (i : Fin n) (stillRunning stillRunning' : ℕ) (hm : s.main = .count i stillRunning)
      (hs : stillRunning' = stillRunning + if (s.decoders i).playing then 1 else 0) :
      MainStep cfg a s (s.goto (following (.count · stillRunning')
        (if stillRunning' = 0 then .exited else first (.count · 0)) i)) .silent

variable {cfg : Config n} {s s' : Process n}

/-- `first` leads to one of its control points or to the end. -/
theorem first_rule {P : Main n → Prop} {m : Fin n → Main n} (h : ∀ i, P (m i)) (hx : P .exited) :
    P (first m) := by
  unfold first
  split_ifs
  · exact h _
  · exact hx

/-- `following` leads to one of its control points or to the last one. -/
theorem following_rule {P : Main n → Prop} {m : Fin n → Main n} {last : Main n} {i : Fin n}
    (h : ∀ i, P (m i)) (hx : P last) : P (following m last i) := by
  unfold following
  split_ifs
  · exact h _
  · exact hx

/-- The loop that waits for the end of all channels goes on with itself or ends the process. -/
theorem count_rule {P : Main n → Prop} {i : Fin n} {stillRunning : ℕ} (h : ∀ i k, P (.count i k))
    (hx : P .exited) : P (following (.count · stillRunning)
      (if stillRunning = 0 then .exited else first (.count · 0)) i) := by
  refine following_rule (fun i => h i _) ?_
  split_ifs
  · exact hx
  · exact first_rule (fun i => h i _) hx

/-- Executing a command is one of the branches for it. -/
theorem execute_spec {a : MainAnswers} {c : Command} (hm : s.main = .serve) (hq : s.quit = false) :
    MainStep cfg a s (execute a.readable c s).1 (execute a.readable c s).2 := by
  unfold execute
  split_ifs with hc
  · exact MainStep.quit hm hq
  · cases hr : c.request a.readable with
    | none => exact MainStep.serveNothing hm hq
    | some q =>
      obtain ⟨decnum, r⟩ := q
      cases hi : pick (n := n) decnum with
      | none => simpa [hi] using MainStep.serveNothing hm hq
      | some i => simpa [hi] using MainStep.request hm hq i c decnum r hr hi

/-- A step of `main` is one of the branches. -/
theorem mainStep_spec {a : MainAnswers} {e : Event n} (h : s.mainStep cfg a = some (s', e)) :
    MainStep cfg a s s' e := by
  unfold mainStep at h
  split at h
  case h_1 hm =>
    split_ifs at h with hn
    · cases h
      exact MainStep.noDecoder hm hn
    · cases h
      exact MainStep.begin hm hn _ rfl
  case h_2 hm =>
    cases h
    split_ifs with hb
    · exact MainStep.udpLaunched hm hb.1 hb.2
    · exact MainStep.noUdp hm fun hu => by simpa [hu] using hb
  case h_3 i hm =>
    cases h
    exact MainStep.setup i hm
  case h_4 i hm =>
    cases h
    exact MainStep.launch i hm
  case h_5 i k hm =>
    split at h
    case h_1 line hl =>
      cases h
      exact MainStep.load i k line hm hl
    case h_2 hl =>
      cases h
      exact MainStep.loaded i k hm hl
  case h_6 i hm =>
    cases h
    exact MainStep.play i hm
  case h_7 hm =>
    cases h
    exact MainStep.syncing hm
  case h_8 hm =>
    cases h
    exact MainStep.raise hm
  case h_9 hm =>
    cases h
    exact MainStep.wait hm
  case h_10 hm =>
    split_ifs at h with hq
    · cases h
      exact MainStep.serveQuit hm hq
    · have hq' : s.quit = false := by simpa using hq
      split at h
      case h_1 =>
        cases h
        exact MainStep.serveNothing hm hq'
      case h_2 c hc =>
        have hs : MainStep cfg a s (execute a.readable c s).1 (execute a.readable c s).2 :=
          execute_spec hm hq'
        rwa [Option.some.inj h] at hs
  case h_11 i hm =>
    cases h
    exact MainStep.quitting i hm
  case h_12 i hm =>
    split_ifs at h with hr hi
    all_goals
      have hr' : (s.decoders i).running = true → (s.decoders i).alive = false := by simpa using hr
      cases h
    · exact MainStep.join i hm hr' hi
    · exact MainStep.joinLast i hm hr' (by omega)
  case h_13 i stillRunning hm =>
    cases h
    exact MainStep.count i stillRunning _ hm rfl
  case h_14 => cases h

/-- What a step of `main` can do to a decoder. -/
inductive Handled (d : Decoder) : Decoder → Prop
  | untouched : Handled d d
  | setup (calloc : Bool) (bufsize : ℤ) : Handled d (d.setup calloc bufsize).1
  | launch (created : Bool) : Handled d (d.launch created)
  | request (r : Request) : Handled d (d.apply r)
  | quitting : Handled d (d.apply .stop |>.apply .quit)

/-- Handling one decoder leaves the others untouched. -/
theorem Handled.set {i : Fin n} {d : Decoder} (h : Handled (s.decoders i) d) (j : Fin n) :
    Handled (s.decoders j) ((s.set i d).decoders j) := by
  by_cases hj : j = i
  · subst hj
    rwa [set_decoders_self]
  · rw [set_decoders_of_ne s d hj]
    exact Handled.untouched

/-- A step of `main` handles every decoder. -/
theorem MainStep.handled {a : MainAnswers} {e : Event n} (h : MainStep cfg a s s' e) (j : Fin n) :
    Handled (s.decoders j) (s'.decoders j) := by
  cases h
  case setup i hm => exact (Handled.setup _ _).set j
  case launch i hm => exact (Handled.launch _).set j
  case load i k line hm hl => exact (Handled.request (.append line)).set j
  case play i hm => exact (Handled.request .play).set j
  case request => exact (Handled.request _).set j
  case quitting i hm => exact Handled.quitting.set j
  case join i hm hr hi => exact (Handled.request .close).set j
  case joinLast i hm hr hi => exact (Handled.request .close).set j
  all_goals exact Handled.untouched

/-- A step of the process is a step of `main`, of the thread of a decoder, or of the UDP server that
receives something or raises `syncstart`. -/
theorem machine_cases {x : Action n} {e : Event n} (h : (machine cfg).next s x = some (s', e)) :
    (∃ a, x = .main a ∧ MainStep cfg a s s' e) ∨
    (∃ i a d' e', x = .thread i a ∧
      Decoder.Step { a with syncstart := s.syncstart } (s.decoders i) d' e' ∧
      s' = s.set i d' ∧ e = .thread i e') ∨
    (∃ r, x = .udp r ∧ s.udp = .receiving ∧ s' = { s with udp := .raise } ∧ e = .received r) ∨
    (∃ r, x = .udp r ∧ s.udp = .raise ∧ s' = { s with syncstart := true, udp := .done } ∧
      e = .udpRaised) := by
  simp only [machine] at h
  split_ifs at h with hm
  cases x with
  | main a => exact Or.inl ⟨a, rfl, mainStep_spec h⟩
  | thread i a =>
    simp only [threadStep] at h
    split_ifs at h with hal
    cases h
    exact Or.inr (Or.inl ⟨i, a, _, _, rfl, Decoder.step_spec _ _ hal, rfl, rfl⟩)
  | udp r =>
    simp only [udpStep] at h
    split at h
    case h_1 => cases h
    case h_2 hu =>
      cases h
      exact Or.inr (Or.inr (Or.inl ⟨r, rfl, hu, rfl, rfl⟩))
    case h_3 hu =>
      cases h
      exact Or.inr (Or.inr (Or.inr ⟨r, rfl, hu, rfl, rfl⟩))
    case h_4 => cases h

end Process

end IvySync
