import IvySync.Process.Syncstart

/-!
# What main does to a decoder, and when

`Treated` refines `Handled`: it says at which control point of `main` each operation on a decoder
comes, which commands reach a decoder, and that `close` goes on only when there is no thread to be
joined any more.  A decoder that has not been launched yet has no thread (`unlaunched_step`).
-/

namespace IvySync

namespace Process

variable {n : ℕ} {cfg : Config n} {s s' : Process n}

/-- What a step of `main` from the control point `m` does to decoder `i`. -/
inductive Treated (cfg : Config n) (m : Main n) (i : Fin n) (d : Decoder) : Decoder → Prop
  | untouched : Treated cfg m i d d
  | setup (calloc : Bool) (hm : m = .setup i) : Treated cfg m i d (d.setup calloc cfg.videobuf).1
  | launch (created : Bool) (hm : m = .launch i) : Treated cfg m i d (d.launch created)
  | load (k : ℕ) (line : Name) (hm : m = .load i k) : Treated cfg m i d (d.append line)
  | play (hm : m = .play i) : Treated cfg m i d d.play
  | command (c : Command) (readable : Bool) (decnum : ℤ) (r : Request) (hm : m = .serve)
      (hc : c.request readable = some (decnum, r)) : Treated cfg m i d (d.apply r)
  | quitting (hm : m = .quitting i) : Treated cfg m i d (d.apply .stop |>.apply .quit)
  | close (hm : m = .join i) (hr : d.running = true → d.alive = false) :
      Treated cfg m i d (d.apply .close)

/-- What is done to one decoder leaves the others untouched. -/
theorem Treated.set {m : Main n} {j : Fin n} {d : Decoder}
    (h : Treated cfg m j (s.decoders j) d) (i : Fin n) :
    Treated cfg m i (s.decoders i) ((s.set j d).decoders i) := by
  by_cases hij : i = j
  · subst hij
    rwa [set_decoders_self]
  · rw [set_decoders_of_ne s d hij]
    exact Treated.untouched

/-- A step of `main` treats every decoder. -/
theorem MainStep.treated {a : MainAnswers} {e : Event n} (h : MainStep cfg a s s' e) (i : Fin n) :
    Treated cfg s.main i (s.decoders i) (s'.decoders i) := by
  cases h
  case setup j hm => exact (Treated.setup _ hm).set i
  case launch j hm => exact (Treated.launch _ hm).set i
  case load j k line hm hl => exact (Treated.load k line hm).set i
  case play j hm => exact (Treated.play hm).set i
  case request hm hq j c decnum r hc hj => exact (Treated.command c _ decnum r hm hc).set i
  case quitting j hm => exact (Treated.quitting hm).set i
  case join j hm hr hj => exact (Treated.close hm hr).set i
  case joinLast j hm hr hj => exact (Treated.close hm hr).set i
  all_goals exact Treated.untouched

/-! ### Before the launch -/

/-- `main` has not launched decoder `i` yet. -/
def Unlaunched (i : Fin n) : Main n → Prop
  | .begin | .udpInit => True
  | .setup j | .launch j => j ≤ i
  | .load j _ | .play j => j < i
  | _ => False

/-- Behind one decoder comes the next one or nothing to be launched. -/
theorem unlaunched_following {i j : Fin n} (h : Unlaunched i (following .setup .syncing j)) :
    j < i := by
  unfold following at h
  split_ifs at h with hj
  · exact h
  · exact h.elim

/-- A decoder that `main` has not launched after a step it had not launched before, and it has not
created its thread. -/
theorem MainStep.unlaunched {a : MainAnswers} {e : Event n} (h : MainStep cfg a s s' e) {i : Fin n}
    (hi : Unlaunched i s'.main) :
    Unlaunched i s.main ∧ (s'.decoders i).pc = (s.decoders i).pc := by
  cases h
  case udpLaunched hm hb hc | noUdp hm hb => exact ⟨by rw [hm]; trivial, rfl⟩
  case begin hm _ _ _ => exact ⟨by rw [hm]; trivial, rfl⟩
  case setup j hm =>
    refine ⟨by rw [hm]; exact hi, ?_⟩
    by_cases hij : i = j
    · subst hij
      rw [goto_decoders, set_decoders_self]
      obtain ⟨_, _, _, heq, -⟩ :=
        Decoder.exists_setup_eq a.calloc cfg.videobuf (s.decoders i)
      rw [heq]
    · rw [goto_decoders, set_decoders_of_ne s _ hij]
  case launch j hm =>
    have hlt : j < i := by
      rw [goto_main] at hi
      split_ifs at hi
      · exact unlaunched_following hi
      · exact hi
    refine ⟨by rw [hm]; exact le_of_lt hlt, ?_⟩
    rw [goto_decoders, set_decoders_of_ne s _ (ne_of_gt hlt)]
  case load j k line hm hl =>
    refine ⟨by rw [hm]; exact hi, ?_⟩
    rw [goto_decoders, set_decoders_of_ne s _ (ne_of_gt (show j < i from hi))]
  case loaded j k hm hl => exact ⟨by rw [hm]; exact hi, rfl⟩
  case play j hm =>
    have hlt : j < i := unlaunched_following hi
    refine ⟨by rw [hm]; exact hlt, ?_⟩
    rw [goto_decoders, set_decoders_of_ne s _ (ne_of_gt hlt)]
  case syncing hm =>
    rw [goto_main] at hi
    split_ifs at hi <;> exact hi.elim
  case wait hm =>
    rw [goto_main] at hi
    split_ifs at hi
    · exact hi.elim
    · exact absurd hi (first_rule (P := (¬ Unlaunched i ·)) (fun _ => id) id)
  case quit hm hq => exact absurd hi (first_rule (P := (¬ Unlaunched i ·)) (fun _ => id) id)
  case count =>
    exact absurd hi (count_rule (P := (¬ Unlaunched i ·)) (fun _ _ => id) id)
  case serveNothing hm hq =>
    rw [hm] at hi
    exact hi.elim
  case request hm _ _ _ _ _ _ _ =>
    rw [set_main, hm] at hi
    exact hi.elim
  all_goals exact hi.elim

/-- A decoder without a thread is left without one by every step that does not launch it. -/
theorem unlaunched_step {i : Fin n} {x : Action n} {e : Event n}
    (h : Unlaunched i s.main → (s.decoders i).pc = .idle)
    (hn : (machine cfg).next s x = some (s', e)) :
    Unlaunched i s'.main → (s'.decoders i).pc = .idle := by
  intro hi
  rcases machine_cases hn with ⟨a, rfl, hs⟩ | ⟨j, a, d', e', rfl, hs, rfl, rfl⟩ |
    ⟨r, rfl, hu, rfl, rfl⟩ | ⟨r, rfl, hu, rfl, rfl⟩
  · obtain ⟨hi', hpc⟩ := hs.unlaunched hi
    rw [hpc, h hi']
  · by_cases hij : i = j
    · subst hij
      exact absurd (h hi) hs.pc_ne_idle
    · rw [set_decoders_of_ne s d' hij]
      exact h hi
  · exact h hi
  · exact h hi

end Process

end IvySync
