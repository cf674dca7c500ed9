import IvySync.Cmdline.Defs

/-!
# The check for a decoder

`CHECK_DECODER` is to make sure that `dec` points to a decoder before a file or a playmode is given
to it.  It cannot when the device that it opens itself is not there.  `proceeds_iff` says for which
arguments this does not matter.
-/

namespace IvySync

namespace Cmdline

variable {w : World} {s s' : State} {o : Opt} {opts before after : List Opt} {dev : Name}
  {dummy : Bool}

/-! ### What one pass does -/

namespace Opt

/-- The cases that end the process. -/
def Exits (o : Opt) : Prop := o = .help ∨ o = .scan

instance (o : Opt) : Decidable o.Exits := inferInstanceAs (Decidable (_ ∨ _))

/-- The cases that give something to the decoder. -/
def Demands (w : World) : Opt → Prop
  | .playmode optarg => recognized optarg = true
  | .file optarg => w.readable optarg = true
  | _ => False

instance (w : World) (o : Opt) : Decidable (o.Demands w) :=
  match o with
  | .playmode optarg => inferInstanceAs (Decidable (recognized optarg = true))
  | .file optarg => inferInstanceAs (Decidable (w.readable optarg = true))
  | .help | .device _ | .scan | .xmlrpc _ | .gui | .test | .debug _ | .buffer _ | .other =>
    inferInstanceAs (Decidable False)

/-- The other cases, which set something else or nothing at all. -/
def Sets (w : World) : Opt → Prop
  | .file optarg => ¬ w.readable optarg = true
  | .xmlrpc _ | .gui | .debug _ | .buffer _ | .other => True
  | _ => False

/-- What is done to the decoder that is given something. -/
def give (o : Opt) (c : Channel) : Channel :=
  { c with decoder :=
      match o with
      | .playmode optarg => IvySync.cmdline optarg c.decoder
      | .file optarg => c.decoder.append optarg
      | _ => c.decoder }

end Opt

/-- The device can be opened: it is there, or nothing is opened in a test. -/
def Opens (w : World) (dummy : Prop) (dev : Name) : Prop := dummy ∨ 0 ≤ w.fd dev

instance (dummy : Prop) [Decidable dummy] : Decidable (Opens w dummy dev) :=
  inferInstanceAs (Decidable (_ ∨ _))

/-- A decoder whose device can be opened has nothing to play. -/
theorem newDecoder_of_opens (h : Opens w (dummy = true) dev) :
    ∃ c, newDecoder w dummy dev = some c ∧ c.decoder.playlist = [] ∧
      c.decoder.playmode = .single := by
  unfold newDecoder Channel.init
  cases dummy with
  | true => exact ⟨_, rfl, rfl, rfl⟩
  | false =>
    have hfd : 0 ≤ w.fd dev := h.resolve_left Bool.false_ne_true
    rw [if_neg (by decide), if_neg (by omega)]
    exact ⟨_, rfl, rfl, rfl⟩

theorem newDecoder_eq_none_iff : newDecoder w dummy dev = none ↔ ¬ Opens w (dummy = true) dev := by
  constructor
  · intro hnone hopens
    obtain ⟨c, hc, -⟩ := newDecoder_of_opens hopens
    rw [hnone] at hc
    cases hc
  · intro h
    obtain ⟨hdummy, hfd⟩ := not_or.1 h
    exact (if_neg hdummy).trans (if_pos (by omega))

theorem opens_of_newDecoder {c : Channel} (h : newDecoder w dummy dev = some c) :
    Opens w (dummy = true) dev := by
  by_contra hnot
  rw [newDecoder_eq_none_iff.2 hnot] at h
  cases h

/-- There is a decoder, or one can be opened. -/
def Ready (w : World) (s : State) : Prop :=
  s.dec ≠ none ∨ s.decoders ≠ [] ∨ 0 ≤ w.fd defaultDevice

theorem checkDecoder_of_ne (h : s.dec ≠ none) : checkDecoder w s = s := if_pos h

/-- Where there is no current decoder, the first one is taken, or the first is opened. -/
theorem checkDecoder_cases (h : s.dec = none) :
    s.decoders ≠ [] ∧ checkDecoder w s = { s with dec := some 0 } ∨
      (s.decoders = [] ∧ ∃ c, newDecoder w false defaultDevice = some c ∧
        checkDecoder w s = { s with dec := some 0, decoders := [c] }) ∨
      s.decoders = [] ∧ w.fd defaultDevice < 0 ∧ checkDecoder w s = s := by
  unfold checkDecoder
  rw [if_neg (not_not.2 h)]
  by_cases hd : s.decoders = []
  · rw [if_neg (not_not.2 hd), hd]
    rcases hc : newDecoder w false defaultDevice with _ | c
    · obtain ⟨-, hfd⟩ := not_or.1 (newDecoder_eq_none_iff.1 hc)
      exact .inr (.inr ⟨rfl, by omega, rfl⟩)
    · exact .inr (.inl ⟨rfl, c, rfl, rfl⟩)
  · rw [if_pos hd]
    exact .inl ⟨hd, rfl⟩

theorem checkDecoder_dec_ne_none_iff : (checkDecoder w s).dec ≠ none ↔ Ready w s := by
  unfold Ready
  by_cases h : s.dec = none
  · rcases checkDecoder_cases (w := w) h with ⟨hd, hs⟩ | ⟨hd, c, hc, hs⟩ | ⟨hd, hfd, hs⟩
    · simp [hs, h, hd]
    · have hfd := (opens_of_newDecoder hc).resolve_left Bool.false_ne_true
      simp [hs, hfd]
    · simp [hs, h, hd, hfd]
  · simp [checkDecoder_of_ne h, h]

theorem modify_eq_crashes_iff {g : Decoder → Decoder} : modify g s = .crashes ↔ s.dec = none := by
  unfold modify
  cases s.dec <;> simp

/-- NULL is used when something is to be given to a decoder and there is none. -/
theorem step_eq_crashes_iff : step w s o = .crashes ↔ o.Demands w ∧ ¬ Ready w s := by
  rw [← checkDecoder_dec_ne_none_iff, not_not]
  cases o with
  | device optarg =>
    dsimp only [step]
    split <;> simp [Opt.Demands]
  | playmode optarg =>
    unfold step
    by_cases h : recognized optarg = true
    · simp [h, Opt.Demands, modify_eq_crashes_iff]
    · simp [h, Opt.Demands]
  | file optarg =>
    unfold step
    by_cases h : w.readable optarg = true
    · simp [h, Opt.Demands, modify_eq_crashes_iff]
    · simp [h, Opt.Demands]
  | _ => simp [step, Opt.Demands]

/-- Only the help and the scan end the process. -/
theorem exits_of_step (h : step w s o = .exits s') : o.Exits := by
  have hmodify : ∀ (g : Decoder → Decoder) (t : State), modify g t ≠ .exits s' := by
    intro g t
    unfold modify
    split <;> simp
  cases o with
  | help => exact .inl rfl
  | scan => exact .inr rfl
  | device optarg =>
    dsimp only [step] at h
    split at h <;> cases h
  | playmode optarg | file optarg =>
    dsimp only [step] at h
    split_ifs at h
    exact absurd h (hmodify _ _)
  | _ => cases h

/-- What a pass changes of the decoders when `cmdline` goes on. -/
inductive Passes (w : World) (s : State) : Opt → State → Prop
  | opened (optarg : Name) (c : Channel) (hc : newDecoder w s.dummytest optarg = some c) :
    Passes w s (.device optarg)
      { s with dec := some s.decoders.length, decoders := s.decoders ++ [c] }
  | failed (optarg : Name) (hc : newDecoder w s.dummytest optarg = none) :
    Passes w s (.device optarg) { s with dec := none }
  | given (o : Opt) (i : ℕ) (ho : o.Demands w) (hi : (checkDecoder w s).dec = some i) :
    Passes w s o { checkDecoder w s with
      decoders := (checkDecoder w s).decoders.modify i o.give }
  | checked (optarg : Name) (hr : recognized optarg = false) :
    Passes w s (.playmode optarg) (checkDecoder w s)
  | test : Passes w s .test { s with dummytest := true }
  | other (o : Opt) (s' : State) (ho : o.Sets w) (hdec : s'.dec = s.dec)
      (hdecoders : s'.decoders = s.decoders) (hdummytest : s'.dummytest = s.dummytest) :
    Passes w s o s'

theorem passes_of_step (h : step w s o = .proceeds s') : Passes w s o s' := by
  have hgiven : ∀ (o : Opt) (g : Decoder → Decoder), o.Demands w →
      (o.give = fun c => { c with decoder := g c.decoder }) →
      modify g (checkDecoder w s) = .proceeds s' → Passes w s o s' := by
    intro o g ho hg h
    unfold modify at h
    split at h
    · rename_i i hi
      obtain rfl := Outcome.proceeds.inj h
      rw [← hg]
      exact .given o i ho hi
    · cases h
  cases o with
  | help | scan => cases h
  | device optarg =>
    unfold step at h
    dsimp only at h
    split at h
    · rename_i c hc
      cases h
      exact .opened optarg c hc
    · rename_i hc
      cases h
      exact .failed optarg hc
  | playmode optarg =>
    unfold step at h
    dsimp only at h
    split_ifs at h with hr
    · exact hgiven (.playmode optarg) _ hr rfl h
    · cases h
      exact .checked optarg (Bool.eq_false_iff.2 hr)
  | file optarg =>
    unfold step at h
    dsimp only at h
    split_ifs at h with hr
    · exact hgiven (.file optarg) _ hr rfl h
    · cases h
      exact .other _ _ hr rfl rfl rfl
  | test =>
    cases h
    exact .test
  | _ =>
    cases h
    exact .other _ _ trivial rfl rfl rfl

/-! ### What has been reached -/

/-- One of the options `-d` has opened its device. -/
def Supplied (w : World) (before : List Opt) : Prop :=
  ∃ b₁ dev b₂, before = b₁ ++ .device dev :: b₂ ∧ Opens w (.test ∈ b₁) dev

theorem supplied_snoc :
    Supplied w (before ++ [o]) ↔
      Supplied w before ∨ ∃ dev, o = .device dev ∧ Opens w (.test ∈ before) dev := by
  constructor
  · rintro ⟨b₁, dev, b₂, hsplit, hopens⟩
    rcases b₂.eq_nil_or_concat with rfl | ⟨b, x, rfl⟩
    · obtain ⟨rfl, ho⟩ := List.append_inj' hsplit rfl
      exact .inr ⟨dev, (List.cons.inj ho).1, hopens⟩
    · have hconcat : before ++ [o] = (b₁ ++ .device dev :: b) ++ [x] := by simp [hsplit]
      exact .inl ⟨b₁, dev, b, (List.append_inj' hconcat rfl).1, hopens⟩
  · rintro (⟨b₁, dev, b₂, rfl, hopens⟩ | ⟨dev, rfl, hopens⟩)
    · exact ⟨b₁, dev, b₂ ++ [o], by simp, hopens⟩
    · exact ⟨before, dev, [], rfl, hopens⟩

/-- What the options so far have led to. -/
structure Reached (w : World) (before : List Opt) (s : State) : Prop where
  dummytest : s.dummytest = true ↔ .test ∈ before
  valid : ∀ i, s.dec = some i → i < s.decoders.length
  supplied : w.fd defaultDevice < 0 → (s.decoders ≠ [] ↔ Supplied w before)

namespace Reached

theorem start : Reached w [] State.start where
  dummytest := by simp [State.start]
  valid := by simp [State.start]
  supplied := by simp [State.start, Supplied]

theorem checkDecoder (h : Reached w before s) : Reached w before (checkDecoder w s) := by
  obtain ⟨hdummytest, hvalid, hsupplied⟩ := h
  by_cases hdec : s.dec = none
  · rcases checkDecoder_cases (w := w) hdec with ⟨hd, hs⟩ | ⟨hd, c, hc, hs⟩ | ⟨hd, hfd, hs⟩
    · rw [hs]
      refine ⟨hdummytest, ?_, hsupplied⟩
      rintro i ⟨⟩
      exact List.length_pos_iff.2 hd
    · rw [hs]
      refine ⟨hdummytest, ?_, ?_⟩
      · rintro i ⟨⟩
        exact Nat.one_pos
      · intro hfd
        have hopen := (opens_of_newDecoder hc).resolve_left Bool.false_ne_true
        omega
    · rw [hs]
      exact ⟨hdummytest, hvalid, hsupplied⟩
  · rw [checkDecoder_of_ne hdec]
    exact ⟨hdummytest, hvalid, hsupplied⟩

/-- An option that opens no device and is not `-t`. -/
theorem snoc (h : Reached w before s) (hdevice : ∀ dev, o ≠ .device dev) (htest : o ≠ .test) :
    Reached w (before ++ [o]) s where
  dummytest := by simp [h.dummytest, htest.symm]
  valid := h.valid
  supplied hfd := by
    rw [h.supplied hfd, supplied_snoc]
    simp [hdevice]

theorem step (h : Reached w before s) (hstep : step w s o = .proceeds s') :
    Reached w (before ++ [o]) s' := by
  cases passes_of_step hstep with
  | opened optarg c hc =>
    have hopens := opens_of_newDecoder hc
    rw [Opens, h.dummytest] at hopens
    refine ⟨by simp [h.dummytest], ?_, ?_⟩
    · rintro i ⟨⟩
      simp
    · intro hfd
      rw [supplied_snoc]
      simp [Opens, hopens]
  | failed optarg hc =>
    have hnot := newDecoder_eq_none_iff.1 hc
    rw [Opens, h.dummytest] at hnot
    refine ⟨by simp [h.dummytest], by simp, ?_⟩
    intro hfd
    rw [supplied_snoc, h.supplied hfd]
    simp [Opens, hnot]
  | given o i ho hi =>
    have hnew : Reached w (before ++ [o]) (Cmdline.checkDecoder w s) := by
      apply h.checkDecoder.snoc <;> intros <;> rintro rfl <;> cases ho
    refine ⟨hnew.dummytest, ?_, ?_⟩
    · intro j hj
      rw [List.length_modify]
      exact hnew.valid j hj
    · intro hfd
      rw [← hnew.supplied hfd, Ne, Ne, ← List.length_eq_zero_iff, List.length_modify,
        List.length_eq_zero_iff]
  | checked optarg hr => exact h.checkDecoder.snoc (by simp) (by simp)
  | test =>
    refine ⟨by simp, h.valid, ?_⟩
    intro hfd
    rw [supplied_snoc, ← h.supplied hfd]
    simp
  | other o s' ho hdec hdecoders hdummytest =>
    have hnew : Reached w (before ++ [o]) s := by
      apply h.snoc <;> intros <;> rintro rfl <;> cases ho
    exact ⟨hdummytest ▸ hnew.dummytest, hdec ▸ hdecoders ▸ hnew.valid,
      hdecoders ▸ hnew.supplied⟩

/-- Where the device of `CHECK_DECODER` is not there, a decoder can only come from a `-d`. -/
theorem ready_iff (h : Reached w before s) :
    Ready w s ↔ 0 ≤ w.fd defaultDevice ∨ Supplied w before := by
  unfold Ready
  by_cases hfd : 0 ≤ w.fd defaultDevice
  · simp [hfd]
  · have hdec : s.dec ≠ none → s.decoders ≠ [] := by
      intro hne
      obtain ⟨i, hi⟩ := Option.ne_none_iff_exists'.1 hne
      exact List.ne_nil_of_length_pos (Nat.zero_lt_of_lt (h.valid i hi))
    rw [← h.supplied (not_le.1 hfd)]
    tauto

end Reached

/-! ### The whole command line -/

theorem loop_cons {t : State} (h : step w s o = .proceeds t) :
    loop w s (o :: opts) = loop w t opts := by
  rw [loop, h]

theorem exists_of_loop_cons (h : loop w s (o :: opts) = .proceeds s') :
    ∃ t, step w s o = .proceeds t ∧ loop w t opts = .proceeds s' := by
  rw [loop] at h
  split at h
  · rename_i t ht
    exact ⟨t, ht, h⟩
  · cases h
  · cases h

/-- The options before a place have been gone through when the place is reached. -/
theorem loop_append {s u : State} {xs ys : List Opt} (h : loop w s (xs ++ ys) = .proceeds u) :
    ∃ t, loop w s xs = .proceeds t ∧ loop w t ys = .proceeds u := by
  induction xs generalizing s with
  | nil => exact ⟨s, rfl, h⟩
  | cons o xs ih =>
    obtain ⟨t, ht, hrest⟩ := exists_of_loop_cons h
    obtain ⟨t', hxs, hys⟩ := ih hrest
    exact ⟨t', by rw [loop_cons ht, hxs], hys⟩

theorem Reached.loop (h : Reached w before s) (hloop : loop w s opts = .proceeds s') :
    Reached w (before ++ opts) s' := by
  induction opts generalizing before s with
  | nil =>
    cases hloop
    rwa [List.append_nil]
  | cons o opts ih =>
    obtain ⟨t, ht, hrest⟩ := exists_of_loop_cons hloop
    rw [List.append_cons]
    exact ih (h.step ht) hrest

/-- The loop goes on as long as there is a decoder for whatever is given to one. -/
theorem exists_loop_eq (h : Reached w before s) (hexits : ∀ o ∈ opts, ¬ o.Exits)
    (hready : ∀ b o a, opts = b ++ o :: a → o.Demands w →
      0 ≤ w.fd defaultDevice ∨ Supplied w (before ++ b)) :
    ∃ s', loop w s opts = .proceeds s' := by
  induction opts generalizing before s with
  | nil => exact ⟨s, rfl⟩
  | cons o opts ih =>
    rcases hstep : step w s o with t | t | _
    · rw [loop_cons hstep]
      refine ih (h.step hstep) (fun x hx => hexits x (List.mem_cons_of_mem o hx)) ?_
      intro b x a hopts hx
      rw [← List.append_cons]
      exact hready (o :: b) x a (by rw [hopts, List.cons_append]) hx
    · exact absurd (exits_of_step hstep) (hexits o List.mem_cons_self)
    · obtain ⟨hdemands, hnot⟩ := step_eq_crashes_iff.1 hstep
      rw [h.ready_iff] at hnot
      have hbefore := hready [] o opts rfl hdemands
      rw [List.append_nil] at hbefore
      exact absurd hbefore hnot

/-- Without a request for help or a scan, `cmdline` goes through all its arguments exactly if the
device of `CHECK_DECODER` can be opened or each playmode and each file comes after a `-d` whose
device can be opened. -/
theorem proceeds_iff (f : Features) (w : World) (argv : List Name)
    (hexits : ∀ o ∈ options f argv, ¬ o.Exits) :
    (∃ s, cmdline f w argv = .proceeds s) ↔
      0 ≤ w.fd defaultDevice ∨
        ∀ before o after, options f argv = before ++ o :: after → o.Demands w →
          Supplied w before := by
  constructor
  · rintro ⟨s, hs⟩
    rw [or_iff_not_imp_left]
    intro hfd before o after hsplit hdemands
    unfold cmdline at hs
    rw [hsplit] at hs
    obtain ⟨t, hbefore, hafter⟩ := loop_append hs
    have ht : Reached w before t := Reached.start.loop hbefore
    by_contra hnot
    have hcrash := step_eq_crashes_iff.2
      ⟨hdemands, mt ht.ready_iff.1 (not_or.2 ⟨hfd, hnot⟩)⟩
    rw [loop, hcrash] at hafter
    cases hafter
  · intro h
    refine exists_loop_eq Reached.start hexits ?_
    intro b o a hsplit hdemands
    exact h.imp_right fun hall => hall b o a hsplit hdemands

/-- Two devices, of which only the first is there. -/
def oneDevice : World where
  fd dev := if dev = bytesOf "/dev/video17" then 3 else -1
  readable _ := true

/-- A file for a device that is there. -/
theorem proceeds_oneDevice : ∃ s, cmdline ⟨true, true⟩ oneDevice
    ([ "-d", "/dev/video17", "a.mpg"].map bytesOf) = .proceeds s := by
  have hoptions : options ⟨true, true⟩ ([ "-d", "/dev/video17", "a.mpg"].map bytesOf) =
      [.device (bytesOf "/dev/video17"), .file (bytesOf "a.mpg")] := by decide +kernel
  refine (proceeds_iff _ _ _ ?_).2 (.inr ?_)
  · rw [hoptions]
    decide +kernel
  · intro before o after hsplit hdemands
    rw [hoptions] at hsplit
    rcases before with _ | ⟨o', before⟩
    · obtain ⟨rfl, -⟩ := List.cons.inj hsplit
      cases hdemands
    · obtain ⟨rfl, -⟩ := List.cons.inj hsplit
      exact ⟨[], _, before, rfl, .inr (by decide +kernel)⟩

/-- A file alone, where the device of `CHECK_DECODER` is not there. -/
theorem not_proceeds : ¬ ∀ (f : Features) (w : World) (argv : List Name),
    (∀ o ∈ options f argv, ¬ o.Exits) → ∃ s, cmdline f w argv = .proceeds s := by
  intro hall
  obtain ⟨s, hs⟩ := hall ⟨true, true⟩ oneDevice [bytesOf "a.mpg"] (by decide +kernel)
  have hcrash : cmdline ⟨true, true⟩ oneDevice [bytesOf "a.mpg"] = .crashes := by decide +kernel
  rw [hcrash] at hs
  cases hs

end Cmdline

end IvySync
