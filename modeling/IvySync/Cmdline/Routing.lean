import IvySync.Cmdline.Check

/-!
# What belongs to which device

On the command line the playmode and the files of a device follow its `-d`.  `Routed` says that each
of them gets to the decoder of the nearest `-d` before it and to no other.  When the device cannot be
opened, `CHECK_DECODER` gives what follows to the first decoder instead; `routed_iff` says that
nothing else stands in the way.
-/

namespace IvySync

namespace Cmdline

variable {w : World} {s s' : State} {o : Opt} {opts before after : List Opt} {dev : Name}

namespace Opt

/-- The option `-d`. -/
def IsDevice : Opt → Prop
  | .device _ => True
  | _ => False

/-- A file or a playmode. -/
def IsOwned : Opt → Prop
  | .file _ | .playmode _ => True
  | _ => False

instance (o : Opt) : Decidable o.IsDevice := by
  cases o <;> first | exact .isTrue trivial | exact .isFalse id

theorem Demands.isOwned (h : o.Demands w) : o.IsOwned := by
  cases o <;> trivial

theorem Demands.not_isDevice (h : o.Demands w) : ¬ o.IsDevice := by
  cases o <;> first | exact id | exact h.elim

theorem Sets.not_demands (h : o.Sets w) : ¬ o.Demands w := by
  cases o <;> first | exact h | exact id | exact h.elim

theorem Sets.ne_test (h : o.Sets w) : o ≠ .test := by
  rintro rfl
  exact h

end Opt

/-! ### Where things should go -/

/-- The options that `cmdline` gets before one that ends the process. -/
def processed (opts : List Opt) : List Opt := opts.takeWhile fun o => ¬ o.Exits

/-- The decoder with the files and the playmodes up to the next `-d`. -/
def served (w : World) : List Opt → Channel → Channel
  | [], c => c
  | o :: opts, c =>
    if o.IsDevice then c else served w opts (if o.Demands w then o.give c else c)

/-- The decoders of the devices that can be opened, each with what is between its `-d` and the next
one. -/
def expected (w : World) : (dummytest : Bool) → List Opt → List Channel
  | _, [] => []
  | dummytest, .device dev :: opts =>
    ((newDecoder w dummytest dev).map (served w opts)).toList ++ expected w dummytest opts
  | dummytest, o :: opts => expected w (dummytest || o = .test) opts

/-- After these options, what is given to a decoder is given to that of the nearest `-d`. -/
def Nearest (w : World) (before : List Opt) : Prop :=
  ∃ b₁ dev b₂ s t, before = b₁ ++ .device dev :: b₂ ∧ (∀ x ∈ b₂, ¬ x.IsDevice) ∧
    loop w State.start (b₁ ++ [.device dev]) = .proceeds s ∧ s.dec ≠ none ∧
    loop w State.start before = .proceeds t ∧ (checkDecoder w t).dec = s.dec

/-- The state that `cmdline` has left. -/
def Outcome.state : Outcome → Option State
  | .proceeds s | .exits s => some s
  | .crashes => none

/-- Files and playmodes have reached the decoders they belong to.  There may be one more decoder,
which `CHECK_DECODER` has opened and which nothing has been given to. -/
structure Routed (f : Features) (w : World) (argv : List Name) : Prop where
  decoders : ∃ s, (cmdline f w argv).state = some s ∧
    (s.decoders = expected w false (processed (options f argv)) ∨
      ∃ c, newDecoder w false defaultDevice = some c ∧
        s.decoders = c :: expected w false (processed (options f argv)))
  nearest : ∀ before o after, processed (options f argv) = before ++ o :: after → o.Demands w →
    Nearest w before

/-- There is a `-d` before the first file or playmode. -/
def Preceded (opts : List Opt) : Prop :=
  ∃ b dev a, opts = b ++ .device dev :: a ∧ ∀ x ∈ b, ¬ x.IsOwned

/-- The nearest `-d` before each file that can be read and each playmode that is recognized is one
whose device can be opened. -/
def Addressed (w : World) (opts : List Opt) : Prop :=
  ∀ b₁ dev b₂ o after, opts = b₁ ++ .device dev :: b₂ ++ o :: after →
    (∀ x ∈ b₂, ¬ x.IsDevice) → o.Demands w → Opens w (.test ∈ b₁) dev

/-! ### The nearest `-d` -/

/-- A list with a `-d` has a last one. -/
theorem exists_nearest (h : ∃ x ∈ before, x.IsDevice) :
    ∃ b₁ dev b₂, before = b₁ ++ .device dev :: b₂ ∧ ∀ x ∈ b₂, ¬ x.IsDevice := by
  induction before using List.reverseRecOn with
  | nil => simp at h
  | append_singleton before o ih =>
    by_cases ho : o.IsDevice
    · cases o with
      | device dev => exact ⟨before, dev, [], rfl, by simp⟩
      | _ => exact ho.elim
    · obtain ⟨x, hx, hdevice⟩ := h
      have hmem : x ∈ before := by
        rcases List.mem_append.1 hx with hx | hx
        · exact hx
        · exact absurd (List.mem_singleton.1 hx ▸ hdevice) ho
      obtain ⟨b₁, dev, b₂, rfl, hb₂⟩ := ih ⟨x, hmem, hdevice⟩
      refine ⟨b₁, dev, b₂ ++ [o], by simp, ?_⟩
      intro y hy
      rcases List.mem_append.1 hy with hy | hy
      · exact hb₂ y hy
      · exact List.mem_singleton.1 hy ▸ ho

/-- There is only one last `-d`. -/
theorem nearest_unique {b₁ b₂ c₁ c₂ : List Opt} {dev' : Name}
    (h : b₁ ++ .device dev :: b₂ = c₁ ++ .device dev' :: c₂) (hb : ∀ x ∈ b₂, ¬ x.IsDevice)
    (hc : ∀ x ∈ c₂, ¬ x.IsDevice) : b₁ = c₁ ∧ dev = dev' := by
  rcases List.append_eq_append_iff.1 h with ⟨l, rfl, hl⟩ | ⟨l, rfl, hl⟩
  · rcases l with _ | ⟨x, l⟩
    · simp_all
    · obtain ⟨rfl, rfl⟩ := List.cons.inj hl
      exact absurd trivial (hb (.device dev') (by simp))
  · rcases l with _ | ⟨x, l⟩
    · simp_all
    · obtain ⟨rfl, rfl⟩ := List.cons.inj hl
      exact absurd trivial (hc (.device dev) (by simp))

/-! ### One pass -/

/-- A pass that is not for `-d` leaves the current decoder, the last one, where it is and does to it
what it has to do. -/
theorem Passes.current {front : List Channel} {c : Channel} (h : Passes w s o s')
    (ho : ¬ o.IsDevice) (hdec : s.dec = some front.length) (hs : s.decoders = front ++ [c]) :
    s'.dec = some front.length ∧
      s'.decoders = front ++ [if o.Demands w then o.give c else c] ∧
      s'.dummytest = (s.dummytest || o = .test) := by
  have hcheck : checkDecoder w s = s := checkDecoder_of_ne (by simp [hdec])
  cases h with
  | opened | failed => exact absurd trivial ho
  | given o i hd hi =>
    rw [hcheck] at hi ⊢
    have htest : o ≠ .test := by
      rintro rfl
      exact hd
    obtain rfl : front.length = i := Option.some.inj (hdec.symm.trans hi)
    refine ⟨hdec, ?_, by simp [htest]⟩
    rw [if_pos hd, hs, List.modify_eq_take_cons_drop (by simp)]
    simp
  | checked optarg hr =>
    rw [hcheck, if_neg (show ¬ Opt.Demands w (.playmode optarg) by simp [Opt.Demands, hr])]
    exact ⟨hdec, hs, by simp⟩
  | test => exact ⟨hdec, by simp [hs, Opt.Demands], by simp⟩
  | other o s' hsets hdec' hdecoders hdummytest =>
    rw [hdec', hdecoders, hdummytest, if_neg hsets.not_demands]
    exact ⟨hdec, hs, by simp [hsets.ne_test]⟩

/-- A pass that neither is for `-d` nor gives anything to a decoder at most opens the first one. -/
theorem Passes.quiet (h : Passes w s o s') (ho : ¬ o.IsDevice) (hd : ¬ o.Demands w) :
    (s'.decoders = s.decoders ∨
      s.decoders = [] ∧ ∃ c, newDecoder w false defaultDevice = some c ∧ s'.decoders = [c]) ∧
      s'.dummytest = (s.dummytest || o = .test) := by
  cases h with
  | opened | failed => exact absurd trivial ho
  | given o i hd' => exact absurd hd' hd
  | checked optarg hr =>
    by_cases hdec : s.dec = none
    · rcases checkDecoder_cases (w := w) hdec with ⟨-, hs⟩ | ⟨hnil, c, hc, hs⟩ | ⟨-, -, hs⟩
      · exact ⟨.inl (by rw [hs]), by rw [hs]; simp⟩
      · exact ⟨.inr ⟨hnil, c, hc, by rw [hs]⟩, by rw [hs]; simp⟩
      · exact ⟨.inl (by rw [hs]), by rw [hs]; simp⟩
    · rw [checkDecoder_of_ne hdec]
      exact ⟨.inl rfl, by simp⟩
  | test => exact ⟨.inl rfl, by simp⟩
  | other o s' hsets hdec' hdecoders hdummytest =>
    exact ⟨.inl hdecoders, by simp [hdummytest, hsets.ne_test]⟩

/-- The current decoder stays the current one up to the next `-d`. -/
theorem dec_of_loop (h : loop w s opts = .proceeds s') (hopts : ∀ x ∈ opts, ¬ x.IsDevice)
    (hdec : s.dec ≠ none) : s'.dec = s.dec := by
  induction opts generalizing s with
  | nil =>
    cases h
    rfl
  | cons o opts ih =>
    obtain ⟨t, hstep, hrest⟩ := exists_of_loop_cons h
    have hcheck : checkDecoder w s = s := checkDecoder_of_ne hdec
    have ht : t.dec = s.dec := by
      cases passes_of_step hstep with
      | opened | failed => exact absurd trivial (hopts _ List.mem_cons_self)
      | given o i hd hi => rw [hcheck]
      | checked optarg hr => rw [hcheck]
      | test => rfl
      | other o s' hsets hdec' => exact hdec'
    rw [← ht] at hdec ⊢
    exact ih hrest (fun x hx => hopts x (List.mem_cons_of_mem o hx)) hdec

/-! ### All passes -/

/-- Nothing is given to a decoder before the next `-d`. -/
def Quiet (w : World) (opts : List Opt) : Prop :=
  ∀ b o a, opts = b ++ o :: a → (∀ x ∈ b, ¬ x.IsDevice) → ¬ o.Demands w

theorem Quiet.tail (h : Quiet w (o :: opts)) (ho : ¬ o.IsDevice) : Quiet w opts := by
  intro b x a hopts hb
  refine h (o :: b) x a (by rw [hopts, List.cons_append]) ?_
  intro y hy
  rcases List.mem_cons.1 hy with rfl | hy
  · exact ho
  · exact hb y hy

theorem served_cons (ho : ¬ o.IsDevice) (c : Channel) :
    served w (o :: opts) c = served w opts (if o.Demands w then o.give c else c) := if_neg ho

theorem expected_cons (ho : ¬ o.IsDevice) (dummytest : Bool) :
    expected w dummytest (o :: opts) = expected w (dummytest || o = .test) opts := by
  cases o <;> first | rfl | exact absurd trivial ho

/-- From any place on, the decoders come out as expected: the current one with what is left for it,
or, when nothing is left for it, all of them as they are; then those of the options to come. -/
theorem decoders_of_loop (h : Reached w before s) (haddressed : Addressed w (before ++ opts))
    (hloop : loop w s opts = .proceeds s') :
    (∀ front c, s.decoders = front ++ [c] → s.dec = some front.length →
      s'.decoders = front ++ served w opts c :: expected w s.dummytest opts) ∧
    (Quiet w opts →
      s'.decoders = s.decoders ++ expected w s.dummytest opts ∨
        s.decoders = [] ∧ ∃ c, newDecoder w false defaultDevice = some c ∧
          s'.decoders = c :: expected w s.dummytest opts) := by
  induction opts generalizing before s with
  | nil =>
    cases hloop
    exact ⟨fun front c hs _ => by rw [hs]; rfl, fun _ => .inl (by simp [expected])⟩
  | cons o opts ih =>
    obtain ⟨t, hstep, hrest⟩ := exists_of_loop_cons hloop
    have hpasses := passes_of_step hstep
    obtain ⟨hcurrent, hquiet⟩ := ih (h.step hstep) (by rwa [← List.append_cons]) hrest
    by_cases ho : o.IsDevice
    · cases hpasses with
      | opened dev c hc =>
        have hs' := hcurrent s.decoders c rfl rfl
        have hexpected : expected w s.dummytest (.device dev :: opts) =
            served w opts c :: expected w s.dummytest opts := by
          rw [expected, hc]
          rfl
        rw [hexpected]
        refine ⟨?_, fun _ => .inl hs'⟩
        intro front c' hs _
        rw [hs', hs, served, if_pos ho, List.append_assoc]
        rfl
      | failed dev hc =>
        have hexpected : expected w s.dummytest (.device dev :: opts) =
            expected w s.dummytest opts := by
          rw [expected, hc]
          rfl
        have hq : Quiet w opts := by
          intro b o a hopts hb hd
          have hopens := haddressed before dev b o a (by simp [hopts]) hb hd
          rw [Opens, ← h.dummytest] at hopens
          exact newDecoder_eq_none_iff.1 hc hopens
        have hs' := hquiet hq
        rw [hexpected]
        refine ⟨?_, fun _ => hs'⟩
        intro front c' hs _
        rw [hs'.resolve_right (by simp [hs]), hs, served, if_pos ho, List.append_assoc]
        rfl
      | given o i hd hi => exact absurd ho hd.not_isDevice
      | checked | test => exact ho.elim
      | other o s' hsets => cases o <;> first | exact ho.elim | exact hsets.elim
    · constructor
      · intro front c hs hdec
        obtain ⟨hdec', hs', hdummytest⟩ := hpasses.current ho hdec hs
        rw [hcurrent front _ hs' hdec', served_cons ho, expected_cons ho, hdummytest]
      · intro hq
        have hd : ¬ o.Demands w := hq [] o opts rfl (by simp)
        obtain ⟨hs', hdummytest⟩ := hpasses.quiet ho hd
        have hopts := hquiet (hq.tail ho)
        rw [expected_cons ho, ← hdummytest]
        rcases hs' with hs' | ⟨hnil, c, hc, hs'⟩
        · rwa [hs'] at hopts
        · rw [hs'] at hopts
          exact .inr ⟨hnil, c, hc, hopts.resolve_right (by simp)⟩

/-- An option `-d` leaves a current decoder exactly if its device can be opened. -/
theorem dec_ne_none_iff (h : Reached w before s)
    (hloop : loop w s [.device dev] = .proceeds s') :
    s'.dec ≠ none ↔ Opens w (.test ∈ before) dev := by
  rw [← h.dummytest]
  rcases hc : newDecoder w s.dummytest dev with _ | c <;>
    simp only [loop, step, hc] at hloop <;> cases hloop
  · simpa using newDecoder_eq_none_iff.1 hc
  · simpa using opens_of_newDecoder hc

/-- When all options before one that ends the process have been gone through, the state is what they
have led to. -/
theorem state_of_loop (h : loop w s (processed opts) = .proceeds s') :
    (loop w s opts).state = some s' := by
  unfold processed at h
  induction opts generalizing s with
  | nil =>
    cases h
    rfl
  | cons o opts ih =>
    by_cases hexits : o.Exits
    · rw [List.takeWhile_cons_of_neg (by simp [hexits])] at h
      cases h
      rcases hexits with rfl | rfl <;> rfl
    · rw [List.takeWhile_cons_of_pos (by simp [hexits])] at h
      obtain ⟨t, hstep, hrest⟩ := exists_of_loop_cons h
      rw [loop_cons hstep]
      exact ih hrest

theorem quiet_of_preceded (h : Preceded opts) : Quiet w (processed opts) := by
  obtain ⟨b, dev, a, hopts, hb⟩ := h
  obtain ⟨rest, hrest⟩ : processed opts <+: opts := List.takeWhile_prefix _
  intro b' o a' hsplit hb' hd
  rw [hsplit, List.append_assoc, hopts, List.append_eq_append_iff] at hrest
  rcases hrest with ⟨l, rfl, hl⟩ | ⟨l, rfl, hl⟩
  · rcases l with _ | ⟨x, l⟩
    · rw [(List.cons.inj hl).1] at hd
      exact hd
    · rw [(List.cons.inj hl).1] at hd
      exact hb x (by simp) hd.isOwned
  · rcases l with _ | ⟨x, l⟩
    · rw [← (List.cons.inj hl).1] at hd
      exact hd
    · exact hb' x (by simp) ((List.cons.inj hl).1 ▸ trivial)

/-- With a `-d` before the first file or playmode, all of them get to the decoders they belong to
exactly if no file that can be read and no playmode that is recognized follows a `-d` whose device
cannot be opened without another `-d` between them. -/
theorem routed_iff (f : Features) (w : World) (argv : List Name)
    (h : Preceded (options f argv)) :
    Routed f w argv ↔ Addressed w (processed (options f argv)) := by
  have hquiet : Quiet w (processed (options f argv)) := quiet_of_preceded h
  constructor
  · intro hrouted b₁ dev b₂ o after hsplit hb₂ hd
    obtain ⟨c₁, dev', c₂, s, t, heq, hc₂, hloop, hdec, -⟩ := hrouted.nearest _ o after hsplit hd
    obtain ⟨rfl, rfl⟩ := nearest_unique heq hb₂ hc₂
    obtain ⟨r, hb₁, hdevice⟩ := loop_append hloop
    exact (dec_ne_none_iff (Reached.start.loop hb₁) hdevice).1 hdec
  · intro haddressed
    have hnearest : ∀ before o after, processed (options f argv) = before ++ o :: after →
        o.Demands w → ∃ b₁ dev b₂, before = b₁ ++ .device dev :: b₂ ∧
          (∀ x ∈ b₂, ¬ x.IsDevice) ∧ Opens w (.test ∈ b₁) dev := by
      intro before o after hsplit hd
      have hdevice : ∃ x ∈ before, x.IsDevice := by
        by_contra hnone
        push Not at hnone
        exact hquiet before o after hsplit hnone hd
      obtain ⟨b₁, dev, b₂, rfl, hb₂⟩ := exists_nearest hdevice
      exact ⟨b₁, dev, b₂, rfl, hb₂, haddressed b₁ dev b₂ o after hsplit hb₂ hd⟩
    have hexits : ∀ o ∈ processed (options f argv), ¬ o.Exits := by
      intro o ho
      simpa using List.mem_takeWhile_imp ho
    obtain ⟨s, hs⟩ := exists_loop_eq (w := w) Reached.start hexits (by
      intro before o after hsplit hd
      obtain ⟨b₁, dev, b₂, rfl, -, hopens⟩ := hnearest before o after hsplit hd
      exact .inr ⟨b₁, dev, b₂, rfl, hopens⟩)
    constructor
    · refine ⟨s, state_of_loop hs, ?_⟩
      rcases (decoders_of_loop Reached.start haddressed hs).2 hquiet with hd | ⟨-, hd⟩
      · exact .inl hd
      · exact .inr hd
    · intro before o after hsplit hd
      obtain ⟨b₁, dev, b₂, rfl, hb₂, hopens⟩ := hnearest before o after hsplit hd
      rw [hsplit] at hs
      obtain ⟨t, ht, -⟩ := loop_append hs
      have hassoc : b₁ ++ .device dev :: b₂ = (b₁ ++ [.device dev]) ++ b₂ := List.append_cons ..
      rw [hassoc] at ht
      obtain ⟨r, hr, hrest⟩ := loop_append ht
      obtain ⟨q, hq, hdevice⟩ := loop_append hr
      have hdec : r.dec ≠ none := (dec_ne_none_iff (Reached.start.loop hq) hdevice).2 hopens
      have htdec : t.dec = r.dec := dec_of_loop hrest hb₂ hdec
      refine ⟨b₁, dev, b₂, r, t, rfl, hb₂, hr, hdec, hassoc ▸ ht, ?_⟩
      rw [checkDecoder_of_ne (htdec ▸ hdec), htdec]

/-- A file for the one device. -/
theorem routed_oneDevice :
    Routed ⟨true, true⟩ oneDevice ([ "-d", "/dev/video17", "a.mpg"].map bytesOf) := by
  have hoptions : options ⟨true, true⟩ ([ "-d", "/dev/video17", "a.mpg"].map bytesOf) =
      [.device (bytesOf "/dev/video17"), .file (bytesOf "a.mpg")] := by decide +kernel
  have hprocessed : processed [.device (bytesOf "/dev/video17"), .file (bytesOf "a.mpg")] =
      [.device (bytesOf "/dev/video17"), .file (bytesOf "a.mpg")] := by decide +kernel
  refine (routed_iff _ _ _ ?_).2 ?_
  · rw [hoptions]
    exact ⟨[], _, _, rfl, by simp⟩
  · rw [hoptions, hprocessed]
    intro b₁ dev b₂ o after hsplit _ hd
    rcases b₁ with _ | ⟨x, b₁⟩
    · obtain ⟨hdev, -⟩ := List.cons.inj hsplit
      obtain rfl := Opt.device.inj hdev
      exact .inr (by decide +kernel)
    · have hlength := congrArg List.length hsplit
      simp only [List.length_append, List.length_cons, List.length_nil] at hlength
      omega

/-- Two devices with a file each; the second device is not there. -/
def twoDevices : List Opt :=
  [.device (bytesOf "/dev/video17"), .file (bytesOf "a.mpg"), .device (bytesOf "/dev/video18"),
    .file (bytesOf "b.mpg")]

/-- The file of a device that cannot be opened is played on the first one. -/
theorem not_routed : ¬ ∀ (f : Features) (w : World) (argv : List Name),
    Preceded (options f argv) → Routed f w argv := by
  intro hall
  have hoptions : options ⟨true, true⟩
      ([ "-d", "/dev/video17", "a.mpg", "-d", "/dev/video18", "b.mpg"].map bytesOf) =
      twoDevices := by decide +kernel
  have hpreceded : Preceded twoDevices := ⟨[], _, _, rfl, by simp⟩
  obtain ⟨s, hs, hd⟩ := (hall ⟨true, true⟩ oneDevice _ (hoptions ▸ hpreceded)).decoders
  rw [cmdline, hoptions] at hs
  rw [hoptions] at hd
  rcases hd with hd | ⟨c, hc, -⟩
  · have hne : (loop oneDevice State.start twoDevices).state.map State.decoders ≠
        some (expected oneDevice false (processed twoDevices)) := by decide +kernel
    rw [hs, Option.map_some, hd] at hne
    exact hne rfl
  · have hnone : newDecoder oneDevice false defaultDevice = none := by decide +kernel
    rw [hnone] at hc
    cases hc

end Cmdline

end IvySync
