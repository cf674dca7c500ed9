import IvySync.Decoder.Movie

/-!
# The writing loop

The loop writes a chunk with as many calls of `write` as it takes, and keeps the address of the
next one in `buf` and `written` together.  After a call that failed the loop goes on with `written`
at `-1`, and the next pass adds this to `buf` as if it were a count of bytes.  `WritingLoop` follows
`buf`, `written` and `writing` through any sequence of results; `whole_iff` draws the conclusion.
-/

namespace IvySync

/-- The range of the buffer that `write` was given: its start and its length. -/
def Event.range : Event → Option (ℤ × ℕ)
  | .wrote buf asked _ => some (buf, asked)
  | .writeError buf asked => some (buf, asked)
  | _ => none

/-- The indices of the buffer that `write` has accepted. -/
def Event.indices : Event → List ℤ
  | .wrote buf _ bytes => (List.range bytes.length).map fun i : ℕ => buf + i
  | _ => []

/-- `write` has returned `-1`. -/
def Event.failed : Event → Bool
  | .writeError _ _ => true
  | _ => false

/-- The control points from a chunk to the end of the writing loop. -/
def Control.writes : Control → Bool
  | .syncWait | .writing | .poll .writing | .seek .writing | .seekSet .writing => true
  | _ => false

namespace Decoder

variable {d d' d₁ d₂ : Decoder} {a : Answers} {e : Event} {x : Action} {chunk : List UInt8}
  {tr : List (Action × Event)}

/-- The thread is in the writing loop. -/
def Writing (d : Decoder) (_ : Action) : Prop := d.pc.writes = true

instance (d : Decoder) (x : Action) : Decidable (Writing d x) :=
  inferInstanceAs (Decidable (d.pc.writes = true))

/-- The indices accepted in a trace, in the order of the calls. -/
def accepted (tr : List (Action × Event)) : List ℤ := tr.flatMap fun y => y.2.indices

/-- How many calls of `write` in a trace have failed. -/
def failures (tr : List (Action × Event)) : ℕ := tr.countP fun y => y.2.failed

/-- What is expected of the calls of `write` for a chunk: each is given a range inside the chunk,
and the accepted ranges make up the chunk, with each byte once and in order. -/
structure Whole (chunk : List UInt8) (tr : List (Action × Event)) : Prop where
  inside : ∀ y ∈ tr, ∀ r ∈ y.2.range, 0 ≤ r.1 ∧ r.1 + r.2 ≤ chunk.length
  once : accepted tr = (List.range chunk.length).map fun i : ℕ => (i : ℤ)
  bytes : delivered tr = chunk.map some

@[simp] theorem accepted_nil : accepted [] = [] := rfl

@[simp] theorem accepted_snoc (tr : List (Action × Event)) (x : Action) (e : Event) :
    accepted (tr ++ [(x, e)]) = accepted tr ++ e.indices := by
  simp [accepted]

@[simp] theorem failures_nil : failures [] = 0 := rfl

@[simp] theorem failures_snoc (tr : List (Action × Event)) (x : Action) (e : Event) :
    failures (tr ++ [(x, e)]) = failures tr + if e.failed then 1 else 0 := by
  simp [failures]

/-- The writing loop after the calls in `tr`: how much is left, where the next call starts, and what
has come of the calls, which depends on whether one of them has failed. -/
structure WritingLoop (chunk : List UInt8) (tr : List (Action × Event)) (d : Decoder) : Prop where
  dummy : d.dummy = false
  buffo : ∃ rest, d.buffo = chunk ++ rest
  place : d.pc.writes = true ∨ d.pc = .readNext ∧ d.writing = 0
  left : (accepted tr).length + d.writing = chunk.length
  start : d.buf + d.written = (accepted tr).length - failures tr
  clean : failures tr = 0 →
    (∀ y ∈ tr, ∀ r ∈ y.2.range, 0 ≤ r.1 ∧ r.1 + r.2 ≤ chunk.length) ∧
    accepted tr = (List.range (accepted tr).length).map (fun i : ℕ => (i : ℤ)) ∧
    delivered tr = memory d.buffo 0 (accepted tr).length
  spoilt : 0 < failures tr → d.writing ≠ 0 ∨ ∃ (i : ℕ) (v : ℤ), (accepted tr)[i]? = some v ∧ v ≠ i

/-- The ranges given to `write` stay inside the chunk when one more is. -/
theorem inside_snoc {N : ℕ} (h : ∀ y ∈ tr, ∀ r ∈ y.2.range, 0 ≤ r.1 ∧ r.1 + r.2 ≤ (N : ℤ))
    (he : ∀ r ∈ e.range, 0 ≤ r.1 ∧ r.1 + r.2 ≤ (N : ℤ)) :
    ∀ y ∈ tr ++ [(x, e)], ∀ r ∈ y.2.range, 0 ≤ r.1 ∧ r.1 + r.2 ≤ (N : ℤ) := by
  intro y hy r hr
  rcases List.mem_append.mp hy with hy | hy
  · exact h y hy r hr
  · rw [List.mem_singleton.mp hy] at hr
    exact he r hr

/-- Calls of `write` apart, nothing in the loop touches the buffer and its counters. -/
theorem WritingLoop.frame (h : WritingLoop chunk tr d) (hdummy : d'.dummy = d.dummy)
    (hbuffo : d'.buffo = d.buffo) (hplace : d'.pc.writes = true ∨ d'.pc = .readNext ∧ d'.writing = 0)
    (hwriting : d'.writing = d.writing) (hbuf : d'.buf = d.buf) (hwritten : d'.written = d.written)
    (hrange : e.range = none) (hindices : e.indices = []) (hfailed : e.failed = false)
    (hbytes : e.bytes = []) : WritingLoop chunk (tr ++ [(x, e)]) d' := by
  obtain ⟨dummy, buffo, -, left, start, clean, spoilt⟩ := h
  have haccepted : accepted (tr ++ [(x, e)]) = accepted tr := by
    rw [accepted_snoc, hindices, List.append_nil]
  have hfailures : failures (tr ++ [(x, e)]) = failures tr := by
    rw [failures_snoc, hfailed]
    rfl
  have hdelivered : delivered (tr ++ [(x, e)]) = delivered tr := by
    rw [delivered_snoc, hbytes, List.append_nil]
  refine ⟨hdummy ▸ dummy, hbuffo ▸ buffo, hplace, ?_, ?_, ?_, ?_⟩
  · rw [haccepted, hwriting, left]
  · rw [haccepted, hfailures, hbuf, hwritten, start]
  · rw [haccepted, hfailures, hdelivered, hbuffo]
    intro h0
    obtain ⟨hinside, hclean⟩ := clean h0
    exact ⟨inside_snoc hinside (by simp [hrange]), hclean⟩
  · rw [haccepted, hfailures, hwriting]
    exact spoilt

/-- A call that takes `n` bytes. -/
theorem WritingLoop.wrote (h : WritingLoop chunk tr d) (hw : d.writing ≠ 0) {n : ℕ}
    (hn : n ≤ d.writing) :
    WritingLoop chunk
      (tr ++ [(x, .wrote (d.buf + d.written) d.writing (memory d.buffo (d.buf + d.written) n))])
      { d with buf := d.buf + d.written, written := n, filepos := d.filepos + n,
               writing := d.writing - n, pc := .poll .writing } := by
  obtain ⟨dummy, buffo, -, left, start, clean, spoilt⟩ := h
  have hindices : ∀ b : ℤ, (Event.wrote b d.writing (memory d.buffo b n)).indices =
      (List.range n).map fun i : ℕ => b + i := by
    intro b
    rw [Event.indices, memory_length]
  refine ⟨dummy, buffo, Or.inl rfl, ?_, ?_, ?_, ?_⟩
  · rw [accepted_snoc, hindices]
    simp only [List.length_append, List.length_map, List.length_range]
    omega
  · rw [accepted_snoc, hindices, failures_snoc]
    simp only [List.length_append, List.length_map, List.length_range, Event.failed]
    push_cast
    omega
  · intro h0
    have h0 : failures tr = 0 := by simpa [Event.failed] using h0
    obtain ⟨hinside, honce, hbytes⟩ := clean h0
    have hstart : d.buf + d.written = (accepted tr).length := by omega
    refine ⟨inside_snoc hinside ?_, ?_, ?_⟩
    · rintro r hr
      obtain rfl := Option.some.inj hr
      dsimp only
      omega
    · rw [accepted_snoc, hindices, hstart, List.length_append, List.length_map, List.length_range,
        List.range_add, List.map_append, List.map_map, ← honce]
      simp [Function.comp_def]
    · rw [accepted_snoc, hindices, delivered_snoc, hbytes, List.length_append, List.length_map,
        List.length_range, memory_add, zero_add, ← hstart]
      rfl
  · intro hpos
    have hpos : 0 < failures tr := by simpa [Event.failed] using hpos
    rw [accepted_snoc, hindices]
    rcases spoilt hpos with - | ⟨i, v, hv, hne⟩
    · rcases Nat.eq_zero_or_pos n with rfl | hn'
      · exact Or.inl hw
      · -- the first byte that is accepted now is not the one that is due
        refine Or.inr ⟨(accepted tr).length, d.buf + d.written, ?_, by omega⟩
        rw [List.getElem?_append_right (le_refl _), Nat.sub_self, List.getElem?_map,
          List.getElem?_range hn']
        simp
    · refine Or.inr ⟨i, v, ?_, hne⟩
      rw [List.getElem?_append_left (List.getElem?_eq_some_iff.mp hv).1, hv]

/-- A call that fails moves the next one back by a byte. -/
theorem WritingLoop.writeError (h : WritingLoop chunk tr d) (hpc : d.pc = .writing)
    (hw : d.writing ≠ 0) :
    WritingLoop chunk (tr ++ [(x, .writeError (d.buf + d.written) d.writing)])
      { d with buf := d.buf + d.written, written := -1 } := by
  obtain ⟨dummy, buffo, -, left, start, clean, spoilt⟩ := h
  have hfailures : failures (tr ++ [(x, .writeError (d.buf + d.written) d.writing)]) =
      failures tr + 1 := by
    rw [failures_snoc]
    rfl
  have haccepted : accepted (tr ++ [(x, .writeError (d.buf + d.written) d.writing)]) =
      accepted tr := by
    rw [accepted_snoc]
    exact List.append_nil _
  refine ⟨dummy, buffo, Or.inl (by rw [hpc]; rfl), ?_, ?_, ?_, ?_⟩
  · rw [haccepted, left]
  · rw [haccepted, hfailures]
    dsimp only
    push_cast
    omega
  · rw [hfailures]
    omega
  · exact fun _ => Or.inl hw

/-- One step of the thread in the writing loop. -/
theorem WritingLoop.step (h : WritingLoop chunk tr d) (hpc : d.pc.writes = true)
    (hs : Step a d d' e) : WritingLoop chunk (tr ++ [(x, e)]) d' := by
  cases hs
  case wrote hpc' hw hd count n hr hn => exact h.wrote hw (by omega)
  case writeError hpc' hw hd hr => exact h.writeError hpc' hw
  case emulated hpc' hw hd =>
    rw [h.dummy] at hd
    cases hd
  case chunkDone hpc' hw => exact h.frame rfl rfl (Or.inr ⟨rfl, hw⟩) rfl rfl rfl rfl rfl rfl rfl
  all_goals
    (try cases ‹Caller›) <;>
      first
      | (simp_all [Control.writes]; done)
      | exact h.frame rfl rfl (Or.inl (by simp_all [Control.writes, Caller.resume])) rfl rfl rfl rfl
          rfl rfl rfl

/-- A request leaves the writing loop as it is. -/
theorem WritingLoop.apply (h : WritingLoop chunk tr d) (r : Request) :
    WritingLoop chunk (tr ++ [(x, .silent)]) (d.apply r) := by
  obtain ⟨_, _, _, _, _, _, _, heq, -⟩ := exists_apply_eq d r
  rw [heq]
  exact h.frame rfl rfl h.place rfl rfl rfl rfl rfl rfl rfl

/-- A run of the writing loop, from the chunk that was read. -/
theorem writingLoop_of_runOn (hd : d.dummy = false)
    (hn : machine.next d x = some (d₁, .chunk chunk)) (h : machine.RunOn Writing d₁ tr d₂) :
    WritingLoop chunk tr d₂ := by
  have hstart : WritingLoop chunk [] d₁ := by
    rcases machine_cases hn with ⟨a, rfl, -, hs⟩ | ⟨r, rfl, -, he⟩
    · cases hs
      case chunk hpc f f' hf hr he hc =>
        exact ⟨hd, ⟨_, rfl⟩, Or.inl rfl, by simp, by simp, by simp, by simp⟩
    · cases he
  refine h.invariant_trace (I := WritingLoop chunk) ?_ hstart
  intro tr s y t e hI hC hnext
  rcases machine_cases hnext with ⟨a, rfl, -, hs⟩ | ⟨r, rfl, rfl, rfl⟩
  · exact hI.step hC hs
  · exact hI.apply r

/-- The writing loop hands a chunk to the device as a whole, with each byte once and in order,
exactly if no call of `write` fails. -/
theorem whole_iff (hd : d.dummy = false) (hn : machine.next d x = some (d₁, .chunk chunk))
    (h : machine.RunOn Writing d₁ tr d₂) (hend : d₂.pc = .readNext) :
    Whole chunk tr ↔ ∀ y ∈ tr, y.2.failed = false := by
  obtain ⟨-, ⟨rest, hbuffo⟩, place, left, -, clean, spoilt⟩ := writingLoop_of_runOn hd hn h
  have hdone : d₂.writing = 0 := by
    rcases place with hloop | ⟨-, hdone⟩
    · rw [hend] at hloop
      cases hloop
    · exact hdone
  rw [hdone, Nat.add_zero] at left
  have hcount : failures tr = 0 ↔ ∀ y ∈ tr, y.2.failed = false := by
    simp [failures, List.countP_eq_zero]
  rw [← hcount]
  constructor
  · intro hwhole
    by_contra hfailed
    rcases spoilt (Nat.pos_of_ne_zero hfailed) with hne | ⟨i, v, hv, hne⟩
    · exact hne hdone
    · rw [hwhole.once, List.getElem?_map, Option.map_eq_some_iff] at hv
      obtain ⟨j, hj, rfl⟩ := hv
      obtain ⟨hlt, hij⟩ := List.getElem?_eq_some_iff.mp hj
      rw [List.getElem_range] at hij
      exact hne (by rw [hij])
  · intro h0
    obtain ⟨inside, once, bytes⟩ := clean h0
    refine ⟨inside, by rw [once, left], ?_⟩
    rw [bytes, left, hbuffo, memory_append_left]

/-- A decoder with a device that is about to read a chunk of two bytes. -/
def twoBytes : Decoder :=
  { launched [[97]] with
    pc := .read
    playing := true
    playlistFd := some ⟨[1, 2] ++ List.replicate 1023 0, 0, false⟩
    buffoSize := 2 }

/-- The chunk goes out in two calls. -/
theorem whole_twoBytes :
    ∃ d₁ tr d₂, machine.next twoBytes (.thread {}) = some (d₁, .chunk [1, 2]) ∧
      machine.RunOn Writing d₁ tr d₂ ∧ d₂.pc = .readNext ∧ Whole [1, 2] tr := by
  have hrun : ∃ q ∈ machine.next twoBytes (.thread {}), q.2 = .chunk [1, 2] ∧
      machine.Reaches Writing q.1
        ([.thread {}] ++ List.replicate 6 (.thread { write := .accepted 1 }) ++ [.thread {}])
        fun tr d => d.pc = .readNext ∧ ∀ y ∈ tr, y.2.failed = false := by
    decide +kernel
  obtain ⟨⟨d₁, e⟩, hn, rfl, hreach⟩ := hrun
  obtain ⟨tr, d₂, h, hend, hok⟩ := hreach.exists_runOn
  exact ⟨d₁, tr, d₂, hn, h, hend, (whole_iff rfl hn h hend).mpr hok⟩

/-- When the first call fails the next one is given the byte in front of the buffer. -/
theorem not_whole : ¬ ∀ (d d₁ d₂ : Decoder) (x : Action) (chunk : List UInt8)
    (tr : List (Action × Event)), d.dummy = false → machine.next d x = some (d₁, .chunk chunk) →
      machine.RunOn Writing d₁ tr d₂ → d₂.pc = .readNext → Whole chunk tr := by
  intro hall
  have hrun : ∃ q ∈ machine.next twoBytes (.thread {}), q.2 = .chunk [1, 2] ∧
      machine.Reaches Writing q.1
        ([.thread {}, .thread {}] ++ List.replicate 3 (.thread { write := .accepted 2 }) ++
          [.thread {}])
        fun tr d => d.pc = .readNext ∧ ∃ y ∈ tr, ∃ r ∈ y.2.range, r.1 < 0 := by
    decide +kernel
  obtain ⟨⟨d₁, e⟩, hn, rfl, hreach⟩ := hrun
  obtain ⟨tr, d₂, h, hend, y, hy, r, hr, hneg⟩ := hreach.exists_runOn
  have hinside := ((hall _ _ _ _ _ _ rfl hn h hend).inside y hy r hr).1
  omega

end Decoder

end IvySync
