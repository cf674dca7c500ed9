import IvySync.Decoder.Step

/-!
# What the device receives of a movie

`Coherent` ties the position `filepos`, the offset of the stream and the part of the chunk that is
still in the buffer to each other at every control point of the thread.  It holds along every run
in which a pending seek is applied between two chunks only (`SeeksBetweenChunks`): then each
`write` hands the device the bytes of the file at `filepos`.  A seek in the middle of a chunk breaks
it.
-/

namespace IvySync

namespace Decoder

/-! ### The buffer -/

@[simp] theorem memory_length (buffo : List UInt8) (buf : ℤ) (n : ℕ) :
    (memory buffo buf n).length = n := by
  simp [memory]

@[simp] theorem memory_zero (buffo : List UInt8) (buf : ℤ) : memory buffo buf 0 = [] := rfl

/-- A range of memory splits at every point. -/
theorem memory_add (buffo : List UInt8) (buf : ℤ) (m n : ℕ) :
    memory buffo buf (m + n) = memory buffo buf m ++ memory buffo (buf + m) n := by
  simp [memory, List.range_add, Function.comp_def, add_assoc]

/-- What was read into the buffer is found at its beginning. -/
theorem memory_append_left (chunk rest : List UInt8) :
    memory (chunk ++ rest) 0 chunk.length = chunk.map some := by
  refine List.ext_getElem (by simp) fun i h₁ h₂ => ?_
  have hi : i < chunk.length := by simpa using h₁
  simp [memory, List.getElem?_append_left hi]

/-! ### The position in the movie -/

/-- The chunk in the buffer has `writing` bytes left, those of the file from `filepos` up to the
offset of the stream. -/
structure Pending (d : Decoder) (f : FILE) : Prop where
  nonneg : 0 ≤ d.filepos
  offset : d.filepos + d.writing = f.offset
  bytes : memory d.buffo (d.buf + d.written) d.writing =
    ((f.movie.drop d.filepos.toNat).take d.writing).map some

/-- The position in the movie agrees with the stream and the buffer. -/
def Coherent (d : Decoder) : Prop :=
  match d.pc with
  | .readTop | .pauseWait | .read | .readNext =>
    ∀ f, d.playlistFd = some f → d.filepos = f.offset
  | .syncWait | .writing | .poll .writing | .seek .writing =>
    ∀ f, d.playlistFd = some f → d.Pending f
  | .seekSet .writing =>
    d.writing = 0 ∧ ∀ f, d.playlistFd = some f → d.newfilepos = f.offset
  | _ => True

/-- The device accepts at least one byte of every `write`. -/
def PositiveWrites (d : Decoder) : Action → Prop
  | .thread a => d.pc = .writing → a.write.positive = true
  | .request _ => True

/-- A seek is applied in the writing loop only when the chunk has been written, and its target is
not changed between `fseeko64` and `filepos = newfilepos`. -/
def SeeksBetweenChunks (d : Decoder) : Action → Prop
  | .thread _ => d.pc = .seek .writing → 0 < d.newfilepos → d.writing = 0
  | .request r => d.pc = .seekSet .writing → (d.apply r).newfilepos = d.newfilepos

/-- The device accepts at least one byte of every `write`, and nothing but seeks is requested while
a movie is open. -/
def SeekRequests (d : Decoder) : Action → Prop
  | .thread a => d.PositiveWrites (.thread a)
  | .request r => d.playlistFd = none ∨ r.seeks = true

/-- The reading loop starts a turn with `filepos` where the stream goes on. -/
def ReadsAtFilepos (d : Decoder) : Prop :=
  ∀ f, d.pc = .readTop → d.playlistFd = some f → d.filepos = f.offset

/-- The next `write` hands the device the bytes of the file from `filepos` on, and moves `filepos`
by their number. -/
def WritesAtFilepos (d : Decoder) : Prop :=
  ∀ a d' buf asked bytes f, d.playlistFd = some f →
    machine.next d (.thread a) = some (d', .wrote buf asked bytes) →
      0 ≤ d.filepos ∧ bytes = ((f.movie.drop d.filepos.toNat).take bytes.length).map some ∧
        d'.filepos = d.filepos + bytes.length

/-- Whether a chunk is pending depends on the position, the buffer and the counters only. -/
theorem Pending.congr {d d' : Decoder} {f : FILE} (h : d.Pending f)
    (hfilepos : d'.filepos = d.filepos) (hwriting : d'.writing = d.writing)
    (hbuffo : d'.buffo = d.buffo) (hbuf : d'.buf = d.buf) (hwritten : d'.written = d.written) :
    d'.Pending f := by
  refine ⟨hfilepos ▸ h.nonneg, ?_, ?_⟩
  · rw [hfilepos, hwriting]
    exact h.offset
  · rw [hfilepos, hwriting, hbuffo, hbuf, hwritten]
    exact h.bytes

/-- A pending chunk after `n` of its bytes have been written. -/
theorem Pending.wrote {d : Decoder} {f : FILE} (h : d.Pending f) {n : ℕ} (hn : n ≤ d.writing) :
    memory d.buffo (d.buf + d.written) n = ((f.movie.drop d.filepos.toNat).take n).map some ∧
      Pending { d with buf := d.buf + d.written, written := n, filepos := d.filepos + n,
                       writing := d.writing - n, pc := .poll .writing } f := by
  obtain ⟨m, hm⟩ := Nat.exists_eq_add_of_le hn
  obtain ⟨hnonneg, hoffset, hbytes⟩ := h
  have hlen : ((f.movie.drop d.filepos.toNat).take d.writing).length = d.writing := by
    simpa using (congrArg List.length hbytes).symm
  rw [hm, memory_add, List.take_add, List.map_append] at hbytes
  have hlen' : ((f.movie.drop d.filepos.toNat).take n).length = n := by
    rw [List.length_take] at hlen ⊢
    omega
  obtain ⟨h₁, h₂⟩ := List.append_inj hbytes (by rw [memory_length, List.length_map, hlen'])
  have hpos : (d.filepos + n).toNat = d.filepos.toNat + n := by omega
  have hrest : d.writing - n = m := by omega
  have hnonneg' : 0 ≤ d.filepos + n := by omega
  have hoffset' : d.filepos + n + (d.writing - n : ℕ) = f.offset := by omega
  refine ⟨h₁, hnonneg', hoffset', ?_⟩
  dsimp only
  rw [hpos, hrest, h₂, List.drop_drop]

/-- A chunk that has just been read is pending. -/
theorem pending_chunk {d : Decoder} {f f' : FILE} {chunk : List UInt8} (hpos : d.filepos = f.offset)
    (hr : f.fread (sizeT d.buffoSize) = (chunk, f')) :
    Pending { d with inBytes := chunk.length, buffo := chunk ++ d.buffo.drop chunk.length,
                     playlistFd := some f', written := 0, writing := chunk.length, buf := 0,
                     pc := .syncWait } f' := by
  simp only [FILE.fread, Prod.mk.injEq] at hr
  obtain ⟨hchunk, rfl⟩ := hr
  have htake : (f.movie.drop f.offset).take chunk.length = chunk := by
    rw [← hchunk]
    exact (List.prefix_iff_eq_take.mp (List.take_prefix _ _)).symm
  have hnonneg : 0 ≤ d.filepos := by omega
  have hoffset : d.filepos + chunk.length =
      ((f.offset + ((f.movie.drop f.offset).take (sizeT d.buffoSize)).length : ℕ) : ℤ) := by
    rw [hchunk]
    omega
  refine ⟨hnonneg, hoffset, ?_⟩
  dsimp only
  rw [add_zero, memory_append_left, hpos, Int.toNat_natCast, htake]

/-- Waiting in `flush` keeps the position coherent. -/
theorem Coherent.flush {d : Decoder} {k : Caller} {pc : Control} (h : d.Coherent)
    (hpc : d.pc = .poll k ∨ d.pc = .seek k) (hpc' : pc = .seek k ∨ pc = k.resume) :
    Coherent { d with pc := pc } := by
  cases k with
  | writing =>
    have hpending : ∀ f, d.playlistFd = some f → d.Pending f := by
      rcases hpc with hpc | hpc
      · simpa only [Coherent, hpc] using h
      · simpa only [Coherent, hpc] using h
    rcases hpc' with rfl | rfl
    all_goals
      intro f hf
      exact (hpending f hf).congr rfl rfl rfl rfl rfl
  | clear e => rcases hpc' with rfl | rfl <;> trivial

/-- One step of the thread keeps the position coherent. -/
theorem Coherent.step {a : Answers} {d d' : Decoder} {e : Event} (h : d.Coherent)
    (hw : d.PositiveWrites (.thread a)) (hc : d.SeeksBetweenChunks (.thread a))
    (hs : Step a d d' e) : d'.Coherent := by
  cases hs
  case measured hpc f hf => simp [Coherent, FILE.fseek]
  case chunk hpc f f' chunk hf hr he hc =>
    intro g hg
    obtain rfl := Option.some.inj hg
    simp only [Coherent, hpc] at h
    exact pending_chunk (h f hf) hr
  case syncPass hpc hs =>
    simp only [Coherent, hpc] at h
    intro f hf
    exact (h f hf).congr rfl rfl rfl rfl rfl
  case chunkDone hpc hwr =>
    simp only [Coherent, hpc] at h
    intro f hf
    have hoffset := (h f hf).offset
    simpa [hwr] using hoffset
  case emulated hpc hwr hd =>
    simp only [Coherent, hpc] at h
    intro f hf
    have hp : d.Pending f := h f hf
    have hnonneg : 0 ≤ d.filepos + d.writing := by
      have := hp.nonneg
      omega
    exact ⟨hnonneg, by simpa using hp.offset, by simp⟩
  case writeError hpc hwr hd hr =>
    have hpos := hw hpc
    rw [hr] at hpos
    cases hpos
  case wrote hpc hwr hd count n hr hn =>
    simp only [Coherent, hpc] at h
    intro f hf
    have hle : n ≤ d.writing := by omega
    exact ((h f hf).wrote hle).2
  case pollReturn k hpc hr hq => exact h.flush (Or.inl hpc) (Or.inr rfl)
  case pollReady k hpc hr => exact h.flush (Or.inl hpc) (Or.inl rfl)
  case noSeek k hpc hn => exact h.flush (Or.inr hpc) (Or.inr rfl)
  case seek k hpc f hf hn =>
    cases k with
    | writing =>
      refine ⟨hc hpc hn, ?_⟩
      intro g hg
      obtain rfl := Option.some.inj hg
      simp only [FILE.fseek]
      omega
    | clear e => trivial
  case seekSet k hpc =>
    cases k with
    | writing =>
      simp only [Coherent, hpc] at h
      intro f hf
      have hwr : d.writing = 0 := h.1
      have hoffset : d.newfilepos = f.offset := h.2 f hf
      have hnonneg : 0 ≤ d.newfilepos := by omega
      have hend : d.newfilepos + d.writing = f.offset := by
        rw [hwr, hoffset]
        simp
      exact ⟨hnonneg, hend, by simp [hwr]⟩
    | clear e => trivial
  all_goals simp_all [Coherent]

/-- A request keeps the position coherent. -/
theorem Coherent.apply {d : Decoder} {r : Request} (h : d.Coherent)
    (hc : d.SeeksBetweenChunks (.request r)) : (d.apply r).Coherent := by
  obtain ⟨_, _, _, _, _, newfilepos, _, heq, -⟩ := exists_apply_eq d r
  simp only [SeeksBetweenChunks, heq] at hc
  rw [heq]
  cases hpc : d.pc
  case syncWait | writing =>
    simp only [Coherent, hpc] at h ⊢
    exact fun f hf => (h f hf).congr rfl rfl rfl rfl rfl
  case poll k | seek k =>
    cases k with
    | writing =>
      simp only [Coherent, hpc] at h ⊢
      exact fun f hf => (h f hf).congr rfl rfl rfl rfl rfl
    | clear e => simp [Coherent]
  case seekSet k =>
    cases k with
    | writing =>
      simp only [Coherent, hpc, hc hpc] at h ⊢
      exact h
    | clear e => simp [Coherent]
  case readTop | pauseWait | read | readNext => simpa [Coherent, hpc] using h
  all_goals simp [Coherent]

instance (d : Decoder) (x : Action) : Decidable (d.PositiveWrites x) :=
  match x with
  | .thread a => inferInstanceAs (Decidable (d.pc = .writing → a.write.positive = true))
  | .request _ => inferInstanceAs (Decidable True)

instance (d : Decoder) (x : Action) : Decidable (d.SeeksBetweenChunks x) :=
  match x with
  | .thread _ =>
    inferInstanceAs (Decidable (d.pc = .seek .writing → 0 < d.newfilepos → d.writing = 0))
  | .request r => inferInstanceAs
    (Decidable (d.pc = .seekSet .writing → (d.apply r).newfilepos = d.newfilepos))

instance (d : Decoder) (x : Action) : Decidable (d.SeekRequests x) :=
  match x with
  | .thread a => inferInstanceAs (Decidable (d.PositiveWrites (.thread a)))
  | .request r => inferInstanceAs (Decidable (d.playlistFd = none ∨ r.seeks = true))

/-- The position is coherent in every state of a run whose seeks are applied between chunks. -/
theorem Coherent.run {d₀ d : Decoder} {tr : List (Action × Event)} (h₀ : d₀.Coherent)
    (h : machine.RunOn (fun d x => d.PositiveWrites x ∧ d.SeeksBetweenChunks x) d₀ tr d) :
    d.Coherent := by
  have hstep : ∀ s x t e, s.Coherent → s.PositiveWrites x ∧ s.SeeksBetweenChunks x →
      machine.next s x = some (t, e) → t.Coherent := by
    intro s x t e hI hC hn
    rcases machine_cases hn with ⟨a, rfl, -, hs⟩ | ⟨r, rfl, rfl, -⟩
    · exact hI.step hC.1 hC.2 hs
    · exact hI.apply hC.2
  exact h.invariant hstep h₀

/-- A decoder that has just been launched is coherent. -/
theorem Started.coherent {bufsize : ℤ} {d : Decoder} (h : Started bufsize d) : d.Coherent := by
  obtain ⟨fd, dummy, playmode, files, buffo, rfl⟩ := h.exists_eq
  trivial

end Decoder

end IvySync
