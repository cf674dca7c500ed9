import IvySync.Decoder.Step

/-!
# The position in the movie and its bounds

`filepos` runs from nought to the size of the movie as long as every pending seek, when `flush`
applies it, leaves room in the file for what the thread still has to write: the rest of the chunk
in the buffer and the whole buffers from the new offset on (`SeeksInside`).  Neither `setpos` nor
`flush` sees to that, so a request for a position beyond the end moves `filepos` out of the file.
-/

namespace IvySync

namespace FILE

/-- How many bytes the whole buffers from the offset on hold. -/
def whole (f : FILE) (count : ℕ) : ℕ := count * ((f.movie.length - f.offset) / count)

/-- The whole buffers do not reach beyond the end of the file. -/
theorem whole_le (f : FILE) (count : ℕ) : f.whole count ≤ f.movie.length - f.offset :=
  Nat.mul_div_le _ _

/-- A full read takes one of the whole buffers. -/
theorem whole_fread {f f' : FILE} {count : ℕ} {chunk : List UInt8}
    (hr : f.fread count = (chunk, f')) (he : f'.eof = false) :
    f'.movie = f.movie ∧ chunk.length + f'.whole count = f.whole count := by
  obtain ⟨hchunk, hle, hmovie, hoffset⟩ := fread_full hr he
  refine ⟨hmovie, ?_⟩
  rw [hchunk, whole, whole, hmovie, hoffset]
  rcases Nat.eq_zero_or_pos count with rfl | hpos
  · simp
  · have hrest : f.movie.length - (f.offset + count) = f.movie.length - f.offset - count := by
      omega
    rw [Nat.div_eq_sub_div hpos hle, hrest, Nat.mul_succ, Nat.add_comm]

end FILE

namespace Decoder

/-- The file has room from `filepos` on for `bytes` more bytes and all whole buffers to come. -/
def Room (d : Decoder) (bytes : ℕ) : Prop :=
  ∃ f, d.playlistFd = some f ∧ d.filesize = f.movie.length ∧
    d.filepos + bytes + f.whole (sizeT d.buffoSize) ≤ d.filesize

/-- What the control point adds to the bounds of the position. -/
def RoomAhead (d : Decoder) : Prop :=
  match d.pc with
  | .readTop | .pauseWait | .read | .readNext => d.Room 0
  | .syncWait | .writing | .poll .writing | .seek .writing => d.Room d.writing
  | .seekSet .writing => ∃ f, d.playlistFd = some f ∧ d.filesize = f.movie.length
  | _ => True

/-- The position lies in the movie, and stays there until the next seek. -/
structure InBounds (d : Decoder) : Prop where
  nonneg : 0 ≤ d.filepos
  le_filesize : d.filepos ≤ d.filesize
  room : d.RoomAhead

/-- A seek is applied only if the file has room for what is still to be written: from its target on
for the rest of the chunk and the whole buffers that follow, or for nothing when the movie ends. -/
def SeeksInside (d : Decoder) : Action → Prop
  | .thread _ =>
    (d.pc = .seekSet .writing → ∀ f ∈ d.playlistFd, 0 ≤ d.newfilepos ∧
      d.newfilepos + d.writing + f.whole (sizeT d.buffoSize) ≤ d.filesize) ∧
    (d.pc = .seekSet (.clear .movie) ∨ d.pc = .seekSet (.clear .thread) →
      0 ≤ d.newfilepos ∧ d.newfilepos ≤ d.filesize)
  | .request _ => True

instance (d : Decoder) (x : Action) : Decidable (d.SeeksInside x) :=
  match x with
  | .thread _ => inferInstanceAs (Decidable
      ((d.pc = .seekSet .writing → ∀ f ∈ d.playlistFd, 0 ≤ d.newfilepos ∧
        d.newfilepos + d.writing + f.whole (sizeT d.buffoSize) ≤ d.filesize) ∧
      (d.pc = .seekSet (.clear .movie) ∨ d.pc = .seekSet (.clear .thread) →
        0 ≤ d.newfilepos ∧ d.newfilepos ≤ d.filesize)))
  | .request _ => inferInstanceAs (Decidable True)

/-- The room is the same where `flush` returns to. -/
theorem RoomAhead.resume {d : Decoder} {k : Caller} (h : d.RoomAhead)
    (hpc : d.pc = .poll k ∨ d.pc = .seek k) :
    RoomAhead { d with pc := k.resume } := by
  cases k with
  | writing =>
    rcases hpc with hpc | hpc
    · simp only [RoomAhead, hpc] at h
      exact h
    · simp only [RoomAhead, hpc] at h
      exact h
  | clear e => trivial

/-- One step of the thread keeps the position in the movie. -/
theorem InBounds.step {a : Answers} {d d' : Decoder} {e : Event} (h : d.InBounds)
    (hc : d.SeeksInside (.thread a)) (hs : Step a d d' e) : d'.InBounds := by
  obtain ⟨hnonneg, hle, hroom⟩ := h
  cases hs
  case measured hpc f hf =>
    have hwhole := (f.fseek 0).whole_le (sizeT d.buffoSize)
    have hle' : (0 : ℤ) ≤ f.movie.length := by omega
    refine ⟨le_rfl, hle', f.fseek 0, rfl, rfl, ?_⟩
    simp only [FILE.fseek] at hwhole ⊢
    omega
  case chunk hpc f f' chunk hf hr he hlen =>
    simp only [RoomAhead, hpc] at hroom
    obtain ⟨g, hg, hsize, hbound⟩ := hroom
    obtain rfl : f = g := by simpa [hf] using hg
    obtain ⟨hmovie, hwhole⟩ := FILE.whole_fread hr he
    refine ⟨hnonneg, hle, f', rfl, hmovie ▸ hsize, ?_⟩
    dsimp only
    omega
  case chunkDone hpc hw =>
    simp only [RoomAhead, hpc, hw] at hroom
    exact ⟨hnonneg, hle, hroom⟩
  case emulated hpc hw hd =>
    simp only [RoomAhead, hpc] at hroom
    obtain ⟨f, hf, hsize, hbound⟩ := hroom
    have hnonneg' : 0 ≤ d.filepos + d.writing := by omega
    have hle' : d.filepos + d.writing ≤ d.filesize := by omega
    refine ⟨hnonneg', hle', f, hf, hsize, ?_⟩
    dsimp only
    omega
  case wrote hpc hw hd count n hr hn =>
    simp only [RoomAhead, hpc] at hroom
    obtain ⟨f, hf, hsize, hbound⟩ := hroom
    have hnonneg' : 0 ≤ d.filepos + n := by omega
    have hle' : d.filepos + n ≤ d.filesize := by omega
    refine ⟨hnonneg', hle', f, hf, hsize, ?_⟩
    dsimp only
    omega
  case seek k hpc f hf hn =>
    refine ⟨hnonneg, hle, ?_⟩
    cases k with
    | writing =>
      simp only [RoomAhead, hpc] at hroom
      obtain ⟨g, hg, hsize, -⟩ := hroom
      obtain rfl : f = g := by simpa [hf] using hg
      exact ⟨f.fseek d.newfilepos.toNat, rfl, hsize⟩
    | clear en => trivial
  case seekSet k hpc =>
    cases k with
    | writing =>
      simp only [RoomAhead, hpc] at hroom
      obtain ⟨f, hf, hsize⟩ := hroom
      obtain ⟨hpos, hbound⟩ := hc.1 hpc f hf
      have hle' : d.newfilepos ≤ d.filesize := by omega
      exact ⟨hpos, hle', f, hf, hsize, hbound⟩
    | clear en =>
      have hin := hc.2 (by cases en <;> simp [hpc])
      exact ⟨hin.1, hin.2, trivial⟩
  case pollReturn k hpc hr hq => exact ⟨hnonneg, hle, hroom.resume (Or.inl hpc)⟩
  case pollReady k hpc hr =>
    refine ⟨hnonneg, hle, ?_⟩
    cases k with
    | writing =>
      simp only [RoomAhead, hpc] at hroom
      exact hroom
    | clear en => trivial
  case noSeek k hpc hn => exact ⟨hnonneg, hle, hroom.resume (Or.inr hpc)⟩
  all_goals
    refine ⟨hnonneg, hle, ?_⟩
    simp_all [RoomAhead, Room]

/-- A request leaves the position in the movie. -/
theorem InBounds.apply {d : Decoder} (h : d.InBounds) (r : Request) : (d.apply r).InBounds := by
  obtain ⟨_, _, _, _, _, _, _, heq, -⟩ := exists_apply_eq d r
  rw [heq]
  exact ⟨h.nonneg, h.le_filesize, h.room⟩

/-- A decoder that has just been launched is at position nought of a movie of size nought. -/
theorem Started.inBounds {bufsize : ℤ} {d : Decoder} (h : Started bufsize d) : d.InBounds := by
  obtain ⟨fd, dummy, playmode, files, buffo, rfl⟩ := h.exists_eq
  exact ⟨le_rfl, le_rfl, trivial⟩

/-- A position in the movie gives a percentage, unless the product overflows. -/
theorem InBounds.getpos {d : Decoder} (h : d.InBounds) (hsize : d.filesize * 100 < 2 ^ 63)
    (hentry : (d.playlist.pick d.position).isSome) :
    ∃ percent, d.getpos = some percent ∧ 0 ≤ percent ∧ percent ≤ 100 := by
  have hnonneg := h.nonneg
  have hle := h.le_filesize
  unfold Decoder.getpos
  split_ifs with h0
  · exact ⟨0, rfl, le_rfl, by omega⟩
  · obtain ⟨name, hname⟩ := Option.isSome_iff_exists.mp hentry
    have h64 : int64 (d.filepos * 100) = d.filepos * 100 := by
      unfold int64
      rw [Int.bmod_eq_of_le] <;> omega
    have hpos : 0 < d.filesize := by omega
    have hlow : 0 ≤ (d.filepos * 100).tdiv d.filesize :=
      Int.tdiv_nonneg (by omega) (by omega)
    have hhigh : (d.filepos * 100).tdiv d.filesize ≤ 100 := by
      rw [Int.tdiv_eq_ediv_of_nonneg (by omega)]
      exact Int.ediv_le_of_le_mul hpos (by omega)
    have h32 : int32 ((d.filepos * 100).tdiv d.filesize) = (d.filepos * 100).tdiv d.filesize := by
      unfold int32
      rw [Int.bmod_eq_of_le] <;> omega
    exact ⟨_, by rw [hname, Option.map_some, h64, h32], hlow, hhigh⟩

/-- In every run in which seeks are applied inside of the movie the position stays between its
ends, and `getpos` returns a percentage. -/
theorem filepos_mem_movie {bufsize : ℤ} {d₀ d : Decoder} {tr : List (Action × Event)}
    (h₀ : Started bufsize d₀) (h : machine.RunOn SeeksInside d₀ tr d) :
    (0 ≤ d.filepos ∧ d.filepos ≤ d.filesize) ∧
    (d.filesize * 100 < 2 ^ 63 → (d.playlist.pick d.position).isSome →
      ∃ percent, d.getpos = some percent ∧ 0 ≤ percent ∧ percent ≤ 100) := by
  have hd : d.InBounds := by
    refine h.invariant ?_ h₀.inBounds
    intro s x t e hI hC hn
    rcases machine_cases hn with ⟨a, rfl, -, hs⟩ | ⟨r, rfl, rfl, -⟩
    · exact hI.step hC hs
    · exact hI.apply r
  exact ⟨⟨hd.nonneg, hd.le_filesize⟩, hd.getpos⟩

/-- After a seek between two chunks the position is that of the request. -/
theorem filepos_after_seek :
    ∃ d : Decoder, d.filepos = 1000 ∧ d.filesize = 2048 ∧
      ∃ percent, d.getpos = some percent ∧ 0 ≤ percent ∧ percent ≤ 100 := by
  have hexec : machine.Reaches SeeksInside (launched [[97]])
      (opening (List.replicate 2048 0) ++ List.replicate 5 (.thread {}) ++
        [.request (.setoffset 1000)] ++ List.replicate 4 (.thread { write := .accepted 1024 }))
      fun _ d => d.filepos = 1000 ∧ d.filesize = 2048 ∧ (d.playlist.pick d.position).isSome := by
    decide +kernel
  obtain ⟨tr, d, h, hpos, hsize, hentry⟩ := hexec.exists_runOn
  exact ⟨d, hpos, hsize,
    (filepos_mem_movie (started_launched _) h).2 (by rw [hsize]; decide) hentry⟩

/-- A request for the position at 200% of a movie of one byte moves `filepos` beyond its end. -/
theorem not_filepos_mem_movie :
    ¬ ∀ (bufsize : ℤ) (d₀ d : Decoder) (tr : List (Action × Event)) (f : FILE),
      Started bufsize d₀ → machine.Run d₀ tr d → d.playlistFd = some f →
      d.filesize = f.movie.length → 0 < d.filesize → 0 ≤ d.filepos ∧ d.filepos ≤ d.filesize := by
  have hexec : machine.Reaches (fun _ _ => True) (launched [[97]])
      (opening [7] ++ [.thread {}, .request (.setpos 200)] ++ List.replicate 7 (.thread {}))
      fun _ d => d.playlistFd = some ⟨[7], 2, false⟩ ∧ d.filesize = 1 ∧ d.filepos = 2 := by
    decide +kernel
  obtain ⟨tr, d, h, hf, hsize, hpos⟩ := hexec.exists_runOn
  intro hall
  have hin := hall 1 _ d tr _ (started_launched _) h hf (by rw [hsize]; rfl) (by omega)
  omega

end Decoder

end IvySync
