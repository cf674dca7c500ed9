import IvySync.Decoder.Playback
import IvySync.Decoder.Buffer

/-!
# Playing a movie to its end

What the device has received when a movie ends without having been disturbed: the whole buffers
that the file fills.  The rest of the file, shorter than the buffer, is read together with the end
of the file and is not written, so the file comes out complete exactly when its length is a
multiple of the buffer.
-/

namespace IvySync

namespace Request

/-- The request stops the decoder, seeks, or ends the thread; a pause only delays the movie. -/
def disturbs : Request → Bool
  | .stop => true
  | .setpos _ => true
  | .setoffset _ => true
  | .open _ => true
  | .quit => true
  | .close => true
  | _ => false

/-- A seek disturbs. -/
theorem seeks_of_disturbs {r : Request} (h : r.disturbs = false) : r.seeks = false := by
  cases r <;> simp_all [disturbs, seeks]

end Request

namespace Decoder

/-- The bytes that the device has accepted during a run, in order. -/
def delivered (tr : List (Action × Event)) : List (Option UInt8) := tr.flatMap fun x => x.2.bytes

/-- The steps of a movie that nobody disturbs, with syncstart raised and a device that accepts at
least one byte of every `write`. -/
def Undisturbed (d : Decoder) : Action → Prop
  | .thread a =>
    d.pc ≠ .clear .movie ∧ a.syncstart = true ∧ (d.pc = .writing → a.write.positive = true)
  | .request r => r.disturbs = false

instance (d : Decoder) (x : Action) : Decidable (d.Undisturbed x) :=
  match x with
  | .thread a => inferInstanceAs (Decidable
      (d.pc ≠ .clear .movie ∧ a.syncstart = true ∧ (d.pc = .writing → a.write.positive = true)))
  | .request r => inferInstanceAs (Decidable (r.disturbs = false))

/-- A decoder with a device, and no stop, seek or quit in sight. -/
structure Steady (d : Decoder) : Prop where
  stopped : d.stopped = false
  quit : d.quit = false
  newfilepos : d.newfilepos ≤ 0
  device : d.dummy = false

/-- What the device has received, `out`, at every control point inside of `movie`, for reads of
`count` bytes: the movie up to `filepos`, while the stream stands at the end of a whole buffer. -/
def Received (movie : List UInt8) (count : ℕ) (out : List (Option UInt8)) (d : Decoder) : Prop :=
  match d.pc with
  | .length => out = [] ∧ ∃ f, d.playlistFd = some f ∧ f.movie = movie
  | .readTop | .pauseWait | .read =>
    out = (movie.take d.filepos.toNat).map some ∧
      ∃ f, d.playlistFd = some f ∧ f.movie = movie ∧ f.eof = false ∧
        count ∣ f.offset ∧ f.offset ≤ movie.length
  | .syncWait | .writing | .poll .writing | .seek .writing | .readNext =>
    out = (movie.take d.filepos.toNat).map some ∧ 0 < d.inBytes ∧
      ∃ f, d.playlistFd = some f ∧ f.movie = movie ∧ f.eof = false ∧
        count ∣ f.offset ∧ f.offset ≤ movie.length
  | .clear .movie =>
    ∃ m, out = (movie.take m).map some ∧ count ∣ m ∧ m ≤ movie.length ∧
      (movie.length < m + count ∨ count = 0)
  | _ => False

instance (d : Decoder) : Decidable d.Steady :=
  decidable_of_iff
    (d.stopped = false ∧ d.quit = false ∧ d.newfilepos ≤ 0 ∧ d.dummy = false)
    ⟨fun ⟨h₁, h₂, h₃, h₄⟩ => ⟨h₁, h₂, h₃, h₄⟩, fun ⟨h₁, h₂, h₃, h₄⟩ => ⟨h₁, h₂, h₃, h₄⟩⟩

/-- The invariant of an undisturbed movie. -/
structure Onwards (movie : List UInt8) (count : ℕ) (tr : List (Action × Event)) (d : Decoder) :
    Prop where
  steady : d.Steady
  coherent : d.Coherent
  request : sizeT d.buffoSize = count
  received : d.Received movie count (delivered tr)

@[simp] theorem delivered_nil : delivered [] = [] := rfl

@[simp] theorem delivered_snoc (tr : List (Action × Event)) (x : Action) (e : Event) :
    delivered (tr ++ [(x, e)]) = delivered tr ++ e.bytes := by
  simp [delivered]

/-- A full read at the end of a whole buffer leads to the end of the next one. -/
theorem fread_chunk {f f' : FILE} {count : ℕ} {chunk : List UInt8}
    (hr : f.fread count = (chunk, f')) (he : f'.eof = false) (hd : count ∣ f.offset)
    (hle : f.offset ≤ f.movie.length) :
    f'.movie = f.movie ∧ count ∣ f'.offset ∧ f'.offset ≤ f.movie.length := by
  obtain ⟨-, hrest, hmovie, hoffset⟩ := FILE.fread_full hr he
  refine ⟨hmovie, ?_, by omega⟩
  rw [hoffset]
  exact (Nat.dvd_add_right hd).mpr (dvd_refl count)

/-- A read that meets the end of the file starts less than a buffer before it. -/
theorem fread_endOfFile {f f' : FILE} {count : ℕ} {chunk : List UInt8}
    (hr : f.fread count = (chunk, f')) (hf : f.eof = false)
    (he : f'.eof = true ∨ chunk.length < 1) : f.movie.length < f.offset + count ∨ count = 0 := by
  simp only [FILE.fread, Prod.mk.injEq] at hr
  obtain ⟨hchunk, rfl⟩ := hr
  simp only [hf, Bool.false_or, decide_eq_true_eq] at he
  have hlen : ((f.movie.drop f.offset).take count).length = min count (f.movie.length - f.offset) :=
    by rw [List.length_take, List.length_drop]
  rw [← hchunk] at he
  omega

/-- A step inside of a movie that is not stopped leaves the flags as they are. -/
theorem Steady.step {movie : List UInt8} {count : ℕ} {out : List (Option UInt8)} {a : Answers}
    {d d' : Decoder} {e : Event} (h : d.Steady) (hr : d.Received movie count out)
    (hs : Step a d d' e) : d'.Steady := by
  obtain ⟨hstopped, hquit, hnew, hdevice⟩ := h
  cases hs
  case update hpc _ _ _ _ _ => simp [Received, hpc] at hr
  case stopTaken hpc _ => simp [Received, hpc] at hr
  case seekSet k hpc => simp [Received, hpc] at hr
  all_goals exact ⟨hstopped, hquit, hnew, hdevice⟩

/-- One step of the thread inside of an undisturbed movie hands the device the next bytes. -/
theorem Received.step {movie : List UInt8} {count : ℕ} {out : List (Option UInt8)} {a : Answers}
    {d d' : Decoder} {e : Event} (h : d.Received movie count out) (hp : d.Steady)
    (hcoh : d.Coherent) (hcount : sizeT d.buffoSize = count) (hu : d.Undisturbed (.thread a))
    (hs : Step a d d' e) : d'.Received movie count (out ++ e.bytes) := by
  obtain ⟨hstopped, hquit, hnew, hdevice⟩ := hp
  cases hs
  case measured hpc f hf =>
    simp only [Received, hpc] at h
    obtain ⟨rfl, g, hg, hmovie⟩ := h
    obtain rfl : f = g := by simpa [hf] using hg
    exact ⟨rfl, f.fseek 0, rfl, hmovie, rfl, dvd_zero _, Nat.zero_le _⟩
  case endOfFile hpc f f' chunk hf hr he =>
    simp only [Received, hpc] at h
    simp only [Coherent, hpc] at hcoh
    obtain ⟨rfl, g, hg, rfl, heof, hdvd, hle⟩ := h
    obtain rfl : f = g := by simpa [hf] using hg
    refine ⟨f.offset, ?_, hdvd, hle, fread_endOfFile (hcount ▸ hr) heof he⟩
    rw [hcoh f hf]
    simp [Event.bytes]
  case chunk hpc f f' chunk hf hr he hc =>
    simp only [Received, hpc] at h
    obtain ⟨rfl, g, hg, rfl, heof, hdvd, hle⟩ := h
    obtain rfl : f = g := by simpa [hf] using hg
    obtain ⟨hmovie, hdvd', hle'⟩ := fread_chunk (hcount ▸ hr) he hdvd hle
    exact ⟨by simp [Event.bytes], hc, f', rfl, hmovie, he, hdvd', hle'⟩
  case wrote hpc hw hd count n hr hn =>
    simp only [Received, hpc] at h
    simp only [Coherent, hpc] at hcoh
    obtain ⟨rfl, hin, f, hf, rfl, hrest⟩ := h
    have hpend : d.Pending f := hcoh f hf
    have hle : n ≤ d.writing := by omega
    have hbytes := (hpend.wrote hle).1
    have hpos : (d.filepos + n).toNat = d.filepos.toNat + n := by
      have hnonneg := hpend.nonneg
      omega
    refine ⟨?_, hin, f, hf, rfl, hrest⟩
    dsimp only [Event.bytes]
    rw [hbytes, hpos, List.take_add, List.map_append]
  case readAgain hpc hi hq =>
    simp only [Received, hpc] at h
    obtain ⟨rfl, -, hf⟩ := h
    exact ⟨by simp [Event.bytes], hf⟩
  case readPass hpc hq hst => simpa [Received, hpc, Event.bytes] using h
  case pauseWaiting hpc hpl hq => simpa [Received, hpc, Event.bytes] using h
  case pausePass hpc hpl => simpa [Received, hpc, Event.bytes] using h
  case syncPass hpc hsy => simpa [Received, hpc, Event.bytes] using h
  case chunkDone hpc hw => simpa [Received, hpc, Event.bytes] using h
  case pollReturn k hpc hr hq =>
    cases k <;> simp_all [Received, Event.bytes, Caller.resume]
  case pollWaiting k hpc hr hpo hq =>
    cases k <;> simp_all [Received, Event.bytes]
  case pollReady k hpc hr =>
    cases k <;> simp_all [Received, Event.bytes]
  case noSeek k hpc hn =>
    cases k <;> simp_all [Received, Event.bytes, Caller.resume]
  case writeError hpc hw hd hr =>
    have hpos := hu.2.2 hpc
    rw [hr] at hpos
    cases hpos
  case clearNone en hpc hfd => cases en <;> simp_all [Received, Undisturbed]
  case clear en hpc hfd => cases en <;> simp_all [Received, Undisturbed]
  case seek k hpc f hf hn => omega
  all_goals simp_all [Received, Undisturbed]

/-- A request that does not disturb the movie leaves the flags as they are. -/
theorem Steady.apply {d : Decoder} {r : Request} (h : d.Steady) (hr : r.disturbs = false) :
    (d.apply r).Steady := by
  obtain ⟨hstopped, hquit, hnew, hdevice⟩ := h
  cases r
  case play => exact ⟨rfl, hquit, hnew, hdevice⟩
  case pause | append | prepend | insert | remove | empty | setPlaymode =>
    exact ⟨hstopped, hquit, hnew, hdevice⟩
  all_goals exact absurd hr (by simp [Request.disturbs])

/-- A request changes nothing that the device has received. -/
theorem Received.apply {movie : List UInt8} {count : ℕ} {out : List (Option UInt8)} {d : Decoder}
    {r : Request} (h : d.Received movie count out) : (d.apply r).Received movie count out := by
  obtain ⟨_, _, _, _, _, _, _, heq, -⟩ := exists_apply_eq d r
  rw [heq]
  exact h

/-- One action of an undisturbed movie keeps its invariant. -/
theorem Onwards.step {movie : List UInt8} {count : ℕ} {tr : List (Action × Event)} {x : Action}
    {d d' : Decoder} {e : Event} (h : d.Onwards movie count tr) (hu : d.Undisturbed x)
    (hn : machine.next d x = some (d', e)) : d'.Onwards movie count (tr ++ [(x, e)]) := by
  obtain ⟨hsteady, hcoherent, hrequest, hreceived⟩ := h
  rcases machine_cases hn with ⟨a, rfl, -, hs⟩ | ⟨r, rfl, rfl, rfl⟩
  · have hseek : d.SeeksBetweenChunks (.thread a) := by
      intro _ hnew
      have hnone := hsteady.newfilepos
      omega
    refine ⟨hsteady.step hreceived hs, hcoherent.step hu.2.2 hseek hs, ?_, ?_⟩
    · rw [hs.frame.1, hrequest]
    · rw [delivered_snoc]
      exact hreceived.step hsteady hcoherent hrequest hu hs
  · have hseek : d.SeeksBetweenChunks (.request r) := fun _ =>
      apply_newfilepos (Request.seeks_of_disturbs hu)
    refine ⟨hsteady.apply hu, hcoherent.apply hseek, ?_, ?_⟩
    · rw [(apply_frame d r).2.2.1, hrequest]
    · simpa [Event.bytes] using hreceived.apply

/-- The size of the buffer is that of `setup` in every state. -/
theorem Started.buffoSize {bufsize : ℤ} {d₀ d : Decoder} {tr : List (Action × Event)}
    (h₀ : Started bufsize d₀) (h : machine.Run d₀ tr d) : d.buffoSize = int32 (bufsize * 1024) := by
  have hstart : d₀.buffoSize = int32 (bufsize * 1024) := by
    obtain ⟨fd, dummy, playmode, files, buffo, rfl⟩ := h₀.exists_eq
    rfl
  rw [buffoSize_of_run h, hstart]

/-- When an undisturbed movie ends, the device has received the whole buffers that the file
fills. -/
theorem Onwards.end {movie : List UInt8} {count : ℕ} {tr : List (Action × Event)}
    {d₁ d₂ : Decoder} (h₁ : d₁.Onwards movie count [])
    (h : machine.RunOn Undisturbed d₁ tr d₂) (hend : d₂.pc = .clear .movie) :
    ∃ m, delivered tr = (movie.take m).map some ∧ count ∣ m ∧ m ≤ movie.length ∧
      (movie.length < m + count ∨ count = 0) := by
  have h₂ : d₂.Onwards movie count tr := by
    refine h.invariant_trace (I := fun tr d => d.Onwards movie count tr) ?_ h₁
    intro tr s x t e hI hC hn
    exact hI.step hC hn
  simpa [Received, hend] using h₂.received

/-- A movie that nobody disturbs comes out complete exactly when its length is a multiple of the
buffer. -/
theorem delivered_eq_movie_iff {bufsize : ℤ} {d₀ d₁ d₂ : Decoder}
    {tr₀ tr : List (Action × Event)} {f : FILE} (h₀ : Started bufsize d₀)
    (hrun : machine.Run d₀ tr₀ d₁) (hpc : d₁.pc = .length) (hf : d₁.playlistFd = some f)
    (hp : d₁.Steady) (h : machine.RunOn Undisturbed d₁ tr d₂) (hend : d₂.pc = .clear .movie) :
    delivered tr = f.movie.map some ↔ sizeT (int32 (bufsize * 1024)) ∣ f.movie.length := by
  have h₁ : d₁.Onwards f.movie (sizeT (int32 (bufsize * 1024))) [] := by
    have hcoherent : d₁.Coherent := by simp [Coherent, hpc]
    have hrequest : sizeT d₁.buffoSize = sizeT (int32 (bufsize * 1024)) := by
      rw [h₀.buffoSize hrun]
    exact ⟨hp, hcoherent, hrequest, by simp [Received, hpc, hf]⟩
  obtain ⟨m, hout, hdvd, hle, hlast⟩ := h₁.end h hend
  have hwhole : delivered tr = f.movie.map some ↔ m = f.movie.length := by
    rw [hout, List.map_inj_right fun _ _ => Option.some.inj, List.take_eq_self_iff]
    omega
  rw [hwhole]
  constructor
  · rintro rfl
    exact hdvd
  · intro hall
    rcases hlast with hlast | h0
    · -- two multiples of the buffer less than one buffer apart
      have hsum : sizeT (int32 (bufsize * 1024)) ∣ m + (f.movie.length - m) := by
        rwa [Nat.add_sub_cancel' hle]
      obtain ⟨k, hk⟩ := (Nat.dvd_add_right hdvd).mp hsum
      rcases Nat.eq_zero_or_pos k with rfl | hpos
      · omega
      · have hbuffer := Nat.le_mul_of_pos_right (sizeT (int32 (bufsize * 1024))) hpos
        omega
    · rw [h0, Nat.zero_dvd] at hdvd hall
      omega

/-- A movie of a whole buffer comes out complete. -/
theorem delivered_kilobyte :
    ∃ tr d₁ d₂, machine.RunOn Undisturbed d₁ tr d₂ ∧ d₂.pc = .clear .movie ∧
      delivered tr = (List.replicate 1024 7).map some := by
  have hexec : machine.Reaches (fun _ _ => True) (launched [[97]])
      (opening (List.replicate 1024 7)) fun _ d₁ =>
        d₁.pc = .length ∧ d₁.playlistFd = some ⟨List.replicate 1024 7, 0, false⟩ ∧ d₁.Steady ∧
          machine.Reaches Undisturbed d₁
            (List.replicate 16 (.thread { write := .accepted 1000 }))
            fun _ d₂ => d₂.pc = .clear .movie := by decide +kernel
  obtain ⟨tr₀, d₁, h₁, hpc, hf, hp, hrest⟩ := hexec.exists_runOn
  obtain ⟨tr, d₂, h₂, hend⟩ := hrest.exists_runOn
  exact ⟨tr, d₁, d₂, h₂, hend,
    (delivered_eq_movie_iff (started_launched _) h₁ hpc hf hp h₂ hend).mpr (by decide +kernel)⟩

/-- A movie of one byte is lost. -/
theorem not_delivered_whole :
    ¬ ∀ (bufsize : ℤ) (d₀ d₁ d₂ : Decoder) (tr₀ tr : List (Action × Event)) (f : FILE),
      1 ≤ bufsize → Started bufsize d₀ → machine.Run d₀ tr₀ d₁ → d₁.pc = .length →
      d₁.playlistFd = some f → d₁.Steady → machine.RunOn Undisturbed d₁ tr d₂ →
      d₂.pc = .clear .movie → delivered tr = f.movie.map some := by
  have hexec : machine.Reaches (fun _ _ => True) (launched [[97]]) (opening [7]) fun _ d₁ =>
      d₁.pc = .length ∧ d₁.playlistFd = some ⟨[7], 0, false⟩ ∧ d₁.Steady ∧
        machine.Reaches Undisturbed d₁ (List.replicate 4 (.thread {}))
          fun tr d₂ => d₂.pc = .clear .movie ∧ delivered tr = [] := by decide +kernel
  obtain ⟨tr₀, d₁, h₁, hpc, hf, hp, hrest⟩ := hexec.exists_runOn
  obtain ⟨tr, d₂, h₂, hend, hout⟩ := hrest.exists_runOn
  intro hall
  have hwhole := hall 1 _ _ _ _ _ _ le_rfl (started_launched _) h₁ hpc hf hp h₂ hend
  rw [hout] at hwhole
  cases hwhole

end Decoder

end IvySync
