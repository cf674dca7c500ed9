import IvySync.Decoder.Step

/-!
# The size of the buffer

`setup` works out the size of the buffer twice: `calloc` gets a count and a size and multiplies them
itself, and `buffo_size`, which each `fread` asks for, is a product of `int`s.  `sized_iff` says for
which arguments of the option `-b` the two agree.
-/

namespace IvySync

namespace Decoder

variable {d d' : Decoder} {b : ℤ}

/-- No step and no request changes the size of the buffer. -/
theorem buffoSize_of_run {tr : List (Action × Event)} (h : machine.Run d tr d') :
    d'.buffoSize = d.buffoSize := by
  refine h.invariant (I := fun t => t.buffoSize = d.buffoSize) ?_ rfl
  intro s x t e hI _ hn
  rcases machine_cases hn with ⟨a, rfl, -, hs⟩ | ⟨r, rfl, rfl, -⟩
  · rw [hs.frame.1, hI]
  · rw [(apply_frame s r).2.2.1, hI]

/-- The buffer has a size, which is no larger than the memory allocated for it, and in every run
that follows each `fread` asks for at least one byte and for no more than that. -/
def Sized (d : Decoder) : Prop :=
  0 < d.buffoSize ∧ d.buffoSize ≤ d.buffo.length ∧
    ∀ created tr d', machine.Run (d.launch created) tr d' → d'.pc = .read →
      1 ≤ sizeT d'.buffoSize ∧ sizeT d'.buffoSize ≤ d.buffo.length

/-- A size that fits the memory is what `fread` asks for. -/
theorem sized_of_le (hpos : 0 < d.buffoSize) (hle : d.buffoSize ≤ d.buffo.length)
    (h64 : d.buffoSize < 2 ^ 64) : Sized d := by
  refine ⟨hpos, hle, ?_⟩
  intro created tr d' hrun _
  have hsize : d'.buffoSize = (d.launch created).buffoSize := buffoSize_of_run hrun
  have hlaunch : (d.launch created).buffoSize = d.buffoSize := rfl
  unfold sizeT
  rw [hsize, hlaunch]
  omega

/-- What `setup` leaves when it succeeds. -/
theorem setup_spec {calloc : Bool} (hok : (d.setup calloc b).2 = true) :
    (d.setup calloc b).1.buffoSize = int32 (b * 1024) ∧
      (d.setup calloc b).1.buffo.length = sizeT (int32 (b + 1)) * 1024 ∧
      sizeT (int32 (b + 1)) * 1024 < 2 ^ 64 := by
  unfold setup at hok ⊢
  dsimp only at hok ⊢
  split_ifs at hok ⊢ with hc
  exact ⟨rfl, List.length_replicate, hc.2⟩

/-- The two cases of a value that is wrapped to 32 bits. -/
theorem int32_cases (n : ℤ) :
    n % 2 ^ 32 < 2 ^ 31 ∧ int32 n = n % 2 ^ 32 ∨
      2 ^ 31 ≤ n % 2 ^ 32 ∧ int32 n = n % 2 ^ 32 - 2 ^ 32 := by
  have hdef : int32 n = if n % 2 ^ 32 < 2 ^ 31 then n % 2 ^ 32 else n % 2 ^ 32 - 2 ^ 32 :=
    Int.bmod_def n (2 ^ 32)
  split_ifs at hdef with hn
  · exact .inl ⟨hn, hdef⟩
  · exact .inr ⟨by omega, hdef⟩

/-- The product of `int`s is positive when it does not reach the sign bit. -/
theorem int32_mul_pos_iff (b : ℤ) :
    0 < int32 (b * 1024) ↔ 0 < b % 2 ^ 22 ∧ b % 2 ^ 22 < 2 ^ 21 := by
  rcases int32_cases (b * 1024) with ⟨hn, h⟩ | ⟨hn, h⟩ <;> omega

/-- It is then no larger than the product. -/
theorem int32_mul_le (hb : 0 ≤ b) (hpos : 0 < int32 (b * 1024)) : int32 (b * 1024) ≤ b * 1024 := by
  rcases int32_cases (b * 1024) with ⟨hn, h⟩ | ⟨hn, h⟩ <;> omega

/-- Memory is only allocated for a number of kilobytes that has not become negative. -/
theorem bytes_of_lt (hb : -2 ^ 31 ≤ b ∧ b < 2 ^ 31) (hfits : sizeT (int32 (b + 1)) * 1024 < 2 ^ 64) :
    0 ≤ b + 1 ∧ (sizeT (int32 (b + 1)) : ℤ) = b + 1 := by
  unfold sizeT at hfits ⊢
  rcases int32_cases (b + 1) with ⟨hn, h⟩ | ⟨hn, h⟩ <;> rw [h] at hfits ⊢ <;> omega

/-- For every argument of `-b` with which `setup` succeeds, the size of the buffer is positive and no
larger than what has been allocated exactly if the argument, up to multiples of 4 GB, is at least
1 KB and below 2 GB. -/
theorem sized_iff (hb : -2 ^ 31 ≤ b ∧ b < 2 ^ 31) {calloc : Bool}
    (hok : (d.setup calloc b).2 = true) :
    Sized (d.setup calloc b).1 ↔ 0 < b % 2 ^ 22 ∧ b % 2 ^ 22 < 2 ^ 21 := by
  obtain ⟨hsize, hlength, hfits⟩ := setup_spec hok
  rw [← int32_mul_pos_iff]
  constructor
  · intro h
    exact hsize ▸ h.1
  · intro hpos
    obtain ⟨hnonneg, hbytes⟩ := bytes_of_lt hb hfits
    have hresidue := (int32_mul_pos_iff b).1 hpos
    have hle := int32_mul_le (by omega) hpos
    apply sized_of_le
    · rw [hsize]
      exact hpos
    · rw [hsize, hlength, Nat.cast_mul, hbytes]
      push_cast
      omega
    · rw [hsize]
      omega

/-- The default of 64 KB fits. -/
theorem sized_default : Sized ((Decoder.new 3 false .cont []).setup true 64).1 :=
  (sized_iff (by decide) (by decide +kernel)).2 (by decide)

/-- With `-b 0` the reads ask for nothing. -/
theorem not_sized :
    ¬ ∀ (d : Decoder) (b : ℤ) (calloc : Bool), -2 ^ 31 ≤ b ∧ b < 2 ^ 31 →
      (d.setup calloc b).2 = true → Sized (d.setup calloc b).1 := by
  intro hall
  have hsized := hall (Decoder.new 3 false .cont []) 0 true (by decide) (by decide)
  have hpos : 0 < (((Decoder.new 3 false .cont []).setup true 0).1).buffoSize := hsized.1
  exact absurd hpos (by decide)

end Decoder

end IvySync
