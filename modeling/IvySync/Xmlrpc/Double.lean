import IvySync.Xmlrpc.Xml

/-!
# Numbers in floating point

The bits of the numbers that are integers: `doubleOf` and its inverse `intOf`.  All results of the
methods of the daemon are such numbers.  `Floats.integers` writes and reads them as the C library
does, with six zeros behind the point.
-/

namespace IvySync

/-! ### Suffixes -/

theorem sign_suffix (s : Name) : (sign s).2 <:+ s := by
  cases s with
  | nil => exact List.suffix_refl _
  | cons c s =>
    rw [sign]
    split_ifs
    · exact List.suffix_cons _ _
    · exact List.suffix_cons _ _
    · exact List.suffix_refl _

theorem strtol_suffix {s rest : Name} {n : ℤ} (h : strtol s = some (n, rest)) : rest <:+ s := by
  unfold strtol at h
  simp only [Option.ite_none_left_eq_some, Option.some.injEq, Prod.mk.injEq] at h
  obtain ⟨-, -, rfl⟩ := h
  exact (List.dropWhile_suffix _).trans ((sign_suffix _).trans (List.dropWhile_suffix _))

/-! ### Integers -/

/-- The conversion of an `int` to `double`, as its bits. -/
def doubleOf (n : ℤ) : UInt64 :=
  if n = 0 then 0
  else
    let exponent := n.natAbs.log2
    let bits := (1023 + exponent) * 2 ^ 52 + (n.natAbs * 2 ^ (52 - exponent) - 2 ^ 52)
    UInt64.ofNat (if n < 0 then 2 ^ 63 + bits else bits)

example : doubleOf 1 = 0x3FF0000000000000 ∧ doubleOf (-100) = 0xC059000000000000 := by decide

/-- The integer part of a `double`. -/
def intOf (bits : UInt64) : ℤ :=
  let exponent := bits.toNat / 2 ^ 52 % 2 ^ 11
  if exponent < 1023 then 0
  else
    let n : ℕ := (2 ^ 52 + bits.toNat % 2 ^ 52) / 2 ^ (1075 - exponent) * 2 ^ (exponent - 1075)
    if 2 ^ 63 ≤ bits.toNat then -(n : ℤ) else n

/-- An integer of at most 53 bits is a `double`. -/
theorem intOf_doubleOf {n : ℤ} (hn : n.natAbs < 2 ^ 53) : intOf (doubleOf n) = n := by
  by_cases h0 : n = 0
  · subst h0
    rfl
  have hpos : n.natAbs ≠ 0 := by omega
  obtain ⟨e, he⟩ : ∃ e, e = n.natAbs.log2 := ⟨_, rfl⟩
  have hlow : 2 ^ e ≤ n.natAbs := he ▸ Nat.log2_self_le hpos
  have hhigh : n.natAbs < 2 ^ (e + 1) := he ▸ Nat.lt_log2_self
  have he52 : e ≤ 52 := by
    by_contra hlt
    have hle : 2 ^ 53 ≤ 2 ^ e := Nat.pow_le_pow_right (by omega) (by omega)
    omega
  -- the fraction has 53 bits, of which the first one is not written
  obtain ⟨m, hm⟩ : ∃ m, m = n.natAbs * 2 ^ (52 - e) := ⟨_, rfl⟩
  have hsplit : 2 ^ e * 2 ^ (52 - e) = 2 ^ 52 := by rw [← pow_add, Nat.add_sub_cancel' he52]
  have hmlow : 2 ^ 52 ≤ m := by
    rw [← hsplit, hm]
    exact Nat.mul_le_mul_right _ hlow
  have hmhigh : m < 2 ^ 53 := by
    have hsplit' : 2 ^ (e + 1) * 2 ^ (52 - e) = 2 ^ 53 := by
      rw [pow_succ, mul_right_comm, hsplit, ← pow_succ]
    rw [← hsplit', hm]
    exact Nat.mul_lt_mul_of_pos_right hhigh (Nat.two_pow_pos _)
  have hdiv : m / 2 ^ (52 - e) = n.natAbs := by
    rw [hm]
    exact Nat.mul_div_cancel _ (Nat.two_pow_pos _)
  have hbits : (doubleOf n).toNat =
      (if n < 0 then 2 ^ 63 else 0) + (1023 + e) * 2 ^ 52 + (m - 2 ^ 52) := by
    unfold doubleOf
    rw [if_neg h0]
    dsimp only
    rw [← he, ← hm, UInt64.toNat_ofNat']
    split_ifs <;> omega
  have hexponent : (doubleOf n).toNat / 2 ^ 52 % 2 ^ 11 = 1023 + e := by
    rw [hbits]
    split_ifs <;> omega
  have hfraction : 2 ^ 52 + (doubleOf n).toNat % 2 ^ 52 = m := by
    rw [hbits]
    split_ifs <;> omega
  have hsign : 2 ^ 63 ≤ (doubleOf n).toNat ↔ n < 0 := by
    rw [hbits]
    split_ifs <;> omega
  unfold intOf
  dsimp only
  rw [hexponent, hfraction, if_neg (by omega), show 1075 - (1023 + e) = 52 - e by omega,
    show 1023 + e - 1075 = 0 by omega, hdiv]
  simp only [hsign]
  split_ifs <;> omega

/-! ### The C library on integers -/

/-- The end of a number with the format `%f` that is an integer. -/
def zeros : Name := bytesOf ".000000"

/-- The C library as far as the numbers are integers: they are written with six zeros behind the
point, and read with these or without a point. -/
def Floats.integers : Floats where
  print bits := printD (intOf bits) ++ zeros
  strtod s := (strtol s).map fun (n, rest) =>
    (doubleOf n, if zeros <+: rest then rest.drop zeros.length else rest)
  strtod_suffix := by
    intro s bits rest h
    obtain ⟨⟨n, left⟩, hread, heq⟩ := Option.map_eq_some_iff.mp h
    obtain ⟨-, rfl⟩ := Prod.mk.inj heq
    split_ifs
    · exact (List.drop_suffix _ _).trans (strtol_suffix hread)
    · exact strtol_suffix hread

end IvySync
