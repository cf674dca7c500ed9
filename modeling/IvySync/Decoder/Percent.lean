import IvySync.Decoder.Seek
import Mathlib.Logic.Function.Iterate

/-!
# Percentages read back

`setpos` rounds a percentage down to a byte, and `getpos` rounds the byte down to a percentage.
What is read back is therefore the percentage that was set if it falls on a byte, and one less if it
does not (`readBack`): a position that is read and set again never goes up.
-/

namespace IvySync

namespace Decoder

/-- What `getpos` returns after a seek to `p` percent of a movie of this size. -/
def readBack (size : ℕ) (p : ℤ) : ℤ := if 100 ∣ size * p then p else p - 1

/-- A percentage that falls on a byte is read back. -/
theorem readBack_of_dvd {size : ℕ} {p : ℤ} (h : 100 ∣ size * p) : readBack size p = p := if_pos h

/-- A percentage that is read back has fallen by one at most. -/
theorem readBack_le (size : ℕ) (p : ℤ) : p - 1 ≤ readBack size p ∧ readBack size p ≤ p := by
  unfold readBack
  split_ifs <;> omega

/-- The two divisions: of the size by a hundred parts, and of the byte by the size. -/
theorem ediv_readBack {size : ℕ} {p : ℤ} (h100 : 100 ≤ size) :
    size * p / 100 * 100 / size = readBack size p := by
  have hpos : (0 : ℤ) < size := by omega
  have hmod : size * p / 100 * 100 = size * p - size * p % 100 := by omega
  unfold readBack
  split_ifs with hdvd
  · rw [Int.ediv_mul_cancel hdvd, Int.mul_ediv_cancel_left p hpos.ne']
  · have h1 : 1 ≤ size * p % 100 := by omega
    have h2 : size * p % 100 ≤ size := by omega
    have hsub : (p - 1) * size = size * p - size := by rw [Int.sub_mul, Int.mul_comm, Int.one_mul]
    rw [hmod, Int.ediv_eq_iff_of_pos hpos, hsub]
    omega

/-- The position `p` is set, applied by `flush` and read back, and what was read is set again, `n`
times in all; in the state `u` the last of these reads gives `q`. -/
inductive Rounds (d : Decoder) (p : ℤ) : ℕ → Decoder → ℤ → Prop
  | zero : Rounds d p 0 d p
  | succ {n : ℕ} {t u : Decoder} {q q' : ℤ} (h : Rounds d p n t q) (hq : 1 ≤ q)
      (hu : Flushed (t.apply (.setpos q)) u) (hr : u.getpos = some q') : Rounds d p (n + 1) u q'

variable {movie : List UInt8} {d u : Decoder} {p q : ℤ} {n : ℕ}

/-- After a seek to `p` percent of a movie of at least a hundred bytes `getpos` returns `p`, or one
less. -/
theorem Showing.getpos_flushed (hd : d.Showing movie) (hu : Flushed (d.apply (.setpos p)) u)
    (hsize : 100 ≤ movie.length) (hmax : (movie.length : ℤ) * 100 < 2 ^ 63) (hp : 1 ≤ p)
    (hp' : p ≤ 100) :
    u.Showing movie ∧
      u.getpos = (u.playlist.pick u.position).map fun _ => readBack movie.length p := by
  have hne : movie ≠ [] := List.ne_nil_of_length_pos (by omega)
  have hlow : (movie.length : ℤ) ≤ movie.length * p := by
    have := Int.mul_le_mul_of_nonneg_left hp (Int.natCast_nonneg movie.length)
    omega
  have hhigh : (movie.length : ℤ) * p ≤ movie.length * 100 :=
    Int.mul_le_mul_of_nonneg_left hp' (Int.natCast_nonneg movie.length)
  have hpend : (d.apply (.setpos p)).newfilepos = movie.length * p / 100 := by
    rw [← int64_tdiv (by omega) (by omega)]
    exact hd.setpos hne p
  obtain ⟨hshow, hfp, -⟩ := (hd.apply (.setpos p)).flushed hu (by omega)
  rw [hpend] at hfp
  refine ⟨hshow, ?_⟩
  obtain ⟨f, hf, -, hfs⟩ := hshow
  have hback := readBack_le movie.length p
  have h64 : int64 (u.filepos * 100) = u.filepos * 100 := by
    unfold int64
    rw [Int.bmod_eq_of_le] <;> omega
  have hquot : (u.filepos * 100).tdiv u.filesize = readBack movie.length p := by
    rw [Int.tdiv_eq_ediv_of_nonneg (by omega), hfp, hfs, ediv_readBack hsize]
  have h32 : int32 (readBack movie.length p) = readBack movie.length p := by
    unfold int32
    rw [Int.bmod_eq_of_le] <;> omega
  have hcond : ¬ (u.playlistFd.isNone = true ∨ u.filesize = 0) := by simp [hf, hfs, hne]
  rw [getpos, if_neg hcond, h64, hquot, h32]

/-- What is read in the rounds. -/
theorem Rounds.eq_iterate (h : Rounds d p n u q) (hd : d.Showing movie)
    (hsize : 100 ≤ movie.length) (hmax : (movie.length : ℤ) * 100 < 2 ^ 63) (hp : p ≤ 100) :
    u.Showing movie ∧ q = (readBack movie.length)^[n] p ∧ p - n ≤ q ∧ q ≤ p := by
  induction h with
  | zero => exact ⟨hd, rfl, by omega, le_rfl⟩
  | @succ n t u q q' h hq hu hr ih =>
    obtain ⟨ht, hiter, hlow, hhigh⟩ := ih
    obtain ⟨hshow, hget⟩ := ht.getpos_flushed hu hsize hmax hq (by omega)
    have hq' : readBack movie.length q = q' := by
      rw [hr] at hget
      obtain ⟨_, -, h⟩ := Option.map_eq_some_iff.mp hget.symm
      exact h
    have hback := readBack_le movie.length q
    rw [hq'] at hback
    refine ⟨hshow, ?_, by push_cast; omega, by omega⟩
    rw [Function.iterate_succ_apply', ← hiter, hq']

/-- A percentage that has been set and applied is read back if it falls on a byte, and one less if
it does not; reading and setting it again, any number of times, never moves it up, lowers it by one
a time at most, and keeps it where it falls on a byte. -/
theorem getpos_after_setpos (hd : d.Showing movie) (hsize : 100 ≤ movie.length)
    (hmax : (movie.length : ℤ) * 100 < 2 ^ 63) (hp : 1 ≤ p) (hp' : p ≤ 100) :
    (∀ u, Flushed (d.apply (.setpos p)) u →
      u.getpos = (u.playlist.pick u.position).map fun _ =>
        if 100 ∣ (movie.length : ℤ) * p then p else p - 1) ∧
    ∀ n u q, Rounds d p n u q →
      (p - n ≤ q ∧ q ≤ p) ∧ (100 ∣ (movie.length : ℤ) * p → q = p) := by
  constructor
  · intro u hu
    exact (hd.getpos_flushed hu hsize hmax hp hp').2
  · intro n u q h
    obtain ⟨-, hiter, hbounds⟩ := h.eq_iterate hd hsize hmax hp'
    refine ⟨hbounds, ?_⟩
    intro hdvd
    rw [hiter, Function.iterate_fixed (readBack_of_dvd hdvd)]

/-- At the first percent of a movie of 2000 bytes the position is kept. -/
theorem getpos_after_setpos_one :
    ∃ d : Decoder, d.Showing (List.replicate 2000 0) ∧
      ∀ n u q, Rounds d 1 n u q → q = 1 := by
  have hlen : (List.replicate 2000 (0 : UInt8)).length = 2000 := List.length_replicate
  have hd : (atRead (List.replicate 2000 0)).Showing (List.replicate 2000 0) := ⟨_, rfl, rfl, rfl⟩
  refine ⟨_, hd, ?_⟩
  intro n u q h
  have hrounds := (getpos_after_setpos (p := 1) hd (by rw [hlen]; decide) (by rw [hlen]; decide)
    (by decide) (by decide)).2 n u q h
  exact hrounds.2 (by rw [hlen]; decide)

/-- In a movie of 2050 bytes the first percent begins within a byte, and nought is read back. -/
theorem not_getpos_after_setpos :
    ¬ ∀ (bufsize : ℤ) (d₀ d u : Decoder) (tr : List (Action × Event)) (movie : List UInt8) (p : ℤ),
      Started bufsize d₀ → machine.Run d₀ tr d → d.Showing movie → 100 ≤ movie.length →
      (movie.length : ℤ) * 100 < 2 ^ 63 → 1 ≤ p → p ≤ 100 → Flushed (d.apply (.setpos p)) u →
        u.getpos = some p := by
  have hexec : machine.Reaches (fun _ _ => True) (launched [[97]])
      (opening (List.replicate 2050 0) ++ List.replicate 5 (.thread {}) ++
        [.thread { write := .accepted 1024 }])
      fun _ d => d.playlistFd = some ⟨List.replicate 2050 0, 1024, false⟩ ∧ d.filesize = 2050 ∧
        machine.Reaches SeekWaits (d.apply (.setpos 1)) [.thread {}] fun _ t =>
          t.pc = .seek .writing ∧
            machine.Reaches (Flushing .writing) t [.thread {}, .thread {}] fun _ u =>
              u.pc = .writing ∧ u.getpos = some 0 := by
    decide +kernel
  obtain ⟨tr, d, hrun, hf, hsize, hwaits⟩ := hexec.exists_runOn
  obtain ⟨tr', t, hrun', hpc, hflush⟩ := hwaits.exists_runOn
  obtain ⟨tr'', u, hrun'', hret, hget⟩ := hflush.exists_runOn
  have hlen : (List.replicate 2050 (0 : UInt8)).length = 2050 := List.length_replicate
  have hd : d.Showing (List.replicate 2050 0) := ⟨_, hf, rfl, by rw [hsize, hlen]; rfl⟩
  intro hall
  have hone := hall 1 _ d u tr _ 1 (started_launched _) hrun hd (by rw [hlen]; decide)
    (by rw [hlen]; decide) (by decide) (by decide)
    ⟨.writing, t, tr', tr'', hrun', hpc, hrun'', hret⟩
  rw [hget] at hone
  exact absurd hone (by decide)

end Decoder

end IvySync
