import IvySync.Decoder.Seek
import IvySync.Xmlrpc.Methods

/-!
# Offsets through the remote interface

A player keeps offsets of 64 bits, but `GetOffset` puts one in its result as an `int`.  An offset
that a client has read and sends back is therefore the one it was only below 2 GB.
-/

namespace IvySync

namespace Xmlrpc

variable {m : Method} {w : World} {params : XmlRpcValue} {ds : Playlist Decoder}

/-- A method on a decoder that is found, with parameters enough, answers its request. -/
theorem execute_eq_answer {size num : ℤ} {dec : Decoder} (hs : params.size = .ok size)
    (hle : m.arity ≤ size) (hn : decnum params = .ok num) (hp : ds.pick num = some dec) :
    call (m.execute w params) ds = answer num ds (m.request w params dec) := by
  have hspec := execute_spec m w params ds
  generalize call (m.execute w params) ds = out at hspec
  cases hspec with
  | noSize e hs' => simp [hs] at hs'
  | tooFew size' hs' hlt =>
    obtain rfl := Except.ok.inj (hs.symm.trans hs')
    omega
  | noNumber size' e hs' hle' hn' => simp [hn] at hn'
  | missing size' num' hs' hle' hn' hp' =>
    obtain rfl := Except.ok.inj (hn.symm.trans hn')
    simp [hp] at hp'
  | found size' num' dec' hs' hle' hn' hp' =>
    obtain rfl := Except.ok.inj (hn.symm.trans hn')
    obtain rfl := Option.some.inj (hp.symm.trans hp')
    rfl

/-- `GetOffset` on a decoder that is there. -/
theorem call_getOffset {num : ℤ} {dec : Decoder} (hp : ds.pick num = some dec) :
    call (GetOffset.execute (.array [.int num])) ds = (.ok (some (int32 dec.filepos)), ds) := by
  have hs : (XmlRpcValue.array [.int num]).size = .ok 1 := XmlRpcValue.size_array (by simp)
  have hn : decnum (.array [.int num]) = .ok num := by
    rw [decnum, XmlRpcValue.item_array (by simp) (by simp)]
    rfl
  have h := execute_eq_answer (m := .getOffset) (w := ⟨fun _ => false, []⟩) hs le_rfl hn hp
  exact h

/-- `SetOffset` on a decoder that is there. -/
theorem call_setOffset {num v : ℤ} {dec : Decoder} (hp : ds.pick num = some dec) :
    call (SetOffset.execute (.array [.int num, .int v])) ds =
      (.ok none, ds.modify (num - 1).toNat (Decoder.apply · (.setoffset v))) := by
  have hs : (XmlRpcValue.array [.int num, .int v]).size = .ok 2 :=
    XmlRpcValue.size_array (by simp)
  have hn : decnum (.array [.int num, .int v]) = .ok num := by
    rw [decnum, XmlRpcValue.item_array (by simp) (by simp)]
    rfl
  have hv : pos (.array [.int num, .int v]) = .ok v := by
    rw [pos, XmlRpcValue.item_array (by simp) (by simp)]
    rfl
  have h := execute_eq_answer (m := .setOffset) (w := ⟨fun _ => false, []⟩) hs le_rfl hn hp
  rw [Method.request, hv] at h
  exact h

/-- In every reachable state with a movie of this size open at the position `o`: `GetOffset` has a
result, and when that is sent back with `SetOffset`, now or later while the movie is open, the next
`flush` that finds the device ready moves `filepos` to `o`. -/
def Survives (size : ℕ) (o : ℤ) : Prop :=
  ∀ (bufsize : ℤ) (d₀ d : Decoder) (tr : List (Action × Event)) (movie : List UInt8)
    (ds : Playlist Decoder) (num : ℤ),
    Decoder.Started bufsize d₀ → Decoder.machine.Run d₀ tr d → d.Showing movie →
    movie.length = size → d.filepos = o → ds.pick num = some d →
    ∃ v, call (GetOffset.execute (.array [.int num])) ds = (.ok (some v), ds) ∧
      ∀ (d' u : Decoder) (tr' : List (Action × Event)) (ds' : Playlist Decoder),
        Decoder.machine.Run d tr' d' → d'.Showing movie → ds'.pick num = some d' →
        ∃ t, (call (SetOffset.execute (.array [.int num, .int v])) ds').2.pick num = some t ∧
          (Decoder.Flushed t u → u.filepos = o)

/-- An offset survives if the one that `GetOffset` gives is pending with `SetOffset`. -/
theorem survives_of_int32 {size : ℕ} {o : ℤ} (h0 : 0 < o) (hle : o ≤ size) (h32 : int32 o = o) :
    Survives size o := by
  rintro bufsize d₀ d tr movie ds num - - - rfl rfl hp
  refine ⟨_, call_getOffset hp, ?_⟩
  intro d' u tr' ds' _ hd' hp'
  refine ⟨d'.setoffset (int32 d.filepos), ?_, ?_⟩
  · rw [call_setOffset hp', Playlist.pick_modify hp', if_pos rfl]
    rfl
  · intro hu
    have hpend := hd'.setoffset hle
    rw [h32] at hu
    obtain ⟨-, hfp, -⟩ := (hd'.apply (.setoffset d.filepos)).flushed hu (hpend.symm ▸ h0)
    exact hfp.trans hpend

/-- A movie of at least 1 KB comes to the writing loop at every position of it, with bytes of its
chunk left. -/
theorem exists_writing_at (movie : List UInt8) (o : ℤ) (hlen : 1024 ≤ movie.length) (h0 : 0 < o)
    (hle : o ≤ movie.length) : ∃ tr d, Decoder.machine.Run (Decoder.launched [[97]]) tr d ∧
      d.Showing movie ∧ d.filepos = o ∧ d.pc = .writing ∧ d.dummy = false ∧ d.writing ≠ 0 := by
  have hne : movie ≠ [] := List.ne_nil_of_length_pos (by omega)
  obtain ⟨tr, d, hrun, hd⟩ := Decoder.exists_loaded hne
  have hseek := hd.apply (.setoffset o)
  have hpend : (d.apply (.setoffset o)).newfilepos = o := hd.showing.setoffset hle
  obtain ⟨-, hshort⟩ | ⟨hpc, hw⟩ := hseek.pc
  · omega
  · obtain ⟨u, hu, hpc', hwriting, hdummy, -⟩ :=
      hseek.showing.exists_flushed_writing hpc hseek.device.2 hw 0 (Nat.zero_le _)
    obtain ⟨hshow, hfp, -⟩ := hseek.showing.flushed hu (by omega)
    obtain ⟨tr', hrun'⟩ := hu.exists_run
    have hnext : Decoder.machine.next d (.request (.setoffset o)) =
        some (d.apply (.setoffset o), .silent) := rfl
    exact ⟨_, u, (hrun.snoc trivial hnext).append hrun', hshow, hfp.trans hpend, hpc', hdummy,
      by omega⟩

/-- An offset of 2 GB or more does not survive. -/
theorem not_survives (size : ℕ) (o : ℤ) (h31 : 2 ^ 31 ≤ o) (hle : o ≤ size) :
    ¬ Survives size o := by
  intro h
  have hlen : (List.replicate size (0 : UInt8)).length = size := List.length_replicate
  obtain ⟨tr, d, hrun, hd, hfp, hpc, hdummy, hw⟩ :=
    exists_writing_at (List.replicate size 0) o (by omega) (by omega) (by omega)
  have hp : Playlist.pick [d] 1 = some d := rfl
  obtain ⟨v, hget, hset⟩ :=
    h 1 _ d tr _ [d] 1 (Decoder.started_launched _) hrun hd hlen hfp hp
  obtain rfl : int32 o = v := by
    rw [call_getOffset hp, hfp] at hget
    simpa using hget
  have hlt : int32 o < 2 ^ 31 := by
    have := Int.bmod_lt (x := o) (m := 2 ^ 32) (by decide)
    unfold int32
    omega
  have hpend : (d.apply (.setoffset (int32 o))).newfilepos = int32 o := hd.setoffset (by omega)
  obtain ⟨u, hu, -, -, -, hnone⟩ := (hd.apply (.setoffset (int32 o))).exists_flushed_writing
    hpc hdummy hw 1 (by have : (d.apply (.setoffset (int32 o))).writing = d.writing := rfl; omega)
  obtain ⟨t, ht, hback⟩ := hset d u [] [d] .nil hd hp
  obtain rfl : d.apply (.setoffset (int32 o)) = t := by
    rw [call_setOffset hp, Playlist.pick_modify hp, if_pos rfl] at ht
    exact Option.some.inj ht
  have hsame := hback hu
  by_cases hpos : 0 < int32 o
  · obtain ⟨-, hfp', -⟩ := (hd.apply (.setoffset (int32 o))).flushed hu (by omega)
    omega
  · obtain ⟨hfp', -⟩ := hnone (by omega)
    have hstill : (d.apply (.setoffset (int32 o))).filepos = d.filepos := rfl
    omega

/-- An offset in a movie survives the way to a client and back if it is below 2 GB. -/
theorem survives_iff {size : ℕ} {o : ℤ} (h0 : 0 < o) (hle : o ≤ size) :
    Survives size o ↔ o < 2 ^ 31 := by
  constructor
  · intro h
    by_contra hge
    exact not_survives size o (by omega) hle h
  · intro hlt
    have h32 : int32 o = o := by
      rw [int32, Int.bmod_eq_of_le] <;> omega
    exact survives_of_int32 h0 hle h32

/-- The last offset below 2 GB survives in a movie of 4 GB. -/
theorem survives_below : Survives (2 ^ 32) (2 ^ 31 - 1) :=
  (survives_iff (by decide) (by decide)).2 (by decide)

/-- The first offset from 2 GB on comes back as a negative number. -/
theorem not_survives_two_gigabytes :
    ¬ ∀ (size : ℕ) (o : ℤ), 0 < o → o ≤ size → Survives size o := by
  intro h
  exact not_survives (2 ^ 32) (2 ^ 31) le_rfl (by decide)
    (h (2 ^ 32) (2 ^ 31) (by decide) (by decide))

end Xmlrpc

end IvySync
