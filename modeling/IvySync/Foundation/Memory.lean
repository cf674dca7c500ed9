import Mathlib.Algebra.Order.Group.Unbundled.Int
import Mathlib.Data.Set.Lattice

/-!
# Memory and the accesses to it

A `Prog` works on blocks of bytes.  A pointer is an index in a block, and may point in front of the
bytes that the block has been given or behind them; which places a program accesses is what it is
asked for here.  So each access is recorded, and `Runs x m F a m'` says that `x`, started on the
bytes `m`, ends with the result `a` and leaves `m'`, and that `F` is the set of its accesses.

The rules: `Runs.pure`, `Runs.bind`, `Runs.load` and `Runs.store`, and one for each of `memset`,
`strlen` and `strncpy` of the C library, which go through memory byte by byte.  A function that
looks for the end of a string is given up after a number of rounds.
-/

namespace Memory

open Function (update)

variable {β α γ : Type}

/-- A place in memory. -/
@[ext]
structure Ptr (β : Type) where
  block : β
  index : ℤ
  deriving DecidableEq, Repr

namespace Ptr

instance : HAdd (Ptr β) ℤ (Ptr β) := ⟨fun p i => ⟨p.block, p.index + i⟩⟩

instance : HSub (Ptr β) ℤ (Ptr β) := ⟨fun p i => ⟨p.block, p.index - i⟩⟩

variable {p : Ptr β} {i j : ℤ}

@[simp] theorem block_add : (p + i).block = p.block := rfl

@[simp] theorem index_add : (p + i).index = p.index + i := rfl

@[simp] theorem add_zero : p + (0 : ℤ) = p := Ptr.ext rfl (Int.add_zero p.index)

theorem add_add : p + i + j = p + (i + j) := Ptr.ext rfl (Int.add_assoc p.index i j)

theorem sub_eq_add_neg : p - i = p + -i := Ptr.ext rfl Int.sub_eq_add_neg

/-- Different indices are different places. -/
theorem add_inj : p + i = p + j ↔ i = j := by
  rw [Ptr.ext_iff]
  simp

end Ptr

/-- An access to memory. -/
inductive Access (β : Type)
  | load (p : Ptr β)
  | store (p : Ptr β)
  deriving DecidableEq, Repr

/-- The place that is accessed. -/
def Access.ptr : Access β → Ptr β
  | .load p => p
  | .store p => p

/-- What stands in memory. -/
abbrev Bytes (β : Type) := Ptr β → UInt8

/-- Memory with the accesses that have been made. -/
structure State (β : Type) where
  bytes : Bytes β
  accesses : List (Access β)

/-- A program that works on memory. -/
abbrev Prog (β : Type) := StateT (State β) Option

/-- Read the byte at a place. -/
def load (p : Ptr β) : Prog β UInt8 := fun s =>
  some (s.bytes p, { s with accesses := s.accesses ++ [.load p] })

/-- Write a byte to a place. -/
def store [DecidableEq β] (p : Ptr β) (b : UInt8) : Prog β Unit := fun s =>
  some ((), ⟨update s.bytes p b, s.accesses ++ [.store p]⟩)

/-! ### What a program does -/

/-- The program ends, with this result, these bytes and these accesses. -/
def Runs (x : Prog β α) (m : Bytes β) (F : Set (Access β)) (a : α) (m' : Bytes β) : Prop :=
  ∃ log, (∀ l, x.run ⟨m, l⟩ = some (a, ⟨m', l ++ log⟩)) ∧ F = {access | access ∈ log}

namespace Runs

variable {x : Prog β α} {f : α → Prog β γ} {m m' m'' : Bytes β} {F G : Set (Access β)} {a : α}
  {b : γ}

theorem pure (a : α) (m : Bytes β) : Runs (pure a) m ∅ a m := by
  refine ⟨[], fun l => ?_, ?_⟩
  · rw [List.append_nil]
    rfl
  · simp

theorem load (p : Ptr β) (m : Bytes β) : Runs (load p) m {.load p} (m p) m :=
  ⟨[.load p], fun _ => rfl, by simp⟩

theorem store [DecidableEq β] (p : Ptr β) (c : UInt8) (m : Bytes β) :
    Runs (store p c) m {.store p} () (update m p c) :=
  ⟨[.store p], fun _ => rfl, by simp⟩

/-- One program behind the other. -/
theorem bind (hx : Runs x m F a m') (hf : Runs (f a) m' G b m'') :
    Runs (x >>= f) m (F ∪ G) b m'' := by
  obtain ⟨log, hlog, rfl⟩ := hx
  obtain ⟨log', hlog', rfl⟩ := hf
  refine ⟨log ++ log', fun l => ?_, ?_⟩
  · rw [StateT.run_bind, hlog, ← List.append_assoc]
    exact hlog' (l ++ log)
  · ext access
    simp

/-- The second program, where a branch has been decided. -/
theorem bind_eq {y : Prog β γ} (hx : Runs x m F a m') (hfa : f a = y) (hy : Runs y m' G b m'') :
    Runs (x >>= f) m (F ∪ G) b m'' :=
  hx.bind (hfa ▸ hy)

/-- A program started on memory that has not been accessed yet. -/
theorem run_eq (hx : Runs x m F a m') :
    ∃ log, x.run ⟨m, []⟩ = some (a, ⟨m', log⟩) ∧ F = {access | access ∈ log} := by
  obtain ⟨log, hlog, hF⟩ := hx
  exact ⟨log, hlog [], hF⟩

/-- What it does is all that it can do. -/
theorem eq_of_run {s : State β} {a' : α} (hx : Runs x m F a m')
    (h : x.run ⟨m, []⟩ = some (a', s)) :
    a' = a ∧ s.bytes = m' ∧ F = {access | access ∈ s.accesses} := by
  obtain ⟨log, hlog, hF⟩ := hx.run_eq
  obtain ⟨rfl, rfl⟩ := Prod.mk.inj (Option.some.inj (h.symm.trans hlog))
  exact ⟨rfl, rfl, hF⟩

end Runs

/-! ### Accesses to places in a row -/

/-- So many accesses of one kind, from a place on. -/
def span (access : Ptr β → Access β) (p : Ptr β) (n : ℕ) : Set (Access β) :=
  {x | ∃ i < n, x = access (p + (i : ℤ))}

/-- Where they are made. -/
theorem exists_of_mem_span {access : Ptr β → Access β} {p : Ptr β} {n : ℕ} {x : Access β}
    (hptr : ∀ q, (access q).ptr = q) (hx : x ∈ span access p n) :
    ∃ i : ℕ, i < n ∧ x.ptr = p + (i : ℤ) := by
  obtain ⟨i, hi, rfl⟩ := hx
  exact ⟨i, hi, hptr _⟩

@[simp] theorem span_zero (access : Ptr β → Access β) (p : Ptr β) : span access p 0 = ∅ := by
  simp [span]

theorem span_succ (access : Ptr β → Access β) (p : Ptr β) (n : ℕ) :
    span access p (n + 1) = {access p} ∪ span access (p + (1 : ℤ)) n := by
  ext x
  simp only [span, Set.mem_ofPred_eq, Set.mem_union, Set.mem_singleton_iff, Ptr.add_add]
  constructor
  · rintro ⟨i, hi, rfl⟩
    cases i with
    | zero => simp
    | succ i => exact .inr ⟨i, by omega, by push_cast; rw [add_comm]⟩
  · rintro (rfl | ⟨i, hi, rfl⟩)
    · exact ⟨0, by omega, by simp⟩
    · exact ⟨i + 1, by omega, by push_cast; rw [add_comm]⟩

theorem span_concat (access : Ptr β → Access β) (p : Ptr β) (n : ℕ) :
    span access p (n + 1) = span access p n ∪ {access (p + (n : ℤ))} := by
  ext x
  simp only [span, Set.mem_ofPred_eq, Set.mem_union, Set.mem_singleton_iff,
    Nat.lt_succ_iff_lt_or_eq]
  constructor
  · rintro ⟨i, hi | rfl, rfl⟩
    · exact .inl ⟨i, hi, rfl⟩
    · exact .inr rfl
  · rintro (⟨i, hi, rfl⟩ | rfl)
    · exact ⟨i, .inl hi, rfl⟩
    · exact ⟨n, .inr rfl, rfl⟩

/-! ### Strings -/

/-- Here stands this string, up to its NUL. -/
structure StringAt (m : Bytes β) (p : Ptr β) (s : List UInt8) : Prop where
  notMem : 0 ∉ s
  bytes : ∀ i ≤ s.length, m (p + (i : ℤ)) = s.getD i 0

section StringAt

variable {m m' : Bytes β} {p q : Ptr β} {s t : List UInt8} {c : UInt8}

@[simp] theorem stringAt_nil : StringAt m p [] ↔ m p = 0 := by
  constructor
  · intro h
    simpa using h.bytes 0 le_rfl
  · intro h
    refine ⟨by simp, fun i hi => ?_⟩
    obtain rfl := Nat.le_zero.1 hi
    simpa using h

theorem stringAt_cons :
    StringAt m p (c :: s) ↔ c ≠ 0 ∧ m p = c ∧ StringAt m (p + (1 : ℤ)) s := by
  constructor
  · intro h
    refine ⟨fun hc => h.notMem (by simp [hc]), by simpa using h.bytes 0 (Nat.zero_le _),
      fun hs => h.notMem (by simp [hs]), fun i hi => ?_⟩
    have hbyte := h.bytes (i + 1) (Nat.succ_le_succ hi)
    rw [Ptr.add_add, add_comm]
    simpa using hbyte
  · rintro ⟨hc, hp, hs⟩
    refine ⟨by simpa [eq_comm] using ⟨hc, hs.notMem⟩, fun i hi => ?_⟩
    cases i with
    | zero => simpa using hp
    | succ i =>
      have hbyte := hs.bytes i (Nat.le_of_succ_le_succ hi)
      rw [Ptr.add_add, add_comm] at hbyte
      simpa using hbyte

/-- A string stays if its bytes do. -/
theorem StringAt.congr (h : StringAt m p s) (hm : ∀ q, q.block = p.block → m' q = m q) :
    StringAt m' p s :=
  ⟨h.notMem, fun i hi => (hm (p + (i : ℤ)) rfl).trans (h.bytes i hi)⟩

/-- The end of a string is a string. -/
theorem StringAt.behind (h : StringAt m p (s ++ t)) : StringAt m (p + (s.length : ℤ)) t := by
  induction s generalizing p with
  | nil => simpa using h
  | cons c s ih =>
    obtain ⟨-, -, hs⟩ := stringAt_cons.1 h
    have ht := ih hs
    rw [Ptr.add_add, add_comm] at ht
    exact ht

/-- A NUL over the last letter ends a string there. -/
theorem StringAt.truncate [DecidableEq β] (h : StringAt m p (s ++ [c])) :
    StringAt (update m (p + (s.length : ℤ)) 0) p s := by
  refine ⟨fun hs => h.notMem (by simp [hs]), fun i hi => ?_⟩
  rcases hi.lt_or_eq with hlt | rfl
  · have hne : p + (i : ℤ) ≠ p + (s.length : ℤ) := by
      rw [Ne, Ptr.add_inj]
      omega
    rw [Function.update_of_ne hne, h.bytes i (by rw [List.length_append]; omega),
      List.getD_eq_getElem?_getD, List.getElem?_append_left hlt, List.getD_eq_getElem?_getD]
  · simp

end StringAt

/-! ### The functions of the C library -/

section Library

variable {m m' : Bytes β} {p q src dest : Ptr β} {s l : List UInt8} {n fuel : ℕ}

/-- `strlen`. -/
def strlen : ℕ → Ptr β → Prog β ℕ
  | 0, _ => failure
  | fuel + 1, p => do
    if (← load p) = 0 then return 0
    else return (← strlen fuel (p + (1 : ℤ))) + 1

/-- The length of a string is found within as many rounds as it has bytes, and one. -/
theorem strlen_runs (h : StringAt m p s) (hfuel : s.length < fuel) :
    Runs (strlen fuel p) m (span .load p (s.length + 1)) s.length m := by
  induction s generalizing p fuel with
  | nil =>
    obtain ⟨fuel, rfl⟩ := Nat.exists_eq_succ_of_ne_zero (Nat.ne_of_gt hfuel)
    rw [List.length_nil, span_succ, span_zero]
    exact (Runs.load p m).bind_eq (if_pos (stringAt_nil.1 h)) (.pure 0 m)
  | cons c s ih =>
    obtain ⟨fuel, rfl⟩ := Nat.exists_eq_succ_of_ne_zero (Nat.ne_of_gt (Nat.zero_lt_of_lt hfuel))
    obtain ⟨hc, rfl, hs⟩ := stringAt_cons.1 h
    have hrest := ih hs (Nat.lt_of_succ_lt_succ hfuel)
    rw [List.length_cons, span_succ, ← Set.union_empty (span .load (p + (1 : ℤ)) (s.length + 1))]
    exact (Runs.load p m).bind_eq (if_neg hc) (hrest.bind (.pure (s.length + 1) m))

variable [DecidableEq β]

/-- `memset`. -/
def memset (p : Ptr β) (c : UInt8) : ℕ → Prog β Unit
  | 0 => pure ()
  | n + 1 => do
    store p c
    memset (p + (1 : ℤ)) c n

/-- `strncpy`. -/
def strncpy (dest src : Ptr β) : ℕ → Prog β Unit
  | 0 => pure ()
  | n + 1 => do
    let c ← load src
    store dest c
    if c = 0 then memset (dest + (1 : ℤ)) 0 n
    else strncpy (dest + (1 : ℤ)) (src + (1 : ℤ)) n

/-- The memory with these bytes from a place on. -/
def put (m : Bytes β) (p : Ptr β) (l : List UInt8) : Bytes β := fun q =>
  if q.block = p.block ∧ p.index ≤ q.index then l[(q.index - p.index).toNat]?.getD (m q) else m q

theorem put_nil (m : Bytes β) (p : Ptr β) : put m p [] = m := by
  funext q
  simp [put]

theorem put_cons (m : Bytes β) (p : Ptr β) (c : UInt8) (l : List UInt8) :
    put (update m p c) (p + (1 : ℤ)) l = put m p (c :: l) := by
  funext q
  unfold put
  rw [Ptr.block_add, Ptr.index_add]
  by_cases hblock : q.block = p.block
  · rcases lt_trichotomy q.index p.index with hlt | heq | hgt
    · have hne : q ≠ p := fun h => hlt.ne (h ▸ rfl)
      rw [if_neg (by omega), if_neg (by omega), Function.update_of_ne hne]
    · obtain rfl : q = p := Ptr.ext hblock heq
      rw [if_neg (by omega), if_pos ⟨rfl, le_rfl⟩]
      simp
    · have hne : q ≠ p := fun h => hgt.ne' (h ▸ rfl)
      obtain ⟨k, hk⟩ := Int.eq_succ_of_zero_lt (Int.sub_pos_of_lt hgt)
      have hk' : q.index - (p.index + 1) = k := by omega
      rw [if_pos ⟨hblock, by omega⟩, if_pos ⟨hblock, by omega⟩, Function.update_of_ne hne, hk, hk']
      rfl
  · have hne : q ≠ p := fun h => hblock (h ▸ rfl)
    rw [if_neg (fun h => hblock h.1), if_neg (fun h => hblock h.1), Function.update_of_ne hne]

/-- Nothing else is changed. -/
theorem put_of_block_ne (h : q.block ≠ p.block) : put m p l q = m q :=
  if_neg fun hq => h hq.1

/-- What stands at a place depends on what stood there only. -/
theorem put_congr (hm : m q = m' q) : put m p l q = put m' p l q := by
  unfold put
  rw [hm]

/-- What is put last stands there, with what was put before behind it. -/
theorem put_put {a b c : List UInt8} (h : a.length = c.length) :
    put (put m p (a ++ b)) p c q = put m p (c ++ b) q := by
  unfold put
  split_ifs
  · generalize (q.index - p.index).toNat = i
    rcases lt_or_ge i c.length with hi | hi
    · rw [List.getElem?_append_left hi, List.getElem?_eq_getElem hi]
      rfl
    · rw [List.getElem?_append_right hi, List.getElem?_append_right (h ▸ hi), h,
        List.getElem?_eq_none hi]
      rfl
  · rfl

/-- Putting the same once more changes nothing. -/
theorem put_self : put (put m p l) p l q = put m p l q := by
  have hlength : l.length = l.length := rfl
  simpa using put_put (m := m) (p := p) (q := q) (b := []) hlength

/-- A string that has been put. -/
theorem stringAt_put (h : 0 ∉ s) (m : Bytes β) (p : Ptr β) (rest : List UInt8) :
    StringAt (put m p (s ++ 0 :: rest)) p s := by
  refine ⟨h, fun i hi => ?_⟩
  have hindex : ((p + (i : ℤ)).index - p.index).toNat = i := by simp
  rw [put, if_pos ⟨rfl, by simp⟩, hindex]
  rcases hi.lt_or_eq with hlt | rfl
  · rw [List.getElem?_append_left hlt]
    simp [hlt]
  · simp

theorem memset_runs (c : UInt8) (m : Bytes β) (p : Ptr β) (n : ℕ) :
    Runs (memset p c n) m (span .store p n) () (put m p (List.replicate n c)) := by
  induction n generalizing m p with
  | zero =>
    rw [span_zero, List.replicate_zero, put_nil]
    exact .pure () m
  | succ n ih =>
    rw [span_succ, List.replicate_succ, ← put_cons]
    exact (Runs.store p c m).bind (ih (update m p c) (p + (1 : ℤ)))

/-- A string that fits is copied, with NULs behind it up to the end. -/
theorem strncpy_runs (dest : Ptr β) (h : StringAt m src s) (hblock : src.block ≠ dest.block)
    (hn : s.length < n) :
    Runs (strncpy dest src n) m (span .load src (s.length + 1) ∪ span .store dest n) ()
      (put m dest (s ++ List.replicate (n - s.length) 0)) := by
  induction s generalizing m src dest n with
  | nil =>
    obtain ⟨n, rfl⟩ := Nat.exists_eq_succ_of_ne_zero (Nat.ne_of_gt hn)
    have hnul := stringAt_nil.1 h
    have hload := Runs.load src m
    rw [hnul] at hload
    rw [List.length_nil, span_succ .load, span_zero, Set.union_empty, span_succ .store,
      List.nil_append, Nat.sub_zero, List.replicate_succ, ← put_cons]
    exact hload.bind ((Runs.store dest 0 m).bind_eq (if_pos rfl) (memset_runs ..))
  | cons c s ih =>
    obtain ⟨n, rfl⟩ := Nat.exists_eq_succ_of_ne_zero (Nat.ne_of_gt (Nat.zero_lt_of_lt hn))
    obtain ⟨hc, hbyte, hs⟩ := stringAt_cons.1 h
    have hs' : StringAt (update m dest c) (src + (1 : ℤ)) s := by
      refine hs.congr fun q hq => Function.update_of_ne ?_ ..
      rintro rfl
      exact hblock hq.symm
    have hblock' : (src + (1 : ℤ)).block ≠ (dest + (1 : ℤ)).block := hblock
    have hload := Runs.load src m
    rw [hbyte] at hload
    have hrest : Runs (strncpy dest src (n + 1)) m _ () _ := hload.bind
      ((Runs.store dest c m).bind_eq (if_neg hc) (ih _ hs' hblock' (Nat.lt_of_succ_lt_succ hn)))
    rw [List.length_cons, span_succ .load, span_succ .store, Nat.succ_sub_succ, List.cons_append,
      ← put_cons]
    convert hrest using 1
    ext x
    simp only [Set.mem_union]
    tauto

end Library

end Memory
