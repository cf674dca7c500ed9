import IvySync.Foundation.Memory
import IvySync.Utils

/-!
# What `chomp` accesses

`chomp` on pointers into two buffers, with every access to them; a condition reads `*p` once.  The
second loop looks at the byte that `p` points to before it asks whether anything is left of the
string, and `p` points in front of `tmp` when nothing is.  So `chomp` stays within `tmp` exactly if
something is left: `chomped_iff`.  What it leaves in the buffer is right in any case, and is what
the function on buffers leaves (`chomp_refines`).
-/

namespace IvySync

namespace Pointer

open Memory

/-- The two buffers of `chomp`. -/
inductive Block
  | str
  | tmp
  deriving DecidableEq, Repr

/-- The buffer that is passed to `chomp`. -/
def str : Ptr Block := ⟨.str, 0⟩

/-- The buffer on the stack. -/
def tmp : Ptr Block := ⟨.tmp, 0⟩

/-- The first loop of `chomp`, given up after a number of rounds: `p` behind the spaces and tabs at
the beginning. -/
def chompFront : ℕ → Ptr Block → Prog Block (Ptr Block)
  | 0, _ => failure
  | fuel + 1, p => do
    if blank (← load p) then chompFront fuel (p + (1 : ℤ))
    else return p

/-- The second loop of `chomp`, given up after a number of rounds. -/
def chompEnd : ℕ → Ptr Block → (len : ℕ) → Prog Block Unit
  | 0, _, _ => failure
  | fuel + 1, p, len => do
    if blankOrNewline (← load p) && len ≠ 0 then
      store p 0
      chompEnd fuel (p - (1 : ℤ)) (len - 1)
    else return ()

/-- `chomp`.  When `len` is nought, `len-1` wraps around and the pointer with it, so that it points
in front of `tmp`. -/
def chomp (fuel : ℕ) : Prog Block Unit := do
  memset tmp 0 maxChompSize
  let p ← chompFront fuel str
  Memory.strncpy tmp p maxChompSize
  let len ← strlen fuel tmp
  chompEnd fuel (tmp + ((len : ℤ) - 1)) len
  Memory.strncpy str tmp maxChompSize

variable {m m' : Bytes Block} {p : Ptr Block} {s t : Name} {fuel : ℕ}

/-! ### The loops -/

/-- The first loop stops behind the blanks at the front of a string. -/
theorem chompFront_runs (h : StringAt m p s) (hfuel : s.length < fuel) :
    Runs (chompFront fuel p) m (span .load p ((s.takeWhile blank).length + 1))
      (p + ((s.takeWhile blank).length : ℤ)) m := by
  induction s generalizing p fuel with
  | nil =>
    obtain ⟨fuel, rfl⟩ := Nat.exists_eq_succ_of_ne_zero (Nat.ne_of_gt hfuel)
    have hblank : ¬ blank (m p) = true := by
      rw [stringAt_nil.1 h]
      decide
    have hpure : Runs (pure p : Prog Block (Ptr Block)) m ∅ (p + ((0 : ℕ) : ℤ)) m := by
      simpa using Runs.pure p m
    rw [List.takeWhile_nil, List.length_nil, span_succ, span_zero]
    exact (Runs.load p m).bind_eq (if_neg hblank) hpure
  | cons c s ih =>
    obtain ⟨fuel, rfl⟩ := Nat.exists_eq_succ_of_ne_zero (Nat.ne_of_gt (Nat.zero_lt_of_lt hfuel))
    obtain ⟨-, rfl, hs⟩ := stringAt_cons.1 h
    by_cases hblank : blank (m p) = true
    · have hrest := ih hs (Nat.lt_of_succ_lt_succ hfuel)
      rw [Ptr.add_add, add_comm (1 : ℤ)] at hrest
      rw [List.takeWhile_cons_of_pos hblank, List.length_cons, span_succ]
      exact (Runs.load p m).bind_eq (if_pos hblank) hrest
    · have hpure : Runs (pure p : Prog Block (Ptr Block)) m ∅ (p + ((0 : ℕ) : ℤ)) m := by
        simpa using Runs.pure p m
      rw [List.takeWhile_cons_of_neg hblank, List.length_nil, span_succ, span_zero]
      exact (Runs.load p m).bind_eq (if_neg hblank) hpure

/-- The second loop ends the string behind its last letter that is no blank and no newline.  It
looks at each letter behind that one and overwrites it, and at that one or, if there is none, in
front of the buffer. -/
theorem chompEnd_runs (h : StringAt m tmp s) (hfuel : s.length < fuel) :
    ∃ m' n, (s.rdropWhile blankOrNewline).length + n = s.length ∧
      Runs (chompEnd fuel (tmp + ((s.length : ℤ) - 1)) s.length) m
        (span .load (tmp + (((s.rdropWhile blankOrNewline).length : ℤ) - 1)) (n + 1) ∪
          span .store (tmp + ((s.rdropWhile blankOrNewline).length : ℤ)) n) () m' ∧
      StringAt m' tmp (s.rdropWhile blankOrNewline) ∧ ∀ q, q.block ≠ .tmp → m' q = m q := by
  induction s using List.reverseRecOn generalizing m fuel with
  | nil =>
    obtain ⟨fuel, rfl⟩ := Nat.exists_eq_succ_of_ne_zero (Nat.ne_of_gt hfuel)
    refine ⟨m, 0, rfl, ?_, h, fun _ _ => rfl⟩
    rw [span_zero, Set.union_empty, span_succ, span_zero]
    exact (Runs.load _ m).bind_eq (if_neg (by simp)) (.pure () m)
  | append_singleton s c ih =>
    obtain ⟨fuel, rfl⟩ := Nat.exists_eq_succ_of_ne_zero (Nat.ne_of_gt (Nat.zero_lt_of_lt hfuel))
    have hlength : (s ++ [c]).length = s.length + 1 := by simp
    have hfuel' : s.length < fuel := by omega
    have hbyte : m (tmp + (s.length : ℤ)) = c := by
      have hget := h.bytes s.length (by omega)
      simpa using hget
    have hlast : tmp + (((s ++ [c]).length : ℤ) - 1) = tmp + (s.length : ℤ) := by
      rw [hlength]
      push_cast
      rw [add_sub_cancel_right]
    have hload := Runs.load (tmp + (s.length : ℤ)) m
    rw [hbyte] at hload
    rw [List.rdropWhile_concat]
    by_cases hc : blankOrNewline c = true
    · obtain ⟨m', n, hn, hrun, hs, hrest⟩ := ih h.truncate hfuel'
      rw [if_pos hc, hlast, hlength]
      generalize (s.rdropWhile blankOrNewline).length = j at hn hrun ⊢
      have hnext : tmp + (s.length : ℤ) - (1 : ℤ) = tmp + ((s.length : ℤ) - 1) := by
        rw [Ptr.sub_eq_add_neg, Ptr.add_add, ← sub_eq_add_neg]
      have hloads : tmp + ((j : ℤ) - 1) + ((n + 1 : ℕ) : ℤ) = tmp + (s.length : ℤ) := by
        rw [Ptr.add_add]
        congr 1
        omega
      have hstores : tmp + (j : ℤ) + (n : ℤ) = tmp + (s.length : ℤ) := by
        rw [Ptr.add_add]
        congr 1
        omega
      have hblank : (blankOrNewline c && decide (s.length + 1 ≠ 0)) = true := by simp [hc]
      refine ⟨m', n + 1, by omega, ?_, hs, ?_⟩
      · rw [← hnext] at hrun
        have hall : Runs (chompEnd (fuel + 1) (tmp + (s.length : ℤ)) (s.length + 1)) m _ () m' :=
          hload.bind_eq (if_pos hblank) ((Runs.store _ 0 m).bind hrun)
        rw [span_concat .load, hloads, span_concat .store, hstores]
        convert hall using 1
        ext x
        simp only [Set.mem_union]
        tauto
      · intro q hq
        rw [hrest q hq, Function.update_of_ne]
        rintro rfl
        exact hq rfl
    · have hblank : ¬ (blankOrNewline c && decide (s.length + 1 ≠ 0)) = true := by simp [hc]
      rw [if_neg hc, hlast]
      refine ⟨m, 0, rfl, ?_, h, fun _ _ => rfl⟩
      rw [hlength, span_zero, Set.union_empty, span_succ, span_zero]
      exact hload.bind_eq (if_neg hblank) (.pure () m)

/-! ### All of it -/

/-- The accesses of `chomp` to a string, in the order of its statements. -/
def accessed (s : Name) : Set (Access Block) :=
  let front := (s.takeWhile blank).length
  let rest := (s.dropWhile blank).length
  let kept := (trimmed s).length
  span .store tmp maxChompSize ∪
    (span .load str (front + 1) ∪
      (span .load (str + (front : ℤ)) (rest + 1) ∪ span .store tmp maxChompSize ∪
        (span .load tmp (rest + 1) ∪
          (span .load (tmp + ((kept : ℤ) - 1)) (rest - kept + 1) ∪
              span .store (tmp + (kept : ℤ)) (rest - kept) ∪
            (span .load tmp (kept + 1) ∪ span .store str maxChompSize)))))

/-- A string with NULs behind it, as many bytes as `tmp` has. -/
def filled (s : Name) : List UInt8 := s ++ List.replicate (maxChompSize - s.length) 0

theorem stringAt_filled (h : 0 ∉ s) (hn : s.length < maxChompSize) (m : Bytes Block)
    (p : Ptr Block) : StringAt (put m p (filled s)) p s := by
  rw [filled, replicate_sub hn]
  exact stringAt_put h m p _

/-- A string is what `chomp` skips and what it copies. -/
theorem length_takeWhile_add (s : Name) :
    (s.takeWhile blank).length + (s.dropWhile blank).length = s.length := by
  rw [← List.length_append, List.takeWhile_append_dropWhile]

/-- `chomp` puts what is left of the string into the buffer, with NULs behind it. -/
theorem chomp_runs (h : StringAt m str s) (hn : s.length < maxChompSize) (hfuel : s.length < fuel) :
    ∃ m', Runs (chomp fuel) m (accessed s) () m' ∧
      ∀ q, q.block = .str → m' q = put m str (filled (trimmed s)) q := by
  have hlength := length_takeWhile_add s
  have hrest : (s.dropWhile blank).length < maxChompSize := by omega
  have hrest' : (s.dropWhile blank).length < fuel := by omega
  -- `tmp` is cleared, and `p` goes to the first letter that is kept.
  have hclear := memset_runs 0 m tmp maxChompSize
  set m₁ := put m tmp (List.replicate maxChompSize 0) with hm₁
  have hs₁ : StringAt m₁ str s := h.congr fun q hq => put_of_block_ne (by rw [hq]; decide)
  have hfront := chompFront_runs hs₁ hfuel
  have hu₁ : StringAt m₁ (str + ((s.takeWhile blank).length : ℤ)) (s.dropWhile blank) :=
    StringAt.behind (by rwa [List.takeWhile_append_dropWhile])
  -- The rest of the string is copied.
  have hcopy := strncpy_runs tmp hu₁ (show str.block ≠ tmp.block by decide) hrest
  have hu₂ := stringAt_filled hu₁.notMem hrest m₁ tmp
  set m₂ := put m₁ tmp (filled (s.dropWhile blank)) with hm₂
  have hstrlen := strlen_runs hu₂ hrest'
  -- Its end is cut off, and it is copied back.
  obtain ⟨m₃, n, hlen, hend, ht₃, hsame⟩ := chompEnd_runs hu₂ hrest'
  obtain rfl : n = (s.dropWhile blank).length - (trimmed s).length := Nat.eq_sub_of_add_eq' hlen
  have hfits : (trimmed s).length < maxChompSize := (trimmed_sublist s).length_le.trans_lt hn
  have hback := strncpy_runs str ht₃ (by decide) hfits
  refine ⟨_, hclear.bind (hfront.bind (hcopy.bind (hstrlen.bind (hend.bind hback)))), ?_⟩
  intro q hq
  have htmp : q.block ≠ tmp.block := by
    rw [hq]
    decide
  refine put_congr ?_
  rw [hsame q htmp, hm₂, put_of_block_ne htmp, hm₁, put_of_block_ne htmp]

/-- The access is to one of the first bytes of its buffer, as many as `tmp` has. -/
def InBounds (x : Access Block) : Prop := 0 ≤ x.ptr.index ∧ x.ptr.index < maxChompSize

/-- Accesses in a row are in bounds if the first and the last one are. -/
theorem inBounds_of_mem_span {access : Ptr Block → Access Block} {x : Access Block} {n : ℕ} {i : ℤ}
    (hptr : ∀ q, (access q).ptr = q) (hx : x ∈ span access p n) (hp : p.index = i) (h0 : 0 ≤ i)
    (hn : i + n ≤ maxChompSize) : InBounds x := by
  obtain ⟨k, hk, hx⟩ := exists_of_mem_span hptr hx
  have hindex : x.ptr.index = p.index + k := congrArg Ptr.index hx
  unfold InBounds
  omega

/-- `chomp` looks at the last letter that it keeps or, if it keeps none, in front of `tmp`; all else
that it accesses is in bounds. -/
theorem inBounds_of_mem_accessed {x : Access Block} (hn : s.length < maxChompSize)
    (hx : x ∈ accessed s) :
    InBounds x ∨ x = .load (tmp + (((trimmed s).length : ℤ) - 1)) := by
  have hlength := length_takeWhile_add s
  have hkept : (trimmed s).length ≤ (s.dropWhile blank).length :=
    (List.rdropWhile_prefix blankOrNewline _).length_le
  have hload : ∀ q : Ptr Block, (Access.load q).ptr = q := fun _ => rfl
  have hstore : ∀ q : Ptr Block, (Access.store q).ptr = q := fun _ => rfl
  have hstr : ∀ i : ℤ, (str + i).index = i := Int.zero_add
  have htmp : ∀ i : ℤ, (tmp + i).index = i := Int.zero_add
  rcases hx with hx | hx | (hx | hx) | hx | (hx | hx) | hx | hx
  · exact .inl (inBounds_of_mem_span hstore hx (htmp 0) le_rfl (by omega))
  · exact .inl (inBounds_of_mem_span hload hx (hstr 0) le_rfl (by omega))
  · exact .inl (inBounds_of_mem_span hload hx (hstr _) (by omega) (by omega))
  · exact .inl (inBounds_of_mem_span hstore hx (htmp 0) le_rfl (by omega))
  · exact .inl (inBounds_of_mem_span hload hx (htmp 0) le_rfl (by omega))
  · rw [span_succ, Ptr.add_add] at hx
    rcases hx with hx | hx
    · exact .inr hx
    · exact .inl (inBounds_of_mem_span hload hx (htmp _) (by omega) (by omega))
  · exact .inl (inBounds_of_mem_span hstore hx (htmp _) (by omega) (by omega))
  · exact .inl (inBounds_of_mem_span hload hx (htmp 0) le_rfl (by omega))
  · exact .inl (inBounds_of_mem_span hstore hx (hstr 0) le_rfl (by omega))

/-- That it looks there. -/
theorem load_mem_accessed (s : Name) :
    .load (tmp + (((trimmed s).length : ℤ) - 1)) ∈ accessed s := by
  have hspan : .load (tmp + (((trimmed s).length : ℤ) - 1)) ∈
      span .load (tmp + (((trimmed s).length : ℤ) - 1))
        ((s.dropWhile blank).length - (trimmed s).length + 1) := by
    rw [span_succ]
    exact .inl rfl
  exact .inr (.inr (.inr (.inr (.inl (.inl hspan)))))

/-- A call on what another call has left changes nothing in the buffer, whatever it finds in
`tmp`. -/
theorem chomp_again {m₁ : Bytes Block} (h0 : 0 ∉ s) (hn : s.length < maxChompSize)
    (hfuel : s.length < fuel) (hm' : ∀ q, q.block = .str → m' q = put m str (filled (trimmed s)) q)
    (hm₁ : ∀ q, q.block = .str → m₁ q = m' q) :
    ∃ m₂ accesses, (chomp fuel).run ⟨m₁, []⟩ = some ((), ⟨m₂, accesses⟩) ∧
      ∀ q, q.block = .str → m₂ q = m₁ q := by
  have hle := (trimmed_sublist s).length_le
  have h0' : 0 ∉ trimmed s := fun h => h0 ((trimmed_sublist s).subset h)
  have hs₁ : StringAt m₁ str (trimmed s) :=
    (stringAt_filled h0' (hle.trans_lt hn) m str).congr fun q hq => (hm₁ q hq).trans (hm' q hq)
  obtain ⟨m₂, hrun, hstr⟩ := chomp_runs hs₁ (hle.trans_lt hn) (hle.trans_lt hfuel)
  obtain ⟨accesses, hrun', -⟩ := hrun.run_eq
  refine ⟨m₂, accesses, hrun', fun q hq => ?_⟩
  have hsame : m₁ q = put m str (filled (trimmed s)) q := (hm₁ q hq).trans (hm' q hq)
  rw [hstr q hq, trimmed_trimmed, put_congr hsame, put_self, hsame]

/-- The program on pointers leaves in the buffer what the function on buffers makes of it. -/
theorem chomp_refines (m : Bytes Block) {rest : List UInt8} (h0 : 0 ∉ s)
    (hn : s.length < maxChompSize) (hsize : maxChompSize ≤ (s ++ 0 :: rest).length)
    (hfuel : s.length < fuel) :
    ∃ m', Runs (chomp fuel) (put m str (s ++ 0 :: rest)) (accessed s) () m' ∧
      ∀ q, q.block = .str → m' q = put m str (IvySync.chomp (s ++ 0 :: rest)) q := by
  obtain ⟨m', hrun, hstr⟩ := chomp_runs (stringAt_put h0 m str rest) hn hfuel
  refine ⟨m', hrun, fun q hq => ?_⟩
  have hfits : (trimmed s).length ≤ maxChompSize := (trimmed_sublist s).length_le.trans hn.le
  have hfilled : ((s ++ 0 :: rest).take maxChompSize).length = (filled (trimmed s)).length := by
    rw [List.length_take_of_le hsize, filled, List.length_append, List.length_replicate]
    omega
  have hput := put_put (m := m) (p := str) (q := q)
    (b := (s ++ 0 :: rest).drop maxChompSize) hfilled
  rw [List.take_append_drop] at hput
  rw [hstr q hq, hput, chomp_eq rest h0 hn]
  rfl

/-! ### What is asked of it -/

/-- What is asked of a call of `chomp` on this string that leaves `m'` and has made these accesses.
A second call may find anything in `tmp`. -/
structure Chomped (fuel : ℕ) (s : Name) (m' : Bytes Block) (accesses : List (Access Block)) :
    Prop where
  inBounds : ∀ x ∈ accesses, InBounds x
  content : StringAt m' str (trimmed s)
  again : ∀ m₁ : Bytes Block, (∀ q, q.block = .str → m₁ q = m' q) →
    ∃ m₂ accesses₂, (chomp fuel).run ⟨m₁, []⟩ = some ((), ⟨m₂, accesses₂⟩) ∧
      ∀ q, q.block = .str → m₂ q = m₁ q

/-- For every string that fits into `tmp`, `chomp` returns, and it does what is asked of it exactly
if the string has a letter other than spaces, tabs and newlines. -/
theorem chomped_iff (h : StringAt m str s) (hn : s.length < maxChompSize)
    (hfuel : s.length < fuel) :
    ∃ m' accesses, (chomp fuel).run ⟨m, []⟩ = some ((), ⟨m', accesses⟩) ∧
      (Chomped fuel s m' accesses ↔ ∃ c ∈ s, blankOrNewline c = false) := by
  obtain ⟨m', hruns, hstr⟩ := chomp_runs h hn hfuel
  obtain ⟨accesses, hrun, haccesses⟩ := hruns.run_eq
  have hle := (trimmed_sublist s).length_le
  have h0 : 0 ∉ trimmed s := fun h0 => h.notMem ((trimmed_sublist s).subset h0)
  have hcontent : StringAt m' str (trimmed s) :=
    (stringAt_filled h0 (hle.trans_lt hn) m str).congr hstr
  refine ⟨m', accesses, hrun, ?_⟩
  constructor
  · intro hchomped
    by_contra hall
    have hnil : trimmed s = [] := by
      rw [trimmed_eq_nil_iff]
      simpa using hall
    have hload : .load (tmp + (((trimmed s).length : ℤ) - 1)) ∈ accesses :=
      haccesses.le (load_mem_accessed s)
    have hfront := (hchomped.inBounds _ hload).1
    rw [hnil] at hfront
    exact absurd hfront (by decide)
  · rintro ⟨c, hc, hblank⟩
    have hne : trimmed s ≠ [] := by
      intro hnil
      rw [trimmed_eq_nil_iff.1 hnil c hc] at hblank
      cases hblank
    have hpos := List.length_pos_iff.2 hne
    refine ⟨fun x hx => ?_, hcontent, fun m₁ => chomp_again h.notMem hn hfuel hstr⟩
    rcases inBounds_of_mem_accessed hn (haccesses.ge hx) with hin | rfl
    · exact hin
    · have hindex : (Access.load (tmp + (((trimmed s).length : ℤ) - 1))).ptr.index =
          ((trimmed s).length : ℤ) - 1 := Int.zero_add _
      unfold InBounds
      omega

/-- A line with blanks at both ends. -/
theorem chomped_line : ∃ m' accesses,
    (chomp 7).run ⟨put (fun _ => 0) str (bytesOf "  a.b\n" ++ 0 :: []), []⟩ =
      some ((), ⟨m', accesses⟩) ∧ Chomped 7 (bytesOf "  a.b\n") m' accesses := by
  obtain ⟨m', accesses, hrun, hiff⟩ := chomped_iff
    (stringAt_put (s := bytesOf "  a.b\n") (by decide +kernel) (fun _ => 0) str [])
    (by decide +kernel) (show _ < 7 by decide +kernel)
  exact ⟨m', accesses, hrun, hiff.2 (by decide +kernel)⟩

/-- An empty string lets `chomp` look in front of `tmp`. -/
theorem not_chomped : ¬ ∀ (fuel : ℕ) (m : Bytes Block) (s : Name), StringAt m str s →
    s.length < maxChompSize → s.length < fuel →
    ∃ m' accesses, (chomp fuel).run ⟨m, []⟩ = some ((), ⟨m', accesses⟩) ∧
      Chomped fuel s m' accesses := by
  intro hall
  have hempty : StringAt (fun _ => 0 : Bytes Block) str [] := stringAt_nil.2 rfl
  obtain ⟨m', accesses, hrun, hchomped⟩ := hall 1 _ [] hempty (by decide) (by decide)
  obtain ⟨m₂, hruns, -⟩ := chomp_runs hempty (by decide) (by decide : _ < 1)
  obtain ⟨-, -, haccesses⟩ := hruns.eq_of_run hrun
  exact absurd (hchomped.inBounds _ (haccesses.le (load_mem_accessed []))).1 (by decide)

end Pointer

end IvySync
