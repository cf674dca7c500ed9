import IvySync.Linklist.Select
import IvySync.Saved.Roundtrip
import IvySync.Utils

/-!
# Completing a name

`Linklist::completion` writes the positions of the entries whose names start with the needle into
`compbuf`, which it clears before.  It clears as many bytes as the buffer has elements of four
bytes, that is the first 64 of them.  So what an earlier call has found behind these is still there:
`completed_iff`.
-/

namespace IvySync

namespace Linklist

open Function (update)

/-- `MAX_COMPLETION`. -/
def maxCompletion : ℕ := 256

/-- The memory from the member `compbuf` on, in elements of type `int`. -/
abbrev Compbuf := ℕ → ℤ

/-- `memset` with noughts over so many bytes. -/
def memset (compbuf : Compbuf) (n : ℕ) : Compbuf := fun i => if i < n / 4 then 0 else compbuf i

/-- The loop of `Linklist::completion`, given up after a number of rounds. -/
def completionLoop (h : Heap) (needle : Name) (len : ℤ) :
    ℕ → Option Addr → (c found : ℕ) → Compbuf → Option Compbuf
  | 0, _, _, _, _ => none
  | _ + 1, none, _, _, compbuf => some compbuf
  | fuel + 1, some ptr, c, found, compbuf =>
    if len = 0 then
      completionLoop h needle len fuel (h.next ptr) (c + 1) (found + 1) (update compbuf found c)
    else if strncasecmp needle (cString (h.name ptr)) (sizeT len) then
      completionLoop h needle len fuel (h.next ptr) (c + 1) (found + 1) (update compbuf found c)
    else completionLoop h needle len fuel (h.next ptr) (c + 1) found compbuf

/-- `Linklist::completion`: what it leaves in the memory from `compbuf` on. -/
def completion (L : ListId) (fuel : ℕ) (needle : Name) (h : Heap) (compbuf : Compbuf) :
    Option Compbuf :=
  let len := int32 needle.length
  let compbuf := memset compbuf maxCompletion
  match h.first L with
  | none => some compbuf
  | some ptr => completionLoop h needle len fuel (some ptr) 1 0 compbuf

variable {h h₀ : Heap} {L : ListId} {xs : Playlist Addr} {needle : Name} {files : Playlist Name}
  {fuel c found i : ℕ} {compbuf compbuf₀ : Compbuf} {l : List ℤ}

/-! ### One call -/

/-- The positions, counted from `c`, of the names that start with the needle in any case of their
letters. -/
def hits (needle : Name) (c : ℕ) (files : Playlist Name) : List ℤ :=
  ((files.zipIdx c).filter fun p => needle.map tolower <+: p.1.map tolower).map fun p => (p.2 : ℤ)

theorem hits_cons (needle name : Name) (c : ℕ) (files : Playlist Name) :
    hits needle c (name :: files) =
      if needle.map tolower <+: name.map tolower then (c : ℤ) :: hits needle (c + 1) files
      else hits needle (c + 1) files := by
  unfold hits
  rw [List.zipIdx_cons]
  split_ifs with hname
  · rw [List.filter_cons_of_pos (by simpa), List.map_cons]
  · rw [List.filter_cons_of_neg (by simpa)]

theorem length_hits_le (needle : Name) (c : ℕ) (files : Playlist Name) :
    (hits needle c files).length ≤ files.length := by
  unfold hits
  rw [List.length_map]
  exact (List.length_filter_le ..).trans_eq (List.length_zipIdx ..)

/-- Positions count from one. -/
theorem pos_of_mem_hits {x : ℤ} (hx : x ∈ hits needle 1 files) : 0 < x := by
  obtain ⟨p, hp, rfl⟩ := List.mem_map.1 hx
  have hle := List.le_snd_of_mem_zipIdx (List.mem_filter.1 hp).1
  omega

/-- They are found from the front. -/
theorem pairwise_hits (needle : Name) (c : ℕ) (files : Playlist Name) :
    (hits needle c files).Pairwise (· < ·) := by
  have hsub : (hits needle c files).Sublist ((files.zipIdx c).map fun p => (p.2 : ℤ)) :=
    List.filter_sublist.map _
  have hall : (files.zipIdx c).map (fun p => (p.2 : ℤ)) =
      (List.range' c files.length).map Nat.cast := by
    rw [← List.zipIdx_map_snd, List.map_map]
    rfl
  rw [hall] at hsub
  refine List.Pairwise.sublist hsub (List.pairwise_map.2 ?_)
  exact (List.pairwise_lt_range' ..).imp fun hlt => Int.ofNat_lt.2 hlt

/-- The needle is compared with as much of the name. -/
theorem strncasecmp_iff (needle name : Name) :
    strncasecmp needle name needle.length = true ↔ needle.map tolower <+: name.map tolower := by
  unfold strncasecmp
  rw [decide_eq_true_iff, List.take_length, List.map_take, List.prefix_iff_eq_take, List.length_map]

/-- The buffer with these elements from an index on. -/
def fill (compbuf : Compbuf) (found : ℕ) (l : List ℤ) : Compbuf := fun i =>
  if i < found then compbuf i else l[i - found]?.getD (compbuf i)

theorem fill_nil (compbuf : Compbuf) (found : ℕ) : fill compbuf found [] = compbuf := by
  funext i
  simp [fill]

theorem fill_cons (compbuf : Compbuf) (found : ℕ) (x : ℤ) (l : List ℤ) :
    fill (update compbuf found x) (found + 1) l = fill compbuf found (x :: l) := by
  funext i
  unfold fill
  rcases Nat.lt_trichotomy i found with hlt | rfl | hgt
  · rw [if_pos (by omega), if_pos hlt, Function.update_of_ne hlt.ne]
  · rw [if_pos (by omega), if_neg (by omega), Function.update_self, Nat.sub_self]
    rfl
  · obtain ⟨j, rfl⟩ := Nat.exists_eq_add_of_lt hgt
    rw [if_neg (by omega), if_neg (by omega), Function.update_of_ne (by omega)]
    have h1 : found + j + 1 - (found + 1) = j := by omega
    have h2 : found + j + 1 - found = j + 1 := by omega
    rw [h1, h2, List.getElem?_cons_succ]

/-- The loop writes the hits one behind the other. -/
theorem completionLoop_eq {o : Option Addr} (hneedle : needle.length < 2 ^ 31)
    (hvisits : Linked.Visits h.next o xs) (hfuel : xs.length < fuel) :
    completionLoop h needle (int32 needle.length) fuel o c found compbuf =
      some (fill compbuf found (hits needle c (names h xs))) := by
  have hlen : int32 needle.length = needle.length := by
    refine Int.bmod_eq_of_le ?_ ?_ <;> omega
  rw [hlen]
  induction xs generalizing o c found compbuf fuel with
  | nil =>
    obtain rfl : o = none := hvisits
    obtain ⟨fuel, rfl⟩ := Nat.exists_eq_succ_of_ne_zero (Nat.ne_of_gt hfuel)
    rw [completionLoop]
    exact congrArg some (fill_nil compbuf found).symm
  | cons a xs ih =>
    obtain ⟨rfl, hvisits⟩ := hvisits
    obtain ⟨fuel, rfl⟩ := Nat.exists_eq_succ_of_ne_zero (Nat.ne_of_gt (Nat.zero_lt_of_lt hfuel))
    have hfuel' : xs.length < fuel := Nat.lt_of_succ_lt_succ hfuel
    have hwhole : sizeT needle.length = needle.length := by
      unfold sizeT
      omega
    have hnames : names h (a :: xs) = cString (h.name a) :: names h xs := rfl
    rw [completionLoop, hwhole, hnames, hits_cons]
    by_cases hprefix : needle.map tolower <+: (cString (h.name a)).map tolower
    · rw [if_pos ((strncasecmp_iff ..).2 hprefix), ite_self, if_pos hprefix, ih hvisits hfuel',
        fill_cons]
    · have hne : (needle.length : ℤ) ≠ 0 := by
        intro hzero
        obtain rfl := List.length_eq_zero_iff.1 (Int.natCast_eq_zero.1 hzero)
        exact hprefix (List.nil_prefix ..)
      rw [if_neg hne, if_neg (fun heq => hprefix ((strncasecmp_iff ..).1 heq)), if_neg hprefix,
        ih hvisits hfuel']

/-- What a call leaves in the buffer and behind it. -/
theorem completion_eq (hw : WellFormed h L xs) (hneedle : needle.length < 2 ^ 31)
    (hfuel : xs.length < fuel) :
    completion L fuel needle h compbuf =
      some (fill (memset compbuf maxCompletion) 0 (hits needle 1 (names h xs))) := by
  unfold completion
  cases hfirst : h.first L with
  | none =>
    have hvisits := hw.forward
    rw [hfirst] at hvisits
    obtain rfl : xs = [] := by
      cases xs with
      | nil => rfl
      | cons a xs => cases hvisits.1
    exact congrArg some (fill_nil ..).symm
  | some ptr => exact completionLoop_eq hneedle (hfirst ▸ hw.forward) hfuel

/-- The call writes inside the buffer only, and leaves in it the positions of the entries whose
names start with the needle, in their order, and noughts behind them. -/
structure Completed (needle : Name) (files : Playlist Name) (compbuf compbuf' : Compbuf) :
    Prop where
  inside : ∀ i, maxCompletion ≤ i → compbuf' i = compbuf i
  result : ∀ i < maxCompletion, compbuf' i = (hits needle 1 files)[i]?.getD 0

/-- The positions in the buffer increase up to the noughts. -/
theorem Completed.increasing {compbuf' : Compbuf} (hc : Completed needle files compbuf compbuf')
    {j : ℕ} (hij : i < j) (hj : j < maxCompletion) (hne : compbuf' j ≠ 0) :
    compbuf' i < compbuf' j := by
  have hlt : j < (hits needle 1 files).length := by
    by_contra hge
    rw [hc.result j hj, List.getElem?_eq_none (by omega)] at hne
    exact hne rfl
  rw [hc.result i (hij.trans hj), hc.result j hj, List.getElem?_eq_getElem hlt,
    List.getElem?_eq_getElem (hij.trans hlt)]
  exact List.pairwise_iff_getElem.1 (pairwise_hits needle 1 files) i j (hij.trans hlt) hlt hij

/-- What is behind the hits and behind the part that is cleared is what was there before. -/
theorem completed_fill_iff (hfew : files.length < maxCompletion) :
    Completed needle files compbuf
        (fill (memset compbuf maxCompletion) 0 (hits needle 1 files)) ↔
      ∀ i < maxCompletion, 64 ≤ i → (hits needle 1 files).length ≤ i → compbuf i = 0 := by
  have hlength := length_hits_le needle 1 files
  have hfill : ∀ i, (hits needle 1 files).length ≤ i →
      fill (memset compbuf maxCompletion) 0 (hits needle 1 files) i =
        if i < 64 then 0 else compbuf i := by
    intro i hi
    rw [fill, if_neg (by omega), Nat.sub_zero, List.getElem?_eq_none hi]
    rfl
  have h256 : maxCompletion = 256 := rfl
  constructor
  · rintro ⟨-, hresult⟩ i hi h64 hbehind
    have hzero := hresult i hi
    rwa [hfill i hbehind, if_neg (by omega), List.getElem?_eq_none hbehind] at hzero
  · intro hzero
    refine ⟨fun i hi => ?_, fun i hi => ?_⟩
    · rw [hfill i (by omega), if_neg (by omega)]
    · rcases Nat.lt_or_ge i (hits needle 1 files).length with hlt | hbehind
      · rw [fill, if_neg (by omega), Nat.sub_zero, List.getElem?_eq_getElem hlt]
        rfl
      · rw [hfill i hbehind, List.getElem?_eq_none hbehind]
        split_ifs with h64
        · rfl
        · exact hzero i hi (by omega) hbehind

/-! ### A history of calls -/

/-- What is done with a list: a name is completed, or the list is edited. -/
inductive Using
  | completion (needle : Name)
  | edited (h : Heap)

/-- The list has room in the buffer when a name is completed; edits leave it well formed. -/
def Using.Allowed (L : ListId) (h : Heap) : Using → Prop
  | .completion needle =>
    needle.length < 2 ^ 31 ∧ ∃ xs, WellFormed h L xs ∧ xs.length < maxCompletion
  | .edited h' => ∃ xs, WellFormed h' L xs

/-- A list with its buffer. -/
def completing (L : ListId) : Machine (Heap × Compbuf) Using Unit where
  next s a :=
    match a with
    | .completion needle =>
      (completion L maxCompletion needle s.1 s.2).map fun compbuf => ((s.1, compbuf), ())
    | .edited h => some ((h, s.2), ())

/-- The same with the most hits of a call so far. -/
def counting (L : ListId) : Machine ((Heap × Compbuf) × ℕ) Using Unit :=
  (completing L).track fun most s a _ =>
    match a with
    | .completion needle => max most (hits needle 1 (names s.1 (reachable s.1 L))).length
    | .edited _ => most

theorem counting_completion {s : (Heap × Compbuf) × ℕ} (hw : WellFormed s.1.1 L xs)
    (hfew : xs.length < maxCompletion) (hneedle : needle.length < 2 ^ 31) :
    (counting L).next s (.completion needle) =
      some (((s.1.1, fill (memset s.1.2 maxCompletion) 0 (hits needle 1 (names s.1.1 xs))),
        max s.2 (hits needle 1 (names s.1.1 xs)).length), ()) := by
  refine Machine.track_next.2 ⟨?_, ?_⟩
  · dsimp only [completing]
    rw [completion_eq hw hneedle hfew, Option.map_some]
  · dsimp only
    rw [reachable_eq hw]

theorem counting_edited (s : (Heap × Compbuf) × ℕ) (h : Heap) :
    (counting L).next s (.edited h) = some (((h, s.1.2), s.2), ()) := rfl

/-- Behind the part that is cleared the buffer is as it was at first but where a call had a hit. -/
structure Used (compbuf₀ compbuf : Compbuf) (most : ℕ) : Prop where
  hit : ∀ i < most, 64 ≤ i → 0 < compbuf i
  rest : ∀ i, most ≤ i → 64 ≤ i → compbuf i = compbuf₀ i

theorem Used.refl (compbuf : Compbuf) : Used compbuf compbuf 0 :=
  ⟨fun _ hi => (Nat.not_lt_zero _ hi).elim, fun _ _ _ => rfl⟩

/-- What a call makes of it. -/
theorem Used.fill {most : ℕ} (hu : Used compbuf₀ compbuf most) (needle : Name)
    (files : Playlist Name) :
    Used compbuf₀ (fill (memset compbuf maxCompletion) 0 (hits needle 1 files))
      (max most (hits needle 1 files).length) := by
  have hcleared : ∀ i, 64 ≤ i → memset compbuf maxCompletion i = compbuf i := by
    intro i h64
    exact if_neg (by simp only [maxCompletion]; omega)
  refine ⟨fun i hi h64 => ?_, fun i hi h64 => ?_⟩
  · rw [Linklist.fill, if_neg (by omega), Nat.sub_zero, hcleared i h64]
    rcases Nat.lt_or_ge i (hits needle 1 files).length with hlt | hbehind
    · rw [List.getElem?_eq_getElem hlt]
      exact pos_of_mem_hits (List.getElem_mem hlt)
    · rw [List.getElem?_eq_none hbehind]
      exact hu.hit i ((lt_max_iff.1 hi).resolve_right (by omega)) h64
  · obtain ⟨hmost, hbehind⟩ := max_le_iff.1 hi
    rw [Linklist.fill, if_neg (by omega), Nat.sub_zero, hcleared i h64,
      List.getElem?_eq_none hbehind]
    exact hu.rest i hmost h64

/-- For every history of calls on a list that has room in the buffer, with edits in between, the
next call is as it should be exactly if no earlier one had more hits, beyond the 64 that are
cleared, and the buffer had noughts behind them at first. -/
theorem completed_iff {tr : List (Using × Unit)} {s : (Heap × Compbuf) × ℕ}
    (hrun : (counting L).RunOn (fun s a => a.Allowed L s.1.1) ((h₀, compbuf₀), 0) tr s)
    (hw : WellFormed s.1.1 L xs) (hfew : xs.length < maxCompletion)
    (hneedle : needle.length < 2 ^ 31) :
    ∃ compbuf, completion L maxCompletion needle s.1.1 s.1.2 = some compbuf ∧
      (Completed needle (names s.1.1 xs) s.1.2 compbuf ↔
        s.2 ≤ max 64 (hits needle 1 (names s.1.1 xs)).length ∧
          ∀ i < maxCompletion, 64 ≤ i → (hits needle 1 (names s.1.1 xs)).length ≤ i →
            compbuf₀ i = 0) := by
  have hu : Used compbuf₀ s.1.2 s.2 := by
    refine hrun.invariant (I := fun s => Used compbuf₀ s.1.2 s.2) ?_ (Used.refl compbuf₀)
    rintro s a t e hu ha hnext
    cases a with
    | completion needle =>
      obtain ⟨hneedle, xs, hw, hfew⟩ := ha
      rw [counting_completion hw hfew hneedle] at hnext
      obtain ⟨rfl, -⟩ := Prod.mk.inj (Option.some.inj hnext)
      exact hu.fill needle (names s.1.1 xs)
    | edited h =>
      rw [counting_edited] at hnext
      obtain ⟨rfl, -⟩ := Prod.mk.inj (Option.some.inj hnext)
      exact hu
  refine ⟨_, completion_eq hw hneedle hfew, ?_⟩
  rw [completed_fill_iff (by simpa [names])]
  have hlength := length_hits_le needle 1 (names s.1.1 xs)
  have hsame : (names s.1.1 xs).length = xs.length := by simp [names]
  have h256 : maxCompletion = 256 := rfl
  generalize (hits needle 1 (names s.1.1 xs)).length = found at hlength
  constructor
  · intro hzero
    have hmost : s.2 ≤ max 64 found := by
      by_contra hlt
      have hhit := hu.hit (max 64 found) (by omega) (by omega)
      rw [hzero (max 64 found) (by omega) (by omega) (by omega)] at hhit
      omega
    refine ⟨hmost, fun i hi h64 hbehind => ?_⟩
    rw [← hu.rest i (by omega) h64]
    exact hzero i hi h64 hbehind
  · rintro ⟨hmost, hzero⟩ i hi h64 hbehind
    rw [hu.rest i (by omega) h64]
    exact hzero i hi h64 hbehind

/-- A list of so many entries that are called `a`. -/
def appended : ℕ → Heap
  | 0 => new 0 unused
  | n + 1 => (Decoder.append 0 (appended n) ⟨n + 1, [], [97]⟩).1

theorem exists_wellFormed_appended (n : ℕ) :
    ∃ xs, WellFormed (appended n) 0 xs ∧ xs.length = n ∧ ∀ a ∈ xs, a ≤ n := by
  induction n with
  | zero => exact ⟨[], wellFormed_new 0 unused, rfl, by simp⟩
  | succ n ih =>
    obtain ⟨xs, hw, hlength, hle⟩ := ih
    have hnew : n + 1 ∉ xs := fun hmem => Nat.not_succ_le_self n (hle _ hmem)
    have hedited := append_edited (x := ⟨n + 1, [], [97]⟩) hw hnew
    refine ⟨xs.append (n + 1), hedited.wellFormed, ?_, ?_⟩
    · simp [Playlist.append, hlength]
    · intro a ha
      rcases List.mem_append.1 ha with hold | hlast
      · exact (hle a hold).trans (Nat.le_succ n)
      · exact (List.mem_singleton.1 hlast).le

/-- The empty needle finds every entry. -/
theorem length_hits_nil (c : ℕ) (files : Playlist Name) :
    (hits [] c files).length = files.length := by
  unfold hits
  rw [List.length_map, List.filter_eq_self.2 (by simp), List.length_zipIdx]

/-- All of these entries are found, and then the list is edited. -/
theorem exists_runOn_appended {n : ℕ} (hn : n < maxCompletion) (hw : WellFormed h 0 xs) :
    ∃ tr compbuf, (counting 0).RunOn (fun s a => a.Allowed 0 s.1.1)
      ((appended n, fun _ => 0), 0) tr ((h, compbuf), n) ∧ Used (fun _ => 0) compbuf n := by
  obtain ⟨ys, hy, rfl, -⟩ := exists_wellFormed_appended n
  have hneedle : ([] : Name).length < 2 ^ 31 := by decide
  have hfound := counting_completion (s := ((appended ys.length, fun _ => 0), 0)) hy hn hneedle
  have hu := (Used.refl fun _ => 0).fill [] (names (appended ys.length) ys)
  rw [Nat.zero_max, length_hits_nil, names, List.length_map] at hfound hu
  have hallowed : (Using.completion []).Allowed 0 (appended ys.length) := ⟨hneedle, ys, hy, hn⟩
  have hallowed' : (Using.edited h).Allowed 0 (appended ys.length) := ⟨xs, hw⟩
  exact ⟨_, _, .cons hallowed hfound (.single hallowed' (counting_edited _ h)), hu⟩

/-- A name is completed in a list of three entries after one was in a list of another one. -/
theorem completed_three : ∃ compbuf compbuf', completion 0 maxCompletion [97] threeEntries compbuf =
    some compbuf' ∧ Completed [97] (names threeEntries [1, 2, 3]) compbuf compbuf' := by
  have hw : WellFormed threeEntries 0 [1, 2, 3] := by decide +kernel
  have hn : 1 < maxCompletion := by decide
  obtain ⟨tr, compbuf, hrun, -⟩ := exists_runOn_appended hn hw
  have hneedle : [(97 : UInt8)].length < 2 ^ 31 := by decide
  obtain ⟨compbuf', hcompbuf', hiff⟩ := completed_iff hrun hw (by decide) hneedle
  have hmost : 1 ≤ max 64 (hits [97] 1 (names threeEntries [1, 2, 3])).length :=
    le_max_of_le_left (by decide)
  exact ⟨compbuf, compbuf', hcompbuf', hiff.2 ⟨hmost, fun _ _ _ _ => rfl⟩⟩

/-- After 65 hits in a list that is then emptied, the last of them is still in the buffer. -/
theorem not_completed : ¬ ∀ (L : ListId) (h₀ : Heap) (compbuf₀ : Compbuf)
    (tr : List (Using × Unit)) (s : (Heap × Compbuf) × ℕ) (xs : Playlist Addr) (needle : Name)
    (compbuf : Compbuf),
    (counting L).RunOn (fun s a => a.Allowed L s.1.1) ((h₀, compbuf₀), 0) tr s →
    WellFormed s.1.1 L xs → xs.length < maxCompletion → needle.length < 2 ^ 31 →
    completion L maxCompletion needle s.1.1 s.1.2 = some compbuf →
    Completed needle (names s.1.1 xs) s.1.2 compbuf := by
  intro hall
  have hw := wellFormed_new 0 unused
  have hn : 65 < maxCompletion := by decide
  have hneedle : ([] : Name).length < 2 ^ 31 := by decide
  have hfew : ([] : Playlist Addr).length < maxCompletion := by decide
  obtain ⟨tr, compbuf, hrun, hu⟩ := exists_runOn_appended hn hw
  have hcompleted := hall 0 _ _ tr _ [] [] _ hrun hw hfew hneedle (completion_eq hw hneedle hfew)
  have hzero := (completed_fill_iff hfew).1 hcompleted 64 (by decide) le_rfl (Nat.zero_le 64)
  have hhit := hu.hit 64 (by decide) le_rfl
  exact hhit.ne' hzero

end Linklist

end IvySync
