import IvySync.Decoder.Defs
import IvySync.Foundation.Text
import IvySync.Linklist.Defs

/-!
# Strings

`chomp` and `get_time` of `utils.cpp`, and the functions of the C library that the command line and
the playlist files are read and written with.  A buffer is a list of bytes of its size, and the
string in it goes up to its first NUL; a string that has been formatted is given without the NUL.
-/

namespace IvySync

/-! ### Numbers in texts -/

/-- The conversion `%u` of a number that fits. -/
def decimal (n : ℕ) : Name := (Nat.toDigits 10 n).map fun c => UInt8.ofNat c.toNat

/-- The conversion `%u` of an `int`. -/
def printU (n : ℤ) : Name := decimal (n % 2 ^ 32).toNat

/-- An `int` has at most ten digits. -/
theorem length_printU (n : ℤ) : (printU n).length ≤ 10 := by
  have hlt : (n % 2 ^ 32).toNat < 10 ^ 10 := by omega
  rw [printU, decimal, List.length_map]
  exact (Nat.length_toDigits_le_iff (b := 10) (k := 10) (by omega) (by omega)).mpr hlt

/-- What `snprintf` puts into a buffer for which it is told the size `n`. -/
def snprintf (n : ℕ) (text : Name) : Name := text.take (n - 1)

/-- `isspace`. -/
def isspace (c : UInt8) : Bool := c = 32 || 9 ≤ c && c ≤ 13

/-- `isdigit`. -/
def isdigit (c : UInt8) : Bool := 48 ≤ c && c ≤ 57

/-- The number that the digits at the front of a string make. -/
def leadingNumber (s : Name) : ℕ :=
  (s.takeWhile isdigit).foldl (fun n c => n * 10 + (c.toNat - 48)) 0

/-- `atoi` of a number that an `int` can hold. -/
def atoi (s : Name) : ℤ :=
  match s.dropWhile isspace with
  | [] => 0
  | c :: rest =>
    if c = 45 then -leadingNumber rest
    else if c = 43 then leadingNumber rest
    else leadingNumber (c :: rest)

/-- The sign of a number, whether it is a minus, and the text behind it. -/
def sign : Name → Bool × Name
  | [] => (false, [])
  | c :: s => if c = 45 then (true, s) else if c = 43 then (false, s) else (false, c :: s)

/-- `strtol` with the base 10 and a `long` of 64 bits: the number and the text behind it, if there
is one. -/
def strtol (s : Name) : Option (ℤ × Name) :=
  let (minus, s) := sign (s.dropWhile isspace)
  let n : ℤ := leadingNumber s
  if s.takeWhile isdigit = [] then none
  else some (max (-2 ^ 63) (min (2 ^ 63 - 1) (if minus then -n else n)), s.dropWhile isdigit)

/-- `atoi` of any text: `strtol` and the conversion to `int`. -/
def atoi32 (s : Name) : ℤ :=
  match strtol s with
  | none => 0
  | some (n, _) => int32 n

/-- `strstr` finds the needle. -/
def strstr (haystack needle : Name) : Bool := needle <:+: haystack

/-! ### Comparing -/

/-- `tolower` in the C locale. -/
def tolower (c : UInt8) : UInt8 := if 65 ≤ c ∧ c ≤ 90 then c + 32 else c

/-- Whether `strncasecmp` finds two C strings equal in their first `n` bytes. -/
def strncasecmp (s t : Name) (n : ℕ) : Bool := (s.take n).map tolower = (t.take n).map tolower

/-! ### Lines -/

namespace FILE

/-- `fgets` into the buffer `s`, for which it is told the size; `none` is the NULL that it returns
when nothing is left. -/
def fgets (s : List UInt8) (size : ℕ) (f : FILE) : Option (List UInt8 × FILE) :=
  let rest := (f.movie.drop f.offset).take (size - 1)
  let line := rest.takeWhile (· ≠ 10) ++ (rest.dropWhile (· ≠ 10)).take 1
  if rest = [] then none
  else some (line ++ 0 :: s.drop (line.length + 1),
    { f with offset := f.offset + line.length, eof := f.eof || 10 ∉ rest && rest.length < size - 1 })

/-- A line that has been read leaves less of the file to be read. -/
theorem fgets_lt {s line : List UInt8} {size : ℕ} {f f' : FILE}
    (h : f.fgets s size = some (line, f')) :
    f'.movie.length - f'.offset < f.movie.length - f.offset := by
  unfold fgets at h
  dsimp only at h
  split_ifs at h with hrest
  obtain ⟨-, rfl⟩ := Prod.mk.inj (Option.some.inj h)
  have hle := List.length_take_le (size - 1) (f.movie.drop f.offset)
  have hpos := List.length_pos_iff.mpr hrest
  have hsplit := congrArg List.length (List.takeWhile_append_dropWhile
    (p := (· ≠ 10)) (l := (f.movie.drop f.offset).take (size - 1)))
  have hle' := List.length_take_le' (size - 1) (f.movie.drop f.offset)
  rw [List.length_append] at hsplit
  rw [List.length_drop] at hle'
  simp only [List.length_append, List.length_take (i := 1)]
  omega

/-- A line that fits is read with the newline behind it. -/
theorem fgets_line (s : List UInt8) (size : ℕ) {name rest : List UInt8} {f : FILE}
    (hf : f.movie.drop f.offset = name ++ 10 :: rest) (hname : 10 ∉ name)
    (hsize : name.length + 1 < size) :
    f.fgets s size = some (name ++ 10 :: 0 :: s.drop (name.length + 2),
      { f with offset := f.offset + (name.length + 1) }) := by
  obtain ⟨k, hk⟩ : ∃ k, size - 1 = name.length + (k + 1) := ⟨size - 1 - name.length - 1, by omega⟩
  have htake : (f.movie.drop f.offset).take (size - 1) = name ++ 10 :: rest.take k := by
    rw [hf, hk, List.take_append, List.take_of_length_le (by omega), Nat.add_sub_cancel_left,
      List.take_succ_cons]
  unfold fgets
  dsimp only
  rw [htake, Text.takeWhile_line hname, Text.dropWhile_line hname, if_neg (by simp)]
  simp

/-- A line that the file ends before its newline is read with the end-of-file indicator set. -/
theorem fgets_unterminated (s : List UInt8) (size : ℕ) {f : FILE}
    (hne : f.movie.drop f.offset ≠ []) (hname : 10 ∉ f.movie.drop f.offset)
    (hsize : (f.movie.drop f.offset).length + 1 < size) :
    ∃ line f', f.fgets s size = some (line, f') ∧ f'.eof = true := by
  have htake : (f.movie.drop f.offset).take (size - 1) = f.movie.drop f.offset :=
    List.take_of_length_le (by omega)
  unfold fgets
  dsimp only
  rw [htake, if_neg hne]
  refine ⟨_, _, rfl, ?_⟩
  have hlt : (f.movie.drop f.offset).length < size - 1 := by omega
  simp only [hname, hlt, not_false_eq_true, decide_true, Bool.and_self, Bool.or_true]

/-- Nothing is read behind the end of the file. -/
theorem fgets_end {s : List UInt8} {size : ℕ} {f : FILE} (hf : f.movie.drop f.offset = []) :
    f.fgets s size = none := by
  unfold fgets
  simp [hf]

end FILE

/-- `MAX_CHOMP_SIZE`. -/
def maxChompSize : ℕ := 1024

/-- The blanks that `chomp` drops at the front. -/
def blank (c : UInt8) : Bool := c = 32 || c = 9

/-- Those that it drops at the end. -/
def blankOrNewline (c : UInt8) : Bool := blank c || c = 10

/-- The second loop of `chomp`, from the end of a string of a given length.  Where nothing is left
the source looks at the byte in front of the buffer, and leaves the loop whatever it is. -/
def chompEnd (tmp : List UInt8) : ℕ → List UInt8
  | 0 => tmp
  | len + 1 =>
    match tmp[len]? with
    | some c => if blankOrNewline c then chompEnd (tmp.set len 0) len else tmp
    | none => tmp

/-- `chomp` on the buffer `str`. -/
def chomp (str : List UInt8) : List UInt8 :=
  let tmp := strncpy (List.replicate maxChompSize 0) (str.dropWhile blank) maxChompSize
  strncpy str (chompEnd tmp (cString tmp).length) maxChompSize

/-- The string behind some bytes that are no NUL. -/
theorem cString_append {s rest : List UInt8} (hs : 0 ∉ s) : cString (s ++ 0 :: rest) = s :=
  Text.takeWhile_line hs

/-- Copying a string into a buffer in which it fits. -/
theorem strncpy_string (dest rest : List UInt8) {s : List UInt8} {n : ℕ} (hs : 0 ∉ s)
    (hn : s.length < n) :
    strncpy dest (s ++ 0 :: rest) n = s ++ List.replicate (n - s.length) 0 ++ dest.drop n := by
  unfold strncpy
  rw [cString_append hs, List.take_of_length_le hn.le]

/-- The NULs behind a string that fits. -/
theorem replicate_sub {s : List UInt8} {n : ℕ} (hn : s.length < n) :
    List.replicate (n - s.length) (0 : UInt8) = 0 :: List.replicate (n - s.length - 1) 0 := by
  rw [← List.replicate_succ]
  congr 1
  omega

/-- The second loop of `chomp` drops the blanks and newlines at the end of a string. -/
theorem chompEnd_eq (t : Name) (k : ℕ) :
    ∃ k', chompEnd (t ++ 0 :: List.replicate k 0) t.length =
      t.rdropWhile blankOrNewline ++ 0 :: List.replicate k' 0 := by
  induction t using List.reverseRecOn generalizing k with
  | nil => exact ⟨k, rfl⟩
  | append_singleton t c ih =>
    have hget : (t ++ [c] ++ 0 :: List.replicate k 0)[t.length]? = some c := by simp
    rw [List.length_append, List.length_singleton, chompEnd, hget, List.rdropWhile_concat]
    dsimp only
    split_ifs with hc
    · have hset : (t ++ [c] ++ 0 :: List.replicate k 0).set t.length 0 =
          t ++ 0 :: List.replicate (k + 1) 0 := by
        simp [List.replicate_succ]
      rw [hset]
      exact ih (k + 1)
    · exact ⟨k, rfl⟩

/-- A string without blanks at its ends, and without newlines at its end. -/
def trimmed (s : Name) : Name := (s.dropWhile blank).rdropWhile blankOrNewline

theorem trimmed_sublist (s : Name) : (trimmed s).Sublist s :=
  (List.rdropWhile_prefix _ _).sublist.trans (List.dropWhile_suffix _).sublist

/-- Nothing is left exactly if there are only blanks and newlines. -/
theorem trimmed_eq_nil_iff {s : Name} : trimmed s = [] ↔ ∀ c ∈ s, blankOrNewline c = true := by
  rw [trimmed, List.rdropWhile_eq_nil_iff]
  constructor
  · intro h c hc
    rw [← List.takeWhile_append_dropWhile (p := blank) (l := s), List.mem_append] at hc
    rcases hc with hc | hc
    · have hblank : blank c = true := List.mem_takeWhile_imp hc
      simp [blankOrNewline, hblank]
    · exact h c hc
  · intro h c hc
    exact h c ((List.dropWhile_suffix blank).subset hc)

/-- A trimmed string stays as it is. -/
theorem trimmed_trimmed (s : Name) : trimmed (trimmed s) = trimmed s := by
  have hfront : (trimmed s).dropWhile blank = trimmed s := by
    rw [List.dropWhile_eq_self_iff]
    intro hpos
    have hkept : trimmed s <+: s.dropWhile blank := List.rdropWhile_prefix _ _
    have hpos' : 0 < (s.dropWhile blank).length := hpos.trans_le hkept.length_le
    rw [hkept.getElem hpos]
    exact List.dropWhile_get_zero_not blank s hpos'
  unfold trimmed at hfront ⊢
  rw [hfront]
  exact List.rdropWhile_idempotent ..

/-- `chomp` drops the blanks at both ends of a string, and the newlines at its end, and fills the
first bytes of the buffer up with NULs. -/
theorem chomp_eq {s : List UInt8} (rest : List UInt8) (hs : 0 ∉ s) (hn : s.length < maxChompSize) :
    chomp (s ++ 0 :: rest) = trimmed s ++ List.replicate (maxChompSize - (trimmed s).length) 0 ++
      (s ++ 0 :: rest).drop maxChompSize := by
  have hfront : (s ++ 0 :: rest).dropWhile blank = s.dropWhile blank ++ 0 :: rest :=
    Text.dropWhile_append_of_not rfl
  have hlength : (s.dropWhile blank).length < maxChompSize :=
    (List.dropWhile_suffix blank).length_le.trans_lt hn
  have h0 : 0 ∉ s.dropWhile blank := fun h => hs ((List.dropWhile_suffix blank).subset h)
  have h0' : 0 ∉ trimmed s := fun h => hs ((trimmed_sublist s).subset h)
  unfold chomp
  dsimp only
  rw [hfront, strncpy_string _ rest h0 hlength, List.drop_replicate, Nat.sub_self,
    List.replicate_zero, List.append_nil, replicate_sub hlength, cString_append h0]
  obtain ⟨k, hk⟩ := chompEnd_eq (s.dropWhile blank) (maxChompSize - (s.dropWhile blank).length - 1)
  rw [hk]
  exact strncpy_string _ _ h0' ((trimmed_sublist s).length_le.trans_lt hn)

/-- What is left of the string. -/
theorem cString_chomp {s : List UInt8} (rest : List UInt8) (hs : 0 ∉ s)
    (hn : s.length < maxChompSize) :
    cString (chomp (s ++ 0 :: rest)) = (s.dropWhile blank).rdropWhile blankOrNewline := by
  have hfits : (trimmed s).length < maxChompSize := (trimmed_sublist s).length_le.trans_lt hn
  rw [chomp_eq rest hs hn, replicate_sub hfits, List.append_assoc, List.cons_append]
  exact cString_append fun h => hs ((trimmed_sublist s).subset h)

/-! ### Dates -/

/-- The two fields of `struct tm` that `load` looks at. -/
structure Tm where
  hour : ℤ
  min : ℤ
  deriving DecidableEq, Repr

/-- A number of at most two digits in `strptime`, with blanks in front of it.  The second digit is
taken only if the number can stay in the range with it. -/
def scanNumber (low high : ℕ) (s : Name) : Option (ℕ × Name) :=
  match s.dropWhile isspace with
  | [] => none
  | c :: rest =>
    if isdigit c then
      let one := c.toNat - 48
      let (number, rest) := match rest with
        | c' :: rest' =>
          if one * 10 ≤ high ∧ isdigit c' then (one * 10 + (c'.toNat - 48), rest') else (one, rest)
        | [] => (one, [])
      if low ≤ number ∧ number ≤ high then some (number, rest) else none
    else none

/-- The bytes of a text. -/
def bytesOf (text : String) : Name := text.toList.map fun c => UInt8.ofNat c.toNat

/-- The months, each with its abbreviation. -/
def months : List (Name × Name) :=
  [("January", "Jan"), ("February", "Feb"), ("March", "Mar"), ("April", "Apr"), ("May", "May"),
    ("June", "Jun"), ("July", "Jul"), ("August", "Aug"), ("September", "Sep"), ("October", "Oct"),
    ("November", "Nov"), ("December", "Dec")].map (Prod.map bytesOf bytesOf)

/-- What is left behind a word, in any case of its letters. -/
def scanWord (word s : Name) : Option Name :=
  if (s.take word.length).map tolower = word.map tolower then some (s.drop word.length) else none

/-- The name of a month, in full or abbreviated. -/
def scanMonth (s : Name) : Option Name :=
  months.findSome? fun m => (scanWord m.1 s).or (scanWord m.2 s)

/-- `get_time`: `strptime` with the format `%d%b%y-%H%M`, which sets the fields as far as it
gets. -/
def getTime (f : Name) (tt : Tm) : Tm :=
  let time := do
    let (_, s) ← scanNumber 1 31 f
    let s ← scanMonth s
    let (_, s) ← scanNumber 0 99 s
    let s ← scanWord [45] s
    scanNumber 0 23 s
  match time with
  | none => tt
  | some (hour, s) =>
    match scanNumber 0 59 s with
    | none => { tt with hour := hour }
    | some (min, _) => ⟨hour, min⟩

example : getTime (bytesOf "12Aug05-0930-video1") ⟨0, 0⟩ = ⟨9, 30⟩ := by decide +kernel

end IvySync
