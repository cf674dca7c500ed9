import IvySync.Utils
import Mathlib.Data.Nat.Bitwise

/-!
# Binary data in texts

`put` and `get` of `base64.h`.  `put` ends a line behind every eighteen groups, also behind the last
group of the data, and `get` passes over all that is not a character of the alphabet.  What is put
is got again, whatever the data and wherever in a line it begins: `get_put`.
-/

namespace IvySync

namespace Base64

/-- `_base64Chars`. -/
def chars : List UInt8 :=
  bytesOf "ABCDEFGHIJKLMNOPQRSTUVWXYZabcdefghijklmnopqrstuvwxyz0123456789+/"

/-- The character of a number below 64. -/
def char (i : UInt8) : UInt8 := chars.getD i.toNat 0

/-- What a character is to `_getCharType`. -/
inductive CharType
  | value (i : UInt8)
  | equal
  | unknown
  deriving DecidableEq, Repr

/-- `_getCharType`. -/
def getCharType (ch : UInt8) : CharType :=
  if ch = 43 then .value 62
  else if ch = 47 then .value 63
  else if 65 ≤ ch ∧ ch ≤ 90 then .value (ch - 65)
  else if 97 ≤ ch ∧ ch ≤ 122 then .value (ch - 97 + 26)
  else if 48 ≤ ch ∧ ch ≤ 57 then .value (ch - 48 + 52)
  else if ch = 61 then .equal
  else .unknown

/-- Three bytes, which are four numbers of six bits. -/
@[ext] structure ThreeToFour where
  data0 : UInt8 := 0
  data1 : UInt8 := 0
  data2 : UInt8 := 0
  deriving DecidableEq, Repr

namespace ThreeToFour

def b64_0 (t : ThreeToFour) : UInt8 := (t.data0 &&& 0xFC) >>> 2

def b64_1 (t : ThreeToFour) : UInt8 := ((t.data0 &&& 0x03) <<< 4) + ((t.data1 &&& 0xF0) >>> 4)

def b64_2 (t : ThreeToFour) : UInt8 := ((t.data1 &&& 0x0F) <<< 2) + ((t.data2 &&& 0xC0) >>> 6)

def b64_3 (t : ThreeToFour) : UInt8 := t.data2 &&& 0x3F

def setB64_0 (ch : UInt8) (t : ThreeToFour) : ThreeToFour :=
  { t with data0 := ((ch &&& 0x3F) <<< 2) ||| (0x03 &&& t.data0) }

def setB64_1 (ch : UInt8) (t : ThreeToFour) : ThreeToFour :=
  { t with
    data0 := ((ch &&& 0x30) >>> 4) ||| (0xFC &&& t.data0)
    data1 := ((ch &&& 0x0F) <<< 4) ||| (0x0F &&& t.data1) }

def setB64_2 (ch : UInt8) (t : ThreeToFour) : ThreeToFour :=
  { t with
    data1 := ((ch &&& 0x3C) >>> 2) ||| (0xF0 &&& t.data1)
    data2 := ((ch &&& 0x03) <<< 6) ||| (0x3F &&& t.data2) }

def setB64_3 (ch : UInt8) (t : ThreeToFour) : ThreeToFour :=
  { t with data2 := (ch &&& 0x3F) ||| (0xC0 &&& t.data2) }

end ThreeToFour

/-- `put`, with the number of groups that stand on the line so far. -/
def put (lineOctets : ℕ) : List UInt8 → Name
  | [] => []
  | [a] =>
    let t : ThreeToFour := { data0 := a }
    [char t.b64_0, char t.b64_1, 61, 61]
  | [a, b] =>
    let t : ThreeToFour := { data0 := a, data1 := b }
    [char t.b64_0, char t.b64_1, char t.b64_2, 61]
  | a :: b :: c :: first =>
    let t : ThreeToFour := { data0 := a, data1 := b, data2 := c }
    char t.b64_0 :: char t.b64_1 :: char t.b64_2 :: char t.b64_3 ::
      if lineOctets = 17 then 10 :: put 0 first else put (lineOctets + 1) first

/-- The next character of the alphabet, and the text behind it. -/
def next : Name → Option (CharType × Name)
  | [] => none
  | c :: first => if getCharType c = .unknown then next first else some (getCharType c, first)

theorem next_lt {first rest : Name} {ch : CharType} (h : next first = some (ch, rest)) :
    rest.length < first.length := by
  induction first with
  | nil => simp [next] at h
  | cons c first ih =>
    rw [next] at h
    split_ifs at h
    · exact (ih h).trans (Nat.lt_succ_self _)
    · obtain ⟨-, rfl⟩ := Prod.mk.inj (Option.some.inj h)
      exact Nat.lt_succ_self _

/-- One turn of the loop of `get`: the bytes that it writes, and the text behind the group if the
loop goes on.  An end in the middle of a group loses what the group has so far. -/
def octet (first : Name) : List UInt8 × Option Name :=
  match next first with
  | some (.value ch0, first) =>
    match next first with
    | some (.value ch1, first) =>
      let t := (({} : ThreeToFour).setB64_0 ch0).setB64_1 ch1
      match next first with
      | some (.value ch2, first) =>
        let t := t.setB64_2 ch2
        match next first with
        | some (.value ch3, first) =>
          let t := t.setB64_3 ch3
          ([t.data0, t.data1, t.data2], some first)
        | some (.equal, _) =>
          let t := t.setB64_3 0
          ([t.data0, t.data1], none)
        | _ => ([], none)
      | some (.equal, _) =>
        let t := (t.setB64_2 0).setB64_3 0
        ([t.data0], none)
      | _ => ([], none)
    | _ => ([], none)
  | _ => ([], none)

/-- A whole group is shorter than the text. -/
theorem octet_lt {first rest : Name} {bytes : List UInt8} (h : octet first = (bytes, some rest)) :
    rest.length < first.length := by
  unfold octet at h
  split at h
  · next ch0 first0 h0 =>
    split at h
    · next ch1 first1 h1 =>
      split at h
      · next ch2 first2 h2 =>
        split at h
        · next ch3 first3 h3 =>
          obtain ⟨-, hrest⟩ := Prod.mk.inj h
          obtain rfl := Option.some.inj hrest
          calc
            first3.length < first2.length := next_lt h3
            _ < first1.length := next_lt h2
            _ < first0.length := next_lt h1
            _ < first.length := next_lt h0
        · simp at h
        · simp at h
      · simp at h
      · simp at h
    · simp at h
  · simp at h

/-- `get`: the bytes that it writes. -/
def get (first : Name) : List UInt8 :=
  match _h : octet first with
  | (bytes, some rest) => bytes ++ get rest
  | (bytes, none) => bytes
  termination_by first.length
  decreasing_by exact octet_lt _h

/-! ### Bits -/

/-- What holds of 256 numbers holds of every byte. -/
theorem forall_byte {P : UInt8 → Prop} (h : ∀ n : Fin 256, P (UInt8.ofFin n)) (a : UInt8) :
    P a := by
  simpa using h a.toFin

/-- Bits below some place are added to those from there on. -/
theorem toNat_or_left {x y : UInt8} {i k : ℕ} (hx : x.toNat = 2 ^ i * k) (hy : y.toNat < 2 ^ i) :
    (x ||| y).toNat = x.toNat + y.toNat := by
  rw [UInt8.toNat_or, hx, Nat.two_pow_add_eq_or_of_lt hy]

theorem toNat_or_right {x y : UInt8} {i k : ℕ} (hx : x.toNat < 2 ^ i) (hy : y.toNat = 2 ^ i * k) :
    (x ||| y).toNat = y.toNat + x.toNat := by
  rw [UInt8.or_comm, toNat_or_left hy hx]

namespace ThreeToFour

/-- The four numbers of three bytes. -/
theorem toNat_b64 (t : ThreeToFour) :
    t.b64_0.toNat = t.data0.toNat / 4 ∧
      t.b64_1.toNat = t.data0.toNat % 4 * 16 + t.data1.toNat / 16 ∧
      t.b64_2.toNat = t.data1.toNat % 16 * 4 + t.data2.toNat / 64 ∧
      t.b64_3.toNat = t.data2.toNat % 64 := by
  have h0 : ∀ a : UInt8, ((a &&& 0xFC) >>> 2).toNat = a.toNat / 4 := forall_byte (by decide +kernel)
  have h1 : ∀ a : UInt8, ((a &&& 0x03) <<< 4).toNat = a.toNat % 4 * 16 :=
    forall_byte (by decide +kernel)
  have h1' : ∀ a : UInt8, ((a &&& 0xF0) >>> 4).toNat = a.toNat / 16 :=
    forall_byte (by decide +kernel)
  have h2 : ∀ a : UInt8, ((a &&& 0x0F) <<< 2).toNat = a.toNat % 16 * 4 :=
    forall_byte (by decide +kernel)
  have h2' : ∀ a : UInt8, ((a &&& 0xC0) >>> 6).toNat = a.toNat / 64 :=
    forall_byte (by decide +kernel)
  have h3 : ∀ a : UInt8, (a &&& 0x3F).toNat = a.toNat % 64 := forall_byte (by decide +kernel)
  have hlt0 := t.data0.toNat_lt
  have hlt1 := t.data1.toNat_lt
  have hlt2 := t.data2.toNat_lt
  refine ⟨h0 _, ?_, ?_, h3 _⟩
  · rw [b64_1, UInt8.toNat_add, h1, h1', Nat.mod_eq_of_lt (by omega)]
  · rw [b64_2, UInt8.toNat_add, h2, h2', Nat.mod_eq_of_lt (by omega)]

/-- The three bytes of four numbers. -/
theorem toNat_setB64 (ch : UInt8) (t : ThreeToFour) :
    (t.setB64_0 ch).data0.toNat = ch.toNat % 64 * 4 + t.data0.toNat % 4 ∧
      (t.setB64_1 ch).data0.toNat = t.data0.toNat / 4 * 4 + ch.toNat / 16 % 4 ∧
      (t.setB64_1 ch).data1.toNat = ch.toNat % 16 * 16 + t.data1.toNat % 16 ∧
      (t.setB64_2 ch).data1.toNat = t.data1.toNat / 16 * 16 + ch.toNat / 4 % 16 ∧
      (t.setB64_2 ch).data2.toNat = ch.toNat % 4 * 64 + t.data2.toNat % 64 ∧
      (t.setB64_3 ch).data2.toNat = t.data2.toNat / 64 * 64 + ch.toNat % 64 := by
  have h0 : ∀ a : UInt8, ((a &&& 0x3F) <<< 2).toNat = a.toNat % 64 * 4 :=
    forall_byte (by decide +kernel)
  have h0' : ∀ a : UInt8, (0x03 &&& a).toNat = a.toNat % 4 := forall_byte (by decide +kernel)
  have h1 : ∀ a : UInt8, ((a &&& 0x30) >>> 4).toNat = a.toNat / 16 % 4 :=
    forall_byte (by decide +kernel)
  have h1' : ∀ a : UInt8, (0xFC &&& a).toNat = a.toNat / 4 * 4 := forall_byte (by decide +kernel)
  have h2 : ∀ a : UInt8, ((a &&& 0x0F) <<< 4).toNat = a.toNat % 16 * 16 :=
    forall_byte (by decide +kernel)
  have h2' : ∀ a : UInt8, (0x0F &&& a).toNat = a.toNat % 16 := forall_byte (by decide +kernel)
  have h3 : ∀ a : UInt8, ((a &&& 0x3C) >>> 2).toNat = a.toNat / 4 % 16 :=
    forall_byte (by decide +kernel)
  have h3' : ∀ a : UInt8, (0xF0 &&& a).toNat = a.toNat / 16 * 16 := forall_byte (by decide +kernel)
  have h4 : ∀ a : UInt8, ((a &&& 0x03) <<< 6).toNat = a.toNat % 4 * 64 :=
    forall_byte (by decide +kernel)
  have h4' : ∀ a : UInt8, (0x3F &&& a).toNat = a.toNat % 64 := forall_byte (by decide +kernel)
  have h5 : ∀ a : UInt8, (a &&& 0x3F).toNat = a.toNat % 64 := forall_byte (by decide +kernel)
  have h5' : ∀ a : UInt8, (0xC0 &&& a).toNat = a.toNat / 64 * 64 := forall_byte (by decide +kernel)
  refine ⟨?_, ?_, ?_, ?_, ?_, ?_⟩
  · rw [setB64_0, toNat_or_left (i := 2) (k := ch.toNat % 64) (by rw [h0]; omega)
      (by rw [h0']; omega), h0, h0']
  · rw [setB64_1, toNat_or_right (i := 2) (k := t.data0.toNat / 4) (by rw [h1]; omega)
      (by rw [h1']; omega), h1, h1']
  · rw [setB64_1, toNat_or_left (i := 4) (k := ch.toNat % 16) (by rw [h2]; omega)
      (by rw [h2']; omega), h2, h2']
  · rw [setB64_2, toNat_or_right (i := 4) (k := t.data1.toNat / 16) (by rw [h3]; omega)
      (by rw [h3']; omega), h3, h3']
  · rw [setB64_2, toNat_or_left (i := 6) (k := ch.toNat % 4) (by rw [h4]; omega)
      (by rw [h4']; omega), h4, h4']
  · rw [setB64_3, toNat_or_right (i := 6) (k := t.data2.toNat / 64) (by rw [h5]; omega)
      (by rw [h5']; omega), h5, h5']

/-- Three bytes are made of their four numbers again. -/
theorem setB64_b64 (t : ThreeToFour) :
    (((({} : ThreeToFour).setB64_0 t.b64_0).setB64_1 t.b64_1).setB64_2 t.b64_2).setB64_3 t.b64_3 =
      t := by
  obtain ⟨h0, h1, h2, h3⟩ := t.toNat_b64
  set t0 := ({} : ThreeToFour).setB64_0 t.b64_0
  set t1 := t0.setB64_1 t.b64_1
  set t2 := t1.setB64_2 t.b64_2
  have e0 : t0.data0.toNat = _ := (toNat_setB64 t.b64_0 {}).1
  obtain ⟨-, e1 : t1.data0.toNat = _, e1' : t1.data1.toNat = _, -⟩ := toNat_setB64 t.b64_1 t0
  obtain ⟨-, -, -, e2 : t2.data1.toNat = _, e2' : t2.data2.toNat = _, -⟩ :=
    toNat_setB64 t.b64_2 t1
  obtain ⟨-, -, -, -, -, e3⟩ := toNat_setB64 t.b64_3 t2
  have hlt0 := t.data0.toNat_lt
  have hlt1 := t.data1.toNat_lt
  have hlt2 := t.data2.toNat_lt
  have hd0 : (t2.setB64_3 t.b64_3).data0 = t.data0 := by
    have hsame : (t2.setB64_3 t.b64_3).data0 = t1.data0 := rfl
    rw [hsame, ← UInt8.toNat_inj]
    have hzero : ({} : ThreeToFour).data0.toNat = 0 := rfl
    omega
  have hd1 : (t2.setB64_3 t.b64_3).data1 = t.data1 := by
    have hsame : (t2.setB64_3 t.b64_3).data1 = t2.data1 := rfl
    rw [hsame, ← UInt8.toNat_inj]
    have hzero : t0.data1.toNat = 0 := rfl
    omega
  have hd2 : (t2.setB64_3 t.b64_3).data2 = t.data2 := by
    rw [← UInt8.toNat_inj]
    have hzero : t1.data2.toNat = 0 := rfl
    omega
  exact ThreeToFour.ext hd0 hd1 hd2

end ThreeToFour

/-! ### Getting what was put -/

/-- The characters of the numbers below 64 are told apart. -/
theorem getCharType_char : ∀ i : UInt8, i.toNat < 64 → getCharType (char i) = .value i :=
  forall_byte (by decide +kernel)

/-- None of them is the start of a tag. -/
theorem char_ne_lt : ∀ i : UInt8, i.toNat < 64 → char i ≠ 60 := forall_byte (by decide +kernel)

theorem next_char {i : UInt8} (hi : i.toNat < 64) (s : Name) :
    next (char i :: s) = some (.value i, s) := by
  rw [next, getCharType_char i hi, if_neg (by simp)]

theorem next_equal (s : Name) : next (61 :: s) = some (.equal, s) := rfl

/-- The numbers of three bytes have six bits. -/
theorem ThreeToFour.b64_lt (t : ThreeToFour) :
    t.b64_0.toNat < 64 ∧ t.b64_1.toNat < 64 ∧ t.b64_2.toNat < 64 ∧ t.b64_3.toNat < 64 := by
  have h0 := t.data0.toNat_lt
  have h1 := t.data1.toNat_lt
  have h2 := t.data2.toNat_lt
  have h := t.toNat_b64
  omega

/-- A whole group and more. -/
theorem get_of_some {first rest : Name} {bytes : List UInt8}
    (h : octet first = (bytes, some rest)) :
    get first = bytes ++ get rest := by
  rw [get]
  split
  · next h' =>
    rw [h] at h'
    obtain ⟨rfl, hrest⟩ := Prod.mk.inj h'
    rw [Option.some.inj hrest]
  · next h' => simp [h] at h'

/-- The last group. -/
theorem get_of_none {first : Name} {bytes : List UInt8} (h : octet first = (bytes, none)) :
    get first = bytes := by
  rw [get]
  split
  · next h' => simp [h] at h'
  · next h' =>
    rw [h] at h'
    exact (Prod.mk.inj h').1.symm

/-- The end of a line is passed over. -/
theorem get_newline (s : Name) : get (10 :: s) = get s := by
  have hoctet : octet (10 :: s) = octet s := rfl
  rw [get.eq_def, get.eq_def, hoctet]

/-- A whole group. -/
theorem get_group (t : ThreeToFour) (s : Name) :
    get (char t.b64_0 :: char t.b64_1 :: char t.b64_2 :: char t.b64_3 :: s) =
      t.data0 :: t.data1 :: t.data2 :: get s := by
  obtain ⟨h0, h1, h2, h3⟩ := t.b64_lt
  have hoctet : octet (char t.b64_0 :: char t.b64_1 :: char t.b64_2 :: char t.b64_3 :: s) =
      ([t.data0, t.data1, t.data2], some s) := by
    unfold octet
    simp only [next_char h0, next_char h1, next_char h2, next_char h3, t.setB64_b64]
  exact get_of_some hoctet

/-- A group of two bytes is the last one. -/
theorem get_two (a b : UInt8) : get (put 0 [a, b]) = [a, b] := by
  let t : ThreeToFour := { data0 := a, data1 := b }
  obtain ⟨h0, h1, h2, -⟩ := t.b64_lt
  have hback := t.setB64_b64
  have hthird : t.b64_3 = 0 := by simp [t, ThreeToFour.b64_3]
  rw [hthird] at hback
  refine get_of_none ?_
  change octet [char t.b64_0, char t.b64_1, char t.b64_2, 61] = _
  unfold octet
  simp only [next_char h0, next_char h1, next_char h2, next_equal, hback, t]

/-- So is a group of one byte. -/
theorem get_one (a : UInt8) : get (put 0 [a]) = [a] := by
  let t : ThreeToFour := { data0 := a }
  obtain ⟨h0, h1, -⟩ := t.b64_lt
  have hback := t.setB64_b64
  have hsecond : t.b64_2 = 0 := by simp [t, ThreeToFour.b64_2]
  have hthird : t.b64_3 = 0 := by simp [t, ThreeToFour.b64_3]
  rw [hsecond, hthird] at hback
  refine get_of_none ?_
  change octet [char t.b64_0, char t.b64_1, 61, 61] = _
  unfold octet
  simp only [next_char h0, next_char h1, next_equal, hback, t]

/-- Whatever the data are, and wherever in a line they begin: what is put is got again. -/
theorem get_put (lineOctets : ℕ) (data : List UInt8) : get (put lineOctets data) = data := by
  fun_induction put lineOctets data with
  | case1 => exact get_of_none rfl
  | case2 _ a => exact get_one a
  | case3 _ a b => exact get_two a b
  | case4 lineOctets a b c first t ih ih' =>
    rw [get_group]
    split_ifs
    · rw [get_newline, ih]
    · rw [ih']

/-! ### What stands between the characters -/

/-- A character of the alphabet, or the one that fills up the last group. -/
def known (c : UInt8) : Bool := getCharType c ≠ .unknown

theorem next_filter (s : Name) :
    next (s.filter known) = (next s).map fun r => (r.1, r.2.filter known) := by
  induction s with
  | nil => rfl
  | cons c s ih =>
    by_cases hc : getCharType c = .unknown
    · rw [List.filter_cons_of_neg (by simp [known, hc]), ih, next, if_pos hc]
    · rw [List.filter_cons_of_pos (by simp [known, hc]), next, next, if_neg hc, if_neg hc]
      rfl

theorem octet_filter (s : Name) :
    octet (s.filter known) = ((octet s).1, (octet s).2.map (·.filter known)) := by
  unfold octet
  rw [next_filter]
  rcases next s with _ | ⟨_ | _ | _, s₀⟩ <;> try rfl
  simp only [Option.map_some, next_filter]
  rcases next s₀ with _ | ⟨_ | _ | _, s₁⟩ <;> try rfl
  simp only [Option.map_some, next_filter]
  rcases next s₁ with _ | ⟨_ | _ | _, s₂⟩ <;> try rfl
  simp only [Option.map_some, next_filter]
  rcases next s₂ with _ | ⟨_ | _ | _, s₃⟩ <;> rfl

/-- All other characters are passed over. -/
theorem get_filter (s : Name) : get (s.filter known) = get s := by
  induction hlength : s.length using Nat.strong_induction_on generalizing s with
  | _ n ih =>
    have hfilter := octet_filter s
    rcases hoctet : octet s with ⟨bytes, _ | rest⟩
    · rw [hoctet] at hfilter
      rw [get_of_none hoctet, get_of_none hfilter]
    · rw [hoctet] at hfilter
      have hlt := octet_lt hoctet
      rw [get_of_some hoctet, get_of_some hfilter, ih _ (hlength ▸ hlt) rest rfl]

/-- Whatever stands between the characters that were put, and wherever the lines end: what was put
is got.  So the credentials of a request are got from its header, where the ends of the lines are
taken out of them. -/
theorem get_of_put {s : Name} {lineOctets : ℕ} {data : List UInt8}
    (h : s.filter known = (put lineOctets data).filter known) : get s = data := by
  rw [← get_filter, h, get_filter, get_put]

/-- The credentials `Aladdin:open sesame`. -/
theorem get_of_put_credentials :
    get ((put 0 (bytesOf "Aladdin:open sesame")).filter fun c => c ≠ 13 ∧ c ≠ 10) =
      bytesOf "Aladdin:open sesame" :=
  get_of_put (show _ = (put 0 _).filter known by decide +kernel)

/-- What is put has no tag in it. -/
theorem lt_notMem_put (lineOctets : ℕ) (data : List UInt8) : 60 ∉ put lineOctets data := by
  have hne : ∀ t : ThreeToFour, 60 ≠ char t.b64_0 ∧ 60 ≠ char t.b64_1 ∧ 60 ≠ char t.b64_2 ∧
      60 ≠ char t.b64_3 := by
    intro t
    obtain ⟨h0, h1, h2, h3⟩ := t.b64_lt
    exact ⟨(char_ne_lt _ h0).symm, (char_ne_lt _ h1).symm, (char_ne_lt _ h2).symm,
      (char_ne_lt _ h3).symm⟩
  fun_induction put lineOctets data with
  | case1 => simp
  | case2 _ a t =>
    obtain ⟨h0, h1, -⟩ := hne t
    simp [h0, h1]
  | case3 _ a b t =>
    obtain ⟨h0, h1, h2, -⟩ := hne t
    simp [h0, h1, h2]
  | case4 lineOctets a b c first t ih ih' =>
    obtain ⟨h0, h1, h2, h3⟩ := hne t
    split_ifs <;> simp [h0, h1, h2, h3, ih, ih']

end Base64

end IvySync
