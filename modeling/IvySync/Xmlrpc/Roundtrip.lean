import IvySync.Xmlrpc.Reader
import Mathlib.Algebra.Order.BigOperators.Group.List
import Mathlib.Algebra.Order.Ring.Nat

/-!
# Values that are sent and received

What `toXml` writes is read by `fromXml` up to its last byte, whatever stands behind it
(`fromXml_toXml`).  Strings, binary data, numbers and times come back as they were.  The names of
the members of a struct do not: `toXml` encodes them and `fromXml` does not decode them, so that
`received` is the value that comes back, and it is the value that was sent exactly if none of these
names has a character that XML keeps for itself (`received_eq_self_iff`).
-/

namespace IvySync

open XmlRpcUtil

/-! ### Numbers -/

variable {n : ℕ} {c : UInt8} {s rest : Name}

/-- A digit begins no other part of a number. -/
theorem digit_clear (hc : isdigit c = true) : isspace c = false ∧ c ≠ 45 ∧ c ≠ 43 ∧ c ≠ 60 := by
  unfold isdigit at hc
  unfold isspace
  grind

/-- A text of digits. -/
def Digits (s : Name) : Prop := ∀ c ∈ s, isdigit c = true

theorem digits_decimal (n : ℕ) : Digits (decimal n) := fun _ hc => (isdigit_of_mem_decimal hc).1

theorem takeWhile_digits (hs : Digits s) (hc : isdigit c = false) (rest : Name) :
    (s ++ c :: rest).takeWhile isdigit = s := by
  rw [List.takeWhile_append_of_pos hs, List.takeWhile_cons_of_neg (by simp [hc]), List.append_nil]

theorem dropWhile_digits (hs : Digits s) (hc : isdigit c = false) (rest : Name) :
    (s ++ c :: rest).dropWhile isdigit = c :: rest := by
  rw [List.dropWhile_append_of_pos hs, List.dropWhile_cons_of_neg (by simp [hc])]

/-- The number of a text of digits does not depend on what is behind it. -/
theorem leadingNumber_append (hs : Digits s) (hc : isdigit c = false) (rest : Name) :
    leadingNumber (s ++ c :: rest) = leadingNumber s := by
  rw [leadingNumber, leadingNumber, takeWhile_digits hs hc, List.takeWhile_eq_self_iff.mpr hs]

/-- A number without a sign. -/
theorem sign_digits (hs : Digits s) (hne : s ≠ []) (rest : Name) :
    sign ((s ++ rest).dropWhile isspace) = (false, s ++ rest) := by
  cases s with
  | nil => exact absurd rfl hne
  | cons d s =>
    obtain ⟨hspace, hminus, hplus, -⟩ := digit_clear (hs d (List.mem_cons_self ..))
    rw [List.cons_append, List.dropWhile_cons_of_neg (by simp [hspace]), sign, if_neg hminus,
      if_neg hplus]

theorem decimal_ne_nil (n : ℕ) : decimal n ≠ [] := by
  simp [decimal]

/-- `strtol` reads what `%d` has written. -/
theorem strtol_printD {n : ℤ} (hn : -2 ^ 63 ≤ n ∧ n < 2 ^ 63) (hc : isdigit c = false) :
    strtol (printD n ++ c :: rest) = some (n, c :: rest) := by
  have hdigits := digits_decimal n.natAbs
  have hvalue := leadingNumber_append hdigits hc rest
  have htake := takeWhile_digits hdigits hc rest
  have hdrop := dropWhile_digits hdigits hc rest
  rw [leadingNumber_decimal] at hvalue
  unfold printD
  split_ifs with hneg
  · have hsign : sign ((45 :: decimal n.natAbs ++ c :: rest).dropWhile isspace) =
        (true, decimal n.natAbs ++ c :: rest) := rfl
    unfold strtol
    rw [hsign]
    simp only [htake, hdrop, hvalue, decimal_ne_nil, if_false, if_true]
    congr 2
    omega
  · unfold strtol
    rw [sign_digits hdigits (decimal_ne_nil _) _]
    simp only [htake, hdrop, hvalue, decimal_ne_nil, if_false, Bool.false_eq_true]
    congr 2
    omega

/-- An `int` has a sign and ten digits at most. -/
theorem length_printD {n : ℤ} (hn : -2 ^ 31 ≤ n ∧ n < 2 ^ 31) : (printD n).length ≤ 11 := by
  have hlength : (decimal n.natAbs).length ≤ 10 := by
    rw [decimal, List.length_map]
    exact (Nat.length_toDigits_le_iff (b := 10) (k := 10) (by omega) (by omega)).mpr (by omega)
  unfold printD
  split_ifs
  · rw [List.length_cons]
    omega
  · omega

/-- An `int` fits into the buffer that it is written to. -/
theorem snprintf_printD {n : ℤ} (hn : -2 ^ 31 ≤ n ∧ n < 2 ^ 31) :
    snprintf 255 (printD n) = printD n := by
  have hlength := length_printD hn
  exact List.take_of_length_le (by omega)

/-! ### Times -/

/-- A number with zeros in front of it. -/
theorem leadingNumber_zeros (k n : ℕ) :
    leadingNumber (List.replicate k 48 ++ decimal n) = n := by
  have hdigits : Digits (List.replicate k 48 ++ decimal n) := by
    intro c hc
    rcases List.mem_append.mp hc with hc | hc
    · rw [List.eq_of_mem_replicate hc]
      rfl
    · exact digits_decimal n c hc
  have hvalue := leadingNumber_decimal n
  unfold leadingNumber at hvalue ⊢
  rw [List.takeWhile_eq_self_iff.mpr (digits_decimal n)] at hvalue
  rw [List.takeWhile_eq_self_iff.mpr hdigits, List.foldl_append]
  have hzeros :
      (List.replicate k (48 : UInt8)).foldl (fun n c => n * 10 + (c.toNat - 48)) 0 = 0 := by
    clear hdigits
    induction k with
    | zero => rfl
    | succ k ih => exact ih
  rw [hzeros, hvalue]

/-- A number of some width has its zeros and digits. -/
theorem printD0_spec {width : ℕ} {n : ℤ} (hn : 0 ≤ n ∧ n < 10 ^ width) (hwidth : 0 < width) :
    Digits (printD0 width n) ∧ (printD0 width n).length = width ∧
      leadingNumber (printD0 width n) = n := by
  have hlength : (decimal n.natAbs).length ≤ width := by
    rw [decimal, List.length_map]
    refine (Nat.length_toDigits_le_iff (by omega) hwidth).mpr ?_
    have hcast : ((10 ^ width : ℕ) : ℤ) = 10 ^ width := by simp
    omega
  unfold printD0
  rw [if_neg (by omega)]
  refine ⟨?_, ?_, ?_⟩
  · intro c hc
    rcases List.mem_append.mp hc with hc | hc
    · rw [List.eq_of_mem_replicate hc]
      rfl
    · exact digits_decimal _ c hc
  · rw [List.length_append, List.length_replicate]
    omega
  · rw [leadingNumber_zeros]
    omega

/-- `sscanf` reads a number that is as wide as it expects. -/
theorem scanD_printD0 {width : ℕ} {n : ℤ} (hn : 0 ≤ n ∧ n < 10 ^ width) (hwidth : 0 < width)
    (rest : Name) : scanD width (printD0 width n ++ rest) = some (n, rest) := by
  obtain ⟨hdigits, hlength, hvalue⟩ := printD0_spec hn hwidth
  have hne : printD0 width n ≠ [] := List.ne_nil_of_length_pos (by omega)
  have hsign := sign_digits hdigits hne rest
  have hblank : (printD0 width n ++ rest).dropWhile isspace = printD0 width n ++ rest := by
    obtain ⟨d, ds, hd⟩ := List.exists_cons_of_ne_nil hne
    rw [hd, List.cons_append, List.dropWhile_cons_of_neg]
    simp [(digit_clear (hdigits d (by simp [hd]))).1]
  rw [hblank] at hsign
  have htake : ((printD0 width n ++ rest).take width).takeWhile isdigit = printD0 width n := by
    rw [List.take_left' hlength, List.takeWhile_eq_self_iff.mpr hdigits]
  unfold scanD
  simp only [hblank, hsign, Nat.sub_self, Nat.sub_zero, htake, hvalue, hne, if_false,
    Bool.false_eq_true, List.drop_left' rfl]

namespace XmlRpcValue

variable {floats : Floats} {v : XmlRpcValue}

/-! ### What is sent and what is received -/

mutual

/-- What comes back of a value that was sent. -/
def received : XmlRpcValue → XmlRpcValue
  | array items => array (receivedItems items)
  | struct members => struct (receivedMembers [] members)
  | invalid => invalid
  | boolean value => boolean value
  | int value => int value
  | double bits => double bits
  | string value => string value
  | dateTime fields => dateTime fields
  | base64 value => base64 value

def receivedItems : List XmlRpcValue → List XmlRpcValue
  | [] => []
  | v :: items => received v :: receivedItems items

def receivedMembers (ms : List (Name × XmlRpcValue)) :
    List (Name × XmlRpcValue) → List (Name × XmlRpcValue)
  | [] => ms
  | (name, v) :: members =>
    receivedMembers (insert (xmlEncode name) (received v) ms) members

end

/-- A time of which every field has the digits that it is written with. -/
def Date (fields : List ℤ) : Prop :=
  ∃ year mon mday hour min sec : ℤ, fields = [year, mon, mday, hour, min, sec] ∧
    (0 ≤ 1900 + year ∧ 1900 + year < 10 ^ 4) ∧ (0 ≤ mon ∧ mon < 10 ^ 2) ∧
    (0 ≤ mday ∧ mday < 10 ^ 2) ∧ (0 ≤ hour ∧ hour < 10 ^ 2) ∧ (0 ≤ min ∧ min < 10 ^ 2) ∧
    (0 ≤ sec ∧ sec < 10 ^ 2)

/-- A number in floating point that is read as it was, with a tag behind it. -/
def Exact (floats : Floats) (bits : UInt64) : Prop :=
  ∀ rest, floats.strtod (snprintf 255 (floats.print bits) ++ 60 :: rest) = some (bits, 60 :: rest)

/-- The C library reads an `int` as it was. -/
theorem exact_integers {n : ℤ} (hn : -2 ^ 31 ≤ n ∧ n < 2 ^ 31) :
    Exact Floats.integers (doubleOf n) := by
  intro rest
  have hprint : snprintf 255 (Floats.integers.print (doubleOf n)) = printD n ++ zeros := by
    have hlength := length_printD hn
    have hzeros : zeros.length = 7 := rfl
    simp only [Floats.integers, intOf_doubleOf (show n.natAbs < 2 ^ 53 by omega)]
    refine List.take_of_length_le ?_
    rw [List.length_append]
    omega
  have hread : strtol (printD n ++ (zeros ++ 60 :: rest)) = some (n, zeros ++ 60 :: rest) :=
    strtol_printD (by omega) (by decide)
  rw [hprint, List.append_assoc]
  simp only [Floats.integers, hread, Option.map_some, List.prefix_append, if_true, List.drop_left]

/-- A value that has a type, and so have all values in it, and of which all numbers can be
written. -/
inductive Sendable (floats : Floats) : XmlRpcValue → Prop
  | boolean (value : Bool) : Sendable floats (boolean value)
  | int (value : ℤ) (h : -2 ^ 31 ≤ value ∧ value < 2 ^ 31) : Sendable floats (int value)
  | double (bits : UInt64) (h : Exact floats bits) : Sendable floats (double bits)
  | string (value : Name) : Sendable floats (string value)
  | dateTime (fields : List ℤ) (h : Date fields) : Sendable floats (dateTime fields)
  | base64 (value : List UInt8) : Sendable floats (base64 value)
  | array (items : List XmlRpcValue) (h : ∀ v ∈ items, Sendable floats v) :
    Sendable floats (array items)
  | struct (members : List (Name × XmlRpcValue)) (h : ∀ m ∈ members, Sendable floats m.2)
      (hsorted : Sorted members) : Sendable floats (struct members)

/-! ### Reading one value -/

/-- A value in its own tags is read behind these. -/
theorem fromXml_wrap {name : String} {text post : Name} (left : Name)
    (hname : ∀ c ∈ bytesOf name, inTag c = true)
    (htyped : typed floats (arrayFromXml (items floats)) (structFromXml (members floats []))
      (tag name) (tag name ++ (text ++ (etag name ++ (etag "value" ++ post))))
      (text ++ (etag name ++ (etag "value" ++ post))) = some (v, left))
    (hend : findTag (etag "value") left = some post) :
    fromXml floats (wrap name text ++ post) = some (v, post) := by
  have hvalue : nextTagIs (tag "value") (wrap name text ++ post) =
      some (tag name ++ (text ++ (etag name ++ (etag "value" ++ post)))) := by
    simp only [wrap, List.append_assoc]
    exact nextTagIs_append
  have hnext : getNextTag (tag name ++ (text ++ (etag name ++ (etag "value" ++ post)))) =
      (tag name, text ++ (etag name ++ (etag "value" ++ post))) := getNextTag_append hname
  rw [fromXml_eq, fromXmlWith, hvalue]
  simp only [hnext, htyped, Option.map_some, hend, Option.getD_some]

/-- The end of a value behind its own end tag. -/
theorem findTag_wrap {name : String} (post : Name)
    (h : Text.indexOf (etag "value") (etag name ++ etag "value") = some (etag name).length) :
    findTag (etag "value") (etag name ++ (etag "value" ++ post)) = some post :=
  findTag_of_indexOf (etag name) h

theorem fromXml_boolean (value : Bool) (post : Name) :
    fromXml floats (toXml floats (boolean value) ++ post) = some (boolean value, post) := by
  refine fromXml_wrap (etag "boolean" ++ (etag "value" ++ post)) (by decide +kernel) ?_
    (findTag_wrap post (by decide))
  rw [typed, if_pos rfl]
  cases value <;> rfl

theorem fromXml_int {value : ℤ} (h : -2 ^ 31 ≤ value ∧ value < 2 ^ 31) (post : Name) :
    fromXml floats (toXml floats (int value) ++ post) = some (int value, post) := by
  refine fromXml_wrap (etag "i4" ++ (etag "value" ++ post)) (by decide +kernel) ?_
    (findTag_wrap post (by decide))
  have hread : strtol (printD value ++ (etag "i4" ++ (etag "value" ++ post))) =
      some (value, etag "i4" ++ (etag "value" ++ post)) := strtol_printD (by omega) (by decide)
  have hint : int32 value = value := by
    rw [int32, Int.bmod_eq_of_le] <;> omega
  rw [typed, if_neg (by decide), if_pos (by decide), snprintf_printD h, intFromXml, hread]
  simp [hint]

theorem fromXml_double {bits : UInt64} (h : Exact floats bits) (post : Name) :
    fromXml floats (toXml floats (double bits) ++ post) = some (double bits, post) := by
  refine fromXml_wrap (etag "double" ++ (etag "value" ++ post)) (by decide +kernel) ?_
    (findTag_wrap post (by decide))
  have hread : floats.strtod (snprintf 255 (floats.print bits) ++
      (etag "double" ++ (etag "value" ++ post))) =
      some (bits, etag "double" ++ (etag "value" ++ post)) := h _
  rw [typed, if_neg (by decide), if_neg (by decide), if_pos (by decide), doubleFromXml, hread]
  rfl

/-- The text of a time has its seventeen characters, and no tag. -/
theorem timeText_spec {fields : List ℤ} (h : Date fields) :
    60 ∉ timeText fields ∧ scanTime (timeText fields) = some fields := by
  obtain ⟨year, mon, mday, hour, min, sec, rfl, hyear, hmon, hmday, hhour, hmin, hsec⟩ := h
  obtain ⟨dyear, lyear, -⟩ := printD0_spec hyear (by omega)
  obtain ⟨dmon, lmon, -⟩ := printD0_spec hmon (by omega)
  obtain ⟨dmday, lmday, -⟩ := printD0_spec hmday (by omega)
  obtain ⟨dhour, lhour, -⟩ := printD0_spec hhour (by omega)
  obtain ⟨dmin, lmin, -⟩ := printD0_spec hmin (by omega)
  obtain ⟨dsec, lsec, -⟩ := printD0_spec hsec (by omega)
  have hclear : ∀ {s : Name}, Digits s → 60 ∉ s := fun hs hmem => by
    simpa using (digit_clear (hs 60 hmem)).2.2.2
  have htext : timeText [year, mon, mday, hour, min, sec] =
      printD0 4 (1900 + year) ++ (printD0 2 mon ++ (printD0 2 mday ++ (84 :: (printD0 2 hour ++
        (58 :: (printD0 2 min ++ (58 :: (printD0 2 sec ++ [])))))))) := by
    unfold timeText snprintf
    rw [List.take_of_length_le]
    · simp [bytesOf]
    · simp [bytesOf, lyear, lmon, lmday, lhour, lmin, lsec]
  have hsecond := scanD_printD0 hsec (by omega) []
  rw [htext]
  refine ⟨by simp [hclear dyear, hclear dmon, hclear dmday, hclear dhour, hclear dmin,
    hclear dsec], ?_⟩
  unfold scanTime
  simp only [scanD_printD0 hyear (by omega), scanD_printD0 hmon (by omega),
    scanD_printD0 hmday (by omega), scanD_printD0 hhour (by omega), scanD_printD0 hmin (by omega),
    hsecond, scanChar, bind, Option.bind_some, if_true, pure, Option.some.injEq]
  congr 1
  omega

theorem fromXml_dateTime {fields : List ℤ} (h : Date fields) (post : Name) :
    fromXml floats (toXml floats (dateTime fields) ++ post) = some (dateTime fields, post) := by
  obtain ⟨hclear, hscan⟩ := timeText_spec h
  refine fromXml_wrap (etag "dateTime.iso8601" ++ (etag "value" ++ post)) (by decide +kernel) ?_
    (findTag_wrap post (by decide))
  have htext : (timeText fields ++ (etag "dateTime.iso8601" ++ (etag "value" ++ post))).takeWhile
      (· ≠ 60) = timeText fields := Text.takeWhile_line hclear
  have hmem : 60 ∈ timeText fields ++ (etag "dateTime.iso8601" ++ (etag "value" ++ post)) := by
    simp [etag]
  rw [typed, if_neg (by decide), if_neg (by decide), if_neg (by decide), if_neg (by decide),
    if_pos (by decide), timeFromXml, if_neg (not_not_intro hmem)]
  simp only [htext, hscan, Option.map_some, List.drop_left]

theorem fromXml_base64 (value : List UInt8) (post : Name) :
    fromXml floats (toXml floats (base64 value) ++ post) = some (base64 value, post) := by
  refine fromXml_wrap (etag "base64" ++ (etag "value" ++ post)) (by decide +kernel) ?_
    (findTag_wrap post (by decide))
  have htext : (Base64.put 0 value ++ (etag "base64" ++ (etag "value" ++ post))).takeWhile
      (· ≠ 60) = Base64.put 0 value := Text.takeWhile_line (Base64.lt_notMem_put 0 value)
  have hmem : 60 ∈ Base64.put 0 value ++ (etag "base64" ++ (etag "value" ++ post)) := by
    simp [etag]
  rw [typed, if_neg (by decide), if_neg (by decide), if_neg (by decide), if_neg (by decide),
    if_neg (by decide), if_pos (by decide), binaryFromXml, if_neg (not_not_intro hmem)]
  simp only [htext, Base64.get_put, List.drop_left]

/-- Behind the tag of a value, a string has no tag of its own, unless it is blank and the next tag
is the end of the value. -/
theorem getNextTag_string {s : Name} (hs : 60 ∉ s) (post : Name) :
    getNextTag (s ++ (etag "value" ++ post)) = ([], s ++ (etag "value" ++ post)) ∨
      getNextTag (s ++ (etag "value" ++ post)) = (etag "value", post) := by
  have hblank : ∀ {c : UInt8} {cp : Name}, s.dropWhile isspace = c :: cp →
      getNextTag (s ++ (etag "value" ++ post)) = ([], s ++ (etag "value" ++ post)) := by
    intro c cp hcp
    have hc : c ≠ 60 := fun h => hs ((List.dropWhile_suffix isspace).subset (by simp [hcp, h]))
    have hdrop : (s ++ (etag "value" ++ post)).dropWhile isspace =
        c :: (cp ++ (etag "value" ++ post)) := by
      rw [List.dropWhile_append, hcp]
      rfl
    unfold getNextTag
    rw [hdrop]
    simp [hc]
  cases hcp : s.dropWhile isspace with
  | cons c cp => exact Or.inl (hblank hcp)
  | nil =>
    refine Or.inr ?_
    have hdrop : (s ++ (etag "value" ++ post)).dropWhile isspace = etag "value" ++ post := by
      rw [List.dropWhile_append, hcp]
      rfl
    have hname : ∀ c ∈ 47 :: bytesOf "value", inTag c = true := by decide +kernel
    have hnext : getNextTag (etag "value" ++ post) = (etag "value", post) := getNextTag_append hname
    unfold getNextTag at hnext ⊢
    rw [hdrop]
    exact hnext

theorem fromXml_string (value post : Name) :
    fromXml floats (toXml floats (string value) ++ post) = some (string value, post) := by
  have hclear := lt_notMem_xmlEncode value
  have hvalue : nextTagIs (tag "value") (toXml floats (string value) ++ post) =
      some (xmlEncode value ++ (etag "value" ++ post)) := by
    simp only [toXml, stringToXml, List.append_assoc]
    exact nextTagIs_append
  have htext : (xmlEncode value ++ (etag "value" ++ post)).takeWhile (· ≠ 60) = xmlEncode value :=
    Text.takeWhile_line hclear
  have hmem : 60 ∈ xmlEncode value ++ (etag "value" ++ post) := by simp [etag]
  have hread : stringFromXml (xmlEncode value ++ (etag "value" ++ post)) =
      some (string value, (xmlEncode value).drop value.length ++ (etag "value" ++ post)) := by
    rw [stringFromXml, if_neg (not_not_intro hmem)]
    simp only [htext, xmlDecode_xmlEncode]
    rw [List.drop_append_of_le_length (length_le_xmlEncode value)]
  have htyped : ∀ (array struct : Parser), typed floats array struct
      (getNextTag (xmlEncode value ++ (etag "value" ++ post))).1
      (xmlEncode value ++ (etag "value" ++ post))
      (getNextTag (xmlEncode value ++ (etag "value" ++ post))).2 =
      stringFromXml (xmlEncode value ++ (etag "value" ++ post)) := by
    intro array struct
    rcases getNextTag_string hclear post with hnext | hnext <;> rw [hnext] <;> rfl
  have hend : findTag (etag "value") ((xmlEncode value).drop value.length ++
      (etag "value" ++ post)) = some post :=
    findTag_append fun h => hclear ((List.drop_suffix _ _).subset h)
  rw [fromXml_eq, fromXmlWith, hvalue]
  simp only [htyped, hread, Option.map_some, hend, Option.getD_some]

/-! ### Reading arrays and structs -/

/-- Where no value begins, none is read. -/
theorem fromXml_eq_none {xml : Name} (h : nextTagIs (tag "value") xml = none) :
    fromXml floats xml = none := by
  rw [fromXml_eq, fromXmlWith, h]

/-- The loop over the items reads what the loop of `arrayToXml` has written. -/
theorem items_itemsToXml {vs : List XmlRpcValue}
    (h : ∀ v ∈ vs, ∀ post, fromXml floats (toXml floats v ++ post) = some (received v, post))
    (post : Name) :
    items floats (itemsToXml floats vs ++ (etag "data" ++ post)) =
      (receivedItems vs, etag "data" ++ post) := by
  induction vs with
  | nil =>
    have hend : nextTagIs (tag "value") (etag "data" ++ post) = none := rfl
    simp only [itemsToXml, List.nil_append]
    rw [items_eq, fromXml_eq_none hend]
    simp only [receivedItems]
  | cons v vs ih =>
    obtain ⟨hv, hvs⟩ := List.forall_mem_cons.mp h
    rw [itemsToXml, List.append_assoc, items_eq, hv]
    simp only [ih hvs, receivedItems]

/-- The loop over the members reads what the loop of `structToXml` has written. -/
theorem members_membersToXml {ms : List (Name × XmlRpcValue)}
    (h : ∀ m ∈ ms, ∀ post, fromXml floats (toXml floats m.2 ++ post) = some (received m.2, post))
    (sofar : List (Name × XmlRpcValue)) (post : Name) :
    members floats sofar (membersToXml floats ms ++ (etag "struct" ++ post)) =
      some (receivedMembers sofar ms, etag "struct" ++ post) := by
  induction ms generalizing sofar with
  | nil =>
    have hend : nextTagIs (tag "member") (etag "struct" ++ post) = none := rfl
    simp only [membersToXml, List.nil_append]
    rw [members_eq, hend]
    simp only [receivedMembers]
  | cons m ms ih =>
    obtain ⟨name, v⟩ := m
    obtain ⟨hv, hms⟩ := List.forall_mem_cons.mp h
    set left := membersToXml floats ms ++ (etag "struct" ++ post)
    have hmember : nextTagIs (tag "member") (membersToXml floats ((name, v) :: ms) ++
        (etag "struct" ++ post)) = some (tag "name" ++ (xmlEncode name ++ (etag "name" ++
          (toXml floats v ++ (etag "member" ++ left))))) := by
      simp only [membersToXml, List.append_assoc]
      exact nextTagIs_append
    have hname : parseTag (tag "name") (tag "name" ++ (xmlEncode name ++ (etag "name" ++
        (toXml floats v ++ (etag "member" ++ left))))) =
        (xmlEncode name, toXml floats v ++ (etag "member" ++ left)) :=
      parseTag_append (lt_notMem_xmlEncode name)
    have hend : nextTagIs (etag "member") (etag "member" ++ left) = some left := nextTagIs_append
    rw [members_eq, hmember]
    simp only [hname, hv, hend, Option.getD_some]
    rw [ih hms, receivedMembers]

/-- What was written is read up to its last byte, whatever stands behind it. -/
theorem fromXml_toXml (h : Sendable floats v) (post : Name) :
    fromXml floats (toXml floats v ++ post) = some (received v, post) := by
  induction h generalizing post with
  | boolean value => simpa only [received] using fromXml_boolean value post
  | int value h => simpa only [received] using fromXml_int h post
  | double bits h => simpa only [received] using fromXml_double h post
  | string value => simpa only [received] using fromXml_string value post
  | dateTime fields h => simpa only [received] using fromXml_dateTime h post
  | base64 value => simpa only [received] using fromXml_base64 value post
  | array vs _ ih =>
    have hvalue : nextTagIs (tag "value") (toXml floats (array vs) ++ post) =
        some (tag "array" ++ (tag "data" ++ (itemsToXml floats vs ++ (etag "data" ++
          (etag "array" ++ (etag "value" ++ post)))))) := by
      simp only [toXml, List.append_assoc]
      exact nextTagIs_append
    have hnext : getNextTag (tag "array" ++ (tag "data" ++ (itemsToXml floats vs ++ (etag "data" ++
        (etag "array" ++ (etag "value" ++ post)))))) =
        (tag "array", tag "data" ++ (itemsToXml floats vs ++ (etag "data" ++
          (etag "array" ++ (etag "value" ++ post))))) := getNextTag_append (by decide +kernel)
    have hdata : nextTagIs (tag "data") (tag "data" ++ (itemsToXml floats vs ++ (etag "data" ++
        (etag "array" ++ (etag "value" ++ post))))) =
        some (itemsToXml floats vs ++ (etag "data" ++ (etag "array" ++ (etag "value" ++ post)))) :=
      nextTagIs_append
    have hend : nextTagIs (etag "data") (etag "data" ++ (etag "array" ++ (etag "value" ++ post))) =
        some (etag "array" ++ (etag "value" ++ post)) := nextTagIs_append
    have hfind : findTag (etag "value") (etag "array" ++ (etag "value" ++ post)) = some post :=
      findTag_wrap post (by decide)
    have htyped : ∀ (parse struct : Parser) (afterValue rest : Name),
        typed floats parse struct (tag "array") afterValue rest = parse rest :=
      fun _ _ _ _ => rfl
    rw [fromXml_eq, fromXmlWith, hvalue]
    simp only [hnext, htyped, arrayFromXml, hdata, Option.map_some, items_itemsToXml ih, hend,
      Option.getD_some, hfind, received]
  | struct ms _ _ ih =>
    rw [received]
    refine fromXml_wrap (etag "struct" ++ (etag "value" ++ post)) (by decide +kernel) ?_
      (findTag_wrap post (by decide))
    have htyped : ∀ (parse struct : Parser) (afterValue rest : Name),
        typed floats parse struct (tag "struct") afterValue rest = struct rest :=
      fun _ _ _ _ => rfl
    rw [htyped, structFromXml, members_membersToXml ih]
    rfl

/-! ### The names of the members -/

mutual

/-- The names of the members of all structs in a value. -/
def memberNames : XmlRpcValue → List Name
  | array items => itemsNames items
  | struct members => membersNames members
  | _ => []

def itemsNames : List XmlRpcValue → List Name
  | [] => []
  | v :: items => memberNames v ++ itemsNames items

def membersNames : List (Name × XmlRpcValue) → List Name
  | [] => []
  | (name, v) :: members => name :: (memberNames v ++ membersNames members)

end

/-- A name that is the same in XML. -/
def Plain (name : Name) : Prop := ∀ c ∈ name, entities.lookup c = none

/-- A member of a struct as it is received. -/
def receivedMember (m : Name × XmlRpcValue) : Name × XmlRpcValue := (xmlEncode m.1, received m.2)

theorem receivedItems_eq_map (vs : List XmlRpcValue) : receivedItems vs = vs.map received := by
  induction vs with
  | nil => rfl
  | cons v vs ih => rw [receivedItems, ih, List.map_cons]

theorem mem_itemsNames {vs : List XmlRpcValue} {name : Name} :
    name ∈ itemsNames vs ↔ ∃ v ∈ vs, name ∈ memberNames v := by
  induction vs with
  | nil => simp [itemsNames]
  | cons v vs ih => simp [itemsNames, ih]

theorem mem_membersNames {ms : List (Name × XmlRpcValue)} {name : Name} :
    name ∈ membersNames ms ↔ ∃ m ∈ ms, name = m.1 ∨ name ∈ memberNames m.2 := by
  induction ms with
  | nil => simp [membersNames]
  | cons m ms ih => simp [membersNames, ih, or_assoc]

/-- A new member is added. -/
theorem insert_perm {name : Name} {ms : List (Name × XmlRpcValue)} (h : name ∉ ms.map Prod.fst) :
    (insert name v ms).Perm ((name, v) :: ms) := by
  induction ms with
  | nil => exact List.Perm.refl _
  | cons m ms ih =>
    rw [List.map_cons, List.mem_cons, not_or] at h
    rw [insert, if_neg h.1]
    split_ifs
    · exact List.Perm.refl _
    · exact ((ih h.2).cons m).trans (List.Perm.swap _ _ _)

/-- A member that comes behind all others is added there. -/
theorem insert_last {name : Name} {ms : List (Name × XmlRpcValue)} (h : ∀ m ∈ ms, m.1 < name) :
    insert name v ms = ms ++ [(name, v)] := by
  induction ms with
  | nil => rfl
  | cons m ms ih =>
    obtain ⟨hm, hms⟩ := List.forall_mem_cons.mp h
    have hlt : ¬ name < m.1 := by grind
    have hne : name ≠ m.1 := by grind
    rw [insert, if_neg hlt, if_neg hne, ih hms, List.cons_append]

/-- The members that are received are those that were sent, in some order. -/
theorem receivedMembers_perm {ms sofar : List (Name × XmlRpcValue)}
    (hnodup : ((sofar ++ ms.map receivedMember).map Prod.fst).Nodup) :
    (receivedMembers sofar ms).Perm (sofar ++ ms.map receivedMember) := by
  induction ms generalizing sofar with
  | nil => simp [receivedMembers]
  | cons m ms ih =>
    rw [List.map_cons] at hnodup ⊢
    have hfresh : xmlEncode m.1 ∉ sofar.map Prod.fst := by
      intro hmem
      simp only [List.map_append, List.map_cons, List.nodup_append, List.mem_cons] at hnodup
      exact hnodup.2.2 _ hmem _ (Or.inl rfl) rfl
    have hadd : (insert (xmlEncode m.1) (received m.2) sofar ++ ms.map receivedMember).Perm
        (sofar ++ receivedMember m :: ms.map receivedMember) :=
      ((insert_perm hfresh).append_right _).trans List.perm_middle.symm
    rw [receivedMembers]
    exact (ih ((hadd.map Prod.fst).nodup_iff.mpr hnodup)).trans hadd

/-- Members with plain names keep their order. -/
theorem receivedMembers_of_plain {ms sofar : List (Name × XmlRpcValue)}
    (hplain : ∀ m ∈ ms, Plain m.1)
    (hsorted : Sorted (sofar ++ ms.map fun m => (m.1, received m.2))) :
    receivedMembers sofar ms = sofar ++ ms.map fun m => (m.1, received m.2) := by
  induction ms generalizing sofar with
  | nil => simp [receivedMembers]
  | cons m ms ih =>
    obtain ⟨hm, hms⟩ := List.forall_mem_cons.mp hplain
    have hlast : ∀ m' ∈ sofar, m'.1 < m.1 := by
      intro m' hm'
      exact (List.pairwise_append.mp hsorted).2.2 m' hm' (m.1, received m.2) (by simp)
    rw [receivedMembers, xmlEncode_eq_self_iff.mpr hm, insert_last hlast, ih hms]
    · simp
    · simpa using hsorted

theorem map_eq_self_iff {α : Type} {f : α → α} {l : List α} : l.map f = l ↔ ∀ x ∈ l, f x = x := by
  have h := List.map_inj_left (l := l) (f := f) (g := id)
  rwa [List.map_id] at h

/-- Summands that are bounded by others are these if the sums are equal. -/
theorem eq_of_sum_eq {ms : List (Name × XmlRpcValue)} {f g : Name × XmlRpcValue → ℕ}
    (hle : ∀ m ∈ ms, f m ≤ g m) (hsum : (ms.map g).sum = (ms.map f).sum) : ∀ m ∈ ms, g m = f m := by
  induction ms with
  | nil => simp
  | cons m ms ih =>
    obtain ⟨hm, hms⟩ := List.forall_mem_cons.mp hle
    have hrest : (ms.map f).sum ≤ (ms.map g).sum := List.sum_le_sum hms
    simp only [List.map_cons, List.sum_cons] at hsum
    exact List.forall_mem_cons.mpr ⟨by omega, ih hms (by omega)⟩

/-- Members that come back as they were have plain names. -/
theorem plain_of_receivedMembers {ms : List (Name × XmlRpcValue)} (hsorted : Sorted ms)
    (h : receivedMembers [] ms = ms) : ∀ m ∈ ms, Plain m.1 := by
  have hnames : (ms.map Prod.fst).Nodup := by
    refine List.pairwise_map.mpr (hsorted.imp ?_)
    intro m m' hlt heq
    exact List.lt_irrefl _ (heq ▸ hlt)
  have hnodup : ((ms.map receivedMember).map Prod.fst).Nodup := by
    rw [List.map_map]
    have hcomp : Prod.fst ∘ receivedMember = xmlEncode ∘ Prod.fst := rfl
    rw [hcomp, ← List.map_map]
    exact hnames.map xmlEncode_injective
  have hperm : (receivedMembers [] ms).Perm (ms.map receivedMember) := receivedMembers_perm hnodup
  rw [h] at hperm
  have hsum := (hperm.map fun m => m.1.length).sum_eq
  rw [List.map_map] at hsum
  intro m hm
  exact length_xmlEncode_eq_iff.mp
    (eq_of_sum_eq (fun m _ => length_le_xmlEncode m.1) hsum.symm m hm)

/-- A value comes back as it was exactly if the names of its members are plain. -/
theorem received_eq_self_iff (h : WellFormed v) :
    received v = v ↔ ∀ name ∈ memberNames v, Plain name := by
  induction h with
  | array vs _ ih =>
    rw [received, memberNames, receivedItems_eq_map, array.injEq, map_eq_self_iff]
    simp only [mem_itemsNames]
    constructor
    · rintro heq name ⟨v, hv, hname⟩
      exact (ih v hv).mp (heq v hv) name hname
    · intro hplain v hv
      exact (ih v hv).mpr fun name hname => hplain name ⟨v, hv, hname⟩
  | struct ms _ hsorted ih =>
    have hmap : (∀ m ∈ ms, Plain m.1) →
        receivedMembers [] ms = ms.map fun m => (m.1, received m.2) := by
      intro hplain
      refine receivedMembers_of_plain hplain ?_
      exact List.pairwise_map.mpr hsorted
    rw [received, memberNames, struct.injEq]
    simp only [mem_membersNames]
    constructor
    · rintro heq name ⟨m, hm, rfl | hname⟩
      · exact plain_of_receivedMembers hsorted heq m hm
      · rw [hmap (plain_of_receivedMembers hsorted heq), map_eq_self_iff] at heq
        exact (ih m hm).mp (congrArg Prod.snd (heq m hm)) name hname
    · intro hplain
      rw [hmap fun m hm => hplain m.1 ⟨m, hm, Or.inl rfl⟩, map_eq_self_iff]
      intro m hm
      exact Prod.ext rfl ((ih m hm).mpr fun name hname => hplain name ⟨m, hm, Or.inr hname⟩)
  | _ => simp [received, memberNames]

/-- What can be sent is well-formed. -/
theorem Sendable.wellFormed (h : Sendable floats v) : WellFormed v := by
  induction h with
  | boolean value => exact .boolean value
  | int value h => exact .int value h
  | double bits _ => exact .double bits
  | string value => exact .string value
  | dateTime fields h =>
    obtain ⟨_, _, _, _, _, _, rfl, -⟩ := h
    exact .dateTime _ rfl
  | base64 value => exact .base64 value
  | array vs _ ih => exact .array vs ih
  | struct ms _ hsorted ih => exact .struct ms ih hsorted

/-- A value is read as it was written exactly if the names of its members are plain. -/
theorem fromXml_toXml_iff (h : Sendable floats v) (post : Name) :
    fromXml floats (toXml floats v ++ post) = some (v, post) ↔
      ∀ name ∈ memberNames v, Plain name := by
  rw [fromXml_toXml h, Option.some.injEq, Prod.mk.injEq, received_eq_self_iff h.wellFormed]
  simp

/-- A struct with an ampersand in the name of its member comes back as another one. -/
theorem fromXml_toXml_ampersand :
    fromXml Floats.integers (toXml Floats.integers (.struct [([38], .int 1)]) ++ []) ≠
      some (.struct [([38], .int 1)], []) := by
  have hsend : Sendable Floats.integers (.struct [([38], .int 1)]) := by
    refine .struct _ ?_ (List.pairwise_singleton _ _)
    intro m hm
    rw [List.mem_singleton.mp hm]
    exact .int 1 (by omega)
  intro hread
  have hplain := (fromXml_toXml_iff hsend []).mp hread [38] (List.mem_cons_self ..)
  exact absurd (hplain 38 (List.mem_cons_self ..)) (by decide)

end XmlRpcValue

end IvySync
