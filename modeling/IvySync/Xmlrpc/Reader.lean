import IvySync.Xmlrpc.Double

/-!
# What the parser accepts

Whatever bytes it is given, the parser takes a front part of them (`fromXml_suffix`), and the value
that it makes of them is well-formed: it has a type, as all values in it have, its numbers fit, and
the members of its structs are in order, each once (`fromXml_wellFormed`).  The fuel is always
enough, so that `fromXml` is the recursion of the source (`fromXml_eq`).
-/

namespace IvySync

open XmlRpcUtil

/-! ### Numbers -/

theorem int32_mem (n : ℤ) : -2 ^ 31 ≤ int32 n ∧ int32 n < 2 ^ 31 := by
  unfold int32
  rw [Int.bmod_def]
  split_ifs <;> omega

namespace XmlRpcValue

/-! ### Members -/

variable {name : Name} {v : XmlRpcValue} {ms : List (Name × XmlRpcValue)}

/-- The names of the members of a struct are in order, and each is there once. -/
def Sorted (members : List (Name × XmlRpcValue)) : Prop := members.Pairwise fun m m' => m.1 < m'.1

theorem mem_insert {m : Name × XmlRpcValue} (h : m ∈ insert name v ms) :
    m = (name, v) ∨ m ∈ ms := by
  induction ms with
  | nil => simpa [insert] using h
  | cons m' ms ih =>
    rw [insert] at h
    split_ifs at h
    · exact List.mem_cons.mp h
    · exact Or.inr h
    · rcases List.mem_cons.mp h with rfl | h
      · exact Or.inr (List.mem_cons_self ..)
      · exact (ih h).imp_right (List.mem_cons_of_mem _)

/-- A member is put at its place. -/
theorem sorted_insert (h : Sorted ms) : Sorted (insert name v ms) := by
  induction ms with
  | nil => exact List.pairwise_singleton _ _
  | cons m ms ih =>
    obtain ⟨hm, hms⟩ := List.pairwise_cons.mp h
    rw [insert]
    split_ifs with hlt heq
    · refine List.pairwise_cons.mpr ⟨?_, h⟩
      intro m' hm'
      rcases List.mem_cons.mp hm' with rfl | hm'
      · exact hlt
      · exact List.lt_trans hlt (hm m' hm')
    · exact h
    · refine List.pairwise_cons.mpr ⟨?_, ih hms⟩
      intro m' hm'
      rcases mem_insert hm' with rfl | hm'
      · grind
      · exact hm m' hm'

/-! ### Well-formed values -/

/-- A value that has a type, and so have all values in it. -/
inductive WellFormed : XmlRpcValue → Prop
  | boolean (value : Bool) : WellFormed (boolean value)
  | int (value : ℤ) (h : -2 ^ 31 ≤ value ∧ value < 2 ^ 31) : WellFormed (int value)
  | double (bits : UInt64) : WellFormed (double bits)
  | string (value : Name) : WellFormed (string value)
  | dateTime (fields : List ℤ) (h : fields.length = 6) : WellFormed (dateTime fields)
  | base64 (value : List UInt8) : WellFormed (base64 value)
  | array (items : List XmlRpcValue) (h : ∀ v ∈ items, WellFormed v) : WellFormed (array items)
  | struct (members : List (Name × XmlRpcValue)) (h : ∀ m ∈ members, WellFormed m.2)
      (hsorted : Sorted members) : WellFormed (struct members)

/-- A parser that takes a front part of the text and makes a well-formed value of it. -/
def Reads (p : Parser) : Prop :=
  ∀ ⦃xml v rest⦄, p xml = some (v, rest) → WellFormed v ∧ rest <:+ xml

variable {floats : Floats} {xml rest : Name}

theorem reads_boolFromXml : Reads boolFromXml := by
  intro xml v rest h
  unfold boolFromXml at h
  split at h
  · simp at h
  · next ivalue rest' hstrtol =>
    simp only [Option.ite_none_left_eq_some, Option.some.injEq, Prod.mk.injEq] at h
    obtain ⟨-, rfl, rfl⟩ := h
    exact ⟨.boolean _, strtol_suffix hstrtol⟩

theorem reads_intFromXml : Reads intFromXml := by
  intro xml v rest h
  obtain ⟨⟨ivalue, rest'⟩, hstrtol, heq⟩ := Option.map_eq_some_iff.mp h
  obtain ⟨rfl, rfl⟩ := Prod.mk.inj heq
  exact ⟨.int _ (int32_mem _), strtol_suffix hstrtol⟩

theorem reads_doubleFromXml (floats : Floats) : Reads (doubleFromXml floats) := by
  intro xml v rest h
  obtain ⟨⟨bits, rest'⟩, hstrtod, heq⟩ := Option.map_eq_some_iff.mp h
  obtain ⟨rfl, rfl⟩ := Prod.mk.inj heq
  exact ⟨.double _, floats.strtod_suffix hstrtod⟩

theorem reads_stringFromXml : Reads stringFromXml := by
  intro xml v rest h
  unfold stringFromXml at h
  simp only [Option.ite_none_left_eq_some, Option.some.injEq, Prod.mk.injEq] at h
  obtain ⟨-, rfl, rfl⟩ := h
  exact ⟨.string _, List.drop_suffix _ _⟩

/-- A time that was read has its six fields. -/
theorem length_scanTime {stime : Name} {fields : List ℤ} (h : scanTime stime = some fields) :
    fields.length = 6 := by
  unfold scanTime at h
  simp only [bind, Option.bind_eq_some_iff, pure, Option.some.injEq] at h
  obtain ⟨_, -, _, -, _, -, _, -, _, -, _, -, _, -, _, -, _, -, rfl⟩ := h
  rfl

theorem reads_timeFromXml : Reads timeFromXml := by
  intro xml v rest h
  unfold timeFromXml at h
  simp only [Option.ite_none_left_eq_some, Option.map_eq_some_iff, Prod.mk.injEq] at h
  obtain ⟨-, fields, hscan, rfl, rfl⟩ := h
  exact ⟨.dateTime _ (length_scanTime hscan), List.drop_suffix _ _⟩

theorem reads_binaryFromXml : Reads binaryFromXml := by
  intro xml v rest h
  unfold binaryFromXml at h
  simp only [Option.ite_none_left_eq_some, Option.some.injEq, Prod.mk.injEq] at h
  obtain ⟨-, rfl, rfl⟩ := h
  exact ⟨.base64 _, List.drop_suffix _ _⟩

/-- What a value is announced as makes no difference. -/
theorem reads_typed {array struct : Parser} (harray : Reads array) (hstruct : Reads struct)
    {typeTag afterValue rest left : Name}
    (h : typed floats array struct typeTag afterValue rest = some (v, left))
    (hrest : rest <:+ afterValue) : WellFormed v ∧ left <:+ afterValue := by
  have hreads : ∀ {p : Parser} {xml : Name}, Reads p → xml <:+ afterValue →
      p xml = some (v, left) → WellFormed v ∧ left <:+ afterValue := by
    intro p xml hp hsuffix hread
    obtain ⟨hv, hleft⟩ := hp hread
    exact ⟨hv, hleft.trans hsuffix⟩
  unfold typed at h
  split_ifs at h
  · exact hreads reads_boolFromXml hrest h
  · exact hreads reads_intFromXml hrest h
  · exact hreads (reads_doubleFromXml floats) hrest h
  · exact hreads reads_stringFromXml hrest h
  · exact hreads reads_timeFromXml hrest h
  · exact hreads reads_binaryFromXml hrest h
  · exact hreads harray hrest h
  · exact hreads hstruct hrest h
  · exact hreads reads_stringFromXml (List.suffix_refl _) h

/-- A value takes at least its opening tag. -/
theorem fromXmlWith_spec {array struct : Parser} (harray : Reads array) (hstruct : Reads struct)
    (h : fromXmlWith floats array struct xml = some (v, rest)) :
    WellFormed v ∧ rest <:+ xml ∧ rest.length < xml.length := by
  unfold fromXmlWith at h
  split at h
  · simp at h
  · next afterValue hnext =>
    obtain ⟨⟨v', left⟩, htyped, heq⟩ := Option.map_eq_some_iff.mp h
    obtain ⟨rfl, rfl⟩ := Prod.mk.inj heq
    obtain ⟨hv, hleft⟩ := reads_typed harray hstruct htyped (getNextTag_suffix _)
    have hend : (findTag (etag "value") left).getD left <:+ left := by
      cases hfind : findTag (etag "value") left with
      | none => exact List.suffix_refl _
      | some rest => exact findTag_suffix hfind
    have hlength := nextTagIs_length hnext
    have hpos : 0 < (tag "value").length := Nat.zero_lt_succ _
    refine ⟨hv, hend.trans (hleft.trans (nextTagIs_suffix hnext)), ?_⟩
    have hle := (hend.trans hleft).length_le
    omega

/-- The loop over the items. -/
def ReadsItems (items : Name → List XmlRpcValue × Name) : Prop :=
  ∀ xml, (∀ v ∈ (items xml).1, WellFormed v) ∧ (items xml).2 <:+ xml

/-- The loop over the members. -/
def ReadsMembers (members : Name → Option (List (Name × XmlRpcValue) × Name)) : Prop :=
  ∀ ⦃xml ms rest⦄, members xml = some (ms, rest) →
    ((∀ m ∈ ms, WellFormed m.2) ∧ Sorted ms) ∧ rest <:+ xml

theorem getD_suffix (t rest : Name) : (nextTagIs t rest).getD rest <:+ rest := by
  cases h : nextTagIs t rest with
  | none => exact List.suffix_refl _
  | some rest' => exact nextTagIs_suffix h

theorem reads_arrayFromXml {items : Name → List XmlRpcValue × Name} (h : ReadsItems items) :
    Reads (arrayFromXml items) := by
  intro xml v rest hread
  obtain ⟨start, hstart, heq⟩ := Option.map_eq_some_iff.mp hread
  obtain ⟨rfl, rfl⟩ := Prod.mk.inj heq
  obtain ⟨hitems, hleft⟩ := h start
  exact ⟨.array _ hitems, (getD_suffix _ _).trans (hleft.trans (nextTagIs_suffix hstart))⟩

theorem reads_structFromXml {members : Name → Option (List (Name × XmlRpcValue) × Name)}
    (h : ReadsMembers members) : Reads (structFromXml members) := by
  intro xml v rest hread
  obtain ⟨⟨ms, left⟩, hms, heq⟩ := Option.map_eq_some_iff.mp hread
  obtain ⟨rfl, rfl⟩ := Prod.mk.inj heq
  obtain ⟨⟨hwf, hsorted⟩, hleft⟩ := h hms
  exact ⟨.struct _ hwf hsorted, hleft⟩

/-- The parser and its loops, by induction on the fuel. -/
theorem fuel_spec (floats : Floats) (fuel : ℕ) :
    (∀ xml v rest, fromXmlFuel floats fuel xml = some (v, rest) →
      WellFormed v ∧ rest <:+ xml ∧ rest.length < xml.length) ∧
    ReadsItems (itemsFuel floats fuel) ∧
    ∀ members, (∀ m ∈ members, WellFormed m.2) → Sorted members →
      ReadsMembers (membersFuel floats fuel members) := by
  induction fuel with
  | zero =>
    refine ⟨?_, ?_, ?_⟩
    · intro xml v rest h
      simp [fromXmlFuel] at h
    · intro xml
      simp [itemsFuel]
    · intro members _ _ xml ms rest h
      simp [membersFuel] at h
  | succ fuel ih =>
    obtain ⟨hvalue, hitems, hmembers⟩ := ih
    refine ⟨?_, ?_, ?_⟩
    · intro xml v rest h
      rw [fromXmlFuel] at h
      exact fromXmlWith_spec (reads_arrayFromXml hitems)
        (reads_structFromXml (hmembers [] (by simp) List.Pairwise.nil)) h
    · intro xml
      rw [itemsFuel]
      split
      · simp
      · next v rest hread =>
        obtain ⟨hv, hrest, -⟩ := hvalue xml v rest hread
        obtain ⟨hvs, hleft⟩ := hitems rest
        exact ⟨List.forall_mem_cons.mpr ⟨hv, hvs⟩, hleft.trans hrest⟩
    · intro members hwf hsorted xml ms rest h
      rw [membersFuel] at h
      split at h
      · obtain ⟨rfl, rfl⟩ := Prod.mk.inj (Option.some.inj h)
        exact ⟨⟨hwf, hsorted⟩, List.suffix_refl _⟩
      · next start hstart =>
        dsimp only at h
        split at h
        · simp at h
        · next val left hval =>
          obtain ⟨hv, hleft, -⟩ := hvalue _ val left hval
          have hwf' : ∀ m ∈ insert (parseTag (tag "name") start).1 val members, WellFormed m.2 := by
            intro m hm
            rcases mem_insert hm with rfl | hm
            · exact hv
            · exact hwf m hm
          obtain ⟨hms, hrest⟩ := hmembers _ hwf' (sorted_insert hsorted) h
          refine ⟨hms, ?_⟩
          calc
            rest <:+ (nextTagIs (etag "member") left).getD left := hrest
            _ <:+ left := getD_suffix _ _
            _ <:+ (parseTag (tag "name") start).2 := hleft
            _ <:+ start := parseTag_suffix _ _
            _ <:+ xml := nextTagIs_suffix hstart

/-- The parser takes a front part of the text that is not empty. -/
theorem fromXml_suffix (h : fromXml floats xml = some (v, rest)) :
    rest <:+ xml ∧ rest.length < xml.length :=
  ((fuel_spec floats _).1 xml v rest h).2

/-- Whatever text is read as a value is read as a well-formed one, and some of it is read. -/
theorem fromXml_wellFormed (h : fromXml floats xml = some (v, rest)) :
    WellFormed v ∧ rest <:+ xml ∧ rest.length < xml.length :=
  ⟨((fuel_spec floats _).1 xml v rest h).1, fromXml_suffix h⟩

/-- A struct in which one name stands twice, with something behind it. -/
def twice : Name :=
  bytesOf "<value><struct><member><name>a</name><value><i4>-7</i4></value></member>" ++
    bytesOf "<member><name>a</name><value>b</value></member></struct></value>c"

/-- Of the two members one is read. -/
theorem fromXml_wellFormed_struct :
    ∃ v rest, fromXml Floats.integers twice = some (v, rest) ∧ WellFormed v := by
  have h : (fromXml Floats.integers twice).isSome = true := by decide +kernel
  obtain ⟨⟨v, rest⟩, hread⟩ := Option.isSome_iff_exists.mp h
  exact ⟨v, rest, hread, (fromXml_wellFormed hread).1⟩

/-! ### The recursion of the source -/

/-- A value depends on the parsers of arrays and structs on the rest of its text only. -/
theorem fromXmlWith_congr {array array' struct struct' : Parser}
    (harray : ∀ rest : Name, rest.length < xml.length → array rest = array' rest)
    (hstruct : ∀ rest : Name, rest.length < xml.length → struct rest = struct' rest) :
    fromXmlWith floats array struct xml = fromXmlWith floats array' struct' xml := by
  unfold fromXmlWith
  cases hnext : nextTagIs (tag "value") xml with
  | none => rfl
  | some afterValue =>
    have hlength := nextTagIs_length hnext
    have hpos : 0 < (tag "value").length := Nat.zero_lt_succ _
    have hle := (getNextTag_suffix afterValue).length_le
    simp only [typed, harray (getNextTag afterValue).2 (by omega),
      hstruct (getNextTag afterValue).2 (by omega)]

theorem arrayFromXml_congr {items items' : Name → List XmlRpcValue × Name}
    (h : ∀ rest : Name, rest.length < xml.length → items rest = items' rest) :
    arrayFromXml items xml = arrayFromXml items' xml := by
  unfold arrayFromXml
  cases hnext : nextTagIs (tag "data") xml with
  | none => rfl
  | some rest =>
    have hlength := nextTagIs_length hnext
    have hpos : 0 < (tag "data").length := Nat.zero_lt_succ _
    simp only [Option.map_some, h rest (by omega)]

/-- More fuel than enough changes nothing. -/
theorem fuel_succ (floats : Floats) (fuel : ℕ) :
    (∀ xml : Name, 2 * xml.length + 1 ≤ fuel →
      fromXmlFuel floats (fuel + 1) xml = fromXmlFuel floats fuel xml) ∧
    (∀ xml : Name, 2 * xml.length + 2 ≤ fuel →
      itemsFuel floats (fuel + 1) xml = itemsFuel floats fuel xml) ∧
    ∀ members (xml : Name), 2 * xml.length + 2 ≤ fuel →
      membersFuel floats (fuel + 1) members xml = membersFuel floats fuel members xml := by
  induction fuel with
  | zero => exact ⟨by omega, by omega, by omega⟩
  | succ fuel ih =>
    obtain ⟨hvalue, hitems, hmembers⟩ := ih
    refine ⟨?_, ?_, ?_⟩
    · intro xml hfuel
      rw [fromXmlFuel, fromXmlFuel]
      refine fromXmlWith_congr ?_ ?_
      · intro rest hrest
        exact arrayFromXml_congr fun rest' hrest' => hitems rest' (by omega)
      · intro rest hrest
        rw [structFromXml, structFromXml, hmembers [] rest (by omega)]
    · intro xml hfuel
      rw [itemsFuel, itemsFuel, hvalue xml (by omega)]
      cases hread : fromXmlFuel floats fuel xml with
      | none => rfl
      | some read =>
        have hlt := ((fuel_spec floats fuel).1 xml read.1 read.2 hread).2.2
        simp only [hitems read.2 (by omega)]
    · intro members xml hfuel
      rw [membersFuel, membersFuel]
      cases hnext : nextTagIs (tag "member") xml with
      | none => rfl
      | some start =>
        have hlength := nextTagIs_length hnext
        have hpos : 0 < (tag "member").length := Nat.zero_lt_succ _
        have hle := (parseTag_suffix (tag "name") start).length_le
        simp only [hvalue (parseTag (tag "name") start).2 (by omega)]
        cases hread : fromXmlFuel floats fuel (parseTag (tag "name") start).2 with
        | none => rfl
        | some read =>
          have hlt := ((fuel_spec floats fuel).1 _ read.1 read.2 hread).2.2
          have hle' := (getD_suffix (etag "member") read.2).length_le
          exact hmembers _ _ (by omega)

/-- Any fuel that is enough gives what `fromXml` gives. -/
theorem fromXmlFuel_eq {fuel : ℕ} (h : 2 * xml.length + 1 ≤ fuel) :
    fromXmlFuel floats fuel xml = fromXml floats xml := by
  induction fuel, h using Nat.le_induction with
  | base => rfl
  | succ fuel h ih => rw [(fuel_succ floats fuel).1 xml h, ih]

/-- The items of an array, with enough fuel. -/
def items (floats : Floats) (xml : Name) : List XmlRpcValue × Name :=
  itemsFuel floats (2 * xml.length + 2) xml

theorem itemsFuel_eq {fuel : ℕ} (h : 2 * xml.length + 2 ≤ fuel) :
    itemsFuel floats fuel xml = items floats xml := by
  induction fuel, h using Nat.le_induction with
  | base => rfl
  | succ fuel h ih => rw [(fuel_succ floats fuel).2.1 xml h, ih]

/-- The members of a struct, with enough fuel. -/
def members (floats : Floats) (ms : List (Name × XmlRpcValue)) (xml : Name) :
    Option (List (Name × XmlRpcValue) × Name) :=
  membersFuel floats (2 * xml.length + 2) ms xml

theorem membersFuel_eq {fuel : ℕ} {ms : List (Name × XmlRpcValue)}
    (h : 2 * xml.length + 2 ≤ fuel) : membersFuel floats fuel ms xml = members floats ms xml := by
  induction fuel, h using Nat.le_induction with
  | base => rfl
  | succ fuel h ih => rw [(fuel_succ floats fuel).2.2 ms xml h, ih]

/-- `fromXml` calls the loops of arrays and structs as the source does. -/
theorem fromXml_eq (floats : Floats) (xml : Name) :
    fromXml floats xml = fromXmlWith floats (arrayFromXml (items floats))
      (structFromXml (members floats [])) xml := by
  rw [fromXml, fromXmlFuel]
  refine fromXmlWith_congr ?_ ?_
  · intro rest hrest
    exact arrayFromXml_congr fun rest' hrest' => itemsFuel_eq (by omega)
  · intro rest hrest
    rw [structFromXml, structFromXml, membersFuel_eq (by omega)]

/-- The loop over the items reads values until there is none. -/
theorem items_eq (floats : Floats) (xml : Name) :
    items floats xml =
      match fromXml floats xml with
      | none => ([], xml)
      | some (v, rest) => (v :: (items floats rest).1, (items floats rest).2) := by
  rw [items, itemsFuel, fromXmlFuel_eq le_rfl]
  cases hread : fromXml floats xml with
  | none => rfl
  | some read =>
    have hlt := (fromXml_suffix hread).2
    have hitems : itemsFuel floats (2 * xml.length + 1) read.2 = items floats read.2 :=
      itemsFuel_eq (by omega)
    simp only [hitems]

/-- The loop over the members reads names and values while there is one. -/
theorem members_eq (floats : Floats) (ms : List (Name × XmlRpcValue)) (xml : Name) :
    members floats ms xml =
      match nextTagIs (tag "member") xml with
      | none => some (ms, xml)
      | some rest =>
        match fromXml floats (parseTag (tag "name") rest).2 with
        | none => none
        | some (val, left) =>
          members floats (insert (parseTag (tag "name") rest).1 val ms)
            ((nextTagIs (etag "member") left).getD left) := by
  rw [members, membersFuel]
  cases hnext : nextTagIs (tag "member") xml with
  | none => rfl
  | some start =>
    have hlength := nextTagIs_length hnext
    have hpos : 0 < (tag "member").length := Nat.zero_lt_succ _
    have hle := (parseTag_suffix (tag "name") start).length_le
    dsimp only
    rw [fromXmlFuel_eq (by omega)]
    cases hread : fromXml floats (parseTag (tag "name") start).2 with
    | none => rfl
    | some read =>
      have hlt := (fromXml_suffix hread).2
      have hle' := (getD_suffix (etag "member") read.2).length_le
      exact membersFuel_eq (by omega)

end XmlRpcValue

end IvySync
