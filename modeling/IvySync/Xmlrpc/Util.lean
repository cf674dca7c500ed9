import IvySync.Foundation.Search
import IvySync.Utils

/-!
# The texts of the remote interface

`XmlRpcUtil`: looking for tags and replacing the characters that XML keeps for itself.  The source
gives every function the whole text with an offset into it, and none of them looks back.  Here the
text behind the offset stands for both, and what is left of it for the offset that is moved; `none`
is a failure, which leaves the offset where it was.  Texts of 2^31 bytes and more, for which the
offsets of the source are too small, are left out.
-/

namespace IvySync

namespace XmlRpcUtil

/-! ### Tags -/

/-- The tag of a name. -/
def tag (name : String) : Name := 60 :: (bytesOf name ++ [62])

/-- The end tag of a name. -/
def etag (name : String) : Name := 60 :: 47 :: (bytesOf name ++ [62])

/-- `parseTag`: what stands between a tag and its end tag, and the text behind them.  The result is
empty, and nothing is skipped, if one of them is missing. -/
def parseTag (tag xml : Name) : Name × Name :=
  match Text.indexOf tag xml with
  | none => ([], xml)
  | some istart =>
    let rest := xml.drop (istart + tag.length)
    let etag := 60 :: 47 :: tag.drop 1
    match Text.indexOf etag rest with
    | none => ([], xml)
    | some iend => (rest.take iend, rest.drop (iend + etag.length))

/-- `findTag`: the text behind the next place of a tag. -/
def findTag (tag xml : Name) : Option Name :=
  (Text.indexOf tag xml).map fun istart => xml.drop (istart + tag.length)

/-- `nextTagIs`: the text behind a tag, if nothing but blanks stands before it. -/
def nextTagIs (tag xml : Name) : Option Name :=
  let cp := xml.dropWhile isspace
  if tag <+: cp then some (cp.drop tag.length) else none

/-- The bytes that belong to the name of a tag. -/
def inTag (c : UInt8) : Bool := c ≠ 62 && c ≠ 0 && !isspace c

/-- `getNextTag`: the next tag, without its parameters, and the text behind it.  Nothing is skipped
if there is none. -/
def getNextTag (xml : Name) : Name × Name :=
  match xml.dropWhile isspace with
  | [] => ([], xml)
  | c :: cp =>
    if c ≠ 60 then ([], xml)
    else
      let rest := (cp.dropWhile inTag).dropWhile fun c => c ≠ 62 && c ≠ 0
      (60 :: (cp.takeWhile inTag ++ [rest.headD 0]), rest.tail)

/-! ### Entities -/

/-- `rawEntity`, with `xmlEntity`. -/
def entities : List (UInt8 × Name) :=
  [(60, bytesOf "lt;"), (62, bytesOf "gt;"), (38, bytesOf "amp;"), (39, bytesOf "apos;"),
    (34, bytesOf "quot;")]

/-- `xmlEncode`. -/
def xmlEncode (raw : Name) : Name :=
  raw.flatMap fun c =>
    match entities.lookup c with
    | some entity => 38 :: entity
    | none => [c]

/-- `xmlDecode`: an ampersand that no entity follows is kept. -/
def xmlDecode (encoded : Name) : Name :=
  match encoded with
  | [] => []
  | c :: rest =>
    match if c = 38 then entities.find? fun e => e.2 <+: rest else none with
    | some e => e.1 :: xmlDecode (rest.drop e.2.length)
    | none => c :: xmlDecode rest
  termination_by encoded.length

/-! ### Reading what was written -/

variable {c : UInt8} {e gap name raw rest s t xml : Name}

/-- A text that begins with a tag is not blank. -/
theorem dropWhile_lt : (60 :: s).dropWhile isspace = 60 :: s := rfl

/-- A tag at the front is the next one. -/
theorem nextTagIs_lt : nextTagIs t (60 :: s) =
    if t <+: 60 :: s then some ((60 :: s).drop t.length) else none := rfl

/-- The next tag is this one if the text begins with it. -/
theorem nextTagIs_append : nextTagIs (60 :: t) (60 :: t ++ s) = some s := by
  rw [List.cons_append, nextTagIs_lt, ← List.cons_append, if_pos (List.prefix_append _ _),
    List.drop_left]

/-- Blanks in front of a tag are skipped. -/
theorem nextTagIs_blank (hgap : ∀ c ∈ gap, isspace c = true) :
    nextTagIs t (gap ++ s) = nextTagIs t s := by
  unfold nextTagIs
  rw [List.dropWhile_append_of_pos hgap]

/-- The next tag of a text that begins with one. -/
theorem getNextTag_append (hname : ∀ c ∈ name, inTag c = true) :
    getNextTag (60 :: (name ++ [62]) ++ s) = (60 :: (name ++ [62]), s) := by
  have hstop : inTag 62 = false := rfl
  have hdrop : (name ++ 62 :: s).dropWhile inTag = 62 :: s := by
    rw [List.dropWhile_append_of_pos hname, List.dropWhile_cons_of_neg (by simp [hstop])]
  have htake : (name ++ 62 :: s).takeWhile inTag = name := by
    rw [List.takeWhile_append_of_pos hname, List.takeWhile_cons_of_neg (by simp [hstop]),
      List.append_nil]
  have happ : 60 :: (name ++ [62]) ++ s = 60 :: (name ++ 62 :: s) := by simp
  rw [happ, getNextTag, dropWhile_lt]
  simp only [ne_eq, not_true_eq_false, if_false, hdrop, htake]
  rfl

/-- A tag behind a part of the text without one. -/
theorem findTag_append (hgap : 60 ∉ gap) : findTag (60 :: t) (gap ++ (60 :: t ++ s)) = some s := by
  rw [findTag, Text.indexOf_word hgap, Option.map_some, ← List.append_assoc, List.drop_left']
  rw [List.length_append]

/-- A tag of which the place in the front part of the text is known. -/
theorem findTag_of_indexOf (gap : Name) (h : Text.indexOf t (gap ++ t) = some gap.length) :
    findTag t (gap ++ (t ++ s)) = some s := by
  rw [findTag, ← List.append_assoc, Text.indexOf_append s h, Option.map_some, List.drop_left']
  rw [List.length_append]

/-- What stands between a tag of which the place is known and its end tag. -/
theorem parseTag_of_indexOf (gap : Name)
    (hgap : Text.indexOf (60 :: t) (gap ++ 60 :: t) = some gap.length) (hname : 60 ∉ name) :
    parseTag (60 :: t) (gap ++ (60 :: t ++ (name ++ (60 :: 47 :: t ++ s)))) = (name, s) := by
  have hstart := Text.indexOf_append (name ++ (60 :: 47 :: t ++ s)) hgap
  have hend := Text.indexOf_word (w := 47 :: t) (c := 60) hname s
  have hdrop : (gap ++ (60 :: t ++ (name ++ (60 :: 47 :: t ++ s)))).drop
      (gap.length + (60 :: t).length) = name ++ (60 :: 47 :: t ++ s) := by
    rw [← List.append_assoc, List.drop_left']
    rw [List.length_append]
  rw [List.append_assoc] at hstart
  unfold parseTag
  simp only [hstart, hdrop, List.drop_succ_cons, List.drop_zero, hend, List.take_left]
  rw [← List.append_assoc, List.drop_left']
  rw [List.length_append]

/-- What stands between a tag and its end tag. -/
theorem parseTag_append (hname : 60 ∉ name) :
    parseTag (60 :: t) (60 :: t ++ (name ++ (60 :: 47 :: t ++ s))) = (name, s) :=
  parseTag_of_indexOf [] (Text.indexOf_of_prefix (List.prefix_refl _)) hname

/-! ### What is left of a text -/

theorem findTag_suffix (h : findTag t xml = some rest) : rest <:+ xml := by
  obtain ⟨i, -, rfl⟩ := Option.map_eq_some_iff.mp h
  exact List.drop_suffix _ _

theorem nextTagIs_suffix (h : nextTagIs t xml = some rest) : rest <:+ xml := by
  unfold nextTagIs at h
  simp only [Option.ite_none_right_eq_some, Option.some.injEq] at h
  rw [← h.2]
  exact (List.drop_suffix _ _).trans (List.dropWhile_suffix _)

/-- A tag is skipped with its whole length. -/
theorem nextTagIs_length (h : nextTagIs t xml = some rest) :
    rest.length + t.length ≤ xml.length := by
  unfold nextTagIs at h
  simp only [Option.ite_none_right_eq_some, Option.some.injEq] at h
  obtain ⟨hhead, rfl⟩ := h
  have hle := hhead.length_le
  have hsuffix := (List.dropWhile_suffix isspace (l := xml)).length_le
  rw [List.length_drop]
  omega

theorem parseTag_suffix (t xml : Name) : (parseTag t xml).2 <:+ xml := by
  unfold parseTag
  split
  · exact List.suffix_refl _
  · dsimp only
    split
    · exact List.suffix_refl _
    · exact (List.drop_suffix _ _).trans (List.drop_suffix _ _)

theorem getNextTag_suffix (xml : Name) : (getNextTag xml).2 <:+ xml := by
  unfold getNextTag
  split
  · exact List.suffix_refl _
  · next c cp hcp =>
    split_ifs
    · exact List.suffix_refl _
    · have hblank := List.dropWhile_suffix isspace (l := xml)
      rw [hcp] at hblank
      calc
        _ <:+ (cp.dropWhile inTag).dropWhile fun c => c ≠ 62 && c ≠ 0 := List.tail_suffix _
        _ <:+ cp.dropWhile inTag := List.dropWhile_suffix _
        _ <:+ cp := List.dropWhile_suffix _
        _ <:+ c :: cp := List.suffix_cons _ _
        _ <:+ xml := hblank

/-! ### Decoding what was encoded -/

/-- The entity of a character is one of the table. -/
theorem mem_entities (h : entities.lookup c = some e) : (c, e) ∈ entities := by
  obtain ⟨l, r, hsplit, -⟩ := List.lookup_eq_some_iff.mp h
  simp [hsplit]

/-- No entity begins like another one. -/
theorem find_entities (h : (c, e) ∈ entities) (s : Name) :
    entities.find? (fun x => x.2 <+: e ++ s) = some (c, e) := by
  simp only [entities, List.mem_cons, Prod.mk.injEq, List.not_mem_nil, or_false] at h
  rcases h with ⟨rfl, rfl⟩ | ⟨rfl, rfl⟩ | ⟨rfl, rfl⟩ | ⟨rfl, rfl⟩ | ⟨rfl, rfl⟩ <;>
    simp [entities, bytesOf]

@[simp] theorem xmlDecode_nil : xmlDecode [] = [] := by rw [xmlDecode]

/-- Any other character stands for itself. -/
theorem xmlDecode_cons (hc : c ≠ 38) (s : Name) : xmlDecode (c :: s) = c :: xmlDecode s := by
  rw [xmlDecode, if_neg hc]

/-- An entity stands for its character. -/
theorem xmlDecode_entity (h : (c, e) ∈ entities) (s : Name) :
    xmlDecode (38 :: (e ++ s)) = c :: xmlDecode s := by
  rw [xmlDecode, if_pos rfl, find_entities h]
  simp

@[simp] theorem xmlEncode_nil : xmlEncode [] = [] := rfl

theorem xmlEncode_cons (c : UInt8) (raw : Name) : xmlEncode (c :: raw) =
    (match entities.lookup c with
      | some entity => 38 :: entity
      | none => [c]) ++ xmlEncode raw := rfl

/-- Every text is read as it was before it was encoded. -/
theorem xmlDecode_xmlEncode (raw : Name) : xmlDecode (xmlEncode raw) = raw := by
  induction raw with
  | nil => simp
  | cons c raw ih =>
    rw [xmlEncode_cons]
    cases hlookup : entities.lookup c with
    | some e => simp only [List.cons_append, xmlDecode_entity (mem_entities hlookup), ih]
    | none =>
      have hc : c ≠ 38 := by
        rintro rfl
        exact absurd hlookup (by decide)
      simp only [List.singleton_append, xmlDecode_cons hc, ih]

/-- The text of an entity. -/
theorem entity_chars (h : (c, e) ∈ entities) : ∀ x ∈ e, x = 59 ∨ 97 ≤ x ∧ x ≤ 122 := by
  simp only [entities, List.mem_cons, Prod.mk.injEq, List.not_mem_nil, or_false] at h
  rcases h with ⟨-, rfl⟩ | ⟨-, rfl⟩ | ⟨-, rfl⟩ | ⟨-, rfl⟩ | ⟨-, rfl⟩ <;> decide +kernel

/-- An encoded text has none of the characters that are replaced, the ampersand of the entities
apart. -/
theorem notMem_xmlEncode (hc : entities.lookup c ≠ none) (h38 : c ≠ 38) (raw : Name) :
    c ∉ xmlEncode raw := by
  intro hmem
  obtain ⟨d, -, hd⟩ := List.mem_flatMap.mp hmem
  have hclear : ¬ (c = 59 ∨ 97 ≤ c ∧ c ≤ 122) := by
    obtain ⟨e, he⟩ := Option.ne_none_iff_exists'.mp hc
    have hin := mem_entities he
    simp only [entities, List.mem_cons, Prod.mk.injEq, List.not_mem_nil, or_false] at hin
    rcases hin with ⟨rfl, -⟩ | ⟨rfl, -⟩ | ⟨rfl, -⟩ | ⟨rfl, -⟩ | ⟨rfl, -⟩ <;> decide
  split at hd
  · next e he =>
    rcases List.mem_cons.mp hd with rfl | hd
    · exact h38 rfl
    · exact hclear (entity_chars (mem_entities he) c hd)
  · next hd' =>
    obtain rfl := List.mem_singleton.mp hd
    exact hc hd'

theorem lt_notMem_xmlEncode (raw : Name) : 60 ∉ xmlEncode raw :=
  notMem_xmlEncode (by decide) (by decide) raw

/-- The name of an entity is not empty. -/
theorem entity_ne_nil (h : (c, e) ∈ entities) : e ≠ [] := by
  simp only [entities, List.mem_cons, Prod.mk.injEq, List.not_mem_nil, or_false] at h
  rcases h with ⟨-, rfl⟩ | ⟨-, rfl⟩ | ⟨-, rfl⟩ | ⟨-, rfl⟩ | ⟨-, rfl⟩ <;> decide

theorem length_le_xmlEncode (raw : Name) : raw.length ≤ (xmlEncode raw).length := by
  induction raw with
  | nil => simp
  | cons c raw ih =>
    rw [xmlEncode_cons, List.length_append, List.length_cons]
    split <;> simp only [List.length_cons, List.length_nil] <;> omega

/-- A text is as long as it is when it is encoded exactly if nothing in it has to be replaced. -/
theorem length_xmlEncode_eq_iff :
    (xmlEncode raw).length = raw.length ↔ ∀ c ∈ raw, entities.lookup c = none := by
  induction raw with
  | nil => simp
  | cons c raw ih =>
    rw [xmlEncode_cons, List.forall_mem_cons, List.length_append, List.length_cons]
    cases hlookup : entities.lookup c with
    | none =>
      simp only [List.length_singleton, true_and, ← ih]
      omega
    | some e =>
      have hle := length_le_xmlEncode raw
      have hpos := List.length_pos_of_ne_nil (entity_ne_nil (mem_entities hlookup))
      simp only [List.length_cons, reduceCtorEq, false_and, iff_false]
      omega

/-- It is encoded as itself then. -/
theorem xmlEncode_eq_self_iff : xmlEncode raw = raw ↔ ∀ c ∈ raw, entities.lookup c = none := by
  refine ⟨fun h => length_xmlEncode_eq_iff.mp (congrArg List.length h), ?_⟩
  intro h
  induction raw with
  | nil => rfl
  | cons c raw ih =>
    obtain ⟨hc, hraw⟩ := List.forall_mem_cons.mp h
    rw [xmlEncode_cons, hc, ih hraw]
    rfl

/-- Different texts are encoded differently. -/
theorem xmlEncode_injective : Function.Injective xmlEncode :=
  Function.LeftInverse.injective xmlDecode_xmlEncode

end XmlRpcUtil

end IvySync
