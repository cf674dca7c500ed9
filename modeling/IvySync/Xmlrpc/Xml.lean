import IvySync.Saved.Devices
import IvySync.Xmlrpc.Base64
import IvySync.Xmlrpc.Util
import IvySync.Xmlrpc.Value

/-!
# Values in XML

`XmlRpcValue::toXml` and `XmlRpcValue::fromXml`.  A parser takes the text from the offset on and
gives the value and the text behind it; `none` is a failure, after which the offset is where it was
and the value invalid.  Arrays and structs nest, so that the parser calls itself: `fromXmlFuel` may
do so as often as it has fuel, and there is always enough of it (`fromXmlFuel_eq`).

The numbers in floating point are written and read by the C library.
-/

namespace IvySync

open XmlRpcUtil

/-! ### Numbers -/

/-- The conversion `%d`. -/
def printD (n : ℤ) : Name := if n < 0 then 45 :: decimal n.natAbs else decimal n.natAbs

/-- The conversion `%d` with zeros up to a width. -/
def printD0 (width : ℕ) (n : ℤ) : Name :=
  let digits := decimal n.natAbs
  if n < 0 then 45 :: (List.replicate (width - 1 - digits.length) 48 ++ digits)
  else List.replicate (width - digits.length) 48 ++ digits

/-- A conversion `%d` of `sscanf` with a width. -/
def scanD (width : ℕ) (s : Name) : Option (ℤ × Name) :=
  let s := s.dropWhile isspace
  let (minus, rest) := sign s
  let digits := (rest.take (width - (s.length - rest.length))).takeWhile isdigit
  let n : ℤ := leadingNumber digits
  if digits = [] then none else some (if minus then -n else n, rest.drop digits.length)

/-- A character of the format of `sscanf` that stands for itself. -/
def scanChar (c : UInt8) : Name → Option Name
  | [] => none
  | d :: s => if d = c then some s else none

/-- How the C library writes a number in floating point with the format `_doubleFormat`, and how
`strtod` reads one: the number and the text behind it. -/
structure Floats where
  print : UInt64 → Name
  strtod : Name → Option (UInt64 × Name)
  strtod_suffix : ∀ {s bits rest}, strtod s = some (bits, rest) → rest <:+ s

namespace XmlRpcValue

/-! ### Writing -/

/-- What is the same in all values but the strings: the text of the value, in its own tags. -/
def wrap (name : String) (text : Name) : Name :=
  tag "value" ++ (tag name ++ (text ++ (etag name ++ etag "value")))

/-- `boolToXml`. -/
def boolToXml (value : Bool) : Name := wrap "boolean" (if value then bytesOf "1" else bytesOf "0")

/-- `intToXml`. -/
def intToXml (value : ℤ) : Name := wrap "i4" (snprintf 255 (printD value))

/-- `doubleToXml`. -/
def doubleToXml (floats : Floats) (bits : UInt64) : Name :=
  wrap "double" (snprintf 255 (floats.print bits))

/-- `stringToXml`. -/
def stringToXml (value : Name) : Name := tag "value" ++ (xmlEncode value ++ etag "value")

/-- The text of a time. -/
def timeText (fields : List ℤ) : Name :=
  snprintf 19 (printD0 4 (1900 + fields.getD 0 0) ++ printD0 2 (fields.getD 1 0) ++
    printD0 2 (fields.getD 2 0) ++ bytesOf "T" ++ printD0 2 (fields.getD 3 0) ++ bytesOf ":" ++
    printD0 2 (fields.getD 4 0) ++ bytesOf ":" ++ printD0 2 (fields.getD 5 0))

/-- `timeToXml`. -/
def timeToXml (fields : List ℤ) : Name := wrap "dateTime.iso8601" (timeText fields)

/-- `binaryToXml`. -/
def binaryToXml (value : List UInt8) : Name := wrap "base64" (Base64.put 0 value)

mutual

/-- `toXml`. -/
def toXml (floats : Floats) : XmlRpcValue → Name
  | invalid => []
  | boolean value => boolToXml value
  | int value => intToXml value
  | double bits => doubleToXml floats bits
  | string value => stringToXml value
  | dateTime fields => timeToXml fields
  | base64 value => binaryToXml value
  | array items =>
    tag "value" ++ (tag "array" ++ (tag "data" ++ (itemsToXml floats items ++
      (etag "data" ++ (etag "array" ++ etag "value")))))
  | struct members => wrap "struct" (membersToXml floats members)

/-- The loop of `arrayToXml`. -/
def itemsToXml (floats : Floats) : List XmlRpcValue → Name
  | [] => []
  | v :: items => toXml floats v ++ itemsToXml floats items

/-- The loop of `structToXml`. -/
def membersToXml (floats : Floats) : List (Name × XmlRpcValue) → Name
  | [] => []
  | (name, v) :: members =>
    tag "member" ++ (tag "name" ++ (xmlEncode name ++ (etag "name" ++ (toXml floats v ++
      (etag "member" ++ membersToXml floats members)))))

end

/-! ### Reading -/

/-- A parser: the value and the text behind it. -/
abbrev Parser := Name → Option (XmlRpcValue × Name)

/-- `boolFromXml`. -/
def boolFromXml : Parser := fun xml =>
  match strtol xml with
  | none => none
  | some (ivalue, rest) =>
    if ivalue ≠ 0 ∧ ivalue ≠ 1 then none else some (boolean (ivalue = 1), rest)

/-- `intFromXml`. -/
def intFromXml : Parser := fun xml =>
  (strtol xml).map fun (ivalue, rest) => (int (int32 ivalue), rest)

/-- `doubleFromXml`. -/
def doubleFromXml (floats : Floats) : Parser := fun xml =>
  (floats.strtod xml).map fun (bits, rest) => (double bits, rest)

/-- `stringFromXml`.  The offset is moved by the length of the decoded string. -/
def stringFromXml : Parser := fun xml =>
  if 60 ∉ xml then none
  else
    let value := xmlDecode (xml.takeWhile (· ≠ 60))
    some (string value, xml.drop value.length)

/-- The text that `timeFromXml` reads. -/
def scanTime (stime : Name) : Option (List ℤ) := do
  let (year, s) ← scanD 4 stime
  let (mon, s) ← scanD 2 s
  let (mday, s) ← scanD 2 s
  let s ← scanChar 84 s
  let (hour, s) ← scanD 2 s
  let s ← scanChar 58 s
  let (min, s) ← scanD 2 s
  let s ← scanChar 58 s
  let (sec, _) ← scanD 2 s
  return [year - 1900, mon, mday, hour, min, sec]

/-- `timeFromXml`. -/
def timeFromXml : Parser := fun xml =>
  if 60 ∉ xml then none
  else
    let stime := xml.takeWhile (· ≠ 60)
    (scanTime stime).map fun fields => (dateTime fields, xml.drop stime.length)

/-- `binaryFromXml`. -/
def binaryFromXml : Parser := fun xml =>
  if 60 ∉ xml then none
  else
    let asString := xml.takeWhile (· ≠ 60)
    some (base64 (Base64.get asString), xml.drop asString.length)

/-- `std::map::insert`: a member that is there already is kept. -/
def insert (name : Name) (v : XmlRpcValue) :
    List (Name × XmlRpcValue) → List (Name × XmlRpcValue)
  | [] => [(name, v)]
  | m :: members =>
    if name < m.1 then (name, v) :: m :: members
    else if name = m.1 then m :: members
    else m :: insert name v members

/-- The value that its type tag announces, as `fromXml` goes on behind the tag. -/
def typed (floats : Floats) (array struct : Parser) (typeTag afterValue rest : Name) :
    Option (XmlRpcValue × Name) :=
  if typeTag = tag "boolean" then boolFromXml rest
  else if typeTag = tag "i4" ∨ typeTag = tag "int" then intFromXml rest
  else if typeTag = tag "double" then doubleFromXml floats rest
  else if typeTag = [] ∨ typeTag = tag "string" then stringFromXml rest
  else if typeTag = tag "dateTime.iso8601" then timeFromXml rest
  else if typeTag = tag "base64" then binaryFromXml rest
  else if typeTag = tag "array" then array rest
  else if typeTag = tag "struct" then struct rest
  else if typeTag = etag "value" then stringFromXml afterValue
  else none

/-- `fromXml`, with the parsers that it calls for arrays and structs. -/
def fromXmlWith (floats : Floats) (array struct : Parser) : Parser := fun xml =>
  match nextTagIs (tag "value") xml with
  | none => none
  | some afterValue =>
    let (typeTag, rest) := getNextTag afterValue
    (typed floats array struct typeTag afterValue rest).map fun (v, rest) =>
      (v, (findTag (etag "value") rest).getD rest)

/-- `arrayFromXml`, with its loop. -/
def arrayFromXml (items : Name → List XmlRpcValue × Name) : Parser := fun xml =>
  (nextTagIs (tag "data") xml).map fun rest =>
    let (items, rest) := items rest
    (array items, (nextTagIs (etag "data") rest).getD rest)

/-- `structFromXml`, with its loop. -/
def structFromXml (members : Name → Option (List (Name × XmlRpcValue) × Name)) : Parser :=
  fun xml => (members xml).map fun (members, rest) => (struct members, rest)

mutual

/-- `fromXml` with some fuel. -/
def fromXmlFuel (floats : Floats) : ℕ → Parser
  | 0, _ => none
  | fuel + 1, xml =>
    fromXmlWith floats (arrayFromXml (itemsFuel floats fuel))
      (structFromXml (membersFuel floats fuel [])) xml

/-- The loop of `arrayFromXml`. -/
def itemsFuel (floats : Floats) : ℕ → Name → List XmlRpcValue × Name
  | 0, xml => ([], xml)
  | fuel + 1, xml =>
    match fromXmlFuel floats fuel xml with
    | none => ([], xml)
    | some (v, rest) =>
      let (items, rest) := itemsFuel floats fuel rest
      (v :: items, rest)

/-- The loop of `structFromXml`, with the members so far. -/
def membersFuel (floats : Floats) :
    ℕ → List (Name × XmlRpcValue) → Name → Option (List (Name × XmlRpcValue) × Name)
  | 0, _, _ => none
  | fuel + 1, members, xml =>
    match nextTagIs (tag "member") xml with
    | none => some (members, xml)
    | some rest =>
      let (name, rest) := parseTag (tag "name") rest
      match fromXmlFuel floats fuel rest with
      | none => none
      | some (val, rest) =>
        membersFuel floats fuel (insert name val members)
          ((nextTagIs (etag "member") rest).getD rest)

end

/-- `fromXml`. -/
def fromXml (floats : Floats) : Parser := fun xml => fromXmlFuel floats (2 * xml.length + 1) xml

end XmlRpcValue

end IvySync
