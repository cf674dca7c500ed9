import IvySync.Decoder.Defs

/-!
# The values of the remote interface

The class `XmlRpcValue`, as far as the methods of the daemon use it on their parameters: the size,
the access to an entry of an array and the conversions.  Each of them may throw.  A value that was
never set takes any type that it is asked for; that it keeps it afterwards is left out, since every
parameter is looked at once.
-/

namespace IvySync

/-- An exception of the library, with its code. -/
structure XmlRpcException where
  message : String
  code : ℤ := -1
  deriving DecidableEq, Repr

/-- A value by its type; a number in floating point is kept as its bits, a time as its fields. -/
inductive XmlRpcValue
  | invalid
  | boolean (value : Bool)
  | int (value : ℤ)
  | double (bits : UInt64)
  | string (value : List UInt8)
  | dateTime (fields : List ℤ)
  | base64 (value : List UInt8)
  | array (items : List XmlRpcValue)
  | struct (members : List (List UInt8 × XmlRpcValue))

namespace XmlRpcValue

/-- `XmlRpcValue::size`, for the types that have one. -/
def size : XmlRpcValue → Except XmlRpcException ℤ
  | string value => .ok (int32 value.length)
  | base64 value => .ok (int32 value.length)
  | array items => .ok (int32 items.length)
  | struct members => .ok (int32 members.length)
  | _ => .error { message := "type error" }

/-- A length does not grow in its conversion to `int`. -/
theorem int32_natCast_le (n : ℕ) : int32 n ≤ n := by
  unfold int32
  rw [Int.bmod_def]
  split_ifs <;> omega

/-- `XmlRpcValue::assertArray`: the entries of an array, which is made longer when it has fewer than
`size`. -/
def assertArray (size : ℕ) :
    XmlRpcValue → Except XmlRpcException {items : List XmlRpcValue // size ≤ items.length}
  | invalid => .ok ⟨List.replicate size invalid, by simp⟩
  | array items =>
    if h : int32 items.length < size then
      .ok ⟨items.take size ++ List.replicate (size - items.length) invalid, by
        rw [List.length_append, List.length_take, List.length_replicate]
        omega⟩
    else .ok ⟨items, by
      have hle := int32_natCast_le items.length
      omega⟩
  | _ => .error { message := "type error: expected an array" }

/-- The operator `params[i]`. -/
def item (i : ℕ) (params : XmlRpcValue) : Except XmlRpcException XmlRpcValue := do
  let items ← params.assertArray (i + 1)
  return items.1.get ⟨i, items.2⟩

/-- The size of an array that an `int` can count. -/
theorem size_array {items : List XmlRpcValue} (h : items.length < 2 ^ 31) :
    (array items).size = .ok items.length := by
  rw [size, int32, Int.bmod_eq_of_le] <;> omega

/-- An entry of an array that an `int` can count. -/
theorem item_array {items : List XmlRpcValue} {i : ℕ} (h : items.length < 2 ^ 31)
    (hi : i < items.length) : (array items).item i = .ok items[i] := by
  have h32 : int32 items.length = items.length := by
    rw [int32, Int.bmod_eq_of_le] <;> omega
  have hlt : ¬ int32 items.length < (i + 1 : ℕ) := by omega
  rw [item, assertArray, dif_neg hlt]
  rfl

/-- The conversion to `int`. -/
def toInt : XmlRpcValue → Except XmlRpcException ℤ
  | invalid => .ok 0
  | int value => .ok value
  | _ => .error { message := "type error" }

/-- The conversion to `std::string`. -/
def toString : XmlRpcValue → Except XmlRpcException (List UInt8)
  | invalid => .ok []
  | string value => .ok value
  | _ => .error { message := "type error" }

end XmlRpcValue

end IvySync
