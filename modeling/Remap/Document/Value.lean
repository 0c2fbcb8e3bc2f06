import Remap.Decimal.Binary64
import Remap.Decimal.Word
import Remap.Dictionary

/-!
Documents.  A document is a JSON value whose numbers are 64-bit integers or finite doubles and whose
objects list their fields in key order.
-/

namespace Remap

/-- A number of a document: an integer that fits in 64 bits, signed or unsigned, or a double. -/
inductive Number
  | integer (value : Int) (lower : -(signBound : Int) ≤ value) (upper : value < wordBound)
  | real (value : Binary64)
deriving DecidableEq

/-- The integer as a number, when it fits. -/
def Number.ofInt? (value : Int) : Option Number :=
  if lower : -(signBound : Int) ≤ value then
    if upper : value < wordBound then some (.integer value lower upper) else none
  else none

theorem Number.ofInt?_eq_some {value : Int} (lower : -(signBound : Int) ≤ value)
    (upper : value < wordBound) : ofInt? value = some (.integer value lower upper) := by
  rw [ofInt?, dif_pos lower, dif_pos upper]

inductive Value
  | null
  | bool (value : Bool)
  | number (value : Number)
  | string (text : String)
  | array (items : List Value)
  | object (fields : List (String × Value))

namespace Value

instance : Inhabited Value :=
  ⟨.null⟩

mutual

private def decideEq : (first second : Value) → Decidable (first = second)
  | .null, .null => isTrue rfl
  | .bool a, .bool b => decidable_of_iff (a = b) (by simp)
  | .number a, .number b => decidable_of_iff (a = b) (by simp)
  | .string a, .string b => decidable_of_iff (a = b) (by simp)
  | .array a, .array b =>
      match decideItemsEq a b with
      | isTrue h => isTrue (by rw [h])
      | isFalse h => isFalse fun heq => h (by injection heq)
  | .object a, .object b =>
      match decideFieldsEq a b with
      | isTrue h => isTrue (by rw [h])
      | isFalse h => isFalse fun heq => h (by injection heq)
  | .null, .bool _ | .null, .number _ | .null, .string _ | .null, .array _ | .null, .object _
  | .bool _, .null | .bool _, .number _ | .bool _, .string _ | .bool _, .array _
  | .bool _, .object _
  | .number _, .null | .number _, .bool _ | .number _, .string _ | .number _, .array _
  | .number _, .object _
  | .string _, .null | .string _, .bool _ | .string _, .number _ | .string _, .array _
  | .string _, .object _
  | .array _, .null | .array _, .bool _ | .array _, .number _ | .array _, .string _
  | .array _, .object _
  | .object _, .null | .object _, .bool _ | .object _, .number _ | .object _, .string _
  | .object _, .array _ => isFalse nofun

private def decideItemsEq : (first second : List Value) → Decidable (first = second)
  | [], [] => isTrue rfl
  | [], _ :: _ | _ :: _, [] => isFalse nofun
  | a :: as, b :: bs =>
      match decideEq a b, decideItemsEq as bs with
      | isTrue h, isTrue hs => isTrue (by rw [h, hs])
      | isFalse h, _ => isFalse fun heq => h (by injection heq)
      | _, isFalse hs => isFalse fun heq => hs (by injection heq)

private def decideFieldsEq : (first second : List (String × Value)) → Decidable (first = second)
  | [], [] => isTrue rfl
  | [], _ :: _ | _ :: _, [] => isFalse nofun
  | (j, a) :: as, (k, b) :: bs =>
      match decEq j k, decideEq a b, decideFieldsEq as bs with
      | isTrue hk, isTrue h, isTrue hs => isTrue (by rw [hk, h, hs])
      | isFalse hk, _, _ => isFalse fun heq => hk (by injection heq with hp; injection hp)
      | _, isFalse h, _ => isFalse fun heq => h (by injection heq with hp; injection hp)
      | _, _, isFalse hs => isFalse fun heq => hs (by injection heq)

end

instance : DecidableEq Value :=
  decideEq

/-- The name of the kind of a value. -/
def typeName : Value → String
  | .null => "null"
  | .bool _ => "bool"
  | .number _ => "number"
  | .string _ => "string"
  | .array _ => "array"
  | .object _ => "object"

mutual

/-- The fields of every object in the value are sorted.  All values that the library builds are. -/
def Sorted : Value → Prop
  | .array items => SortedItems items
  | .object fields => Entries.Sorted fields ∧ SortedFields fields
  | _ => True

def SortedItems : List Value → Prop
  | [] => True
  | item :: rest => item.Sorted ∧ SortedItems rest

def SortedFields : List (String × Value) → Prop
  | [] => True
  | (_, field) :: rest => field.Sorted ∧ SortedFields rest

end

mutual

/-- How deeply arrays and objects nest in the value. -/
def depth : Value → Nat
  | .array items => depthItems items + 1
  | .object fields => depthFields fields + 1
  | _ => 0

def depthItems : List Value → Nat
  | [] => 0
  | item :: rest => max item.depth (depthItems rest)

def depthFields : List (String × Value) → Nat
  | [] => 0
  | (_, field) :: rest => max field.depth (depthFields rest)

end

end Value

end Remap
