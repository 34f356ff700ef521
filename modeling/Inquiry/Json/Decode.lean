import Inquiry.Json.Value

/-!
# Json.Decode — reading typed values out of documents

The conventions that all typed values share.

* A record is an object with a member for each field, or an array of the fields in their order from
  which fields may be missing at the end. A member that no field has is passed over; a member of a
  field that is there twice is an error. `recordFields` finds the fields of either form and
  `objectFields` those of an object only.
* A choice among words is the word, or an object with the word as its only member, holding null.
* Integers are bounded by the type that they are read as.
-/

namespace Inquiry
namespace Json
namespace Decode

/-- The member of a field: none if it is repeated, and else what there is. -/
def field (members : Keyed Value) (name : String) : Option (Option Value) :=
  if 1 < Keyed.count name members then none else some (Keyed.find? name members)

/-- The members of the given fields of an object. -/
def objectFields (names : List String) : Value → Option (List (Option Value))
  | .object members => names.mapM (field members)
  | _ => none

/-- Items in the places of fields; none if there are more items than fields. -/
def placed : List String → List Value → Option (List (Option Value))
  | [], [] => some []
  | [], _ :: _ => none
  | _ :: names, [] => (placed names []).map (none :: ·)
  | _ :: names, v :: rest => (placed names rest).map (some v :: ·)

/-- The values of the given fields of a record. -/
def recordFields (names : List String) : Value → Option (List (Option Value))
  | .array items => placed names items
  | v => objectFields names v

/-- The word that a document chooses. -/
def word? : Value → Option String
  | .string s => some s
  | .object [(s, .null)] => some s
  | _ => none

/-- A field that may be null or absent. -/
def optional {α : Type} (decode : Value → Option α) : Option Value → Option (Option α)
  | none => some none
  | some .null => some none
  | some v => (decode v).map some

/-- An integer that is not negative; the reader bounds it by sixty-four bits. -/
def nat? (v : Value) : Option Nat :=
  match v.integer? with
  | some n => if 0 ≤ n then some n.toNat else none
  | none => none

/-- An integer of thirty-two bits without sign. -/
def uint32? (v : Value) : Option UInt32 :=
  match nat? v with
  | some n => if n < Nat.pow 2 32 then some (UInt32.ofNat n) else none
  | none => none

/-- An integer of sixteen bits without sign. -/
def uint16? (v : Value) : Option UInt16 :=
  match nat? v with
  | some n => if n < Nat.pow 2 16 then some (UInt16.ofNat n) else none
  | none => none

/-- An integer of sixty-four bits with sign. -/
def int64? (v : Value) : Option Int64 :=
  match v.integer? with
  | some n => if -(Nat.pow 2 63 : Int) ≤ n ∧ n < (Nat.pow 2 63 : Int) then some (Int64.ofInt n) else none
  | none => none

/-- An array, each of its items decoded. -/
def list? {α : Type} (decode : Value → Option α) : Value → Option (List α)
  | .array items => items.mapM decode
  | _ => none

end Decode
end Json
end Inquiry
