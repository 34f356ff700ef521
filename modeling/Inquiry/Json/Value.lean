import Inquiry.Json.Binary64
import Inquiry.Text.Keyed

/-!
# Json.Value — documents

A document as it was written: an object keeps its members in the order of the text, repetitions
included. Read as a map, the last member of a name counts.

* `Value.member?` and `Value.entries?` are the map view of an object: one name at a time, and all of
  it in ascending order of names.
* `Value.canonical` is the document with every object replaced by its map view.
-/

namespace Inquiry
namespace Json

/-- A number: an integer, or a floating-point number. A number written with a fraction or an
exponent is never an integer, and the reader makes integers only of sixty-four bits. -/
inductive Number where
  | integer (n : Int)
  | float (x : Binary64)
  deriving DecidableEq, Repr

/-- A document. -/
inductive Value where
  | null
  | bool (b : Bool)
  | number (n : Number)
  | string (s : String)
  | array (items : List Value)
  | object (members : List (String × Value))
  deriving Repr, Inhabited

theorem sizeOf_lt_of_find? {name : String} {members : Keyed Value} {v : Value}
    (h : members.find? name = some v) : sizeOf v < sizeOf members := by
  induction members with
  | nil => simp [Keyed.find?] at h
  | cons p rest ih =>
    obtain ⟨k, w⟩ := p
    simp only [Keyed.find?, Option.or_eq_some_iff] at h
    rcases h with h | ⟨_, h⟩
    · have := ih h
      simp only [List.cons.sizeOf_spec]
      omega
    · split at h
      · cases h
        simp only [List.cons.sizeOf_spec, Prod.mk.sizeOf_spec]
        omega
      · cases h

namespace Value

/-- An integer as a document. -/
def ofInt (n : Int) : Value := .number (.integer n)

/-- A natural number as a document. -/
def ofNat (n : Nat) : Value := .number (.integer n)

/-- The members of an object. -/
def members? : Value → Option (Keyed Value)
  | .object members => some members
  | _ => none

/-- The text of a string. -/
def text? : Value → Option String
  | .string s => some s
  | _ => none

/-- The value of an integer number. -/
def integer? : Value → Option Int
  | .number (.integer n) => some n
  | _ => none

/-- The member of a name, if the document is an object that has one. -/
def member? (name : String) : Value → Option Value
  | .object members => Keyed.find? name members
  | _ => none

/-- The members of an object as a map. -/
def entries? : Value → Option (Keyed Value)
  | .object members => some (Keyed.ofEntries members)
  | _ => none

/-- Whether the document is null. -/
def isNull : Value → Bool
  | .null => true
  | _ => false

theorem sizeOf_member?_lt {name : String} {v w : Value} (h : v.member? name = some w) :
    sizeOf w < sizeOf v := by
  cases v <;> simp only [member?, reduceCtorEq] at h
  have := sizeOf_lt_of_find? h
  simp only [object.sizeOf_spec]
  omega

mutual

/-- The document with every object in ascending order of names, the last member of each name
kept. -/
def canonical : Value → Value
  | .array items => .array (canonicalItems items)
  | .object members => .object (canonicalMembers members)
  | v => v

/-- The items of an array, each in canonical form. -/
def canonicalItems : List Value → List Value
  | [] => []
  | v :: rest => canonical v :: canonicalItems rest

/-- The map view of the members of an object, each value in canonical form. -/
def canonicalMembers : List (String × Value) → List (String × Value)
  | [] => []
  | (k, v) :: rest => Keyed.insertNew k (canonical v) (canonicalMembers rest)

end

end Value
end Json
end Inquiry
