import Inquiry.Json.Value

/-!
# Json.Draft — documents before their scalars count

A draft has the shape of a document, but its texts and numbers need not exist: a text may hold half of
a surrogate pair, a number may be out of range, and containers nest to any depth. A reader that passes
over a part of a document asks no more of that part than that it is a draft.

* `Draft.value?` is the document of a draft all of whose texts and numbers exist, and whose containers
  nest at most `maxDepth` deep.
* `Draft.select` keeps the parts of a record that its fields take; what it leaves out is passed over.
-/

namespace Inquiry
namespace Json

/-- The greatest number of containers inside one another. -/
def maxDepth : Nat := 127

/-- A document as its text has it; texts and numbers that do not exist are `none`. -/
inductive Draft where
  | null
  | bool (b : Bool)
  | number (n : Option Number)
  | string (s : Option String)
  | array (items : List Draft)
  | object (members : List (Option String × Draft))
  deriving Repr, Inhabited

namespace Draft

mutual

/-- The document of a draft, if containers may nest `room` deep. -/
def valueWithin? (room : Nat) : Draft → Option Value
  | .null => some .null
  | .bool b => some (.bool b)
  | .number n => n.map .number
  | .string s => s.map .string
  | .array items => if room = 0 then none else (itemsWithin? (room - 1) items).map .array
  | .object members => if room = 0 then none else (membersWithin? (room - 1) members).map .object

/-- The documents of the items of an array. -/
def itemsWithin? (room : Nat) : List Draft → Option (List Value)
  | [] => some []
  | d :: rest =>
    match valueWithin? room d with
    | none => none
    | some v => (itemsWithin? room rest).map (v :: ·)

/-- The members of an object, with their names. -/
def membersWithin? (room : Nat) : List (Option String × Draft) → Option (List (String × Value))
  | [] => some []
  | (name, d) :: rest =>
    match name, valueWithin? room d with
    | some name, some v => (membersWithin? room rest).map ((name, v) :: ·)
    | _, _ => none

end

/-- The document of a draft. -/
def value? (d : Draft) : Option Value := valueWithin? maxDepth d

/-! ## What a record takes -/

/-- The fields of a record in their order, each with what its value takes of a draft. -/
abbrev Selection := List (String × (Draft → Draft))

/-- The members that fields take. A member without a readable name is kept, for it is in no place to
be passed over. -/
def selectMembers (fields : Selection) :
    List (Option String × Draft) → List (Option String × Draft)
  | [] => []
  | (none, d) :: rest => (none, d) :: selectMembers fields rest
  | (some name, d) :: rest =>
    match fields.lookup name with
    | none => selectMembers fields rest
    | some take => (some name, take d) :: selectMembers fields rest

/-- What each field takes of the item in its place. Items beyond the fields are kept. -/
def selectItems : Selection → List Draft → List Draft
  | (_, take) :: fields, d :: rest => take d :: selectItems fields rest
  | _, items => items

/-- What a record takes of a draft. -/
def select (fields : Selection) : Draft → Draft
  | .array items => .array (selectItems fields items)
  | .object members => .object (selectMembers fields members)
  | d => d

end Draft
end Json
end Inquiry
