import Inquiry.Text.Blank

/-!
# Http.MediaType — what the body of a message is

A media type such as `application/cloudevents+json; v=1`: a type, a subtype that may end in a suffix,
and parameters. The parameters are checked and not kept.

* `MediaType.ofText?` reads a media type. It allows spaces after a semicolon and after a quoted value,
  and nowhere else.
* `MediaType.isJson` holds of the types whose bodies are JSON documents.
-/

namespace Inquiry
namespace Http

/-- A media type as it was written: its type, its subtype up to the last plus sign, and what follows
the sign. -/
structure MediaType where
  type : String
  subtype : String
  suffix : Option String
  deriving DecidableEq, Repr

namespace MediaType

/-- The characters of names: letters, digits and some of the signs of ASCII. -/
def isNameChar (c : Char) : Bool :=
  c.isAlphanum || "!#$%&'*+-.^_`|~".toList.contains c

/-- The characters between quotes: all that ASCII can print. -/
def isQuotedChar (c : Char) : Bool := 32 ≤ c.toNat && c.toNat < 127

/-- How far the parameters of a media type have been read. -/
inductive Reading where
  /-- Behind a semicolon, or behind spaces after one. -/
  | start
  /-- In the name of a parameter. -/
  | name
  /-- Behind the equals sign. -/
  | value
  /-- In a value without quotes. -/
  | bare
  /-- Behind the opening quote. The first character of a quoted value may be a quote. -/
  | opened
  /-- In a quoted value. -/
  | quoted
  /-- Behind the closing quote. -/
  | closed
  deriving DecidableEq, Repr

/-- How far the parameters are read after one more character, if it may stand there. -/
def Reading.next? (c : Char) : Reading → Option Reading
  | .start => if c = ' ' then some .start else if isNameChar c then some .name else none
  | .name => if c = '=' then some .value else if isNameChar c then some .name else none
  | .value => if c = '"' then some .opened else if isNameChar c then some .bare else none
  | .bare => if c = ';' then some .start else if isNameChar c then some .bare else none
  | .opened => if isQuotedChar c then some .quoted else none
  | .quoted => if c = '"' then some .closed else if isQuotedChar c then some .quoted else none
  | .closed => if c = ';' then some .start else if c = ' ' then some .closed else none

/-- Whether the parameters may end here. -/
def Reading.mayEnd : Reading → Bool
  | .start => true
  | .value => true
  | .bare => true
  | .closed => true
  | .name => false
  | .opened => false
  | .quoted => false

/-- Whether a text, read from some point on, completes the parameters of a media type. -/
def Reading.completes (r : Reading) : List Char → Bool
  | [] => r.mayEnd
  | c :: rest =>
    match r.next? c with
    | some r => r.completes rest
    | none => false

/-- What stands before and after the last plus sign of a text. -/
def splitAtLastPlus : List Char → Option (List Char × List Char)
  | [] => none
  | c :: rest =>
    match splitAtLastPlus rest with
    | some (front, back) => some (c :: front, back)
    | none => if c = '+' then some ([], rest) else none

/-- The media type of a type and a subtype. A plus sign in front of a subtype starts no suffix. -/
def ofNames? : List Char → List Char → Option MediaType
  | [], _ => none
  | _, [] => none
  | type, c :: rest =>
    -- The first character belongs to the subtype, whatever it is.
    match splitAtLastPlus rest with
    | some (front, back) => some ⟨.ofList type, .ofList (c :: front), some (.ofList back)⟩
    | none => some ⟨.ofList type, .ofList (c :: rest), none⟩

/-- Reads a media type. -/
def ofText? (s : String) : Option MediaType :=
  let (type, rest) := s.toList.span isNameChar
  match rest with
  | '/' :: rest =>
    let (subtype, rest) := rest.span isNameChar
    match rest with
    | [] => ofNames? type subtype
    | ';' :: rest => if Reading.start.completes rest then ofNames? type subtype else none
    | _ => none
  | _ => none

/-- Whether bodies of the type are JSON documents: by the subtype, or by its suffix. -/
def isJson (m : MediaType) : Bool :=
  Text.equalsIgnoringCase m.type "application"
    && (Text.equalsIgnoringCase m.subtype "json"
      || m.suffix.any fun suffix => Text.equalsIgnoringCase suffix "json")

end MediaType
end Http
end Inquiry
