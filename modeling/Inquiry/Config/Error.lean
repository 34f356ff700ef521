/-!
# Config.Error — why a configuration is refused

A configuration is refused for the first rule that it breaks, and the error names the place: a label
such as `timeSeries[0][1]` or `freqDist[0].then`.
-/

namespace Inquiry

/-- What a field should have held. -/
inductive Expectation where
  | intervalWord
  | positiveInteger
  | nonEmptyString
  deriving DecidableEq, Repr

/-- The words for what a field should have held. -/
def Expectation.text : Expectation → String
  | .intervalWord => "one of minute, hour, day, week, month"
  | .positiveInteger => "a positive integer"
  | .nonEmptyString => "a non-empty string"

/-- The reasons for which a configuration is refused. -/
inductive ConfigError where
  /-- The text is not a document. -/
  | invalidJson
  /-- There is no analysis. -/
  | emptyConfig
  /-- Something else stands where an object should. -/
  | notAnObject (position : String)
  /-- A key at the top names no kind of analysis. -/
  | unknownKind (key : String)
  /-- A required field is absent or null. -/
  | missingField (position field : String)
  /-- A field holds something that it may not hold. -/
  | invalidField (position field : String) (expected : Expectation)
  /-- An array holds no analysis. -/
  | emptyGroup (position : String)
  /-- A group is a member of a group. -/
  | nestedGroup (position : String)
  /-- A follow-up is linked to one of the analyses that it follows. -/
  | cycle (position : String)
  deriving DecidableEq, Repr

/-- The message for a refused configuration. -/
def ConfigError.message : ConfigError → String
  | .invalidJson => "Invalid configuration JSON"
  | .emptyConfig => "Configuration contains no analyses"
  | .notAnObject position => "Expected an object at " ++ position
  | .unknownKind key => "Unknown analysis type: '" ++ key ++ "'"
  | .missingField position field => "Missing required field '" ++ field ++ "' at " ++ position
  | .invalidField position field expected =>
    "Invalid field '" ++ field ++ "' at " ++ position ++ ": expected " ++ expected.text
  | .emptyGroup position => "Empty sibling group at " ++ position
  | .nestedGroup position => "Sibling groups cannot be nested (at " ++ position ++ ")"
  | .cycle position => "Chain cycle detected at " ++ position

end Inquiry
