import Inquiry.Corpus.Sample
import Inquiry.Run.State

/-!
# Run.Script — backends with a fixed behaviour

A corpus as the backend of a run answers at once. A scripted backend goes by a list of entries, one for
each name or filter: how long a call takes, up to a limit, and what it comes to.
-/

namespace Inquiry
namespace Run

/-- The answer of a corpus to the call of a leaf. -/
def Answer.ofCorpus (corpus : Corpus) (leaf : Leaf) (context : Option Result) : Answer :=
  match corpus.analyze leaf.spec context with
  | .ok r => .result r
  | .error e => .failure e

/-- The backend that asks a corpus. -/
def Backend.ofCorpus (corpus : Corpus) : Backend := fun leaf context =>
  ⟨0, .ofCorpus corpus leaf context⟩

/-- What an entry of a script answers. -/
inductive Line where
  /-- A result with the parameters of the leaf and the given records. -/
  | records (records : List Record)
  /-- The answer of a corpus. -/
  | corpus (corpus : Corpus)
  | failure (e : BackendError)
  | crash (message : String)

/-- An entry of a script. -/
structure Cue where
  delay : Nat
  line : Line

/-- A script: entries under names and filters. -/
abbrev Script := Keyed Cue

/-- What a script is searched for: the name of a leaf, else its filter, else the empty text. -/
def scriptKey (leaf : Leaf) : String := leaf.spec.explicitKey?.getD ""

/-- The entry for a leaf; without one the call is answered at once, with no records. -/
def Script.cueFor (script : Script) (leaf : Leaf) : Cue :=
  (script.find? (scriptKey leaf)).getD ⟨0, .records []⟩

/-- The answer that an entry gives for a leaf. -/
def Line.answer (line : Line) (leaf : Leaf) (context : Option Result) : Answer :=
  match line with
  | .records rs => .result (.ofRecords leaf.spec.parameters rs)
  | .corpus c => .ofCorpus c leaf context
  | .failure e => .failure e
  | .crash message => .crash message

/-- The longest time that a call by a script takes: thirty years of 365 days, in milliseconds. -/
def longestDelay : Nat := 30 * 365 * 24 * 60 * 60 * 1000

/-- The backend that goes by a script. -/
def Backend.ofScript (script : Script) : Backend := fun leaf context =>
  let cue := script.cueFor leaf
  ⟨min cue.delay longestDelay, cue.line.answer leaf context⟩

end Run
end Inquiry
