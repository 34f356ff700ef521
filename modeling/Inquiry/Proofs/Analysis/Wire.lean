import Inquiry.Analysis.Wire
import Inquiry.Proofs.Json.Written

/-!
# Proofs.Analysis.Wire — parameters and specifications are read as they are written

* `ReadBack`: a value is read back from its document, and from the text of it.
* `Parameters.readBack`, `Spec.readBack`: this holds of all parameters and specifications.
-/

namespace Inquiry

open Json (Draft Value)
open Json.Decode

/-- A value is read back from its document; and from the text of the document, if the reader admits its
numbers and its nesting. -/
structure ReadBack {α : Type} (toJson : α → Value) (ofJson? : Value → Option α) (ofText? : String → Option α)
    (a : α) : Prop where
  document : ofJson? (toJson a) = some a
  text : Value.Writable Json.maxDepth (toJson a) → ofText? (toJson a).write = some a

namespace Json.Decode

theorem nat?_ofNat (n : Nat) : nat? (.ofNat n) = some n := by
  simp [nat?, Value.ofNat, Value.integer?]

theorem uint32?_ofNat (n : UInt32) : uint32? (.ofNat n.toNat) = some n := by
  have hbound : n.toNat < Nat.pow 2 32 := n.toNat_lt
  rw [uint32?, nat?_ofNat]
  exact (if_pos hbound).trans (congrArg some UInt32.ofNat_toNat)

theorem int64?_ofInt (n : Int64) : int64? (.ofInt n.toInt) = some n := by
  have hbounds : -(Nat.pow 2 63 : Int) ≤ n.toInt ∧ n.toInt < (Nat.pow 2 63 : Int) :=
    ⟨n.le_toInt, n.toInt_lt⟩
  rw [int64?, Value.ofInt, Value.integer?]
  exact (if_pos hbounds).trans (congrArg some n.ofInt_toInt)

/-- What each item is read back from, the list of all is read back from the array. -/
theorem list?_map {α : Type} {toJson : α → Value} {ofJson? : Value → Option α} {as : List α}
    (h : ∀ a ∈ as, ofJson? (toJson a) = some a) : list? ofJson? (.array (as.map toJson)) = some as := by
  rw [list?]
  induction as with
  | nil => rfl
  | cons a as ih =>
    obtain ⟨ha, has⟩ := List.forall_mem_cons.1 h
    rw [List.map_cons, List.mapM_cons, ha, ih has]
    rfl

end Json.Decode

theorem Kind.ofJson?_toJson (kind : Kind) : Kind.ofJson? kind.toJson = some kind := by
  cases kind <;> rfl

theorem Interval.ofJson?_toJson (interval : Interval) : Interval.ofJson? interval.toJson = some interval := by
  cases interval <;> rfl

/-- The value that a text holds of which a reader has to see all. -/
def ofWholeText? {α : Type} (ofJson? : Value → Option α) (text : String) : Option α :=
  (Json.Reader.read? text).bind ofJson?

theorem ReadBack.of_document {α : Type} {toJson : α → Value} {ofJson? : Value → Option α} {a : α}
    (h : ofJson? (toJson a) = some a) : ReadBack toJson ofJson? (ofWholeText? ofJson?) a where
  document := h
  text hwritable := by rw [ofWholeText?, Json.Reader.read?_write hwritable, Option.bind_some, h]

/-- A selection that keeps the document of a value does not keep the value from being read back. -/
theorem ReadBack.of_select {α : Type} {toJson : α → Value} {ofJson? : Value → Option α} {a : α}
    {select : Draft → Draft} (h : ofJson? (toJson a) = some a)
    (hselect : select (toJson a).draft = (toJson a).draft) :
    ReadBack toJson ofJson? (fun text => (Json.Reader.readSelected? select text).bind ofJson?) a where
  document := h
  text hwritable := by
    rw [Json.Reader.readSelected?_write hwritable, hselect, Draft.value?_draft hwritable, Option.bind_some, h]

theorem Parameters.ofJson?_toJson (p : Parameters) : Parameters.ofJson? p.toJson = some p := by
  cases p with
  | timeSeries interval span =>
    have hfields : objectFields ["interval", "span"] (Parameters.timeSeries interval span).toJson =
        some [some interval.toJson, some (.ofNat span.toNat)] := rfl
    simp [Parameters.ofJson?, timeSeriesOfJson?, hfields, Interval.ofJson?_toJson, uint32?_ofNat]
  | freqDist target threshold =>
    have hother : objectFields ["interval", "span"] (Parameters.freqDist target threshold).toJson =
        some [none, none] := rfl
    have hfields : objectFields ["target", "threshold"] (Parameters.freqDist target threshold).toJson =
        some [some (.string target), some (.ofNat threshold.toNat)] := rfl
    simp [Parameters.ofJson?, timeSeriesOfJson?, hother, freqDistOfJson?, hfields, Value.text?, uint32?_ofNat]

/-- The document of a specification has members for the name and the filter exactly if it has these. -/
theorem Spec.fields_toJson (s : Spec) :
    recordFields ["analysis_type", "name", "filter", "parameters"] s.toJson =
      some [some s.kind.toJson, s.name.map .string, s.filter.map .string, some s.parameters.toJson] := by
  obtain ⟨kind, _ | name, _ | filter, parameters⟩ := s <;> rfl

theorem optional_text (text : Option String) : optional Value.text? (text.map .string) = some text := by
  cases text <;> rfl

theorem Spec.ofJson?_toJson (s : Spec) : Spec.ofJson? s.toJson = some s := by
  rw [Spec.ofJson?, Spec.fields_toJson]
  simp [Kind.ofJson?_toJson, optional_text, Parameters.ofJson?_toJson]

theorem Parameters.readBack (p : Parameters) :
    ReadBack Parameters.toJson Parameters.ofJson? (ofWholeText? Parameters.ofJson?) p :=
  .of_document p.ofJson?_toJson

theorem Spec.readBack (s : Spec) : ReadBack Spec.toJson Spec.ofJson? Spec.ofText? s := by
  refine .of_select s.ofJson?_toJson ?_
  obtain ⟨kind, _ | name, _ | filter, parameters⟩ := s <;> rfl

theorem writable_ofNat {room n : Nat} (h : n < 2 ^ 64) : Value.Writable room (.ofNat n) :=
  .number ⟨(Int.neg_nonpos_of_nonneg (Int.natCast_nonneg _)).trans (Int.natCast_nonneg n), Int.ofNat_lt.2 h⟩

theorem Parameters.writable {room : Nat} (p : Parameters) : Value.Writable (room + 1) p.toJson := by
  cases p with
  | timeSeries interval span =>
    have hspan : Value.Writable room (.ofNat span.toNat) := writable_ofNat (span.toNat_lt.trans (by decide))
    exact .object (by simpa using ⟨.string, hspan⟩)
  | freqDist target threshold =>
    have hthreshold : Value.Writable room (.ofNat threshold.toNat) :=
      writable_ofNat (threshold.toNat_lt.trans (by decide))
    exact .object (by simpa using ⟨.string, hthreshold⟩)

theorem Spec.writable_members {room : Nat} (s : Spec) :
    ∀ member ∈ s.jsonMembers, Value.Writable (room + 1) member.2 := by
  have hparameters : Value.Writable (room + 1) s.parameters.toJson := s.parameters.writable
  have htext : ∀ (name : String) (text : Option String),
      ∀ member ∈ (text.map fun t => (name, Value.string t)).toList, Value.Writable (room + 1) member.2 := by
    rintro name (_ | text) member hmember
    · cases hmember
    · cases List.mem_singleton.1 hmember
      exact .string
  simp only [Spec.jsonMembers, List.forall_mem_append, List.forall_mem_singleton]
  exact ⟨⟨⟨.string, htext "name" s.name⟩, htext "filter" s.filter⟩, hparameters⟩

end Inquiry
