import Inquiry.Proofs.Task.Mirror

/-!
# Proofs.Task.Path — paths into a configuration, and the labels that they are written as

A label such as `timeSeries[0][1].then[3]` stands for a path: a key at the top, indices of arrays, and a
number of `then` links. Errors and leaves name their places by labels, so that a label has to say which path
it stands for.

* `Path.find?` follows a path; `Path.label` writes it down; `Path.read?` reads a label.
* `Path.read?_label`: the path is read back.
* `Path.ofPlace`: the path to the place of an analysis, with the label of the place.
-/

namespace Inquiry

open Json (Value)

namespace Config

/-- A path into a configuration: to all of it, or from a key through indices and then `then` links. -/
inductive Path where
  | root
  | under (key : String) (indices : List Nat) (links : Nat)
  deriving DecidableEq, Repr

namespace Path

/-! ## Following a path -/

/-- The item of an array at an index. -/
def item? (v : Value) (index : Nat) : Option Value :=
  match v with
  | .array items => items[index]?
  | _ => none

/-- What indices lead to from the value of a key. A value that is no array counts as its element 0. -/
def pick? (v : Value) : List Nat → Option Value
  | [] => some v
  | index :: slots => (elements v)[index]?.bind fun entry => slots.foldlM item? entry

/-- What a path leads to. -/
def find? (config : Value) : Path → Option Value
  | root => some config
  | under key indices links =>
    (config.member? key).bind fun v => (pick? v indices).bind fun head => Mirror.nested head links

/-- The path one `then` link further. -/
def next : Path → Path
  | root => root
  | under key indices links => under key indices (links + 1)

variable {config v : Value} {key : String} {indices : List Nat} {links index slot : Nat}

/-- The last link can be followed last. -/
theorem nested_add_one (v : Value) (links : Nat) :
    Mirror.nested v (links + 1) = (Mirror.nested v links).bind follow? := by
  induction links generalizing v with
  | zero =>
    rw [Mirror.nested_succ]
    exact Option.bind_fun_some _
  | succ links ih =>
    rw [Mirror.nested_succ, Mirror.nested_succ, Option.bind_assoc]
    exact Option.bind_congr fun child _ => ih child

theorem find?_next : find? config (next (under key indices links)) =
    (find? config (under key indices links)).bind follow? := by
  simp only [next, find?, nested_add_one, Option.bind_assoc]

theorem find?_key : find? config (under key [] 0) = config.member? key := by
  simp [find?, pick?, Mirror.nested]

theorem find?_entry (h : find? config (under key [] 0) = some v) :
    find? config (under key [index] 0) = (elements v)[index]? := by
  rw [find?_key] at h
  simp [find?, pick?, Mirror.nested, h]

theorem find?_member {items : List Value}
    (h : find? config (under key [index] 0) = some (.array items)) :
    find? config (under key [index, slot] 0) = items[slot]? := by
  obtain ⟨v, hv, hrest⟩ := Option.bind_eq_some_iff.1 h
  simp only [pick?, Mirror.nested, List.foldlM_nil, Option.pure_def, Option.bind_fun_some] at hrest
  simp [find?, pick?, Mirror.nested, hv, hrest, item?]

/-! ## Writing a path -/

/-- The label of a path. -/
def label : Path → String
  | root => "<root>"
  | under key indices links => indices.foldl Place.entryLabel key ++ Place.chainSuffix links

/-- The path to the place of an analysis. -/
def ofPlace (place : Place) : Path :=
  under place.key (place.index :: place.slot.toList) place.depth

theorem label_ofPlace (place : Place) : (ofPlace place).label = place.label := by
  obtain ⟨key, index, slot, depth⟩ := place
  cases slot <;> rfl

theorem label_key (key : String) : (under key [] 0).label = key := String.append_empty

theorem label_entry (key : String) (index : Nat) :
    (under key [index] 0).label = Place.entryLabel key index := String.append_empty

/-- An index as it stands in a label. -/
def bracketed (index : Nat) : List Char := '[' :: (Nat.toDigits 10 index ++ [']'])

theorem toList_entryLabel (key : String) (index : Nat) :
    (Place.entryLabel key index).toList = key.toList ++ bracketed index := by
  simp [Place.entryLabel, bracketed, String.toList_append]

theorem toList_foldl_entryLabel (key : String) (indices : List Nat) :
    (indices.foldl Place.entryLabel key).toList = key.toList ++ indices.flatMap bracketed := by
  induction indices generalizing key with
  | nil => simp
  | cons index indices ih => rw [List.foldl_cons, ih, toList_entryLabel, List.flatMap_cons, List.append_assoc]

/-! ## Reading a label -/

/-- Reads an index in brackets off the front of a text. -/
def readIndex? : List Char → Option (Nat × List Char)
  | '[' :: cs =>
    match cs.takeWhile Char.isDigit, cs.dropWhile Char.isDigit with
    | d :: ds, ']' :: rest => some (Nat.ofDigitChars 10 (d :: ds) 0, rest)
    | _, _ => none
  | _ => none

theorem length_lt_of_readIndex? {cs rest : List Char} (h : readIndex? cs = some (index, rest)) :
    rest.length < cs.length := by
  unfold readIndex? at h
  split at h
  · rename_i cs
    split at h
    · rename_i d ds rest' htake hdrop
      cases h
      have hsplit := List.takeWhile_append_dropWhile (p := Char.isDigit) (l := cs)
      rw [htake, hdrop] at hsplit
      rw [← hsplit]
      simp only [List.length_cons, List.length_append]
      omega
    · cases h
  · cases h

/-- Reads as many indices off the front of a text as there are. -/
def readIndices (cs : List Char) : List Nat × List Char :=
  match _h : readIndex? cs with
  | none => ([], cs)
  | some (index, rest) => (index :: (readIndices rest).1, (readIndices rest).2)
termination_by cs.length
decreasing_by all_goals exact length_lt_of_readIndex? (by assumption)

/-- Reads a number of `then` links. -/
def readLinks? : List Char → Option Nat
  | [] => some 0
  | ['.', 't', 'h', 'e', 'n'] => some 1
  | '.' :: 't' :: 'h' :: 'e' :: 'n' :: cs =>
    match readIndex? cs with
    | some (links, []) => some links
    | _ => none
  | _ => none

/-- Whether a character belongs to the key that a label starts with. -/
def inKey (c : Char) : Bool := c != '[' && c != '.'

/-- The path that a label stands for. -/
def read? (label : String) : Option Path :=
  if label = "<root>" then some root
  else
    let key := String.ofList (label.toList.takeWhile inKey)
    let (indices, cs) := readIndices (label.toList.dropWhile inKey)
    (readLinks? cs).map (under key indices)

/-! ## Reading back what was written -/

theorem readIndex?_bracketed (index : Nat) (rest : List Char) :
    readIndex? (bracketed index ++ rest) = some (index, rest) := by
  have hdigits : ∀ c ∈ Nat.toDigits 10 index, c.isDigit = true := by
    intro c hc
    exact Nat.isDigit_of_mem_toDigits (by decide) (by decide) hc
  have hstop : ∀ cs : List Char, (']' :: cs).takeWhile Char.isDigit = [] := fun _ => rfl
  have htake : (Nat.toDigits 10 index ++ ']' :: rest).takeWhile Char.isDigit = Nat.toDigits 10 index := by
    rw [List.takeWhile_append_of_pos hdigits, hstop, List.append_nil]
  have hdrop : (Nat.toDigits 10 index ++ ']' :: rest).dropWhile Char.isDigit = ']' :: rest := by
    rw [List.dropWhile_append_of_pos hdigits]
    rfl
  -- There is a first digit, without which the brackets would hold nothing.
  obtain ⟨d, ds, hne⟩ := List.exists_cons_of_ne_nil (Nat.toDigits_ne_nil (n := index) (b := 10))
  have hvalue : Nat.ofDigitChars 10 (d :: ds) 0 = index := by
    rw [← hne]
    exact Nat.ofDigitChars_ten_toDigits
  rw [bracketed, List.cons_append, List.append_assoc, List.singleton_append, readIndex?, htake, hdrop, hne]
  simp only [hvalue]

/-- Indices are read up to what is none. -/
theorem readIndices_bracketed {rest : List Char} (hrest : readIndex? rest = none) (indices : List Nat) :
    readIndices (indices.flatMap bracketed ++ rest) = (indices, rest) := by
  induction indices with
  | nil =>
    rw [List.flatMap_nil, List.nil_append, readIndices]
    split
    · rfl
    · rename_i h
      rw [hrest] at h
      cases h
  | cons index indices ih =>
    rw [List.flatMap_cons, List.append_assoc, readIndices]
    split
    · rename_i h
      rw [readIndex?_bracketed] at h
      cases h
    · rename_i index' rest' h
      rw [readIndex?_bracketed] at h
      cases h
      rw [ih]

theorem toList_chainSuffix (links : Nat) : (Place.chainSuffix (links + 2)).toList =
    ['.', 't', 'h', 'e', 'n'] ++ bracketed (links + 2) := by
  simp [Place.chainSuffix, bracketed, String.toList_append]

theorem readIndex?_chainSuffix (links : Nat) : readIndex? (Place.chainSuffix links).toList = none := by
  match links with
  | 0 => rfl
  | 1 => rfl
  | links + 2 =>
    rw [toList_chainSuffix]
    rfl

theorem readLinks?_chainSuffix (links : Nat) :
    readLinks? (Place.chainSuffix links).toList = some links := by
  match links with
  | 0 => rfl
  | 1 => rfl
  | links + 2 =>
    have hindex := readIndex?_bracketed (links + 2) []
    rw [List.append_nil] at hindex
    rw [toList_chainSuffix]
    simp only [List.cons_append, List.nil_append]
    rw [readLinks?, hindex]
    simp [bracketed]

/-- A key that can be told from what follows it in a label. -/
structure Plain (key : String) : Prop where
  inKey : ∀ c ∈ key.toList, inKey c = true
  ne_root : key ≠ "<root>"

theorem plain_key (kind : Kind) : Plain kind.key := by
  cases kind <;> exact ⟨List.all_eq_true.1 rfl, by decide⟩

/-- Behind the key, a label goes on with an index or with a link. -/
theorem takeWhile_inKey (indices : List Nat) (links : Nat) :
    (indices.flatMap bracketed ++ (Place.chainSuffix links).toList).takeWhile inKey = [] := by
  cases indices with
  | nil =>
    match links with
    | 0 => rfl
    | 1 => rfl
    | links + 2 =>
      rw [toList_chainSuffix]
      rfl
  | cons index indices => rfl

theorem read?_label (hkey : Plain key) (indices : List Nat) (links : Nat) :
    read? (label (under key indices links)) = some (under key indices links) := by
  let behind := indices.flatMap bracketed ++ (Place.chainSuffix links).toList
  have hchars : (label (under key indices links)).toList = key.toList ++ behind := by
    rw [label, String.toList_append, toList_foldl_entryLabel, List.append_assoc]
  have htake : (label (under key indices links)).toList.takeWhile inKey = key.toList := by
    rw [hchars, List.takeWhile_append_of_pos hkey.inKey, takeWhile_inKey, List.append_nil]
  have hdrop : (label (under key indices links)).toList.dropWhile inKey = behind := by
    have hsplit := List.takeWhile_append_dropWhile (p := inKey)
      (l := (label (under key indices links)).toList)
    rw [htake] at hsplit
    -- What is left behind the key is all of the label but the key.
    exact List.append_cancel_left (hsplit.trans hchars)
  have hroot : label (under key indices links) ≠ "<root>" := by
    -- The root would be a key of its own.
    intro h
    rw [h] at htake
    exact hkey.ne_root (String.toList_injective htake.symm)
  have hindices : readIndices behind = (indices, (Place.chainSuffix links).toList) :=
    readIndices_bracketed (readIndex?_chainSuffix links) indices
  rw [read?, if_neg hroot, htake, hdrop, hindices]
  simp only [readLinks?_chainSuffix, String.ofList_toList, Option.map_some]

end Path
end Config
end Inquiry
