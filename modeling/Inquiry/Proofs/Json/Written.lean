import Inquiry.Proofs.Json.Scalars

/-!
# Proofs.Json.Written — documents are read as they are written

The reader keeps its open containers on a stack, so the statement for a document inside others is one about a
run: from the first character of the document it comes to where the draft of the document is complete.

* `Value.Writable`: the documents that this holds of. Their numbers are integers of sixty-four bits, and their
  containers nest no deeper than a reader allows.
* `Value.chars`: the characters of a document.
* `Reader.Takes`: what a run does with a document; `Reader.takes_of_writable`.
* `Reader.draft?_write`, `Reader.read?_write`, `Reader.readFirst_write`: the text of a document is read as that
  document.
-/

namespace Inquiry
namespace Json

namespace Value

/-- A document whose numbers are integers of sixty-four bits and whose containers nest at most `room` deep. -/
inductive Writable : Nat → Value → Prop where
  | null {room : Nat} : Writable room .null
  | bool {room : Nat} {b : Bool} : Writable room (.bool b)
  | number {room : Nat} {n : Number} (exact : n.Exact) : Writable room (.number n)
  | string {room : Nat} {s : String} : Writable room (.string s)
  | array {room : Nat} {items : List Value} (each : ∀ v ∈ items, Writable room v) :
      Writable (room + 1) (.array items)
  | object {room : Nat} {members : List (String × Value)} (each : ∀ member ∈ members, Writable room member.2) :
      Writable (room + 1) (.object members)

theorem Writable.mono {room more : Nat} {v : Value} (h : Writable room v) (hle : room ≤ more) :
    Writable more v := by
  induction h generalizing more with
  | null => exact .null
  | bool => exact .bool
  | number hexact => exact .number hexact
  | string => exact .string
  | array _ ih =>
    obtain ⟨more, rfl⟩ := Nat.exists_eq_succ_of_ne_zero (Nat.ne_of_gt (Nat.lt_of_lt_of_le (Nat.succ_pos _) hle))
    exact .array fun v hv => ih v hv (Nat.le_of_succ_le_succ hle)
  | object _ ih =>
    obtain ⟨more, rfl⟩ := Nat.exists_eq_succ_of_ne_zero (Nat.ne_of_gt (Nat.lt_of_lt_of_le (Nat.succ_pos _) hle))
    exact .object fun member hmember => ih member hmember (Nat.le_of_succ_le_succ hle)

mutual

/-- The characters of a document. -/
def chars : Value → List Char
  | .null => ['n', 'u', 'l', 'l']
  | .bool true => ['t', 'r', 'u', 'e']
  | .bool false => ['f', 'a', 'l', 's', 'e']
  | .number n => n.text.toList
  | .string s => Writer.quotedChars s
  | .array [] => ['[', ']']
  | .array (v :: rest) => '[' :: (chars v ++ itemsChars rest)
  | .object [] => ['{', '}']
  | .object ((k, v) :: rest) => '{' :: (Writer.quotedChars k ++ ':' :: (chars v ++ membersChars rest))

/-- The characters of the rest of the items of an array and its end. -/
def itemsChars : List Value → List Char
  | [] => [']']
  | v :: rest => ',' :: (chars v ++ itemsChars rest)

/-- The characters of the rest of the members of an object and its end. -/
def membersChars : List (String × Value) → List Char
  | [] => ['}']
  | (k, v) :: rest => ',' :: (Writer.quotedChars k ++ ':' :: (chars v ++ membersChars rest))

end

mutual

theorem toList_writeOnto (out : String) (v : Value) : (v.writeOnto out).toList = out.toList ++ v.chars := by
  match v with
  | .null => rw [writeOnto, String.toList_append]; rfl
  | .bool true => rw [writeOnto, String.toList_append]; rfl
  | .bool false => rw [writeOnto, String.toList_append]; rfl
  | .number n => rw [writeOnto, String.toList_append]; rfl
  | .string s => rw [writeOnto, String.toList_append, Writer.toList_quoted]; rfl
  | .array [] => rw [writeOnto, String.toList_append]; rfl
  | .array (v :: rest) =>
    rw [writeOnto, toList_writeItemsOnto, toList_writeOnto _ v, chars]
    simp
  | .object [] => rw [writeOnto, String.toList_append]; rfl
  | .object ((k, v) :: rest) =>
    rw [writeOnto, toList_writeMembersOnto, toList_writeOnto _ v, chars]
    simp [Writer.toList_quoted]

theorem toList_writeItemsOnto (out : String) (vs : List Value) :
    (writeItemsOnto out vs).toList = out.toList ++ itemsChars vs := by
  match vs with
  | [] => rw [writeItemsOnto, String.toList_append]; rfl
  | v :: rest =>
    rw [writeItemsOnto, toList_writeItemsOnto, toList_writeOnto _ v, itemsChars]
    simp

theorem toList_writeMembersOnto (out : String) (members : List (String × Value)) :
    (writeMembersOnto out members).toList = out.toList ++ membersChars members := by
  match members with
  | [] => rw [writeMembersOnto, String.toList_append]; rfl
  | (k, v) :: rest =>
    rw [writeMembersOnto, toList_writeMembersOnto, toList_writeOnto _ v, membersChars]
    simp [Writer.toList_quoted]

end

theorem toList_write (v : Value) : v.write.toList = v.chars := by
  rw [write, toList_writeOnto]
  rfl

mutual

/-- The draft of a document. -/
def draft : Value → Draft
  | .null => .null
  | .bool b => .bool b
  | .number n => .number (some n)
  | .string s => .string (some s)
  | .array items => .array (draftItems items)
  | .object members => .object (draftMembers members)

/-- The drafts of the items of an array. -/
def draftItems : List Value → List Draft
  | [] => []
  | v :: rest => draft v :: draftItems rest

/-- The drafts of the members of an object, with their names. -/
def draftMembers : List (String × Value) → List (Option String × Draft)
  | [] => []
  | (k, v) :: rest => (some k, draft v) :: draftMembers rest

end

theorem draftItems_eq (vs : List Value) : draftItems vs = vs.map draft := by
  induction vs with
  | nil => rfl
  | cons v vs ih => rw [draftItems, ih, List.map_cons]

theorem draftMembers_eq (members : List (String × Value)) :
    draftMembers members = members.map fun member => (some member.1, draft member.2) := by
  induction members with
  | nil => rfl
  | cons member members ih => rw [draftMembers, ih, List.map_cons]

end Value

/-! ## The draft of a document counts as the document -/

namespace Draft

open Value

variable {room : Nat}

theorem itemsWithin?_map {items : List Value} (h : ∀ v ∈ items, valueWithin? room v.draft = some v) :
    itemsWithin? room (items.map draft) = some items := by
  induction items with
  | nil => rfl
  | cons v items ih =>
    obtain ⟨hv, hitems⟩ := List.forall_mem_cons.1 h
    simp only [List.map_cons, itemsWithin?, hv, ih hitems, Option.map_some]

theorem membersWithin?_map {members : List (String × Value)}
    (h : ∀ member ∈ members, valueWithin? room member.2.draft = some member.2) :
    membersWithin? room (members.map fun member => (some member.1, draft member.2)) = some members := by
  induction members with
  | nil => rfl
  | cons member members ih =>
    obtain ⟨hv, hmembers⟩ := List.forall_mem_cons.1 h
    simp only [List.map_cons, membersWithin?, hv, ih hmembers, Option.map_some]

theorem valueWithin?_draft {v : Value} (h : Writable room v) : valueWithin? room v.draft = some v := by
  induction h with
  | null => rfl
  | bool => rfl
  | number => rfl
  | string => rfl
  | @array room items _ ih =>
    rw [draft, draftItems_eq, valueWithin?, if_neg (Nat.succ_ne_zero room), Nat.add_sub_cancel,
      itemsWithin?_map ih]
    rfl
  | @object room members _ ih =>
    rw [draft, draftMembers_eq, valueWithin?, if_neg (Nat.succ_ne_zero room), Nat.add_sub_cancel,
      membersWithin?_map ih]
    rfl

theorem value?_draft {v : Value} (h : Writable maxDepth v) : v.draft.value? = some v := valueWithin?_draft h

end Draft

/-! ## Runs of the reader -/

namespace Reader

open Value Writer

/-- A run from the first character of a document comes to where its draft is complete, in no more steps than the
document has characters, whatever is open and whatever follows that is no part of a number. -/
def Takes (v : Value) : Prop := ∃ n ≤ (chars v).length, ∀ steps stack rest, EndsNumber rest →
  run (steps + n) .draft stack (chars v ++ rest) = run steps (.after v.draft) stack rest

/-- What the items of an array and the members of an object go on with is no part of a number. -/
theorem endsNumber_cons {c : Char} (hc : c = ',' ∨ c = ']' ∨ c = '}') (rest : List Char) :
    EndsNumber (c :: rest) := by
  rcases hc with rfl | rfl | rfl <;> simp [EndsNumber, isDigit]

theorem endsNumber_itemsChars (vs : List Value) (rest : List Char) : EndsNumber (itemsChars vs ++ rest) := by
  cases vs with
  | nil => exact endsNumber_cons (.inr (.inl rfl)) _
  | cons v vs => exact endsNumber_cons (.inl rfl) _

theorem endsNumber_membersChars (members : List (String × Value)) (rest : List Char) :
    EndsNumber (membersChars members ++ rest) := by
  cases members with
  | nil => exact endsNumber_cons (.inr (.inr rfl)) _
  | cons member members => exact endsNumber_cons (.inl rfl) _

/-- The first character of a document is no white space and does not close an array. -/
def Starts (cs : List Char) : Prop := ∃ c rest, cs = c :: rest ∧ isSpace c = false ∧ c ≠ ']'

/-- A number starts with no white space and no bracket. -/
theorem starts_number {n : Number} (h : n.Exact) :
    ∃ c cs, n.text.toList = c :: cs ∧ isSpace c = false ∧ c ≠ '[' ∧ c ≠ ']' ∧ c ≠ '{' := by
  obtain ⟨c, cs, htext, hc⟩ := exists_text_eq_cons h
  have hne : ∀ d, (isDigit d = true ∨ d = '-') = False → c ≠ d := by
    rintro d hd rfl
    exact hd.mp hc
  refine ⟨c, cs, htext, ?_, hne _ (by decide), hne _ (by decide), hne _ (by decide)⟩
  simp [isSpace, hne ' ' (by decide), hne '\t' (by decide), hne '\n' (by decide), hne '\r' (by decide)]

theorem starts_chars {room : Nat} {v : Value} (h : Writable room v) : Starts (chars v) := by
  cases h with
  | null => exact ⟨_, _, rfl, rfl, by decide⟩
  | @bool _ b => cases b <;> exact ⟨_, _, rfl, rfl, by decide⟩
  | number hexact =>
    obtain ⟨c, cs, htext, hspace, -, hclose, -⟩ := starts_number hexact
    exact ⟨c, cs, htext, hspace, hclose⟩
  | string => exact ⟨_, _, rfl, rfl, by decide⟩
  | @array _ items => cases items <;> exact ⟨_, _, rfl, rfl, by decide⟩
  | @object _ members => cases members <;> exact ⟨_, _, rfl, rfl, by decide⟩

/-- A scalar is read in one step. -/
theorem takes_scalar {v : Value} {c : Char} {cs : List Char} (hchars : chars v = c :: cs)
    (hspace : isSpace c = false) (harray : c ≠ '[') (hobject : c ≠ '{')
    (h : ∀ rest, EndsNumber rest → scalar (chars v ++ rest) = some (v.draft, rest)) : Takes v := by
  refine ⟨1, by rw [hchars]; exact Nat.succ_le_succ (Nat.zero_le _), fun steps stack rest hrest => ?_⟩
  have hscalar := h rest hrest
  have hskip : skipSpace (c :: (cs ++ rest)) = c :: (cs ++ rest) := by simp [skipSpace, hspace]
  rw [hchars, List.cons_append] at hscalar ⊢
  rw [run, hskip]
  split <;> simp_all

theorem memberName_quotedChars (k : String) (rest : List Char) :
    memberName (quotedChars k ++ ':' :: rest) = some (some k, rest) := by
  have htext := textRest_quoted k (':' :: rest)
  simp [memberName, quotedChars, skipSpace, isSpace, htext]

/-- What follows an item of an array is read up to the end of the array. -/
theorem run_items {vs : List Value} (h : ∀ v ∈ vs, Takes v) : ∃ n ≤ (itemsChars vs).length,
    ∀ steps stack done d rest, run (steps + n) (.after d) (.array done :: stack) (itemsChars vs ++ rest) =
      run steps (.after (.array (done.reverse ++ d :: vs.map draft))) stack rest := by
  induction vs with
  | nil =>
    refine ⟨1, le_refl 1, fun steps stack done d rest => ?_⟩
    simp [itemsChars, run, skipSpace, isSpace]
  | cons v vs ih =>
    obtain ⟨⟨n, hn, hv⟩, hvs⟩ := List.forall_mem_cons.1 h
    obtain ⟨m, hm, hitems⟩ := ih hvs
    refine ⟨m + n + 1, by simp only [itemsChars, List.length_cons, List.length_append]; omega, ?_⟩
    intro steps stack done d rest
    have hcomma : run (steps + (m + n + 1)) (.after d) (.array done :: stack) (itemsChars (v :: vs) ++ rest) =
        run (steps + m + n) .draft (.array (d :: done) :: stack) (chars v ++ (itemsChars vs ++ rest)) := by
      simp [itemsChars, run, skipSpace, isSpace, ← Nat.add_assoc]
    rw [hcomma, hv _ _ _ (endsNumber_itemsChars vs rest), hitems, List.reverse_cons, List.append_assoc,
      List.singleton_append, List.map_cons]

/-- What follows a member of an object is read up to the end of the object. -/
theorem run_members {members : List (String × Value)} (h : ∀ member ∈ members, Takes member.2) :
    ∃ n ≤ (membersChars members).length, ∀ steps stack done name d rest,
      run (steps + n) (.after d) (.object done name :: stack) (membersChars members ++ rest) =
        run steps (.after (.object (done.reverse ++
          (name, d) :: members.map fun member => (some member.1, draft member.2)))) stack rest := by
  induction members with
  | nil =>
    refine ⟨1, le_refl 1, fun steps stack done name d rest => ?_⟩
    simp [membersChars, run, skipSpace, isSpace]
  | cons member members ih =>
    obtain ⟨k, v⟩ := member
    obtain ⟨⟨n, (hn : n ≤ (chars v).length), hv⟩, hmembers⟩ := List.forall_mem_cons.1 h
    obtain ⟨m, hm, hbehind⟩ := ih hmembers
    refine ⟨m + n + 1, by simp only [membersChars, List.length_cons, List.length_append]; omega, ?_⟩
    intro steps stack done name d rest
    have hcomma : run (steps + (m + n + 1)) (.after d) (.object done name :: stack)
          (membersChars ((k, v) :: members) ++ rest) =
        run (steps + m + n) .draft (.object ((name, d) :: done) (some k) :: stack)
          (chars v ++ (membersChars members ++ rest)) := by
      simp [membersChars, run, skipSpace, isSpace, memberName_quotedChars, ← Nat.add_assoc]
    rw [hcomma, hv _ _ _ (endsNumber_membersChars members rest), hbehind, List.reverse_cons, List.append_assoc,
      List.singleton_append, List.map_cons]

theorem run_openArray {steps : Nat} {stack : List Frame} {cs : List Char} (h : Starts cs) :
    run (steps + 1) .draft stack ('[' :: cs) = run steps .draft (.array [] :: stack) cs := by
  obtain ⟨c, cs, rfl, hspace, hclose⟩ := h
  have hskip : skipSpace (c :: cs) = c :: cs := by simp [skipSpace, hspace]
  have hopen : skipSpace ('[' :: c :: cs) = '[' :: c :: cs := rfl
  simp only [run, hopen, hskip]
  split <;> simp_all

theorem run_openObject {steps : Nat} {stack : List Frame} (k : String) (cs : List Char) :
    run (steps + 1) .draft stack ('{' :: (quotedChars k ++ ':' :: cs)) =
      run steps .draft (.object [] (some k) :: stack) cs := by
  have hname := memberName_quotedChars k cs
  have hskip : skipSpace (quotedChars k ++ ':' :: cs) = quotedChars k ++ ':' :: cs := rfl
  have hopen : skipSpace ('{' :: (quotedChars k ++ ':' :: cs)) = '{' :: (quotedChars k ++ ':' :: cs) := rfl
  simp only [run, hopen, hskip]
  split
  · -- The name starts with a quote, which does not close the object.
    simp_all [quotedChars]
  · simp only [hname]

theorem takes_array {room : Nat} {items : List Value} (hitems : ∀ v ∈ items, Writable room v)
    (h : ∀ v ∈ items, Takes v) : Takes (.array items) := by
  cases items with
  | nil =>
    refine ⟨1, by decide, fun steps stack rest _ => ?_⟩
    simp [chars, run, skipSpace, isSpace, draft, draftItems]
  | cons v items =>
    obtain ⟨⟨n, hn, hv⟩, hrest⟩ := List.forall_mem_cons.1 h
    obtain ⟨m, hm, hbehind⟩ := run_items hrest
    refine ⟨m + n + 1, by simp only [chars, List.length_cons, List.length_append]; omega, ?_⟩
    intro steps stack rest _
    have hstarts : Starts (chars v ++ (itemsChars items ++ rest)) := by
      obtain ⟨c, cs, hchars, hspace, hclose⟩ := starts_chars (hitems v List.mem_cons_self)
      exact ⟨c, _, by rw [hchars, List.cons_append], hspace, hclose⟩
    calc run (steps + (m + n + 1)) .draft stack (chars (.array (v :: items)) ++ rest)
        = run (steps + m + n + 1) .draft stack ('[' :: (chars v ++ (itemsChars items ++ rest))) := by
          rw [chars, List.cons_append, List.append_assoc, ← Nat.add_assoc, ← Nat.add_assoc]
      _ = run (steps + m + n) .draft (.array [] :: stack) (chars v ++ (itemsChars items ++ rest)) :=
          run_openArray hstarts
      _ = run (steps + m) (.after v.draft) (.array [] :: stack) (itemsChars items ++ rest) :=
          hv _ _ _ (endsNumber_itemsChars items rest)
      _ = run steps (.after (draft (.array (v :: items)))) stack rest := by
          rw [hbehind, draft, draftItems_eq]
          rfl

theorem takes_object {members : List (String × Value)} (h : ∀ member ∈ members, Takes member.2) :
    Takes (.object members) := by
  cases members with
  | nil =>
    refine ⟨1, by decide, fun steps stack rest _ => ?_⟩
    simp [chars, run, skipSpace, isSpace, draft, draftMembers]
  | cons member members =>
    obtain ⟨k, v⟩ := member
    obtain ⟨⟨n, (hn : n ≤ (chars v).length), hv⟩, hrest⟩ := List.forall_mem_cons.1 h
    obtain ⟨m, hm, hbehind⟩ := run_members hrest
    refine ⟨m + n + 1, by simp only [chars, List.length_cons, List.length_append]; omega, ?_⟩
    intro steps stack rest _
    calc run (steps + (m + n + 1)) .draft stack (chars (.object ((k, v) :: members)) ++ rest)
        = run (steps + m + n + 1) .draft stack
            ('{' :: (quotedChars k ++ ':' :: (chars v ++ (membersChars members ++ rest)))) := by
          rw [chars, List.cons_append, List.append_assoc, List.cons_append, List.append_assoc, ← Nat.add_assoc,
            ← Nat.add_assoc]
      _ = run (steps + m + n) .draft (.object [] (some k) :: stack)
            (chars v ++ (membersChars members ++ rest)) := run_openObject k _
      _ = run (steps + m) (.after v.draft) (.object [] (some k) :: stack) (membersChars members ++ rest) :=
          hv _ _ _ (endsNumber_membersChars members rest)
      _ = run steps (.after (draft (.object ((k, v) :: members)))) stack rest := by
          rw [hbehind, draft, draftMembers_eq]
          rfl

/-- A run takes every document. -/
theorem takes_of_writable {room : Nat} {v : Value} (h : Writable room v) : Takes v := by
  induction h with
  | null => exact takes_scalar rfl rfl (by decide) (by decide) fun rest _ => rfl
  | @bool _ b => cases b <;> exact takes_scalar rfl rfl (by decide) (by decide) fun rest _ => rfl
  | number hexact =>
    obtain ⟨c, cs, htext, hspace, harray, -, hobject⟩ := starts_number hexact
    exact takes_scalar htext hspace harray hobject fun rest hrest => scalar_number hexact hrest
  | @string _ s =>
    refine takes_scalar rfl rfl (by decide) (by decide) fun rest _ => ?_
    have htext := textRest_quoted s rest
    simp [chars, quotedChars, scalar, htext, draft]
  | array hitems ih => exact takes_array hitems ih
  | object _ ih => exact takes_object ih

/-- The first draft of the text of a document is that of the document, and nothing follows it. -/
theorem draftFirst_write {room : Nat} {v : Value} (h : Writable room v) :
    draftFirst v.write = some (v.draft, []) := by
  obtain ⟨n, hn, htakes⟩ := takes_of_writable h
  -- One step of the bound is left for the end of the text.
  have hbound : n + 1 ≤ 2 * v.chars.length + 2 := by omega
  obtain ⟨spare, hspare⟩ := Nat.exists_eq_add_of_le hbound
  have hsteps : 2 * v.chars.length + 2 = spare + 1 + n := by omega
  have hrun := htakes (spare + 1) [] [] nofun
  rw [List.append_nil] at hrun
  rw [draftFirst, toList_write]
  calc run (2 * v.chars.length + 2) .draft [] v.chars
      = run (spare + 1 + n) .draft [] v.chars := by rw [hsteps]
    _ = run (spare + 1) (.after v.draft) [] [] := hrun
    _ = some (v.draft, []) := rfl

theorem draft?_write {room : Nat} {v : Value} (h : Writable room v) : draft? v.write = some v.draft := by
  rw [draft?, draftFirst_write h]
  rfl

theorem readFirst_write {v : Value} (h : Writable maxDepth v) : readFirst v.write = some (v, []) := by
  rw [readFirst, draftFirst_write h]
  simp [Draft.value?_draft h]

theorem read?_write {v : Value} (h : Writable maxDepth v) : read? v.write = some v := by
  rw [read?, draft?_write h]
  exact Draft.value?_draft h

theorem readSelected?_write {room : Nat} {select : Draft → Draft} {v : Value} (h : Writable room v) :
    readSelected? select v.write = (select v.draft).value? := by
  rw [readSelected?, draft?_write h]
  rfl

end Reader
end Json
end Inquiry
