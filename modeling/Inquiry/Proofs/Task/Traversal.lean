import Inquiry.Proofs.Task.Forest

/-!
# Proofs.Task.Traversal — walking through a register

In a register every walk ends: the way up from a leaf, the way down from level to level, and the search for
the longest chain, which keeps the leaves that it has still to look at on a stack. The search looks at each
leaf once, with its place in its chain, whatever order the leaves come in.

* `Lineage.levelAt`, `Lineage.height`: the leaves at a depth, and the number of depths.
* `Lineage.Searches`: the turns of the search, which nothing but the stack decides (`Searches.unique`);
  `Lineage.Searching`: what holds before each of them.
* `Lineage.Searching.turn`, `Lineage.Searching.run`: one turn and a whole search.
* `Lineage.IsForest`, `Lineage.built_isForest`: all that holds of the registers that can be built.
* `Lineage.Measured`, `Lineage.chain_measures_agree`: walking up and walking down measure chains alike.
-/

namespace Inquiry
namespace Lineage

variable {l : Lineage} {leaf place k : Nat} {seen : List Nat} {stack : List (Nat × Nat)}

/-! ## Levels -/

/-- The leaves at a depth, in the order in which walking down lists them. -/
def levelAt (l : Lineage) : Nat → List Nat
  | 0 => l.roots
  | k + 1 => (l.levelAt k).flatMap l.sortedChildren

/-- The number of depths at which there are leaves. -/
def height (l : Lineage) : Nat := (l.leaves.keys.map fun leaf => l.depth leaf + 1).foldl max 0

theorem foldl_max_le {xs : List Nat} {m n : Nat} : xs.foldl max m ≤ n ↔ m ≤ n ∧ ∀ x ∈ xs, x ≤ n := by
  induction xs generalizing m with
  | nil => simp
  | cons x xs ih => rw [List.foldl_cons, ih, Nat.max_le, List.forall_mem_cons, and_assoc]

theorem height_le : l.height ≤ k ↔ ∀ leaf, l.contains leaf = true → l.depth leaf < k := by
  rw [height, foldl_max_le, List.forall_mem_map]
  simp only [mem_keys, Nat.zero_le, true_and]
  rfl

namespace Sound

theorem mem_levelAt (h : l.Sound) : leaf ∈ l.levelAt k ↔ l.contains leaf = true ∧ l.depth leaf = k := by
  induction k generalizing leaf with
  | zero =>
    rw [levelAt, mem_roots_iff]
    refine and_congr_right fun _ => ⟨h.depth_root, fun hdepth => ?_⟩
    cases hparent : l.parent? leaf with
    | none => rfl
    | some parent =>
      rw [h.depth_child hparent] at hdepth
      cases hdepth
  | succ k ih =>
    rw [levelAt, List.mem_flatMap]
    simp only [sortedChildren, List.mem_mergeSort, ih]
    constructor
    · rintro ⟨parent, ⟨-, hdepth⟩, hchild⟩
      have hparent := (h.kin parent leaf).2 hchild
      rw [h.depth_child hparent, hdepth]
      exact ⟨(h.known _ _ hparent).2, rfl⟩
    · rintro ⟨hknown, hdepth⟩
      cases hparent : l.parent? leaf with
      | none =>
        rw [h.depth_root hparent] at hdepth
        cases hdepth
      | some parent =>
        rw [h.depth_child hparent] at hdepth
        exact ⟨parent, ⟨(h.known _ _ hparent).1, Nat.succ.inj hdepth⟩, (h.kin parent leaf).1 hparent⟩

theorem levelAt_eq_nil (h : l.Sound) : l.levelAt k = [] ↔ l.height ≤ k := by
  rw [height_le]
  constructor
  · -- Below a level without leaves there are none.
    intro hnil leaf hknown
    have hbelow : ∀ j, l.levelAt (k + j) = [] := by
      intro j
      induction j with
      | zero => exact hnil
      | succ j ih => rw [← Nat.add_assoc, levelAt, ih, List.flatMap_nil]
    by_contra hlt
    obtain ⟨j, hj⟩ := Nat.exists_eq_add_of_le (Nat.le_of_not_lt hlt)
    have hmem : leaf ∈ l.levelAt (k + j) := h.mem_levelAt.2 ⟨hknown, hj⟩
    rw [hbelow] at hmem
    cases hmem
  · intro hlt
    refine List.eq_nil_iff_forall_not_mem.2 fun leaf hleaf => ?_
    obtain ⟨hknown, hdepth⟩ := h.mem_levelAt.1 hleaf
    exact (hlt leaf hknown).ne hdepth

/-- Walking down lists every level, since there are no more levels than leaves. -/
theorem levels_eq (h : l.Sound) : l.levels = (List.range l.height).map l.levelAt := by
  have hle : l.height ≤ l.leafCount := height_le.2 fun _ => h.depth_lt
  rw [levels, ← levelAt, levelsFrom_eq (fun _ => rfl) (fun _ => h.levelAt_eq_nil) (by omega),
    List.range_eq_range']
  rfl

theorem maxChainLength_eq (h : l.Sound) : l.maxChainLength = l.height := by
  rw [maxChainLength, h.levels_eq, List.length_map, List.length_range]

end Sound

/-! ## The search for the longest chain -/

/-- What a turn of the search puts on the stack: the leaves that follow the one at hand, one place further
down. The one that is put there last is on top. -/
def pushed (l : Lineage) (leaf place : Nat) : List (Nat × Nat) :=
  (l.children leaf).reverse.map fun child => (child, place + 1)

/-- The search from a stack of leaves, to where the stack is empty: each turn takes the leaf on top, with its
place in its chain. -/
inductive Searches (l : Lineage) : List (Nat × Nat) → List (Nat × Nat) → Prop where
  | done : Searches l [] []
  | turn {leaf place : Nat} {rest looked : List (Nat × Nat)}
      (next : Searches l (l.pushed leaf place ++ rest) looked) :
      Searches l ((leaf, place) :: rest) ((leaf, place) :: looked)

/-- The longest chain that the search has come across. -/
def longest (looked : List (Nat × Nat)) : Nat := (looked.map Prod.snd).foldl max 0

/-- What holds before each turn, of the leaves that have been looked at and of those on the stack. -/
structure Searching (l : Lineage) (seen : List Nat) (stack : List (Nat × Nat)) : Prop where
  distinct : (seen ++ stack.map Prod.fst).Nodup
  known : ∀ leaf ∈ seen ++ stack.map Prod.fst, l.contains leaf = true
  placed : ∀ entry ∈ stack, entry.2 = l.depth entry.1 + 1
  fromAbove : ∀ p c, l.parent? c = some p → (p ∈ seen ↔ c ∈ seen ++ stack.map Prod.fst)
  tops : ∀ leaf ∈ l.roots, leaf ∈ seen ++ stack.map Prod.fst

theorem map_pair_fst (leaves : List Nat) (place : Nat) :
    (leaves.map fun leaf => (leaf, place)).map Prod.fst = leaves := by
  rw [List.map_map]
  exact List.map_id leaves

/-- A turn leaves every leaf where it is or moves it on, and adds those that follow the one at hand. -/
theorem turn_perm (l : Lineage) (seen : List Nat) (leaf place : Nat) (rest : List (Nat × Nat)) :
    (seen ++ [leaf] ++ (l.pushed leaf place ++ rest).map Prod.fst).Perm
      (l.children leaf ++ (seen ++ ((leaf, place) :: rest).map Prod.fst)) := by
  rw [List.map_append, pushed, map_pair_fst, List.map_cons, List.append_assoc seen, ← List.append_assoc]
  have hmoved : (seen ++ ([leaf] ++ (l.children leaf).reverse)).Perm (l.children leaf ++ (seen ++ [leaf])) := by
    rw [← List.append_assoc]
    exact List.perm_append_comm.trans ((List.reverse_perm _).append_right _)
  simpa using hmoved.append_right (rest.map Prod.fst)

namespace Searching

theorem start (hsound : l.Sound) {tops : List Nat} (hperm : tops.Perm l.roots) :
    l.Searching [] (tops.map fun leaf => (leaf, 1)) := by
  have hroot : ∀ leaf ∈ tops, l.contains leaf = true ∧ l.parent? leaf = none := fun leaf hleaf =>
    mem_roots_iff.1 (hperm.mem_iff.1 hleaf)
  refine ⟨?_, ?_, ?_, ?_, ?_⟩ <;> simp only [List.nil_append, map_pair_fst, List.forall_mem_map]
  · exact hperm.nodup_iff.2 l.nodup_roots
  · exact fun leaf hleaf => (hroot leaf hleaf).1
  · intro leaf hleaf
    rw [hsound.depth_root (hroot leaf hleaf).2]
  · intro p c hparent
    refine iff_of_false List.not_mem_nil fun hc => ?_
    rw [(hroot c hc).2] at hparent
    cases hparent
  · exact fun leaf hleaf => hperm.mem_iff.2 hleaf

/-- One turn. What follows the leaf at hand has not been come across before, since nobody else leads there. -/
theorem turn {rest : List (Nat × Nat)} (hsound : l.Sound) (h : l.Searching seen ((leaf, place) :: rest)) :
    l.Searching (seen ++ [leaf]) (l.pushed leaf place ++ rest) := by
  have hperm := turn_perm l seen leaf place rest
  have hmem : ∀ c, c ∈ seen ++ [leaf] ++ (l.pushed leaf place ++ rest).map Prod.fst ↔
      l.parent? c = some leaf ∨ c ∈ seen ++ ((leaf, place) :: rest).map Prod.fst := by
    intro c
    rw [hperm.mem_iff, List.mem_append, hsound.kin]
  have hunseen : leaf ∉ seen := fun hseen =>
    (List.nodup_append.1 h.distinct).2.2 leaf hseen leaf List.mem_cons_self rfl
  refine ⟨?_, ?_, ?_, ?_, ?_⟩
  · refine hperm.nodup_iff.2 (List.nodup_append'.2 ⟨hsound.distinct leaf, h.distinct, fun c hchild hc => ?_⟩)
    exact hunseen ((h.fromAbove leaf c ((hsound.kin leaf c).2 hchild)).2 hc)
  · intro c hc
    rcases (hmem c).1 hc with hparent | hc
    · exact (hsound.known leaf c hparent).2
    · exact h.known c hc
  · intro entry hentry
    rcases List.mem_append.1 hentry with hpushed | hrest
    · obtain ⟨c, hchild, rfl⟩ := List.mem_map.1 hpushed
      have hparent := (hsound.kin leaf c).2 (List.mem_reverse.1 hchild)
      have hplace : place = l.depth leaf + 1 := h.placed _ List.mem_cons_self
      rw [hsound.depth_child hparent, hplace]
    · exact h.placed entry (List.mem_cons_of_mem _ hrest)
  · intro p c hparent
    rw [hmem, ← h.fromAbove p c hparent, hparent, List.mem_append, List.mem_singleton, Option.some.injEq,
      or_comm]
  · exact fun c hc => (hmem c).2 (.inr (h.tops c hc))

/-- Where the stack is empty, every leaf has been looked at. -/
theorem ended (hsound : l.Sound) (h : l.Searching seen []) : seen.Perm l.leaves.keys := by
  have hseen : seen ++ ([] : List (Nat × Nat)).map Prod.fst = seen := List.append_nil seen
  have hdistinct := h.distinct
  have hknown := h.known
  have hfromAbove := h.fromAbove
  have htops := h.tops
  rw [hseen] at hdistinct hknown htops
  simp only [hseen] at hfromAbove
  refine (List.perm_ext_iff_of_nodup hdistinct l.keys_nodup).2 fun leaf =>
    ⟨fun hleaf => mem_keys.2 (hknown leaf hleaf), fun hleaf => ?_⟩
  -- Leaves are reached from above, along the way up from each.
  have hreached : ∀ {leaf path}, l.Climbs leaf path → l.contains leaf = true → leaf ∈ seen := by
    intro leaf path hclimbs
    induction hclimbs with
    | top root => exact fun hleaf => htops _ (mem_roots_iff.2 ⟨hleaf, root⟩)
    | up follows _ ih => exact fun _ => (hfromAbove _ _ follows).1 (ih (hsound.known _ _ follows).1)
  exact hreached (hsound.climbs leaf) (mem_keys.1 hleaf)

/-- A whole search. Each turn looks at one leaf more, and there are no more of them than are registered. -/
theorem run (hsound : l.Sound) {n : Nat} (h : l.Searching seen stack) (hn : l.leafCount ≤ seen.length + n) :
    ∃ looked, l.Searches stack looked ∧ (seen ++ looked.map Prod.fst).Perm l.leaves.keys ∧
      ∀ entry ∈ looked, entry.2 = l.depth entry.1 + 1 := by
  induction n generalizing seen stack with
  | zero =>
    cases stack with
    | nil => exact ⟨[], .done, by simpa using h.ended hsound, by simp⟩
    | cons entry rest =>
      have hle := length_le_leafCount h.distinct h.known
      simp only [List.length_append, List.map_cons, List.length_cons] at hle
      omega
  | succ n ih =>
    match stack with
    | [] => exact ⟨[], .done, by simpa using h.ended hsound, by simp⟩
    | (leaf, place) :: rest =>
      have hlength : (seen ++ [leaf]).length = seen.length + 1 := by simp
      obtain ⟨looked, hsearches, hperm, hplaced⟩ := ih (h.turn hsound) (by omega)
      refine ⟨_, .turn hsearches, ?_, List.forall_mem_cons.2 ⟨h.placed _ List.mem_cons_self, hplaced⟩⟩
      rwa [List.map_cons, List.append_cons]

end Searching

/-- The search ends, whatever order the tops come in, when it has looked at each leaf once, at its place; the
longest chain that it has come across is that of the register. -/
theorem Sound.searches (h : l.Sound) {tops : List Nat} (hperm : tops.Perm l.roots) :
    ∃ looked, l.Searches (tops.map fun leaf => (leaf, 1)) looked ∧
      (looked.map Prod.fst).Perm l.leaves.keys ∧ (∀ entry ∈ looked, entry.2 = l.depth entry.1 + 1) ∧
        longest looked = l.maxChainLength := by
  obtain ⟨looked, hsearches, hkeys, hplaced⟩ :=
    (Searching.start h hperm).run h (n := l.leafCount) (by simp)
  rw [List.nil_append] at hkeys
  have hplaces : looked.map Prod.snd = (looked.map Prod.fst).map fun leaf => l.depth leaf + 1 := by
    rw [List.map_map]
    exact List.map_congr_left hplaced
  refine ⟨looked, hsearches, hkeys, hplaced, ?_⟩
  rw [longest, hplaces, h.maxChainLength_eq, height]
  exact (hkeys.map _).foldl_eq 0

theorem Searches.unique {looked looked' : List (Nat × Nat)} (h : l.Searches stack looked)
    (h' : l.Searches stack looked') : looked' = looked := by
  induction h generalizing looked' with
  | done =>
    cases h'
    rfl
  | turn _ ih =>
    cases h' with
    | turn next' => rw [ih next']

/-! ## Forests -/

/-- A register is a forest of the given leaves. -/
structure IsForest (l : Lineage) (leaves : List Nat) : Prop where
  /-- No leaf is its own ancestor. -/
  acyclic : ∀ leaf, ¬Relation.TransGen l.Leads leaf leaf
  /-- The ancestors that are listed are those there are. -/
  ancestors : ∀ leaf other, other ∈ l.ancestors leaf ↔ Relation.TransGen l.Leads other leaf
  /-- A leaf is listed below one other at most. -/
  oneParent : ∀ p q c, c ∈ l.children p → c ∈ l.children q → p = q
  kin : ∀ p c, l.parent? c = some p ↔ c ∈ l.children p
  distinct : ∀ p, (l.children p).Nodup
  known : ∀ p c, l.parent? c = some p → p ∈ leaves ∧ c ∈ leaves
  /-- A link is refused as closing a cycle exactly if it would. -/
  checked : ∀ p c, l.closesCycle p c = true ↔ Relation.ReflTransGen l.Leads c p

/-- The counts of a register are those of what has been done to it. -/
structure Accounts (l : Lineage) (operations : List Operation) : Prop where
  leaves : l.leafCount = (leavesAdded operations).length
  links : l.linkCount = empty.linksMade operations
  /-- The leaves without parent are those that no link accounts for. -/
  tops : l.linkCount + ((leavesAdded operations).filter fun leaf => l.parent? leaf = none).length = l.leafCount

/-- The walks through a register end. -/
structure WalksEnd (l : Lineage) : Prop where
  /-- The way up from a leaf, registered or not, ends behind as many leaves as its depth says. -/
  up : ∀ leaf, ∃ path, l.Climbs leaf path ∧ path.length = l.depth leaf
  /-- The search for the longest chain ends, from the tops in any order, and has looked at each leaf once. -/
  search : ∀ tops : List Nat, tops.Perm l.roots → ∃ looked,
    l.Searches (tops.map fun leaf => (leaf, 1)) looked ∧ (looked.map Prod.fst).Nodup ∧
      (∀ leaf, leaf ∈ looked.map Prod.fst ↔ l.contains leaf = true) ∧ longest looked = l.maxChainLength

theorem Sound.walksEnd (h : l.Sound) : l.WalksEnd where
  up leaf := ⟨_, h.climbs leaf, rfl⟩
  search tops hperm := by
    obtain ⟨looked, hsearches, hkeys, -, hlongest⟩ := h.searches hperm
    exact ⟨looked, hsearches, hkeys.nodup_iff.2 l.keys_nodup,
      fun leaf => hkeys.mem_iff.trans mem_keys, hlongest⟩

theorem Sound.isForest (h : l.Sound) {leaves : List Nat}
    (hleaves : ∀ leaf, l.contains leaf = true ↔ leaf ∈ leaves) : l.IsForest leaves where
  acyclic leaf htrans := (h.climbs leaf).not_mem ((h.climbs leaf).mem_iff.2 htrans)
  ancestors leaf _ := (h.climbs leaf).mem_iff
  oneParent _ _ _ := h.parent_unique
  kin := h.kin
  distinct := h.distinct
  known p c hparent := (h.known p c hparent).imp (hleaves p).1 (hleaves c).1
  checked p c := by
    rw [h.closesCycle_iff, (h.climbs p).mem_iff, Relation.reflTransGen_iff_eq_or_transGen]

/-- Whatever is done to a register, its leaves are those that have been added, and the links make them a
forest: the counts add up, and every walk through it ends. -/
theorem built_isForest (operations : List Operation) :
    (built operations).IsForest (leavesAdded operations) ∧ (built operations).Accounts operations ∧
      (built operations).WalksEnd := by
  have hsound := built_sound operations
  refine ⟨hsound.isForest fun _ => contains_built operations, ⟨leafCount_built operations,
    linkCount_built operations, ?_⟩, hsound.walksEnd⟩
  rw [← (roots_perm_leavesAdded operations).length_eq]
  exact linkCount_add_roots _

/-- A link to the leaf on top of one's own chain is refused, and so is a second parent. -/
example : (built [.add 1, .add 2, .link 1 2, .link 2 1, .add 3, .link 3 2, .link 3 1, .add 2]).children 3 =
    [1] := by
  decide +kernel

/-! ## Measures -/

/-- The height is that of the deepest leaf. -/
theorem height_eq {leaves : List Nat} (hleaves : ∀ leaf, l.contains leaf = true ↔ leaf ∈ leaves) :
    l.height = (leaves.map l.depth).max?.elim 0 (1 + ·) := by
  cases hmax : (leaves.map l.depth).max? with
  | none =>
    have hnil : leaves = [] := List.map_eq_nil_iff.1 (List.max?_eq_none_iff.1 hmax)
    refine Nat.le_zero.1 (height_le.2 fun leaf hleaf => ?_)
    rw [hleaves, hnil] at hleaf
    cases hleaf
  | some deepest =>
    obtain ⟨hmem, hle⟩ := List.max?_eq_some_iff.1 hmax
    obtain ⟨leaf, hleaf, rfl⟩ := List.mem_map.1 hmem
    refine Nat.le_antisymm (height_le.2 fun other hother => ?_) ?_
    · rw [Option.elim_some, Nat.one_add, Nat.lt_succ_iff]
      exact hle _ (List.mem_map_of_mem ((hleaves other).1 hother))
    · rw [Option.elim_some, Nat.one_add, Nat.succ_le_iff]
      exact height_le.1 (Nat.le_refl _) leaf ((hleaves leaf).2 hleaf)

/-- The ways in which chains are measured, from a leaf up and from the tops down, agree. -/
structure Measured (l : Lineage) (leaves : List Nat) : Prop where
  /-- The walk up from a leaf takes as many steps as its depth says, and meets each of its ancestors once. -/
  up : ∀ leaf, ∃ path, l.Climbs leaf path ∧ path.length = l.depth leaf ∧ path.Nodup ∧
    ∀ other, other ∈ path ↔ Relation.TransGen l.Leads other leaf
  depth_lt : ∀ leaf ∈ leaves, l.depth leaf < l.leafCount
  /-- The search down from the tops, in any order, looks at each leaf once, at the place that its depth says. -/
  down : ∀ tops : List Nat, tops.Perm l.roots → ∃ looked,
    l.Searches (tops.map fun leaf => (leaf, 1)) looked ∧ (looked.map Prod.fst).Perm leaves ∧
      (∀ entry ∈ looked, entry.2 = 1 + l.depth entry.1) ∧ longest looked = l.maxChainLength
  /-- The longest chain ends with the deepest leaf, if there is a leaf at all. -/
  longest : l.maxChainLength = (leaves.map l.depth).max?.elim 0 (1 + ·)

/-- Whatever is done to a register, the longest chain is one leaf longer than the greatest depth, which the walks
up the parents and the search down from the tops measure alike. -/
theorem chain_measures_agree (operations : List Operation) :
    (built operations).Measured (leavesAdded operations) := by
  have hsound := built_sound operations
  exact {
    up := fun leaf => by
      have hclimbs := hsound.climbs leaf
      exact ⟨_, hclimbs, rfl, (List.nodup_cons.1 hclimbs.nodup).2, fun _ => hclimbs.mem_iff⟩
    depth_lt := fun leaf hleaf => hsound.depth_lt ((contains_built operations).2 hleaf)
    down := fun tops hperm => by
      obtain ⟨looked, hsearches, hkeys, hplaced, hlongest⟩ := hsound.searches hperm
      have hleaves := hkeys.trans (keys_perm_leavesAdded operations)
      refine ⟨looked, hsearches, hleaves, fun entry hentry => ?_, hlongest⟩
      rw [hplaced entry hentry, Nat.add_comm]
    longest := hsound.maxChainLength_eq.trans (height_eq fun _ => contains_built operations) }

/-- A leaf on its own, and a tree the longest chain of which goes through the newer child of its top. -/
def branches : List Operation :=
  [.add 0, .add 1, .add 2, .add 3, .add 4, .add 5, .link 0 1, .link 0 2, .link 2 3, .link 3 4]

theorem chain_measures_agree_branches :
    [5, 0].Perm (built branches).roots ∧ 4 ∈ leavesAdded branches ∧ (built branches).depth 4 < 6 ∧
      (∃ looked, (built branches).Searches [(5, 1), (0, 1)] looked ∧ longest looked = 4) ∧
      (built branches).maxChainLength = 4 := by
  have hmeasured := chain_measures_agree branches
  have htops : [5, 0].Perm (built branches).roots := by decide +kernel
  have hleaf : 4 ∈ leavesAdded branches := by decide +kernel
  have hlongest : (built branches).maxChainLength = 4 := hmeasured.longest.trans (by decide +kernel)
  obtain ⟨looked, hsearches, -, -, hlooked⟩ := hmeasured.down [5, 0] htops
  exact ⟨htops, hleaf, hmeasured.depth_lt 4 hleaf, ⟨looked, hsearches, hlooked.trans hlongest⟩, hlongest⟩

end Lineage
end Inquiry
