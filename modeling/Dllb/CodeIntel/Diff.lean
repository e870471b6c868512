import Mathlib
import Dllb.CodeIntel.MetaAst

/-! # Differences between trees

Two versions of a tree are compared by their named entities. Nodes are compared
by the derived equality, for which a NaN differs from itself.
-/

namespace Dllb

set_option autoImplicit false

/-! ## Equality of nodes -/

mutual

/-- `==` on values -/
def MetaValue.eq : MetaValue → MetaValue → Bool
  | .string a, .string b => a == b
  | .int a, .int b => a == b
  | .float a, .float b => a.eq b
  | .bool a, .bool b => a == b
  | .null, .null => true
  | .atom a, .atom b => a == b
  | .list as, .list bs => valuesEq as bs
  | .node a, .node b => a.eq b
  | _, _ => false

def valuesEq : List MetaValue → List MetaValue → Bool
  | [], [] => true
  | a :: as, b :: bs => a.eq b && valuesEq as bs
  | _, _ => false

def entryEq : String × MetaValue → String × MetaValue → Bool
  | (k, a), (l, b) => k == l && a.eq b

def entriesEq : List (String × MetaValue) → List (String × MetaValue) → Bool
  | [], [] => true
  | a :: as, b :: bs => entryEq a b && entriesEq as bs
  | _, _ => false

def NodeChildren.eq : NodeChildren → NodeChildren → Bool
  | .value a, .value b => a.eq b
  | .nodes as, .nodes bs => nodesEq as bs
  | _, _ => false

def nodesEq : List MetaNode → List MetaNode → Bool
  | [], [] => true
  | a :: as, b :: bs => a.eq b && nodesEq as bs
  | _, _ => false

def MetaNode.eq : MetaNode → MetaNode → Bool
  | .mk nodeType metadata children, .mk nodeType' metadata' children' =>
    nodeType == nodeType' && entriesEq metadata metadata' && children.eq children'

end

/-! ## Changes -/

inductive ChangeKind where
  | added | removed | modified | renamed
  deriving DecidableEq

structure AstChange where
  kind : ChangeKind
  nodeType : NodeType
  name : String
  line : Option Int64

structure DiffSummary where
  changes : List AstChange
  added : Nat
  removed : Nat
  modified : Nat
  renamed : Nat

structure NamedEntity where
  key : String
  node : MetaNode

/-- What follows the first arrow of `old -> new`, up to the next one. -/
def arrowTarget (name : String) : Option String := (name.splitOn " -> ")[1]?

namespace DiffSummary

def isEmpty (diff : DiffSummary) : Bool := diff.changes.isEmpty

/-- The names of the entities that have to be indexed again. -/
def staleEntities (diff : DiffSummary) : List String :=
  (diff.changes.filter fun c => c.kind = .added ∨ c.kind = .modified ∨ c.kind = .renamed).map fun c =>
    if c.kind = .renamed then (arrowTarget c.name).getD c.name else c.name

/-- The names of the entities that have to go from the index. -/
def removedEntities (diff : DiffSummary) : List String :=
  (diff.changes.filter fun c => c.kind = .removed).map AstChange.name

end DiffSummary

def namedEntity (node : MetaNode) : Option NamedEntity :=
  match node.nodeType with
  | .functionDef =>
    let arity := ((node.getMetaInt "arity").getD 0).toInt
    (node.getMetaStr "name").map fun name => { key := s!"fn::{name}/{arity}", node }
  | .import' => (node.getMetaStr "source").map fun source => { key := s!"import::{source}", node }
  | _ => none

def collectNamedEntities (root : MetaNode) : List NamedEntity := (walk root).filterMap namedEntity

mutual

/-- The same node types and leaf values at the same places. -/
def childrenEqual : MetaNode → MetaNode → Bool
  | .mk nodeType _ children, .mk nodeType' _ children' =>
    nodeType == nodeType' && sameChildren children children'

def sameChildren : NodeChildren → NodeChildren → Bool
  | .value a, .value b => a.eq b
  | .nodes as, .nodes bs => sameNodes as bs
  | _, _ => false

def sameNodes : List MetaNode → List MetaNode → Bool
  | [], [] => true
  | a :: as, b :: bs => childrenEqual a b && sameNodes as bs
  | _, _ => false

end

def hasKey (entities : List NamedEntity) (key : String) : Bool := entities.any fun e => e.key = key

/-- The first new entity of the same type and body whose key is not an old one. -/
def findRename (oldEnt : NamedEntity) (newEntities oldEntities : List NamedEntity) : Option String :=
  if oldEnt.node.nodeType = .functionDef ∨ oldEnt.node.nodeType = .container then
    (newEntities.find? fun newEnt =>
      !hasKey oldEntities newEnt.key && newEnt.node.nodeType == oldEnt.node.nodeType &&
        childrenEqual oldEnt.node newEnt.node).map NamedEntity.key
  else none

def getLine (node : MetaNode) : Option Int64 := (node.getMetaInt "line").or (node.getMetaInt "line_start")

/-- The change that an old entity gives, if it gives one. -/
def changeOfOld (newEntities oldEntities : List NamedEntity) (oldEnt : NamedEntity) : Option AstChange :=
  match newEntities.find? fun n => n.key = oldEnt.key with
  | some newEnt =>
    if oldEnt.node.eq newEnt.node then none
    else some { kind := .modified, nodeType := newEnt.node.nodeType, name := newEnt.key, line := getLine newEnt.node }
  | none =>
    match findRename oldEnt newEntities oldEntities with
    | some newName =>
      some { kind := .renamed, nodeType := oldEnt.node.nodeType, name := s!"{oldEnt.key} -> {newName}", line := none }
    | none => some { kind := .removed, nodeType := oldEnt.node.nodeType, name := oldEnt.key, line := none }

def renameTargets (changes : List AstChange) : List String :=
  (changes.filter fun c => c.kind = .renamed).filterMap fun c => arrowTarget c.name

def changeOfNew (oldEntities : List NamedEntity) (targets : List String) (newEnt : NamedEntity) : Option AstChange :=
  if hasKey oldEntities newEnt.key || targets.contains newEnt.key then none
  else some { kind := .added, nodeType := newEnt.node.nodeType, name := newEnt.key, line := getLine newEnt.node }

def countKind (changes : List AstChange) (kind : ChangeKind) : Nat := changes.countP fun c => c.kind = kind

def diffTrees (old new : MetaNode) : DiffSummary :=
  let oldEntities := collectNamedEntities old
  let newEntities := collectNamedEntities new
  let changed := oldEntities.filterMap (changeOfOld newEntities oldEntities)
  let changes := changed ++ newEntities.filterMap (changeOfNew oldEntities (renameTargets changed))
  { changes, added := countKind changes .added, removed := countKind changes .removed
    modified := countKind changes .modified, renamed := countKind changes .renamed }

/-! ## What is equal to one node -/

theorem F64.eq_of_eq {a b c : F64} (ha : a.eq c = true) (hb : b.eq c = true) : a.eq b = true := by
  obtain ⟨hanan, _, ha⟩ := (F64.eq_iff _ _).mp ha
  obtain ⟨hbnan, _, hb⟩ := (F64.eq_iff _ _).mp hb
  exact (F64.eq_iff _ _).mpr ⟨hanan, hbnan, ha.trans hb.symm⟩

mutual

theorem MetaValue.eq_of_eq : ∀ {a b c : MetaValue}, a.eq c = true → b.eq c = true → a.eq b = true
  | .string _, b, c, ha, hb | .int _, b, c, ha, hb | .bool _, b, c, ha, hb | .atom _, b, c, ha, hb
  | .null, b, c, ha, hb => by
    cases c <;> simp [MetaValue.eq] at ha <;> cases b <;> simp [MetaValue.eq] at hb ⊢ <;> simp_all
  | .float _, b, c, ha, hb => by
    cases c <;> simp only [MetaValue.eq, Bool.false_eq_true] at ha
    cases b <;> simp only [MetaValue.eq, Bool.false_eq_true] at hb ⊢
    exact F64.eq_of_eq ha hb
  | .list _, b, c, ha, hb => by
    cases c <;> simp only [MetaValue.eq, Bool.false_eq_true] at ha
    cases b <;> simp only [MetaValue.eq, Bool.false_eq_true] at hb ⊢
    exact valuesEq_of_eq ha hb
  | .node _, b, c, ha, hb => by
    cases c <;> simp only [MetaValue.eq, Bool.false_eq_true] at ha
    cases b <;> simp only [MetaValue.eq, Bool.false_eq_true] at hb ⊢
    exact MetaNode.eq_of_eq ha hb

theorem valuesEq_of_eq : ∀ {as bs cs : List MetaValue}, valuesEq as cs = true → valuesEq bs cs = true →
    valuesEq as bs = true
  | [], bs, cs, ha, hb => by
    cases cs <;> simp only [valuesEq, Bool.false_eq_true] at ha
    cases bs <;> simp only [valuesEq, Bool.false_eq_true] at hb ⊢
  | _ :: _, bs, cs, ha, hb => by
    cases cs <;> simp only [valuesEq, Bool.false_eq_true, Bool.and_eq_true] at ha
    cases bs <;> simp only [valuesEq, Bool.false_eq_true, Bool.and_eq_true] at hb ⊢
    exact ⟨MetaValue.eq_of_eq ha.1 hb.1, valuesEq_of_eq ha.2 hb.2⟩

theorem entryEq_of_eq : ∀ {a b c : String × MetaValue}, entryEq a c = true → entryEq b c = true →
    entryEq a b = true
  | (_, _), (_, _), (_, _), ha, hb => by
    simp only [entryEq, Bool.and_eq_true, beq_iff_eq] at ha hb ⊢
    exact ⟨ha.1.trans hb.1.symm, MetaValue.eq_of_eq ha.2 hb.2⟩

theorem entriesEq_of_eq : ∀ {as bs cs : List (String × MetaValue)}, entriesEq as cs = true →
    entriesEq bs cs = true → entriesEq as bs = true
  | [], bs, cs, ha, hb => by
    cases cs <;> simp only [entriesEq, Bool.false_eq_true] at ha
    cases bs <;> simp only [entriesEq, Bool.false_eq_true] at hb ⊢
  | _ :: _, bs, cs, ha, hb => by
    cases cs <;> simp only [entriesEq, Bool.false_eq_true, Bool.and_eq_true] at ha
    cases bs <;> simp only [entriesEq, Bool.false_eq_true, Bool.and_eq_true] at hb ⊢
    exact ⟨entryEq_of_eq ha.1 hb.1, entriesEq_of_eq ha.2 hb.2⟩

theorem NodeChildren.eq_of_eq : ∀ {a b c : NodeChildren}, a.eq c = true → b.eq c = true → a.eq b = true
  | .value _, b, c, ha, hb => by
    cases c <;> simp only [NodeChildren.eq, Bool.false_eq_true] at ha
    cases b <;> simp only [NodeChildren.eq, Bool.false_eq_true] at hb ⊢
    exact MetaValue.eq_of_eq ha hb
  | .nodes _, b, c, ha, hb => by
    cases c <;> simp only [NodeChildren.eq, Bool.false_eq_true] at ha
    cases b <;> simp only [NodeChildren.eq, Bool.false_eq_true] at hb ⊢
    exact nodesEq_of_eq ha hb

theorem nodesEq_of_eq : ∀ {as bs cs : List MetaNode}, nodesEq as cs = true → nodesEq bs cs = true →
    nodesEq as bs = true
  | [], bs, cs, ha, hb => by
    cases cs <;> simp only [nodesEq, Bool.false_eq_true] at ha
    cases bs <;> simp only [nodesEq, Bool.false_eq_true] at hb ⊢
  | _ :: _, bs, cs, ha, hb => by
    cases cs <;> simp only [nodesEq, Bool.false_eq_true, Bool.and_eq_true] at ha
    cases bs <;> simp only [nodesEq, Bool.false_eq_true, Bool.and_eq_true] at hb ⊢
    exact ⟨MetaNode.eq_of_eq ha.1 hb.1, nodesEq_of_eq ha.2 hb.2⟩

theorem MetaNode.eq_of_eq : ∀ {a b c : MetaNode}, a.eq c = true → b.eq c = true → a.eq b = true
  | .mk _ _ _, .mk _ _ _, .mk _ _ _, ha, hb => by
    simp only [MetaNode.eq, Bool.and_eq_true, beq_iff_eq] at ha hb ⊢
    exact ⟨⟨ha.1.1.trans hb.1.1.symm, entriesEq_of_eq ha.1.2 hb.1.2⟩, NodeChildren.eq_of_eq ha.2 hb.2⟩

end

/-! ## A tree and itself -/

theorem hasKey_iff {entities : List NamedEntity} {key : String} :
    hasKey entities key = true ↔ ∃ e ∈ entities, e.key = key := by
  simp [hasKey]

theorem find_key_eq_none_iff {entities : List NamedEntity} {key : String} :
    (entities.find? fun e => e.key = key) = none ↔ ∀ e ∈ entities, e.key ≠ key := by
  simp

theorem of_find_key {entities : List NamedEntity} {key : String} {e : NamedEntity}
    (h : (entities.find? fun e => e.key = key) = some e) : e ∈ entities ∧ e.key = key :=
  ⟨List.mem_of_find?_eq_some h, by simpa using List.find?_some h⟩

/-- An old entity gives no change exactly if the first new one under its key is equal to it. -/
theorem changeOfOld_eq_none_iff {newEntities oldEntities : List NamedEntity} {o : NamedEntity} :
    changeOfOld newEntities oldEntities o = none ↔
      ∃ n, (newEntities.find? fun n => n.key = o.key) = some n ∧ o.node.eq n.node = true := by
  unfold changeOfOld
  cases hfind : newEntities.find? fun n => n.key = o.key with
  | none => cases findRename o newEntities oldEntities <;> simp
  | some n =>
    by_cases heq : o.node.eq n.node = true
    · simp [heq]
    · simp [heq]

theorem isEmpty_diffTrees_iff (old new : MetaNode) : (diffTrees old new).isEmpty = true ↔
    (∀ o ∈ collectNamedEntities old,
      changeOfOld (collectNamedEntities new) (collectNamedEntities old) o = none) ∧
    ∀ n ∈ collectNamedEntities new, changeOfNew (collectNamedEntities old)
      (renameTargets ((collectNamedEntities old).filterMap
        (changeOfOld (collectNamedEntities new) (collectNamedEntities old)))) n = none := by
  simp only [DiffSummary.isEmpty, diffTrees, List.isEmpty_iff, List.append_eq_nil_iff,
    List.filterMap_eq_nil_iff]

/-- A tree has no difference with itself exactly if the entities under one key are equal. -/
theorem diff_with_itself_iff (t : MetaNode) : (diffTrees t t).isEmpty = true ↔
    ∀ a ∈ collectNamedEntities t, ∀ b ∈ collectNamedEntities t, a.key = b.key → a.node.eq b.node = true := by
  rw [isEmpty_diffTrees_iff]
  constructor
  · rintro ⟨hold, -⟩ a ha b hb hkey
    obtain ⟨n, hn, heqa⟩ := changeOfOld_eq_none_iff.mp (hold a ha)
    obtain ⟨n', hn', heqb⟩ := changeOfOld_eq_none_iff.mp (hold b hb)
    rw [← hkey, hn] at hn'
    cases hn'
    exact MetaNode.eq_of_eq heqa heqb
  · intro hequal
    refine ⟨fun o ho => changeOfOld_eq_none_iff.mpr ?_, fun n hn => ?_⟩
    · cases hfind : (collectNamedEntities t).find? fun n => n.key = o.key with
      | none => exact absurd rfl (find_key_eq_none_iff.mp hfind o ho)
      | some n =>
        obtain ⟨hn, hkey⟩ := of_find_key hfind
        exact ⟨n, rfl, hequal o ho n hn hkey.symm⟩
    · rw [changeOfNew, hasKey_iff.mpr ⟨n, hn, rfl⟩, Bool.true_or, if_pos rfl]

def clause (name value : String) : MetaNode :=
  .mk .functionDef [("name", .string name)] (.nodes [.mk .literal [] (.value (.string value))])

/-- A module whose function `f` is given by two clauses. -/
def twoClauses : MetaNode := .mk .container [] (.nodes [clause "f" "a", clause "f" "b"])

theorem two_clauses_differ : ¬ (diffTrees twoClauses twoClauses).isEmpty = true := by decide +kernel

/-! ## Converging -/

def keysOf (root : MetaNode) : List String := (collectNamedEntities root).map NamedEntity.key

/-- The index keeps the keys that are not removed and takes the stale ones. -/
structure Converges (old new : MetaNode) : Prop where
  keys : ∀ key, (key ∈ keysOf old ∧ key ∉ (diffTrees old new).removedEntities ∨
    key ∈ (diffTrees old new).staleEntities) ↔ key ∈ keysOf new
  stale : ∀ n ∈ collectNamedEntities new,
    (∀ o ∈ collectNamedEntities old, o.key = n.key → o.node.eq n.node = false) →
      n.key ∈ (diffTrees old new).staleEntities

/-- No function whose key is gone has the body of a function whose key is new. -/
def RenameFree (old new : MetaNode) : Prop :=
  ∀ o ∈ collectNamedEntities old, ∀ n ∈ collectNamedEntities new,
    o.node.nodeType = .functionDef → n.node.nodeType = .functionDef → o.key ∉ keysOf new → n.key ∉ keysOf old →
      childrenEqual o.node n.node = false

theorem nodeType_of_mem {root : MetaNode} {e : NamedEntity} (h : e ∈ collectNamedEntities root) :
    e.node.nodeType = .functionDef ∨ e.node.nodeType = .import' := by
  obtain ⟨node, -, hnode⟩ := List.mem_filterMap.mp h
  unfold namedEntity at hnode
  split at hnode
  · obtain ⟨_, -, rfl⟩ := Option.map_eq_some_iff.mp hnode
    exact .inl ‹_›
  · obtain ⟨_, -, rfl⟩ := Option.map_eq_some_iff.mp hnode
    exact .inr ‹_›
  · cases hnode

theorem hasKey_eq_false_iff {root : MetaNode} {key : String} :
    hasKey (collectNamedEntities root) key = false ↔ key ∉ keysOf root := by
  simp [hasKey, keysOf]

theorem findRename_eq_none_iff {old new : MetaNode} {o : NamedEntity} (ho : o ∈ collectNamedEntities old) :
    findRename o (collectNamedEntities new) (collectNamedEntities old) = none ↔
      ∀ n ∈ collectNamedEntities new, o.node.nodeType = .functionDef → n.node.nodeType = .functionDef →
        n.key ∉ keysOf old → childrenEqual o.node n.node = false := by
  unfold findRename
  obtain htype | htype := nodeType_of_mem ho
  · rw [if_pos (.inl htype), Option.map_eq_none_iff, List.find?_eq_none]
    refine forall₂_congr fun n hn => ?_
    simp only [htype, Bool.and_eq_true, Bool.not_eq_true', beq_iff_eq, hasKey_eq_false_iff, not_and,
      Bool.not_eq_true, forall_const]
    tauto
  · rw [if_neg (by simp [htype])]
    simp [htype]

theorem mem_changes_iff {old new : MetaNode} {c : AstChange} : c ∈ (diffTrees old new).changes ↔
    (∃ o ∈ collectNamedEntities old,
      changeOfOld (collectNamedEntities new) (collectNamedEntities old) o = some c) ∨
    ∃ n ∈ collectNamedEntities new, changeOfNew (collectNamedEntities old)
      (renameTargets ((collectNamedEntities old).filterMap
        (changeOfOld (collectNamedEntities new) (collectNamedEntities old)))) n = some c := by
  simp only [diffTrees, List.mem_append, List.mem_filterMap]

/-- What an old entity can turn out to be. -/
theorem changeOfOld_cases {newEntities oldEntities : List NamedEntity} {o : NamedEntity} {c : AstChange}
    (h : changeOfOld newEntities oldEntities o = some c) :
    (c.kind = .modified ∧ c.name = o.key ∧ ∃ n ∈ newEntities, n.key = o.key) ∨
    (c.kind = .renamed ∧ (∀ n ∈ newEntities, n.key ≠ o.key) ∧ findRename o newEntities oldEntities ≠ none) ∨
    (c.kind = .removed ∧ c.name = o.key ∧ (∀ n ∈ newEntities, n.key ≠ o.key) ∧
      findRename o newEntities oldEntities = none) := by
  unfold changeOfOld at h
  split at h
  · rename_i n hfind
    obtain ⟨hn, hkey⟩ := of_find_key hfind
    split at h
    · cases h
    · cases h
      exact .inl ⟨rfl, hkey, n, hn, hkey⟩
  · rename_i hfind
    have hgone := find_key_eq_none_iff.mp hfind
    split at h
    · rename_i newName hrename
      cases h
      exact .inr (.inl ⟨rfl, hgone, by rw [hrename]; exact Option.some_ne_none _⟩)
    · rename_i hrename
      cases h
      exact .inr (.inr ⟨rfl, rfl, hgone, hrename⟩)

theorem changeOfNew_eq_some {oldEntities : List NamedEntity} {targets : List String} {n : NamedEntity}
    {c : AstChange} (h : changeOfNew oldEntities targets n = some c) : c.kind = .added ∧ c.name = n.key := by
  unfold changeOfNew at h
  split at h
  · cases h
  · cases h
    exact ⟨rfl, rfl⟩

theorem notMem_keysOf_iff {root : MetaNode} {key : String} :
    key ∉ keysOf root ↔ ∀ e ∈ collectNamedEntities root, e.key ≠ key := by
  simp [keysOf]

/-- Removed is what is gone and was not renamed. -/
theorem mem_removedEntities_iff {old new : MetaNode} {key : String} :
    key ∈ (diffTrees old new).removedEntities ↔ ∃ o ∈ collectNamedEntities old, o.key = key ∧
      key ∉ keysOf new ∧ findRename o (collectNamedEntities new) (collectNamedEntities old) = none := by
  simp only [DiffSummary.removedEntities, List.mem_map, List.mem_filter, decide_eq_true_eq, mem_changes_iff]
  constructor
  · rintro ⟨c, ⟨⟨o, ho, hc⟩ | ⟨n, hn, hc⟩, hkind⟩, rfl⟩
    · obtain ⟨hmodified, -⟩ | ⟨hrenamed, -⟩ | ⟨-, hname, hgone, hrename⟩ := changeOfOld_cases hc
      · cases hkind.symm.trans hmodified
      · cases hkind.symm.trans hrenamed
      · exact ⟨o, ho, hname.symm, hname ▸ notMem_keysOf_iff.mpr hgone, hrename⟩
    · cases hkind.symm.trans (changeOfNew_eq_some hc).1
  · rintro ⟨o, ho, rfl, hgone, hrename⟩
    refine ⟨{ kind := .removed, nodeType := o.node.nodeType, name := o.key, line := none },
      ⟨.inl ⟨o, ho, ?_⟩, rfl⟩, rfl⟩
    rw [changeOfOld, find_key_eq_none_iff.mpr (notMem_keysOf_iff.mp hgone), hrename]

theorem eq_of_key_eq {root : MetaNode} (h : (keysOf root).Nodup) {a b : NamedEntity}
    (ha : a ∈ collectNamedEntities root) (hb : b ∈ collectNamedEntities root) (hkey : a.key = b.key) : a = b :=
  List.inj_on_of_nodup_map h ha hb hkey

theorem find_of_mem {root : MetaNode} (h : (keysOf root).Nodup) {e : NamedEntity}
    (he : e ∈ collectNamedEntities root) : (collectNamedEntities root).find? (fun n => n.key = e.key) = some e := by
  cases hfind : (collectNamedEntities root).find? fun n => n.key = e.key with
  | none => exact absurd rfl (find_key_eq_none_iff.mp hfind e he)
  | some n =>
    obtain ⟨hn, hkey⟩ := of_find_key hfind
    rw [eq_of_key_eq h hn he hkey]

theorem renameTargets_eq_nil {old new : MetaNode} (hfree : ∀ o ∈ collectNamedEntities old, o.key ∉ keysOf new →
      findRename o (collectNamedEntities new) (collectNamedEntities old) = none) :
    renameTargets ((collectNamedEntities old).filterMap
      (changeOfOld (collectNamedEntities new) (collectNamedEntities old))) = [] := by
  have hnone : ((collectNamedEntities old).filterMap
      (changeOfOld (collectNamedEntities new) (collectNamedEntities old))).filter (fun c => c.kind = .renamed) = [] := by
    rw [List.filter_eq_nil_iff]
    intro c hc
    obtain ⟨o, ho, hchange⟩ := List.mem_filterMap.mp hc
    obtain ⟨hkind, -⟩ | ⟨-, hgone, hrename⟩ | ⟨hkind, -⟩ := changeOfOld_cases hchange
    · simp [hkind]
    · exact absurd (hfree o ho (notMem_keysOf_iff.mpr hgone)) hrename
    · simp [hkind]
  rw [renameTargets, hnone, List.filterMap_nil]

/-- Without renames, stale is what is different under a kept key, and what has a new one. -/
theorem mem_staleEntities_iff {old new : MetaNode} (hnew : (keysOf new).Nodup)
    (hfree : ∀ o ∈ collectNamedEntities old, o.key ∉ keysOf new →
      findRename o (collectNamedEntities new) (collectNamedEntities old) = none) {key : String} :
    key ∈ (diffTrees old new).staleEntities ↔ ∃ n ∈ collectNamedEntities new, n.key = key ∧
      (key ∉ keysOf old ∨ ∃ o ∈ collectNamedEntities old, o.key = key ∧ o.node.eq n.node = false) := by
  simp only [DiffSummary.staleEntities, List.mem_map, List.mem_filter, decide_eq_true_eq, mem_changes_iff,
    renameTargets_eq_nil hfree]
  constructor
  · rintro ⟨c, ⟨⟨o, ho, hc⟩ | ⟨n, hn, hc⟩, hkind⟩, rfl⟩
    · obtain ⟨hmodified, hname, n, hn, hkey⟩ | ⟨-, hgone, hrename⟩ | ⟨hremoved, -⟩ := changeOfOld_cases hc
      · rw [if_neg (by simp [hmodified]), hname]
        refine ⟨n, hn, hkey, .inr ⟨o, ho, rfl, ?_⟩⟩
        cases heq : o.node.eq n.node with
        | false => rfl
        | true =>
          have hnone : changeOfOld (collectNamedEntities new) (collectNamedEntities old) o = none :=
            changeOfOld_eq_none_iff.mpr ⟨n, hkey ▸ find_of_mem hnew hn, heq⟩
          cases hnone.symm.trans hc
      · exact absurd (hfree o ho (notMem_keysOf_iff.mpr hgone)) hrename
      · simp [hremoved] at hkind
    · obtain ⟨hadded, hname⟩ := changeOfNew_eq_some hc
      rw [if_neg (by simp [hadded]), hname]
      refine ⟨n, hn, rfl, .inl fun hold => ?_⟩
      rw [changeOfNew, hasKey_iff.mpr (List.mem_map.mp hold), Bool.true_or, if_pos rfl] at hc
      cases hc
  · rintro ⟨n, hn, rfl, hfresh | ⟨o, ho, hkey, hne⟩⟩
    · refine ⟨{ kind := .added, nodeType := n.node.nodeType, name := n.key, line := getLine n.node },
        ⟨.inr ⟨n, hn, ?_⟩, .inl rfl⟩, rfl⟩
      rw [changeOfNew, hasKey_eq_false_iff.mpr hfresh]
      rfl
    · refine ⟨{ kind := .modified, nodeType := n.node.nodeType, name := n.key, line := getLine n.node },
        ⟨.inl ⟨o, ho, ?_⟩, .inr (.inl rfl)⟩, rfl⟩
      rw [changeOfOld, hkey, find_of_mem hnew hn]
      simp [hne]

/-- Re-indexing by the difference converges exactly if the difference has no rename. -/
theorem converges_iff {old new : MetaNode} (hold : (keysOf old).Nodup) (hnew : (keysOf new).Nodup) :
    Converges old new ↔ RenameFree old new := by
  constructor
  · intro h o ho n hn hfn hfn' hgone hfresh
    by_contra hequal
    have hrename : findRename o (collectNamedEntities new) (collectNamedEntities old) ≠ none := fun hnone =>
      hequal ((findRename_eq_none_iff ho).mp hnone n hn hfn hfn' hfresh)
    -- The old key is not among the removed ones, and so it stays.
    refine hgone ((h.keys o.key).mp (.inl ⟨List.mem_map_of_mem ho, fun hremoved => ?_⟩))
    obtain ⟨o', ho', hkey, -, hnone⟩ := mem_removedEntities_iff.mp hremoved
    rw [eq_of_key_eq hold ho' ho hkey] at hnone
    exact hrename hnone
  · intro h
    have hfree : ∀ o ∈ collectNamedEntities old, o.key ∉ keysOf new →
        findRename o (collectNamedEntities new) (collectNamedEntities old) = none := by
      intro o ho hgone
      exact (findRename_eq_none_iff ho).mpr fun n hn hfn hfn' hfresh => h o ho n hn hfn hfn' hgone hfresh
    refine ⟨fun key => ⟨?_, fun hkey => ?_⟩, fun n hn hdiffers => ?_⟩
    · rintro (⟨hkept, hremoved⟩ | hstale)
      · by_contra hgone
        obtain ⟨o, ho, rfl⟩ := List.mem_map.mp hkept
        exact hremoved (mem_removedEntities_iff.mpr ⟨o, ho, rfl, hgone, hfree o ho hgone⟩)
      · obtain ⟨n, hn, rfl, -⟩ := (mem_staleEntities_iff hnew hfree).mp hstale
        exact List.mem_map_of_mem hn
    · by_cases hkept : key ∈ keysOf old
      · refine .inl ⟨hkept, fun hremoved => ?_⟩
        obtain ⟨-, -, -, hgone, -⟩ := mem_removedEntities_iff.mp hremoved
        exact hgone hkey
      · obtain ⟨n, hn, rfl⟩ := List.mem_map.mp hkey
        exact .inr ((mem_staleEntities_iff hnew hfree).mpr ⟨n, hn, rfl, .inl hkept⟩)
    · refine (mem_staleEntities_iff hnew hfree).mpr ⟨n, hn, rfl, ?_⟩
      by_cases hkept : n.key ∈ keysOf old
      · obtain ⟨o, ho, hkey⟩ := List.mem_map.mp hkept
        exact .inr ⟨o, ho, hkey, hdiffers o ho hkey⟩
      · exact .inl hkept

theorem converges_iff_clauses : Converges (clause "f" "a") (.mk .block [] (.nodes [clause "f" "b", clause "g" "b"])) ↔
    RenameFree (clause "f" "a") (.mk .block [] (.nodes [clause "f" "b", clause "g" "b"])) :=
  converges_iff (by decide +kernel) (by decide +kernel)

/-- A function that was renamed stays in the index under its old key. -/
theorem renamed_function_stays : ¬ Converges (clause "f" "a") (clause "g" "a") := by
  intro h
  have hremoved : "fn::f/0" ∉ (diffTrees (clause "f" "a") (clause "g" "a")).removedEntities := by
    intro hmem
    obtain ⟨o, ho, -, -, hnone⟩ := mem_removedEntities_iff.mp hmem
    obtain rfl : o = { key := "fn::f/0", node := clause "f" "a" } := List.mem_singleton.mp ho
    exact absurd hnone (by decide +kernel)
  have hkept : "fn::f/0" ∈ keysOf (clause "g" "a") := (h.keys "fn::f/0").mp (.inl ⟨by decide +kernel, hremoved⟩)
  exact absurd hkept (by decide +kernel)

end Dllb
