import Mathlib
import Dllb.CodeIntel.Similarity
import Dllb.Lib.Classes

/-! # Searches through a tree

The nodes of a tree are told apart by where they are, as pointers tell them apart.
The searches for a type, a name or a line go depth-first through the whole tree.
-/

namespace Dllb

set_option autoImplicit false

/-- The children to go down to from the root. No two nodes of a tree are at one address. -/
abbrev Address := List Nat

@[ext] structure NodeRef where
  address : Address
  node : MetaNode

def nodeAt : MetaNode → Address → Option MetaNode
  | node, [] => some node
  | node, i :: p => node.childNodes[i]?.bind (nodeAt · p)

theorem nodeAt_append (root : MetaNode) (p q : Address) :
    nodeAt root (p ++ q) = (nodeAt root p).bind (nodeAt · q) := by
  induction p generalizing root with
  | nil => rfl
  | cons i p ih =>
    rw [List.cons_append, nodeAt, nodeAt, Option.bind_assoc]
    exact Option.bind_congr fun child _ => ih child

/-! ## Searches -/

mutual

/-- The nodes of a tree in the order in which they are visited. -/
def refs : Address → MetaNode → List NodeRef
  | here, .mk nodeType metadata children => ⟨here, .mk nodeType metadata children⟩ :: refsIn here children

def refsIn : Address → NodeChildren → List NodeRef
  | _, .value _ => []
  | here, .nodes ns => refsAmong here 0 ns

def refsAmong : Address → Nat → List MetaNode → List NodeRef
  | _, _, [] => []
  | here, i, child :: rest => refs (here ++ [i]) child ++ refsAmong here (i + 1) rest

end

def findByType (root : MetaNode) (nodeType : NodeType) : List NodeRef :=
  (refs [] root).filter (·.node.nodeType = nodeType)

def findByName (root : MetaNode) (name : String) : List NodeRef :=
  (refs [] root).filter (·.node.getMetaStr "name" = some name)

/-- The line range of a node where it has both ends, else its line. -/
def containsLine (line : Int64) (node : MetaNode) : Bool :=
  match node.getMeta "line_start", node.getMeta "line_end" with
  | some (.int start), some (.int last) => start ≤ line && line ≤ last
  | _, _ =>
    match node.getMeta "line" with
    | some (.int l) => line == l
    | _ => false

def scopeAt (root : MetaNode) (line : Int64) : List NodeRef :=
  (refs [] root).filter (containsLine line ·.node)

def callTargets (root : MetaNode) : List String :=
  ((refs [] root).filter (·.node.nodeType = .functionCall)).filterMap (·.node.getMetaStr "name")

def isBranch (nodeType : NodeType) : Bool :=
  match nodeType with
  | .conditional | .loop | .patternMatch | .matchArm | .exceptionHandling => true
  | _ => false

def complexityEstimate (root : MetaNode) : Nat :=
  1 + (refs [] root).countP (isBranch ·.node.nodeType)

mutual

theorem mem_refs_iff : ∀ (node : MetaNode) (here : Address) (r : NodeRef),
    r ∈ refs here node ↔ ∃ q, r.address = here ++ q ∧ nodeAt node q = some r.node
  | .mk nodeType metadata (.value v), here, r => by
    rw [refs, refsIn, List.mem_singleton]
    constructor
    · rintro rfl
      exact ⟨[], (List.append_nil here).symm, rfl⟩
    · rintro ⟨q, haddress, hnode⟩
      cases q with
      | nil =>
        exact NodeRef.ext (haddress.trans (List.append_nil here)) (Option.some.inj hnode).symm
      | cons i q => cases hnode
  | .mk nodeType metadata (.nodes ns), here, r => by
    rw [refs, refsIn, List.mem_cons, mem_refsAmong_iff ns]
    constructor
    · rintro (rfl | ⟨j, child, q, hchild, haddress, hnode⟩)
      · exact ⟨[], (List.append_nil here).symm, rfl⟩
      · refine ⟨j :: q, ?_, ?_⟩
        · rw [haddress, Nat.zero_add]
        · exact Option.bind_eq_some_iff.mpr ⟨child, hchild, hnode⟩
    · rintro ⟨q, haddress, hnode⟩
      cases q with
      | nil =>
        exact .inl (NodeRef.ext (haddress.trans (List.append_nil here)) (Option.some.inj hnode).symm)
      | cons j q =>
        obtain ⟨child, hchild, hnode⟩ := Option.bind_eq_some_iff.mp hnode
        exact .inr ⟨j, child, q, hchild, by rw [haddress, Nat.zero_add], hnode⟩

theorem mem_refsAmong_iff : ∀ (ns : List MetaNode) (here : Address) (i : Nat) (r : NodeRef),
    r ∈ refsAmong here i ns ↔
      ∃ j child q, ns[j]? = some child ∧ r.address = here ++ (i + j) :: q ∧ nodeAt child q = some r.node
  | [], here, i, r => by
    rw [refsAmong]
    refine iff_of_false List.not_mem_nil ?_
    rintro ⟨j, child, q, hchild, -⟩
    cases hchild
  | child :: rest, here, i, r => by
    rw [refsAmong, List.mem_append, mem_refs_iff child, mem_refsAmong_iff rest]
    constructor
    · rintro (⟨q, haddress, hnode⟩ | ⟨j, c, q, hc, haddress, hnode⟩)
      · refine ⟨0, child, q, rfl, ?_, hnode⟩
        rw [haddress, List.append_assoc, List.singleton_append, Nat.add_zero]
      · refine ⟨j + 1, c, q, hc, ?_, hnode⟩
        rw [haddress, Nat.add_assoc, Nat.add_comm 1]
    · rintro ⟨j, c, q, hc, haddress, hnode⟩
      cases j with
      | zero =>
        cases hc
        refine .inl ⟨q, ?_, hnode⟩
        rw [haddress, List.append_assoc, List.singleton_append, Nat.add_zero]
      | succ j =>
        refine .inr ⟨j, c, q, hc, ?_, hnode⟩
        rw [haddress, Nat.add_assoc, Nat.add_comm 1]

end

/-- No node is later than one that it is around, nor twice there. -/
def OuterFirst (found : List NodeRef) : Prop :=
  found.Pairwise fun a b => ¬b.address <+: a.address

mutual

theorem outerFirst_refs : ∀ (node : MetaNode) (here : Address), OuterFirst (refs here node)
  | .mk nodeType metadata (.value v), here => by
    rw [refs, refsIn]
    exact List.pairwise_singleton _ _
  | .mk nodeType metadata (.nodes ns), here => by
    rw [refs, refsIn]
    refine .cons (fun b hb hfront => ?_) (outerFirst_refsAmong ns here 0)
    obtain ⟨j, child, q, -, haddress, -⟩ := (mem_refsAmong_iff ns here 0 b).mp hb
    have hlength : b.address.length ≤ here.length := hfront.length_le
    rw [haddress, List.length_append, List.length_cons] at hlength
    omega

theorem outerFirst_refsAmong : ∀ (ns : List MetaNode) (here : Address) (i : Nat),
    OuterFirst (refsAmong here i ns)
  | [], here, i => by
    rw [refsAmong]
    exact .nil
  | child :: rest, here, i => by
    rw [refsAmong]
    refine List.pairwise_append.mpr ⟨outerFirst_refs child _, outerFirst_refsAmong rest here (i + 1), ?_⟩
    intro a ha b hb hfront
    obtain ⟨q, haddress, -⟩ := (mem_refs_iff child _ a).mp ha
    obtain ⟨j, c, q', -, haddress', -⟩ := (mem_refsAmong_iff rest here (i + 1) b).mp hb
    rw [haddress, haddress', List.append_assoc, List.singleton_append, List.prefix_append_right_inj,
      List.cons_prefix_cons] at hfront
    omega

end

mutual

theorem map_node_refs : ∀ (node : MetaNode) (here : Address), (refs here node).map NodeRef.node = walk node
  | .mk nodeType metadata (.value v), here => by
    rw [refs, refsIn, walk, walkChildren]
    rfl
  | .mk nodeType metadata (.nodes ns), here => by
    rw [refs, refsIn, walk, walkChildren, List.map_cons, map_node_refsAmong ns]

theorem map_node_refsAmong : ∀ (ns : List MetaNode) (here : Address) (i : Nat),
    (refsAmong here i ns).map NodeRef.node = walkAll ns
  | [], here, i => by
    rw [refsAmong, walkAll]
    rfl
  | child :: rest, here, i => by
    rw [refsAmong, walkAll, List.map_append, map_node_refs child, map_node_refsAmong rest]

end

/-- A search through the whole tree finds the nodes it is for, each once and outer ones first. -/
theorem filter_refs_spec (root : MetaNode) (p : MetaNode → Bool) :
    OuterFirst ((refs [] root).filter (p ·.node)) ∧
      ∀ r, r ∈ (refs [] root).filter (p ·.node) ↔ nodeAt root r.address = some r.node ∧ p r.node := by
  refine ⟨(outerFirst_refs root []).filter _, fun r => ?_⟩
  rw [List.mem_filter, mem_refs_iff]
  refine and_congr_left' ⟨?_, fun hnode => ⟨r.address, rfl, hnode⟩⟩
  rintro ⟨q, haddress, hnode⟩
  rw [haddress]
  exact hnode

theorem countP_refs (root : MetaNode) (p : MetaNode → Bool) :
    (refs [] root).countP (p ·.node) = {a | ∃ n, nodeAt root a = some n ∧ p n}.ncard := by
  obtain ⟨houter, hmem⟩ := filter_refs_spec root p
  have hnodup : (((refs [] root).filter (p ·.node)).map NodeRef.address).Nodup := by
    refine List.pairwise_map.mpr (houter.imp fun {a b} hnot heq => hnot ?_)
    rw [heq]
  rw [List.countP_eq_length_filter, ← List.length_map NodeRef.address, ← ncard_setOf_mem hnodup]
  congr 1
  ext a
  constructor
  · intro ha
    obtain ⟨r, hr, rfl⟩ := List.mem_map.mp ha
    exact ⟨r.node, (hmem r).mp hr⟩
  · rintro ⟨n, hn⟩
    exact List.mem_map.mpr ⟨⟨a, n⟩, (hmem ⟨a, n⟩).mpr hn, rfl⟩

/-- The searches for a type, a name or a line find exactly the nodes of it, each once and outer ones first.
The calls below a node are those that are stored for it, and its complexity is one more than the number
of branches in it. -/
theorem searches_exact (root : MetaNode) :
    (∀ nodeType, OuterFirst (findByType root nodeType) ∧
      ∀ r, r ∈ findByType root nodeType ↔ nodeAt root r.address = some r.node ∧ r.node.nodeType = nodeType) ∧
    (∀ name, OuterFirst (findByName root name) ∧
      ∀ r, r ∈ findByName root name ↔
        nodeAt root r.address = some r.node ∧ r.node.getMetaStr "name" = some name) ∧
    (∀ line, OuterFirst (scopeAt root line) ∧
      ∀ r, r ∈ scopeAt root line ↔ nodeAt root r.address = some r.node ∧ containsLine line r.node) ∧
    callTargets root = extractCalls root ∧
    complexityEstimate root = 1 + {a | ∃ n, nodeAt root a = some n ∧ isBranch n.nodeType}.ncard := by
  refine ⟨fun nodeType => ?_, fun name => ?_, fun line => filter_refs_spec root (containsLine line), ?_, ?_⟩
  · obtain ⟨houter, hmem⟩ := filter_refs_spec root (·.nodeType = nodeType)
    exact ⟨houter, fun r => (hmem r).trans (and_congr_right' decide_eq_true_iff)⟩
  · obtain ⟨houter, hmem⟩ := filter_refs_spec root (·.getMetaStr "name" = some name)
    exact ⟨houter, fun r => (hmem r).trans (and_congr_right' decide_eq_true_iff)⟩
  · rw [callTargets, extractCalls, ← map_node_refs root [], List.filter_map, List.filterMap_map]
    rfl
  · rw [complexityEstimate, countP_refs root (isBranch ·.nodeType)]

end Dllb
