import Mathlib
import Dllb.Vector.HnswInvariant

/-! # The live vectors of an HNSW index

Removal marks a node and forgets its id, and insertion pushes a new node. As long
as an id is removed before it is inserted again, the nodes that are not deleted
are those that the lookup table leads to, one for each id.
-/

namespace Dllb

set_option autoImplicit false

/-- The vector of every id that has one. -/
abbrev Contents (F : Type) := String → Option (List F)

namespace HnswIndex

variable {F D : Type}

/-- What an operation is for. -/
def Op.apply (contents : Contents F) : Op F → Contents F
  | .insert id vector _ => Function.update contents id (some vector)
  | .remove id => Function.update contents id none

def contentsOf (ops : List (Op F)) : Contents F := ops.foldl Op.apply fun _ => none

/-- The id to be inserted has no vector. -/
def Op.Fresh (contents : Contents F) : Op F → Prop
  | .insert id _ _ => contents id = none
  | .remove _ => True

/-- Every insertion is of an id that has no vector by then, as when an update removes the id first. -/
def Disciplined : Contents F → List (Op F) → Prop
  | _, [] => True
  | contents, op :: ops => op.Fresh contents ∧ Disciplined (op.apply contents) ops

theorem disciplined_replace (contents : Contents F) (id : String) (vector : List F) (draw : Nat)
    (ops : List (Op F)) :
    Disciplined contents (.remove id :: .insert id vector draw :: ops) ↔
      Disciplined (Function.update contents id (some vector)) ops := by
  simp [Disciplined, Op.Fresh, Op.apply]

/-- The ids and vectors of the nodes that are not deleted. -/
def live (ix : HnswIndex F) : List (String × List F) :=
  (ix.nodes.filter fun node => !node.deleted).map fun node => (node.id, node.vector)

/-- The vector that an id is looked up to. -/
def find (ix : HnswIndex F) : Contents F := fun id =>
  ix.nodeLookup[id]?.bind fun i => ix.nodes[i]?.map HnswNode.vector

/-- Every live node is the one that its id is looked up to. -/
structure Exact (ix : HnswIndex F) : Prop extends Inv ix where
  looked : ∀ {i : Nat} {node : HnswNode F}, ix.nodes[i]? = some node → node.deleted = false →
    ix.nodeLookup[node.id]? = some i

theorem Exact.new (dim : Nat) (metric : DistanceMetric) (config : HnswConfig) :
    (new dim metric config : HnswIndex F).Exact where
  toInv := Inv.new dim metric config
  looked hnode := by cases hnode

theorem find_new (dim : Nat) (metric : DistanceMetric) (config : HnswConfig) :
    (new dim metric config : HnswIndex F).find = fun _ => none := by
  funext id
  simp [find, new]

theorem Exact.mem_live_iff {ix : HnswIndex F} (h : ix.Exact) (id : String) (v : List F) :
    (id, v) ∈ ix.live ↔ ix.find id = some v := by
  simp only [live, List.mem_map, List.mem_filter, Bool.not_eq_true', Prod.mk.injEq, find,
    Option.bind_eq_some_iff, Option.map_eq_some_iff]
  constructor
  · rintro ⟨node, ⟨hmem, hlive⟩, rfl, rfl⟩
    obtain ⟨i, hi⟩ := List.mem_iff_getElem?.mp hmem
    exact ⟨i, h.looked hi hlive, node, hi, rfl⟩
  · rintro ⟨i, hlookup, node, hnode, rfl⟩
    obtain ⟨node', hnode', rfl, hlive⟩ := h.lookup hlookup
    cases hnode.symm.trans hnode'
    exact ⟨node, ⟨List.mem_iff_getElem?.mpr ⟨i, hnode⟩, hlive⟩, rfl, rfl⟩

/-- Live nodes at different places have different ids. -/
theorem Exact.eq_of_id {ix : HnswIndex F} (h : ix.Exact) {i j : Nat} {node other : HnswNode F}
    (hi : ix.nodes[i]? = some node) (hlive : node.deleted = false) (hj : ix.nodes[j]? = some other)
    (hliveOther : other.deleted = false) (hid : node.id = other.id) : i = j := by
  have hlooked := h.looked hi hlive
  rw [hid, h.looked hj hliveOther] at hlooked
  exact (Option.some.inj hlooked).symm

theorem Exact.nodup_live {ix : HnswIndex F} (h : ix.Exact) : (ix.live.map Prod.fst).Nodup := by
  rw [live, List.map_map, List.Nodup, List.pairwise_map, List.pairwise_filter]
  refine List.pairwise_iff_getElem.mpr fun i j hi hj hij hliveI hliveJ hid => ?_
  have heq := h.eq_of_id (List.getElem?_eq_getElem hi) (by simpa using hliveI) (List.getElem?_eq_getElem hj)
    (by simpa using hliveJ) hid
  omega

theorem Exact.lookup_eq_none_iff {ix : HnswIndex F} (h : ix.Exact) (id : String) :
    ix.nodeLookup[id]? = none ↔ ix.find id = none := by
  rw [find, Option.bind_eq_none_iff]
  constructor
  · intro hnone i hi
    cases hnone.symm.trans hi
  · intro hall
    cases hid : ix.nodeLookup[id]? with
    | none => rfl
    | some i =>
      obtain ⟨node, hnode, -, -⟩ := h.lookup hid
      have hvector := hall i hid
      rw [hnode] at hvector
      cases hvector

/-! ## Removal -/

theorem Exact.remove {ix : HnswIndex F} (h : ix.Exact) (id : String) :
    ∃ ix', ix.remove id = some ((ix.find id).isSome, ix') ∧ ix'.Exact ∧ ix'.config = ix.config ∧
      ix'.metric = ix.metric ∧ ix'.find = Function.update ix.find id none := by
  obtain ⟨existed, ix', hrun, hinv, hconfig⟩ := h.toInv.remove id
  cases hid : ix.nodeLookup[id]? with
  | none =>
    have hfind : ix.find id = none := (h.lookup_eq_none_iff id).mp hid
    refine ⟨ix, by simp [HnswIndex.remove, hid, hfind], h, rfl, rfl, ?_⟩
    rw [← hfind, Function.update_eq_self]
  | some idx =>
    obtain ⟨node, hnode, rfl, hlive⟩ := h.lookup hid
    have hfound : ix.find node.id = some node.vector := by
      rw [find, hid, Option.bind_some, hnode, Option.map_some]
    have hremove : ix.remove node.id = some (true, { ix with
        nodes := ix.nodes.set idx { node with deleted := true }
        nodeLookup := ix.nodeLookup.erase node.id }) := by
      simp [HnswIndex.remove, hid, hnode, hlive]
    obtain ⟨rfl, rfl⟩ := Prod.mk.inj (Option.some.inj (hrun.symm.trans hremove))
    have hset := (marked_set hnode (ix.nodeLookup.erase node.id)).nodes
    have herase : ∀ k, (ix.nodeLookup.erase node.id)[k]? = if k = node.id then none else ix.nodeLookup[k]? := by
      intro k
      rw [Std.ExtTreeMap.getElem?_erase]
      by_cases hk : k = node.id
      · rw [if_pos hk, hk, if_pos Std.ReflCmp.compare_self]
      · rw [if_neg hk, if_neg fun heq => hk (Std.LawfulEqCmp.eq_of_compare heq).symm]
    refine ⟨_, by rw [hrun, hfound]; rfl, ⟨hinv, fun {i other} hother hdel => ?_⟩, rfl, rfl, funext fun id' => ?_⟩
    · change (ix.nodeLookup.erase node.id)[other.id]? = some i
      rw [hset] at hother
      split at hother
      · cases hother
        cases hdel
      · rename_i hne
        rw [herase, if_neg ?_, h.looked hother hdel]
        exact fun heq => hne (h.eq_of_id hother hdel hnode hlive heq)
    · change ((ix.nodeLookup.erase node.id)[id']?.bind fun i =>
        (ix.nodes.set idx { node with deleted := true })[i]?.map HnswNode.vector) = _
      rw [herase, Function.update_apply]
      split
      · rfl
      · rename_i hne
        rw [find]
        cases hlook : ix.nodeLookup[id']? with
        | none => rfl
        | some i =>
          obtain ⟨other, hother, rfl, -⟩ := h.lookup hlook
          have hi : i ≠ idx := by
            rintro rfl
            cases hnode.symm.trans hother
            exact hne rfl
          rw [Option.bind_some, hset, if_neg hi, Option.bind_some]

/-! ## Insertion -/

/-- The two have the same nodes but for the links, and look ids up alike. -/
structure SameNodes (ix ix' : HnswIndex F) : Prop where
  nodes : ix'.nodes.map shape = ix.nodes.map shape
  nodeLookup : ix'.nodeLookup = ix.nodeLookup
  metric : ix'.metric = ix.metric

theorem SameNodes.getElem? {ix ix' : HnswIndex F} (h : SameNodes ix ix') (i : Nat) :
    ix'.nodes[i]?.map shape = ix.nodes[i]?.map shape := by
  rw [← List.getElem?_map, ← List.getElem?_map, h.nodes]

theorem SameNodes.find {ix ix' : HnswIndex F} (h : SameNodes ix ix') : ix'.find = ix.find := by
  have hvector : ∀ i : Nat, ix'.nodes[i]?.map HnswNode.vector = ix.nodes[i]?.map HnswNode.vector := by
    intro i
    have hshape := congrArg (Option.map HnswNode.vector) (h.getElem? i)
    rw [Option.map_map, Option.map_map] at hshape
    exact hshape
  funext id
  simp only [HnswIndex.find, h.nodeLookup, hvector]

theorem SameNodes.looked {ix ix' : HnswIndex F} (h : SameNodes ix ix')
    (hix : ∀ {i : Nat} {node : HnswNode F}, ix.nodes[i]? = some node → node.deleted = false →
      ix.nodeLookup[node.id]? = some i)
    {i : Nat} {node : HnswNode F} (hnode : ix'.nodes[i]? = some node) (hlive : node.deleted = false) :
    ix'.nodeLookup[node.id]? = some i := by
  have hshape := h.getElem? i
  rw [hnode] at hshape
  obtain ⟨node', hnode', heq⟩ := Option.map_eq_some_iff.mp hshape.symm
  have hid : node'.id = node.id := congrArg (fun node => node.id) heq
  have hdel : node'.deleted = node.deleted := congrArg (fun node => node.deleted) heq
  rw [h.nodeLookup, ← hid]
  exact hix hnode' (hdel.trans hlive)

theorem getElem?_nodeLookup_pushNode (ix : HnswIndex F) (id : String) (vector : List F) (level : Nat)
    (k : String) : (ix.pushNode id vector level).nodeLookup[k]? =
      if k = id then some ix.nodes.length else ix.nodeLookup[k]? := by
  change (ix.nodeLookup.insert id ix.nodes.length)[k]? = _
  rw [Std.ExtTreeMap.getElem?_insert]
  by_cases hk : k = id
  · rw [if_pos hk, hk, if_pos Std.ReflCmp.compare_self]
  · rw [if_neg hk, if_neg fun heq => hk (Std.LawfulEqCmp.eq_of_compare heq).symm]

theorem Inv.find_pushNode {ix : HnswIndex F} (h : ix.Inv) (id : String) (vector : List F) (level : Nat) :
    (ix.pushNode id vector level).find = Function.update ix.find id (some vector) := by
  funext id'
  rw [find, getElem?_nodeLookup_pushNode, Function.update_apply]
  split
  · rw [Option.bind_some, getElem?_pushNode, if_pos rfl]
    rfl
  · rw [find]
    cases hlook : ix.nodeLookup[id']? with
    | none => rfl
    | some i =>
      obtain ⟨node, hnode, -, -⟩ := h.lookup hlook
      have hlt := (List.getElem?_eq_some_iff.mp hnode).1
      rw [Option.bind_some, getElem?_pushNode, if_neg hlt.ne, Option.bind_some]

theorem Exact.looked_pushNode {ix : HnswIndex F} (h : ix.Exact) {id : String} (hid : ix.find id = none)
    (vector : List F) (level : Nat) {i : Nat} {node : HnswNode F}
    (hnode : (ix.pushNode id vector level).nodes[i]? = some node) (hlive : node.deleted = false) :
    (ix.pushNode id vector level).nodeLookup[node.id]? = some i := by
  rw [getElem?_pushNode] at hnode
  split at hnode
  · rename_i hi
    cases hnode
    rw [getElem?_nodeLookup_pushNode, if_pos rfl, hi]
  · have hlooked := h.looked hnode hlive
    rw [getElem?_nodeLookup_pushNode, if_neg ?_, hlooked]
    intro heq
    rw [heq, (h.lookup_eq_none_iff id).mpr hid] at hlooked
    cases hlooked

variable [LinearOrder D] [Distance F D] [BeamHeaps D]

theorem maxLayers_of_insert {ix ix' : HnswIndex F} {id : String} {vector : List F} {draw : Nat}
    (hrun : insert D ix id vector draw = some ix') : 1 ≤ ix.config.maxLayers := by
  by_contra hlt
  have hzero : ix.config.maxLayers = 0 := by omega
  rw [HnswIndex.insert, randomLevel, if_pos hzero] at hrun
  cases hrun

/-- An insertion changes links, the entry point and the top level, and pushes the node. -/
theorem Inv.insert_nodes {ix : HnswIndex F} (h : ix.Inv) {id : String} {vector : List F} {draw : Nat}
    {ix' : HnswIndex F} (hrun : HnswIndex.insert D ix id vector draw = some ix') :
    ∃ level, SameNodes (ix.pushNode id vector level) ix' := by
  obtain ⟨level, hlevel, -⟩ := randomLevel_spec (maxLayers_of_insert hrun) draw
  refine ⟨level, ?_⟩
  simp only [HnswIndex.insert, hlevel, Option.bind_eq_bind, Option.bind_some] at hrun
  cases hep : (ix.pushNode id vector level).entryPoint with
  | none =>
    simp only [hep, Option.pure_def, Option.some.injEq] at hrun
    rw [← hrun]
    exact ⟨rfl, rfl, rfl⟩
  | some ep =>
    have hne : ix.nodes ≠ [] := fun hnil => by cases (h.empty hnil).symm.trans hep
    obtain ⟨ep', hep', hepLevel⟩ := h.entry hne
    cases hep'.symm.trans hep
    obtain ⟨current, ix₁, hdescend, hconnect, -, hsame, -⟩ :=
      h.insert_linked (D := D) ⟨_, hepLevel, le_rfl⟩ id vector level
    have hmax : (ix.pushNode id vector level).maxLevel = ix.maxLevel := rfl
    simp only [hep, hmax, hdescend, hconnect, Option.bind_some, Option.pure_def, Option.some.injEq] at hrun
    have hlookup : ix₁.nodeLookup = (ix.pushNode id vector level).nodeLookup := by rw [hsame.rest]
    have hmetric : ix₁.metric = (ix.pushNode id vector level).metric := by rw [hsame.rest]
    rw [← hrun]
    split <;> exact ⟨hsame.nodes, hlookup, hmetric⟩

theorem Exact.insert {ix : HnswIndex F} (h : ix.Exact) {id : String} (hid : ix.find id = none)
    {vector : List F} {draw : Nat} {ix' : HnswIndex F}
    (hrun : HnswIndex.insert D ix id vector draw = some ix') :
    ix'.Exact ∧ ix'.config = ix.config ∧ ix'.metric = ix.metric ∧
      ix'.find = Function.update ix.find id (some vector) := by
  obtain ⟨ix₁, hrun₁, hinv, hconfig⟩ := h.toInv.insert (D := D) (maxLayers_of_insert hrun) id vector draw
  obtain rfl := Option.some.inj (hrun.symm.trans hrun₁)
  obtain ⟨level, hsame⟩ := h.toInv.insert_nodes hrun
  refine ⟨⟨hinv, hsame.looked (h.looked_pushNode hid vector level)⟩, hconfig, hsame.metric, ?_⟩
  rw [hsame.find, h.toInv.find_pushNode]

/-! ## Every disciplined sequence -/

/-- The index holds the vectors in `contents`, each once. -/
structure Holds (ix : HnswIndex F) (contents : Contents F) : Prop extends Exact ix where
  find : ix.find = contents

omit [LinearOrder D] [Distance F D] [BeamHeaps D] in
theorem holds_new (dim : Nat) (metric : DistanceMetric) (config : HnswConfig) :
    (new dim metric config : HnswIndex F).Holds fun _ => none :=
  ⟨Exact.new dim metric config, find_new dim metric config⟩

theorem Holds.exec {ix ix' : HnswIndex F} {contents : Contents F} (h : ix.Holds contents) {op : Op F}
    (hop : op.Fresh contents) (hrun : HnswIndex.exec D ix op = some ix') :
    ix'.Holds (op.apply contents) ∧ ix'.config = ix.config ∧ ix'.metric = ix.metric := by
  obtain ⟨hexact, rfl⟩ := h
  cases op with
  | insert id vector draw =>
    obtain ⟨hexact', hconfig, hmetric, hfind⟩ := hexact.insert hop hrun
    exact ⟨⟨hexact', hfind⟩, hconfig, hmetric⟩
  | remove id =>
    obtain ⟨ix₁, hremove, hexact', hconfig, hmetric, hfind⟩ := hexact.remove id
    rw [HnswIndex.exec, hremove] at hrun
    obtain rfl := Option.some.inj hrun
    exact ⟨⟨hexact', hfind⟩, hconfig, hmetric⟩

theorem Holds.execAll {ix ix' : HnswIndex F} {contents : Contents F} (h : ix.Holds contents)
    {ops : List (Op F)} (hops : Disciplined contents ops) (hrun : ops.foldlM (HnswIndex.exec D) ix = some ix') :
    ix'.Holds (ops.foldl Op.apply contents) ∧ ix'.config = ix.config ∧ ix'.metric = ix.metric := by
  induction ops generalizing ix contents with
  | nil =>
    obtain rfl := Option.some.inj hrun
    exact ⟨h, rfl, rfl⟩
  | cons op ops ih =>
    rw [List.foldlM_cons] at hrun
    obtain ⟨ix₁, hstep, hrest⟩ := Option.bind_eq_some_iff.mp hrun
    obtain ⟨h₁, hconfig, hmetric⟩ := h.exec hops.1 hstep
    obtain ⟨h', hconfig', hmetric'⟩ := ih h₁ hops.2 hrest
    exact ⟨h', hconfig'.trans hconfig, hmetric'.trans hmetric⟩

end HnswIndex

end Dllb
