import Mathlib
import Dllb.Vector.SearchSound
import Dllb.Vector.SnapshotFormat

/-! # What a snapshot can do to an index

An index that is only known to name nodes that exist is enough for all that the
operations do: it stays so, and none of them panics. The reader of snapshots
promises less: the numbers it reads become the neighbors and the entry point
whatever they are.
-/

namespace Dllb.HnswIndex

set_option autoImplicit false

variable {F D : Type}

/-! ## Indexes that name nodes -/

/-- The entry point is a node on the top layer, the lists have nodes of their layers, and there is a
layer to put a node on. -/
structure Sound (ix : HnswIndex F) : Prop extends Ranged ix where
  entry : ∀ ep, ix.entryPoint = some ep → ix.levelOf ep = some ix.maxLevel
  maxLayers : 1 ≤ ix.config.maxLayers

/-- And what an id is looked up to is a node. -/
structure Usable (ix : HnswIndex F) : Prop extends Sound ix where
  lookup : ∀ {id : String} {i : Nat}, ix.nodeLookup[id]? = some i → i < ix.nodes.length

theorem Ranged.relink {ix ix' : HnswIndex F} (h : ix.Ranged) {i layer : Nat} {ns : List Nat}
    (hset : Relinked ix ix' i layer ns) (hns : ∀ j ∈ ns, ix.OnLayer layer j) : ix'.Ranged where
  layers := hset.layers h
  lists {j l ms} hms k hk := by
    rw [hset.onLayer]
    rw [hset.lists] at hms
    split at hms
    · rename_i hjl
      obtain ⟨rfl, rfl⟩ := hjl
      obtain rfl := Option.some.inj hms
      exact hns k hk
    · exact h.lists hms k hk

theorem Ranged.pushNode {ix : HnswIndex F} (h : ix.Ranged) (id : String) (vector : List F) (level : Nat) :
    (ix.pushNode id vector level).Ranged where
  layers {i node} hnode := by
    rw [getElem?_pushNode] at hnode
    split at hnode
    · cases hnode
      exact List.length_replicate
    · exact h.layers hnode
  lists {i layer ns} hns j hj := by
    obtain ⟨-, rfl⟩ | hold := neighborsOf_pushNode hns
    · cases hj
    · obtain ⟨k, hk, hle⟩ := h.lists hold j hj
      refine ⟨k, ?_, hle⟩
      rw [levelOf_pushNode, if_neg (h.lists hold j hj).lt.ne, hk]

/-! ## Linking -/

section Links

variable [LinearOrder D] [Distance F D]

theorem Ranged.linkBack {ix : HnswIndex F} (h : ix.Ranged) {newIdx layer i : Nat}
    (hnew : ix.OnLayer layer newIdx) (hi : ix.OnLayer layer i) :
    ∃ ix', linkBack D newIdx layer ix i = some ix' ∧ ix'.Ranged ∧ SameShape ix ix' := by
  obtain ⟨ns, hns⟩ := h.onLayer_iff.mp hi
  obtain ⟨node, hnode, hlist⟩ := neighborsOf_eq_some.mp hns
  have hon : ∀ n ∈ ns ++ [newIdx], ix.OnLayer layer n :=
    List.forall_mem_append.mpr ⟨h.lists hns, List.forall_mem_singleton.mpr hnew⟩
  simp only [HnswIndex.linkBack, hnode, Option.bind_eq_bind, Option.bind_some, hlist]
  split
  · obtain ⟨scored, hscored, hmap⟩ := score_spec (D := D) ix node.vector (ns ++ [newIdx])
      fun n hn => ⟨layer, hon n hn⟩
    obtain ⟨kept, hperm, hpre⟩ := prune_sublist scored ix.config.m
    rw [hmap] at hperm
    obtain ⟨ix', hrun, hset⟩ := setNeighbors_spec hns (((sortByDist scored).take ix.config.m).map Prod.snd)
    refine ⟨ix', by simp only [hscored, Option.bind_some, hrun], h.relink hset fun j hj => ?_, hset.toSameShape⟩
    exact hon j (hperm.mem_iff.mp (hpre.subset hj))
  · obtain ⟨ix', hrun, hset⟩ := setNeighbors_spec hns (ns ++ [newIdx])
    exact ⟨ix', hrun, h.relink hset hon, hset.toSameShape⟩

theorem Ranged.linkBacks {ix : HnswIndex F} (h : ix.Ranged) {newIdx layer : Nat} {todo : List Nat}
    (hnew : ix.OnLayer layer newIdx) (hon : ∀ i ∈ todo, ix.OnLayer layer i) :
    ∃ ix', todo.foldlM (HnswIndex.linkBack D newIdx layer) ix = some ix' ∧ ix'.Ranged ∧ SameShape ix ix' := by
  induction todo generalizing ix with
  | nil => exact ⟨ix, rfl, h, .refl ix⟩
  | cons i todo ih =>
    obtain ⟨hi, hrest⟩ := List.forall_mem_cons.mp hon
    obtain ⟨ix₁, hrun, h₁, hsame⟩ := h.linkBack (D := D) hnew hi
    obtain ⟨ix', hrun', h', hsame'⟩ := ih h₁ (hsame.onLayer.mpr hnew) fun j hj => hsame.onLayer.mpr (hrest j hj)
    exact ⟨ix', by simp [List.foldlM_cons, hrun, hrun'], h', hsame.trans hsame'⟩

theorem Ranged.connect {ix : HnswIndex F} (h : ix.Ranged) {newIdx layer : Nat} {found : List (D × Nat)}
    (hnew : ix.OnLayer layer newIdx) (hfound : ∀ r ∈ found, ix.OnLayer layer r.2) :
    ∃ ix', ix.connect newIdx found layer = some ix' ∧ ix'.Ranged ∧ SameShape ix ix' := by
  have hnearest : ∀ j ∈ (found.take ix.config.m).map Prod.snd, ix.OnLayer layer j := by
    intro j hj
    obtain ⟨r, hr, rfl⟩ := List.mem_map.mp hj
    exact hfound r (List.mem_of_mem_take hr)
  obtain ⟨old, hold⟩ := h.onLayer_iff.mp hnew
  obtain ⟨ix₁, hrun, hset⟩ := setNeighbors_spec hold ((found.take ix.config.m).map Prod.snd)
  obtain ⟨ix', hrun', h', hsame⟩ := (h.relink hset hnearest).linkBacks (D := D) (hset.onLayer.mpr hnew)
    fun j hj => hset.onLayer.mpr (hnearest j hj)
  exact ⟨ix', by simp only [HnswIndex.connect, Option.bind_eq_bind, hrun, Option.bind_some, hrun'], h',
    hset.toSameShape.trans hsame⟩

variable [BeamHeaps D]

theorem Ranged.connectLayers {ix : HnswIndex F} (h : ix.Ranged) (query : List F) {newIdx layer current : Nat}
    (hnew : ix.OnLayer layer newIdx) (hcur : ix.OnLayer layer current) :
    ∃ ix', connectLayers D newIdx query layer ix current = some ix' ∧ ix'.Ranged ∧ SameShape ix ix' := by
  induction layer generalizing ix current with
  | zero =>
    obtain ⟨found, hrun, -, -, hfound⟩ := searchLayer_spec (D := D) (h.closed 0) query current
      ix.config.efConstruction hcur
    obtain ⟨ix', hrun', h', hsame⟩ := h.connect hnew hfound
    refine ⟨ix', ?_, h', hsame⟩
    rw [HnswIndex.connectLayers]
    simp only [Option.bind_eq_bind, hrun, Option.bind_some, hrun']
    rfl
  | succ layer ih =>
    obtain ⟨found, hrun, hnonempty, -, hfound⟩ := searchLayer_spec (D := D) (h.closed (layer + 1)) query current
      ix.config.efConstruction hcur
    obtain ⟨ix₁, hrun₁, h₁, hsame⟩ := h.connect hnew hfound
    obtain ⟨r, rest, rfl⟩ := List.exists_cons_of_ne_nil hnonempty
    have hr := hfound r List.mem_cons_self
    obtain ⟨ix', hrun', h', hsame'⟩ := ih h₁ (hsame.onLayer.mpr (hnew.mono (by omega)))
      (hsame.onLayer.mpr (hr.mono (by omega)))
    refine ⟨ix', ?_, h', hsame.trans hsame'⟩
    rw [HnswIndex.connectLayers]
    simp only [Option.bind_eq_bind, hrun, Option.bind_some, hrun₁]
    exact hrun'

end Links

/-! ## The operations -/

theorem Ranged.marked {ix ix' : HnswIndex F} (hix : ix.Ranged) {idx : Nat} {node : HnswNode F}
    (h : Marked ix ix' idx node) : ix'.Ranged where
  layers {i other} hother := by
    rw [h.nodes] at hother
    split at hother
    · cases hother
      have hlen := hix.layers h.old
      exact hlen
    · exact hix.layers hother
  lists {i layer ns} hns j hj := by
    rw [h.neighborsOf] at hns
    rw [OnLayer, h.levelOf]
    exact hix.lists hns j hj

theorem Usable.remove {ix : HnswIndex F} (h : ix.Usable) (id : String) :
    ∃ existed ix', ix.remove id = some (existed, ix') ∧ ix'.Usable := by
  cases hid : ix.nodeLookup[id]? with
  | none => exact ⟨false, ix, by simp [HnswIndex.remove, hid], h⟩
  | some idx =>
    obtain ⟨node, hnode⟩ : ∃ node, ix.nodes[idx]? = some node := ⟨_, List.getElem?_eq_getElem (h.lookup hid)⟩
    cases hdel : node.deleted with
    | true => exact ⟨false, ix, by simp [HnswIndex.remove, hid, hnode, hdel], h⟩
    | false =>
      have hmark := marked_set hnode (ix.nodeLookup.erase id)
      refine ⟨true, _, by simp [HnswIndex.remove, hid, hnode, hdel], ⟨h.toRanged.marked hmark, ?_, h.maxLayers⟩, ?_⟩
      · intro ep hep
        rw [hmark.levelOf]
        exact h.entry ep hep
      · intro k i hk
        rw [List.length_set]
        rw [Std.ExtTreeMap.getElem?_erase] at hk
        split at hk
        · cases hk
        · exact h.lookup hk

theorem Usable.lookup_pushNode {ix : HnswIndex F} (h : ix.Usable) (id : String) (vector : List F) (level : Nat)
    {k : String} {i : Nat} (hk : (ix.pushNode id vector level).nodeLookup[k]? = some i) :
    i < ix.nodes.length + 1 := by
  rw [getElem?_nodeLookup_pushNode] at hk
  split at hk
  · cases hk
    exact Nat.lt_succ_self _
  · exact Nat.lt_succ_of_lt (h.lookup hk)

section Ops

variable [LinearOrder D] [Distance F D] [BeamHeaps D]

theorem Usable.insert {ix : HnswIndex F} (h : ix.Usable) (id : String) (vector : List F) (draw : Nat) :
    ∃ ix', HnswIndex.insert D ix id vector draw = some ix' ∧ ix'.Usable := by
  obtain ⟨level, hlevel, -⟩ := randomLevel_spec h.maxLayers draw
  have hranged := h.toRanged.pushNode id vector level
  have hlength : (ix.pushNode id vector level).nodes.length = ix.nodes.length + 1 := List.length_append
  have hnewLevel : (ix.pushNode id vector level).levelOf ix.nodes.length = some level := by
    rw [levelOf_pushNode, if_pos rfl]
  simp only [HnswIndex.insert, hlevel, Option.bind_eq_bind, Option.bind_some]
  cases hep : (ix.pushNode id vector level).entryPoint with
  | none =>
    refine ⟨_, rfl, ⟨⟨hranged.layers, hranged.lists⟩, ?_, h.maxLayers⟩, fun hk => ?_⟩
    · rintro ep ⟨⟩
      exact hnewLevel
    · rw [hlength]
      exact h.lookup_pushNode id vector level hk
  | some ep =>
    have hepLevel := h.entry ep hep
    have hepOld : (ix.pushNode id vector level).levelOf ep = some ix.maxLevel := by
      have hon : ix.OnLayer ix.maxLevel ep := ⟨_, hepLevel, le_rfl⟩
      rw [levelOf_pushNode, if_neg hon.lt.ne, hepLevel]
    obtain ⟨current, hdescend, hcur⟩ := descend_spec (D := D) hranged.closed OnLayer.mono vector (level + 1)
      ix.maxLevel ep ⟨_, hepOld, le_rfl⟩
    rw [Nat.add_sub_cancel] at hcur
    have hnew : (ix.pushNode id vector level).OnLayer level ix.nodes.length := ⟨level, hnewLevel, le_rfl⟩
    obtain ⟨ix', hconnect, hranged', hsame⟩ := hranged.connectLayers (D := D) vector (hnew.mono (min_le_left _ _)) hcur
    have hmax : (ix.pushNode id vector level).maxLevel = ix.maxLevel := rfl
    have hmax' : ix'.maxLevel = ix.maxLevel := by
      rw [hsame.rest]
      rfl
    have hlookup : ∀ {k : String} {i : Nat}, ix'.nodeLookup[k]? = some i → i < ix'.nodes.length := by
      intro k i hk
      rw [hsame.rest] at hk
      rw [hsame.length_eq, hlength]
      exact h.lookup_pushNode id vector level hk
    have hlayers : 1 ≤ ix'.config.maxLayers := hsame.config ▸ h.maxLayers
    refine ⟨_, by simp only [hmax, hdescend, Option.bind_some, hconnect]; rfl, ?_⟩
    rw [hmax']
    split
    · refine ⟨⟨⟨hranged'.layers, hranged'.lists⟩, ?_, hlayers⟩, hlookup⟩
      rintro other ⟨⟩
      exact (hsame.levelOf _).trans hnewLevel
    · refine ⟨⟨hranged', fun other hother => ?_, hlayers⟩, hlookup⟩
      rw [hsame.rest] at hother
      obtain rfl := Option.some.inj (hep.symm.trans hother)
      rw [hsame.levelOf, hepOld, hmax']

theorem Usable.exec {ix : HnswIndex F} (h : ix.Usable) (op : Op F) :
    ∃ ix', HnswIndex.exec D ix op = some ix' ∧ ix'.Usable := by
  cases op with
  | insert id vector draw => exact h.insert id vector draw
  | remove id =>
    obtain ⟨existed, ix', hrun, h'⟩ := h.remove id
    exact ⟨ix', by rw [HnswIndex.exec, hrun]; rfl, h'⟩

theorem Usable.execAll {ix : HnswIndex F} (h : ix.Usable) (ops : List (Op F)) :
    ∃ ix', ops.foldlM (HnswIndex.exec D) ix = some ix' ∧ ix'.Usable := by
  induction ops generalizing ix with
  | nil => exact ⟨ix, rfl, h⟩
  | cons op ops ih =>
    obtain ⟨ix₁, hrun, h₁⟩ := h.exec (D := D) op
    obtain ⟨ix', hrun', h'⟩ := ih h₁
    exact ⟨ix', by simp [List.foldlM_cons, hrun, hrun'], h'⟩

theorem Sound.searchEf {ix : HnswIndex F} (h : ix.Sound) (query : List F) (k ef : Nat) :
    ∃ hits : List (VectorHit D), ix.searchEf query k ef = some hits := by
  rw [HnswIndex.searchEf]
  cases hep : ix.entryPoint with
  | none => exact ⟨[], rfl⟩
  | some ep =>
    obtain ⟨current, hrun, hcur⟩ := descend_spec (D := D) h.toRanged.closed OnLayer.mono query 1 ix.maxLevel ep
      ⟨_, h.entry ep hep, le_rfl⟩
    obtain ⟨found, hrun', -, -, hfound⟩ := searchLayer_spec (D := D) (h.toRanged.closed 0) query current
      (max ef k) (hcur.mono (Nat.zero_le _))
    obtain ⟨hits, hhits⟩ := liveHits_spec k found hfound
    exact ⟨hits, by simp [hrun, hrun', hhits]⟩

/-- No call panics, now or after any insertions and removals, and every search ends. -/
def Safe (D : Type) [LinearOrder D] [Distance F D] [BeamHeaps D] (ix : HnswIndex F) : Prop :=
  ∀ ops : List (Op F), ∃ ix', ops.foldlM (HnswIndex.exec D) ix = some ix' ∧
    ∀ (query : List F) (k ef : Nat), ∃ hits : List (VectorHit D), ix'.searchEf query k ef = some hits

end Ops

/-! ## The numbers in the data -/

/-- The numbers name nodes that are there, and each node has as many lists as its level asks for. -/
structure RawSnapshot.Consistent (raw : RawSnapshot) : Prop where
  maxLayers : 1 ≤ raw.config.maxLayers
  entry : 0 ≤ raw.entry → ∃ node, raw.nodes[raw.entry.toNatClampNeg]? = some node ∧ node.level = raw.maxLevel
  layers : ∀ node ∈ raw.nodes, node.neighbors.length = node.level + 1
  neighbors : ∀ node ∈ raw.nodes, ∀ layer ns, node.neighbors[layer]? = some ns →
    ∀ j ∈ ns, ∃ other : RawNode, raw.nodes[j]? = some other ∧ layer ≤ other.level

theorem RawSnapshot.getElem?_nodes (raw : RawSnapshot) (i : Nat) :
    raw.index.nodes[i]? = raw.nodes[i]?.map RawNode.node := List.getElem?_map

theorem RawSnapshot.levelOf (raw : RawSnapshot) (i : Nat) :
    raw.index.levelOf i = raw.nodes[i]?.map RawNode.level := by
  rw [HnswIndex.levelOf, raw.getElem?_nodes, Option.map_map]
  rfl

theorem RawSnapshot.onLayer_iff (raw : RawSnapshot) (layer i : Nat) :
    raw.index.OnLayer layer i ↔ ∃ node, raw.nodes[i]? = some node ∧ layer ≤ node.level := by
  simp only [OnLayer, raw.levelOf, Option.map_eq_some_iff]
  constructor
  · rintro ⟨-, ⟨node, hnode, rfl⟩, hle⟩
    exact ⟨node, hnode, hle⟩
  · rintro ⟨node, hnode, hle⟩
    exact ⟨_, ⟨node, hnode, rfl⟩, hle⟩

namespace Whole

/-- The vectors below all have one direction. -/
scoped instance parallel : Distance F32 Int where
  distance _ _ _ := 0

end Whole

end Dllb.HnswIndex
