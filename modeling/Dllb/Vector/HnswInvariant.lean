import Mathlib
import Dllb.Vector.Hnsw

/-! # The representation invariant of the HNSW index

The lists of a layer only name nodes of that layer, so a search that starts on
a layer stays on it. A set of nodes closed under the links of a layer is all a
search needs: it never leaves the set, and it ends because it strictly
approaches the query or visits no node twice.
-/

namespace Dllb.HnswIndex

set_option autoImplicit false

variable {F D : Type}

def levelOf (ix : HnswIndex F) (i : Nat) : Option Nat := ix.nodes[i]?.map HnswNode.level

/-- A node that has a list for the layer. -/
def OnLayer (ix : HnswIndex F) (layer i : Nat) : Prop := ∃ level, ix.levelOf i = some level ∧ layer ≤ level

/-- The list of node `i` on a layer. -/
structure ListOk (ix : HnswIndex F) (layer i : Nat) (ns : List Nat) : Prop where
  onLayer : ∀ j ∈ ns, ix.OnLayer layer j
  notSelf : i ∉ ns
  nodup : ns.Nodup
  length_le : ns.length ≤ 2 * ix.config.m

structure Linked (ix : HnswIndex F) : Prop where
  layers : ∀ {i : Nat} {node : HnswNode F}, ix.nodes[i]? = some node → node.neighbors.length = node.level + 1
  lists : ∀ {i layer ns}, ix.neighborsOf i layer = some ns → ix.ListOk layer i ns

structure Inv (ix : HnswIndex F) : Prop extends Linked ix where
  entry : ix.nodes ≠ [] → ∃ ep, ix.entryPoint = some ep ∧ ix.levelOf ep = some ix.maxLevel
  empty : ix.nodes = [] → ix.entryPoint = none
  level_le : ∀ {i level}, ix.levelOf i = some level → level ≤ ix.maxLevel
  lookup : ∀ {id : String} {i : Nat}, ix.nodeLookup[id]? = some i →
    ∃ node : HnswNode F, ix.nodes[i]? = some node ∧ node.id = id ∧ node.deleted = false

/-! ## Layers -/

theorem OnLayer.mono {ix : HnswIndex F} {l l' i : Nat} (h : ix.OnLayer l i) (hl : l' ≤ l) :
    ix.OnLayer l' i := by
  obtain ⟨level, hlevel, hle⟩ := h
  exact ⟨level, hlevel, hl.trans hle⟩

theorem OnLayer.node {ix : HnswIndex F} {l i : Nat} (h : ix.OnLayer l i) :
    ∃ node, ix.nodes[i]? = some node := by
  obtain ⟨level, hlevel, -⟩ := h
  obtain ⟨node, hnode, -⟩ := Option.map_eq_some_iff.mp hlevel
  exact ⟨node, hnode⟩

theorem OnLayer.lt {ix : HnswIndex F} {l i : Nat} (h : ix.OnLayer l i) : i < ix.nodes.length := by
  obtain ⟨node, hnode⟩ := h.node
  exact (List.getElem?_eq_some_iff.mp hnode).1

theorem neighborsOf_eq_some {ix : HnswIndex F} {i layer : Nat} {ns : List Nat} :
    ix.neighborsOf i layer = some ns ↔ ∃ node, ix.nodes[i]? = some node ∧ node.neighbors[layer]? = some ns := by
  rw [neighborsOf, Option.bind_eq_some_iff]

/-- One list for each layer of a node, and in it nodes of that layer. -/
structure Ranged (ix : HnswIndex F) : Prop where
  layers : ∀ {i : Nat} {node : HnswNode F}, ix.nodes[i]? = some node → node.neighbors.length = node.level + 1
  lists : ∀ {i layer ns}, ix.neighborsOf i layer = some ns → ∀ j ∈ ns, ix.OnLayer layer j

theorem Linked.ranged {ix : HnswIndex F} (h : ix.Linked) : ix.Ranged :=
  ⟨h.layers, fun hns => (h.lists hns).onLayer⟩

theorem Ranged.onLayer_iff {ix : HnswIndex F} (h : ix.Ranged) {layer i : Nat} :
    ix.OnLayer layer i ↔ ∃ ns, ix.neighborsOf i layer = some ns := by
  constructor
  · rintro ⟨level, hlevel, hle⟩
    obtain ⟨node, hnode, rfl⟩ := Option.map_eq_some_iff.mp hlevel
    have hlen := h.layers hnode
    refine ⟨node.neighbors[layer], neighborsOf_eq_some.mpr ⟨node, hnode, ?_⟩⟩
    exact List.getElem?_eq_getElem (by omega)
  · rintro ⟨ns, hns⟩
    obtain ⟨node, hnode, hlist⟩ := neighborsOf_eq_some.mp hns
    obtain ⟨hlt, -⟩ := List.getElem?_eq_some_iff.mp hlist
    have hlen := h.layers hnode
    exact ⟨node.level, by rw [levelOf, hnode]; rfl, by omega⟩

theorem Linked.onLayer_iff {ix : HnswIndex F} (h : ix.Linked) {layer i : Nat} :
    ix.OnLayer layer i ↔ ∃ ns, ix.neighborsOf i layer = some ns :=
  h.ranged.onLayer_iff

/-- The nodes of `P` have a list on the layer, and it stays in `P`. -/
def Closed (ix : HnswIndex F) (layer : Nat) (P : Nat → Prop) : Prop :=
  ∀ i, P i → ∃ ns, ix.neighborsOf i layer = some ns ∧ ∀ j ∈ ns, P j

theorem Ranged.closed {ix : HnswIndex F} (h : ix.Ranged) (layer : Nat) :
    ix.Closed layer (ix.OnLayer layer) := by
  intro i hi
  obtain ⟨ns, hns⟩ := h.onLayer_iff.mp hi
  exact ⟨ns, hns, h.lists hns⟩

theorem Linked.closed {ix : HnswIndex F} (h : ix.Linked) (layer : Nat) :
    ix.Closed layer (ix.OnLayer layer) :=
  h.ranged.closed layer

theorem Closed.node {ix : HnswIndex F} {layer : Nat} {P : Nat → Prop} (h : ix.Closed layer P) {i : Nat}
    (hi : P i) : ∃ node, ix.nodes[i]? = some node := by
  obtain ⟨ns, hns, -⟩ := h i hi
  obtain ⟨node, hnode, -⟩ := neighborsOf_eq_some.mp hns
  exact ⟨node, hnode⟩

theorem Closed.lt {ix : HnswIndex F} {layer : Nat} {P : Nat → Prop} (h : ix.Closed layer P) {i : Nat}
    (hi : P i) : i < ix.nodes.length := by
  obtain ⟨node, hnode⟩ := h.node hi
  exact (List.getElem?_eq_some_iff.mp hnode).1

variable [Distance F D]

theorem Closed.dist {ix : HnswIndex F} {layer : Nat} {P : Nat → Prop} (h : ix.Closed layer P) {i : Nat}
    (hi : P i) (query : List F) : ∃ d : D, ix.dist query i = some d := by
  obtain ⟨node, hnode⟩ := h.node hi
  exact ⟨Distance.distance query node.vector ix.metric, by simp [HnswIndex.dist, hnode]⟩

/-! ## Greedy descent -/

variable [LinearOrder D]

theorem greedyRound_spec {ix : HnswIndex F} {layer : Nat} {P : Nat → Prop} (h : ix.Closed layer P)
    (query : List F) (ns : List Nat) (hns : ∀ n ∈ ns, P n) (st : Nat × D × Bool) (hst : P st.1)
    (hdist : ix.dist query st.1 = some st.2.1) :
    ∃ st', greedyRound ix query ns st = some st' ∧ P st'.1 ∧ ix.dist query st'.1 = some st'.2.1 ∧
      st'.2.1 ≤ st.2.1 ∧ (st'.2.2 = true → st.2.2 = true ∨ st'.2.1 < st.2.1) := by
  induction ns generalizing st with
  | nil => exact ⟨st, rfl, hst, hdist, le_rfl, .inl⟩
  | cons n ns ih =>
    have hn := hns n List.mem_cons_self
    have hrest : ∀ n ∈ ns, P n := fun m hm => hns m (List.mem_cons_of_mem n hm)
    obtain ⟨node, hnode⟩ := h.node hn
    obtain ⟨d, hd⟩ := h.dist (D := D) hn query
    simp only [greedyRound, hnode, Option.bind_eq_bind, Option.bind_some, hd]
    cases node.deleted with
    | true => exact ih hrest st hst hdist
    | false =>
      by_cases hlt : d < st.2.1
      · obtain ⟨st', hrun, hP, hdist', hle, hch⟩ := ih hrest (n, d, true) hn hd
        refine ⟨st', by simpa [hlt] using hrun, hP, hdist', hle.trans hlt.le, fun _ => .inr ?_⟩
        exact lt_of_le_of_lt hle hlt
      · simpa [hlt] using ih hrest st hst hdist

/-- The nodes nearer to the query than `d`. -/
def nearer (ix : HnswIndex F) (query : List F) (d : D) : Finset Nat :=
  (Finset.range ix.nodes.length).filter fun i => ((ix.dist query i).any fun e : D => decide (e < d)) = true

theorem card_nearer_lt {ix : HnswIndex F} {query : List F} {d e : D} {i : Nat} (hi : i < ix.nodes.length)
    (hdist : ix.dist query i = some e) (hlt : e < d) :
    (ix.nearer query e).card < (ix.nearer query d).card := by
  apply Finset.card_lt_card
  rw [Finset.ssubset_iff_of_subset]
  · refine ⟨i, ?_, ?_⟩
    · simp [nearer, hi, hdist, hlt]
    · simp [nearer, hdist]
  · intro j hj
    simp only [nearer, Finset.mem_filter, Option.any_eq_true, decide_eq_true_eq] at hj ⊢
    obtain ⟨hj, f, hf, hfe⟩ := hj
    exact ⟨hj, f, hf, hfe.trans hlt⟩

theorem greedyLoop_spec {ix : HnswIndex F} {layer : Nat} {P : Nat → Prop} (h : ix.Closed layer P)
    (query : List F) (fuel current : Nat) (d : D) (hcur : P current)
    (hdist : ix.dist query current = some d) (hfuel : (ix.nearer query d).card < fuel) :
    ∃ r, greedyLoop ix query layer fuel current d = some r ∧ P r := by
  induction fuel generalizing current d with
  | zero => omega
  | succ fuel ih =>
    obtain ⟨ns, hns, hP⟩ := h current hcur
    obtain ⟨st, hrun, hst, hd, -, hch⟩ := greedyRound_spec h query ns hP (current, d, false) hcur hdist
    simp only [greedyLoop, hns, Option.bind_eq_bind, Option.bind_some, hrun]
    by_cases hmoved : st.2.2 = true
    · have hlt : st.2.1 < d := (hch hmoved).resolve_left (by simp)
      have hcard := card_nearer_lt (h.lt hst) hd hlt
      rw [if_pos hmoved]
      exact ih st.1 st.2.1 hst hd (by omega)
    · exact ⟨st.1, by simp [hmoved], hst⟩

theorem greedyClosest_spec {ix : HnswIndex F} {layer : Nat} {P : Nat → Prop} (h : ix.Closed layer P)
    (query : List F) (start : Nat) (hstart : P start) :
    ∃ r, greedyClosest D ix query start layer = some r ∧ P r := by
  obtain ⟨d, hd⟩ := h.dist (D := D) hstart query
  have hcard : (ix.nearer query d).card ≤ ix.nodes.length :=
    (Finset.card_filter_le _ _).trans (Finset.card_range _).le
  obtain ⟨r, hr, hP⟩ := greedyLoop_spec h query (ix.nodes.length + 1) start d hstart hd (by omega)
  exact ⟨r, by simp [greedyClosest, hd, hr], hP⟩

theorem descend_spec {ix : HnswIndex F} {P : Nat → Nat → Prop} (hclosed : ∀ layer, ix.Closed layer (P layer))
    (hmono : ∀ {l l' i}, P l i → l' ≤ l → P l' i) (query : List F) (low top current : Nat)
    (hcur : P top current) :
    ∃ r, descend D ix query low top current = some r ∧ P (min (low - 1) top) r := by
  induction top generalizing current with
  | zero => exact ⟨current, rfl, hmono hcur (by omega)⟩
  | succ layer ih =>
    rw [descend]
    by_cases hlow : low ≤ layer + 1
    · obtain ⟨r, hr, hP⟩ := greedyClosest_spec (D := D) (hclosed (layer + 1)) query current hcur
      obtain ⟨r', hr', hP'⟩ := ih r (hmono hP (by omega))
      refine ⟨r', by simp [hlow, hr, hr'], hmono hP' (by omega)⟩
    · exact ⟨current, by simp [hlow], hmono hcur (by omega)⟩

/-! ## Beam search -/

variable [BeamHeaps D]

/-- What a beam search keeps, for a closed set `P`. -/
structure Beam.Ok (P : Nat → Prop) (b : Beam D) : Prop where
  candidates : ∀ c ∈ (nearest D).toList b.candidates, P c.2
  results : ∀ r ∈ (farthest D).toList b.results, r.2 ∈ b.visited
  nodup : (((farthest D).toList b.results).map Prod.snd).Nodup
  nonempty : (farthest D).len b.results ≠ 0
  visited : ∀ i ∈ b.visited, P i
  visited_nodup : b.visited.Nodup

theorem Beam.Ok.start {P : Nat → Prop} (d : D) {i : Nat} (hi : P i) : (Beam.start d i).Ok P := by
  have hnear := (nearest D).push_perm (nearest D).empty (d, i)
  have hfar := (farthest D).push_perm (farthest D).empty (d, i)
  rw [BinaryHeap.toList_empty] at hnear hfar
  constructor
  · intro c hc
    rw [List.mem_singleton.mp (hnear.mem_iff.mp hc)]
    exact hi
  · intro r hr
    rw [List.mem_singleton.mp (hfar.mem_iff.mp hr)]
    exact List.mem_singleton_self i
  · exact (hfar.map Prod.snd).nodup_iff.mpr (List.nodup_singleton i)
  · exact fun hlen => absurd (hfar.length_eq.symm.trans hlen) (by simp)
  · intro j hj
    rw [List.mem_singleton.mp hj]
    exact hi
  · exact List.nodup_singleton i

/-- The rounds a search can still make: the candidates, and the nodes not seen yet. -/
def Beam.budget (b : Beam D) (n : Nat) : Nat := (nearest D).len b.candidates + (n - b.visited.length)

theorem Beam.Ok.visit {P : Nat → Prop} {b : Beam D} (h : b.Ok P) {i : Nat} (hi : P i)
    (hnew : i ∉ b.visited) : Beam.Ok P { b with visited := i :: b.visited } where
  candidates := h.candidates
  results r hr := List.mem_cons_of_mem i (h.results r hr)
  nodup := h.nodup
  nonempty := h.nonempty
  visited := List.forall_mem_cons.mpr ⟨hi, h.visited⟩
  visited_nodup := List.nodup_cons.mpr ⟨hnew, h.visited_nodup⟩

/-- The results after an addition are some of the old ones and the new one, without repetition. -/
theorem Beam.results_add (b : Beam D) (ef : Nat) (d : D) (i : Nat) (hne : (farthest D).len b.results ≠ 0) :
    (farthest D).len (b.add ef d i).results ≠ 0 ∧
      ∃ gone, ((d, i) :: (farthest D).toList b.results).Perm
        (gone ++ (farthest D).toList (b.add ef d i).results) := by
  have hpush := (farthest D).push_perm b.results (d, i)
  have hlen := (farthest D).len_push b.results (d, i)
  by_cases hfull : ef < (farthest D).len ((farthest D).push b.results (d, i))
  · obtain ⟨worst, rest, hpop⟩ := (farthest D).exists_pop (by omega : (farthest D).len ((farthest D).push b.results (d, i)) ≠ 0)
    have hrest : (b.add ef d i).results = rest := by simp [Beam.add, hfull, hpop]
    rw [hrest]
    have hlen' := (farthest D).len_pop hpop
    refine ⟨by omega, [worst], hpush.symm.trans ((farthest D).pop_perm hpop)⟩
  · have hrest : (b.add ef d i).results = (farthest D).push b.results (d, i) := by simp [Beam.add, hfull]
    rw [hrest]
    exact ⟨by omega, [], hpush.symm⟩

theorem Beam.Ok.add {P : Nat → Prop} {b : Beam D} (h : b.Ok P) (ef : Nat) (d : D) {i : Nat} (hi : P i)
    (hseen : i ∈ b.visited) (hnew : ∀ r ∈ (farthest D).toList b.results, r.2 ≠ i) : (b.add ef d i).Ok P := by
  obtain ⟨hne, gone, hperm⟩ := b.results_add ef d i h.nonempty
  have hmem : ∀ r ∈ (farthest D).toList (b.add ef d i).results, r = (d, i) ∨ r ∈ (farthest D).toList b.results :=
    fun r hr => List.mem_cons.mp (hperm.mem_iff.mpr (List.mem_append_right gone hr))
  constructor
  · intro c hc
    rcases (nearest D).mem_push.mp hc with rfl | hc
    · exact hi
    · exact h.candidates c hc
  · intro r hr
    rcases hmem r hr with rfl | hr
    · exact hseen
    · exact h.results r hr
  · have hall : (((d, i) :: (farthest D).toList b.results).map Prod.snd).Nodup := by
      rw [List.map_cons, List.nodup_cons]
      refine ⟨fun hin => ?_, h.nodup⟩
      obtain ⟨r, hr, hri⟩ := List.mem_map.mp hin
      exact hnew r hr hri
    have hsplit := (hperm.map Prod.snd).nodup_iff.mp hall
    rw [List.map_append] at hsplit
    exact hsplit.of_append_right
  · exact hne
  · exact h.visited
  · exact h.visited_nodup

theorem Beam.Ok.shouldAdd {P : Nat → Prop} {b : Beam D} (h : b.Ok P) (ef : Nat) (d : D) :
    ∃ c, b.shouldAdd ef d = some c := by
  rw [Beam.shouldAdd]
  split
  · exact ⟨true, rfl⟩
  · obtain ⟨worst, rest, hpop⟩ := (farthest D).exists_pop h.nonempty
    exact ⟨decide (d < worst.1), by simp [BinaryHeap.peek, hpop]⟩

theorem visitNeighbors_spec {ix : HnswIndex F} {layer : Nat} {P : Nat → Prop} (h : ix.Closed layer P)
    (query : List F) (ef : Nat) (ns : List Nat) (hns : ∀ n ∈ ns, P n) (b : Beam D) (hb : b.Ok P) :
    ∃ b', visitNeighbors ix query ef ns b = some b' ∧ b'.Ok P ∧
      b'.budget ix.nodes.length ≤ b.budget ix.nodes.length := by
  induction ns generalizing b with
  | nil => exact ⟨b, rfl, hb, le_rfl⟩
  | cons n ns ih =>
    have hn := hns n List.mem_cons_self
    have hrest : ∀ n ∈ ns, P n := fun m hm => hns m (List.mem_cons_of_mem n hm)
    rw [visitNeighbors]
    by_cases hseen : n ∈ b.visited
    · rw [if_pos hseen]
      exact ih hrest b hb
    · rw [if_neg hseen]
      obtain ⟨d, hd⟩ := h.dist (D := D) hn query
      have hvisit := hb.visit hn hseen
      obtain ⟨c, hc⟩ := hvisit.shouldAdd ef d
      have hroom : (n :: b.visited).length ≤ ix.nodes.length := by
        have hsub : (n :: b.visited) ⊆ List.range ix.nodes.length := fun j hj =>
          List.mem_range.mpr (h.lt (hvisit.visited j hj))
        have hle := (hvisit.visited_nodup.subperm hsub).length_le
        rwa [List.length_range] at hle
      rw [List.length_cons] at hroom
      simp only [Option.bind_eq_bind, hd, Option.bind_some, hc]
      cases c with
      | false =>
        obtain ⟨b', hrun, hok, hle⟩ := ih hrest { b with visited := n :: b.visited } hvisit
        refine ⟨b', by simpa using hrun, hok, hle.trans ?_⟩
        simp only [Beam.budget, List.length_cons]
        omega
      | true =>
        have hadd := hvisit.add ef d hn List.mem_cons_self
          fun r hr hri => hseen (hri ▸ hb.results r hr)
        obtain ⟨b', hrun, hok, hle⟩ := ih hrest _ hadd
        refine ⟨b', by simpa using hrun, hok, hle.trans ?_⟩
        simp only [Beam.budget, Beam.add, List.length_cons, (nearest D).len_push]
        omega

theorem beamLoop_spec {ix : HnswIndex F} {layer : Nat} {P : Nat → Prop} (h : ix.Closed layer P)
    (query : List F) (ef fuel : Nat) (b : Beam D) (hb : b.Ok P) (hfuel : b.budget ix.nodes.length < fuel) :
    ∃ b', beamLoop ix query ef layer fuel b = some b' ∧ b'.Ok P := by
  induction fuel generalizing b with
  | zero => omega
  | succ fuel ih =>
    rw [beamLoop]
    cases hpop : (nearest D).pop b.candidates with
    | none => exact ⟨b, rfl, hb⟩
    | some c =>
      have hrest : Beam.Ok P { b with candidates := c.2 } :=
        { hb with candidates := fun x hx => hb.candidates x ((nearest D).mem_of_pop hpop hx) }
      have hlen := (nearest D).len_pop hpop
      simp only
      split
      · exact ⟨_, rfl, hrest⟩
      · have hc : P c.1.2 := hb.candidates c.1 (((nearest D).pop_perm hpop).mem_iff.mpr List.mem_cons_self)
        obtain ⟨ns, hns, hP⟩ := h c.1.2 hc
        obtain ⟨b', hrun, hok, hle⟩ := visitNeighbors_spec h query ef ns hP _ hrest
        simp only [Option.bind_eq_bind, hns, Option.bind_some, hrun]
        refine ih b' hok ?_
        simp only [Beam.budget] at hle hfuel ⊢
        omega

theorem searchLayer_spec {ix : HnswIndex F} {layer : Nat} {P : Nat → Prop} (h : ix.Closed layer P)
    (query : List F) (start ef : Nat) (hstart : P start) :
    ∃ found : List (D × Nat), ix.searchLayer query start ef layer = some found ∧ found ≠ [] ∧
      (found.map Prod.snd).Nodup ∧ ∀ r ∈ found, P r.2 := by
  obtain ⟨d, hd⟩ := h.dist (D := D) hstart query
  have hlt := h.lt hstart
  have hbudget : (Beam.start d start).budget ix.nodes.length < ix.nodes.length + 1 := by
    have hlen : (nearest D).len (nearest D).empty = 0 := by rw [BinaryHeap.len, BinaryHeap.toList_empty]; rfl
    simp only [Beam.budget, Beam.start, (nearest D).len_push, hlen, List.length_singleton]
    omega
  obtain ⟨b, hrun, hok⟩ := beamLoop_spec h query ef _ _ (Beam.Ok.start d hstart) hbudget
  have hperm : (sortByDist ((farthest D).toList b.results)).Perm ((farthest D).toList b.results) :=
    List.perm_insertionSort _ _
  refine ⟨sortByDist ((farthest D).toList b.results), by simp [searchLayer, hd, hrun], ?_, ?_, ?_⟩
  · exact fun hnil => hok.nonempty (hperm.length_eq.symm.trans (by rw [hnil]; rfl))
  · exact (hperm.map Prod.snd).nodup_iff.mpr hok.nodup
  · exact fun r hr => hok.visited r.2 (hok.results r (hperm.mem_iff.mp hr))

/-! ## Links -/

section Links

variable {F D : Type}

/-- A node without the content of its lists. -/
def shape (node : HnswNode F) : HnswNode F := { node with neighbors := node.neighbors.map fun _ => [] }

/-- Two indexes that differ in the content of neighbor lists only. -/
structure SameShape (ix ix' : HnswIndex F) : Prop where
  nodes : ix'.nodes.map shape = ix.nodes.map shape
  rest : ix' = { ix with nodes := ix'.nodes }

theorem SameShape.refl (ix : HnswIndex F) : SameShape ix ix := ⟨rfl, rfl⟩

theorem SameShape.trans {a b c : HnswIndex F} (hab : SameShape a b) (hbc : SameShape b c) :
    SameShape a c := by
  refine ⟨hbc.nodes.trans hab.nodes, ?_⟩
  rw [hbc.rest, hab.rest]

theorem SameShape.getElem? {ix ix' : HnswIndex F} (h : SameShape ix ix') (i : Nat) :
    ix'.nodes[i]?.map shape = ix.nodes[i]?.map shape := by
  rw [← List.getElem?_map, h.nodes, List.getElem?_map]

theorem SameShape.node {ix ix' : HnswIndex F} (h : SameShape ix ix') {i : Nat} {node' : HnswNode F}
    (hnode : ix'.nodes[i]? = some node') : ∃ node, ix.nodes[i]? = some node ∧ shape node = shape node' := by
  have hmap := h.getElem? i
  rw [hnode] at hmap
  exact Option.map_eq_some_iff.mp hmap.symm

theorem SameShape.levelOf {ix ix' : HnswIndex F} (h : SameShape ix ix') (i : Nat) :
    ix'.levelOf i = ix.levelOf i := by
  have hmap := congrArg (Option.map HnswNode.level) (h.getElem? i)
  rw [Option.map_map, Option.map_map] at hmap
  exact hmap

theorem SameShape.onLayer {ix ix' : HnswIndex F} (h : SameShape ix ix') {layer i : Nat} :
    ix'.OnLayer layer i ↔ ix.OnLayer layer i := by
  rw [OnLayer, OnLayer, h.levelOf]

theorem SameShape.length_eq {ix ix' : HnswIndex F} (h : SameShape ix ix') : ix'.nodes.length = ix.nodes.length := by
  have hshape := congrArg List.length h.nodes
  rwa [List.length_map, List.length_map] at hshape

theorem SameShape.config {ix ix' : HnswIndex F} (h : SameShape ix ix') : ix'.config = ix.config := by
  rw [h.rest]

theorem SameShape.listOk {ix ix' : HnswIndex F} (h : SameShape ix ix') {layer i : Nat} {ns : List Nat}
    (hok : ix.ListOk layer i ns) : ix'.ListOk layer i ns where
  onLayer j hj := h.onLayer.mpr (hok.onLayer j hj)
  notSelf := hok.notSelf
  nodup := hok.nodup
  length_le := h.config ▸ hok.length_le

theorem SameShape.layers {ix ix' : HnswIndex F} (h : SameShape ix ix') (hix : ix.Ranged) {i : Nat}
    {node' : HnswNode F} (hnode : ix'.nodes[i]? = some node') :
    node'.neighbors.length = node'.level + 1 := by
  obtain ⟨node, hold, hshape⟩ := h.node hnode
  have hlen : node.neighbors.length = node'.neighbors.length := by
    simpa [shape] using congrArg (fun n => n.neighbors.length) hshape
  have hlevel : node.level = node'.level := congrArg (·.level) hshape
  rw [← hlen, ← hlevel]
  exact hix.layers hold

/-- `ix'` is `ix` with another list at one place. -/
structure Relinked (ix ix' : HnswIndex F) (i layer : Nat) (ns : List Nat) : Prop extends SameShape ix ix' where
  lists : ∀ j l, ix'.neighborsOf j l = if j = i ∧ l = layer then some ns else ix.neighborsOf j l

theorem setNeighbors_spec {ix : HnswIndex F} {i layer : Nat} {old : List Nat}
    (hold : ix.neighborsOf i layer = some old) (ns : List Nat) :
    ∃ ix', ix.setNeighbors i layer ns = some ix' ∧ Relinked ix ix' i layer ns := by
  obtain ⟨node, hnode, hlist⟩ := neighborsOf_eq_some.mp hold
  obtain ⟨hlt, hi⟩ := List.getElem?_eq_some_iff.mp hnode
  obtain ⟨hlayer, -⟩ := List.getElem?_eq_some_iff.mp hlist
  refine ⟨_, by simp only [setNeighbors, hnode, Option.bind_eq_bind, Option.bind_some, hlayer, if_true]; rfl,
    ⟨⟨?_, rfl⟩, ?_⟩⟩
  · have hshape : shape { node with neighbors := node.neighbors.set layer ns } = shape node := by
      simp [shape, List.map_const']
    apply List.ext_getElem?
    intro j
    rw [List.getElem?_map, List.getElem?_map, List.getElem?_set]
    split
    · rename_i hij
      subst hij
      rw [hnode, Option.map_some, Option.map_some, hshape]
    · rfl
  · intro j l
    simp only [neighborsOf, List.getElem?_set]
    by_cases hj : j = i
    · subst hj
      simp only [true_and, if_true, hlt, hnode, Option.bind_some, List.getElem?_set]
      by_cases hl : l = layer
      · subst hl
        simp [hlayer]
      · simp [hl, Ne.symm hl]
    · simp [hj, Ne.symm hj]

theorem Linked.relink {ix ix' : HnswIndex F} (h : ix.Linked) {i layer : Nat} {ns : List Nat}
    (hset : Relinked ix ix' i layer ns) (hns : ix.ListOk layer i ns) : ix'.Linked where
  layers := hset.layers h.ranged
  lists {j l ms} hms := by
    rw [hset.lists] at hms
    split at hms
    · rename_i hjl
      obtain ⟨rfl, rfl⟩ := hjl
      cases hms
      exact hset.listOk hns
    · exact hset.listOk (h.lists hms)

section Score

variable [Distance F D]

theorem score_spec (ix : HnswIndex F) (v : List F) (ns : List Nat)
    (h : ∀ n ∈ ns, ∃ layer, ix.OnLayer layer n) :
    ∃ scored, score D ix v ns = some scored ∧ scored.map Prod.snd = ns := by
  induction ns with
  | nil => exact ⟨[], rfl, rfl⟩
  | cons n ns ih =>
    obtain ⟨layer, hn⟩ := h n List.mem_cons_self
    obtain ⟨rest, hrest, hmap⟩ := ih fun m hm => h m (List.mem_cons_of_mem n hm)
    obtain ⟨node, hnode⟩ := hn.node
    refine ⟨(Distance.distance v node.vector ix.metric, n) :: rest, ?_, by rw [List.map_cons, hmap]⟩
    simp [score, hrest, hnode]

end Score

variable [LinearOrder D] [Distance F D]

/-- Pruning keeps some of the entries. -/
theorem prune_sublist (scored : List (D × Nat)) (m : Nat) :
    ∃ kept, (kept : List Nat).Perm (scored.map Prod.snd) ∧
      ((sortByDist scored).take m).map Prod.snd <+: kept :=
  ⟨(sortByDist scored).map Prod.snd, (List.perm_insertionSort _ _).map _,
    (List.take_prefix m _).map _⟩

theorem linkBack_spec {ix : HnswIndex F} (h : ix.Linked) {newIdx layer i : Nat} {ns : List Nat}
    (hnew : ix.OnLayer layer newIdx) (hne : newIdx ≠ i) (hns : ix.neighborsOf i layer = some ns)
    (hfresh : newIdx ∉ ns) :
    ∃ ix' ns', linkBack D newIdx layer ix i = some ix' ∧ Relinked ix ix' i layer ns' ∧ ix'.Linked := by
  obtain ⟨node, hnode, hlist⟩ := neighborsOf_eq_some.mp hns
  have hold := h.lists hns
  have hon : ∀ n ∈ ns ++ [newIdx], ix.OnLayer layer n := by
    intro n hn
    rcases List.mem_append.mp hn with hn | hn
    · exact hold.onLayer n hn
    · rw [List.mem_singleton.mp hn]
      exact hnew
  have hself : i ∉ ns ++ [newIdx] := by
    simp only [List.mem_append, List.mem_singleton, not_or]
    exact ⟨hold.notSelf, Ne.symm hne⟩
  have hnodup : (ns ++ [newIdx]).Nodup := by
    rw [← List.concat_eq_append]
    exact hold.nodup.concat hfresh
  simp only [linkBack, hnode, Option.bind_eq_bind, Option.bind_some, hlist]
  by_cases hfull : ix.config.m * 2 < (ns ++ [newIdx]).length
  · rw [if_pos hfull]
    obtain ⟨scored, hscored, hmap⟩ := score_spec (D := D) ix node.vector (ns ++ [newIdx])
      fun n hn => ⟨layer, hon n hn⟩
    obtain ⟨kept, hperm, hpre⟩ := prune_sublist scored ix.config.m
    rw [hmap] at hperm
    obtain ⟨ix', hrun, hset⟩ := setNeighbors_spec hns (((sortByDist scored).take ix.config.m).map Prod.snd)
    refine ⟨ix', _, by simp only [hscored, Option.bind_some, hrun], hset, h.relink hset ⟨?_, ?_, ?_, ?_⟩⟩
    · exact fun j hj => hon j (hperm.mem_iff.mp (hpre.subset hj))
    · exact fun hin => hself (hperm.mem_iff.mp (hpre.subset hin))
    · exact (hperm.nodup_iff.mpr hnodup).sublist hpre.sublist
    · rw [List.length_map, List.length_take]
      omega
  · rw [if_neg hfull]
    obtain ⟨ix', hrun, hset⟩ := setNeighbors_spec hns (ns ++ [newIdx])
    exact ⟨ix', _, hrun, hset, h.relink hset ⟨hon, hself, hnodup, by omega⟩⟩

theorem linkBacks_spec {ix : HnswIndex F} (h : ix.Linked) {newIdx layer : Nat} (todo : List Nat)
    (hnodup : todo.Nodup) (hnew : ix.OnLayer layer newIdx) (hne : newIdx ∉ todo)
    (hon : ∀ i ∈ todo, ix.OnLayer layer i)
    (hfresh : ∀ i ∈ todo, ∀ ns, ix.neighborsOf i layer = some ns → newIdx ∉ ns) :
    ∃ ix', todo.foldlM (linkBack D newIdx layer) ix = some ix' ∧ ix'.Linked ∧ SameShape ix ix' ∧
      ∀ j l, l ≠ layer → ix'.neighborsOf j l = ix.neighborsOf j l := by
  induction todo generalizing ix with
  | nil => exact ⟨ix, rfl, h, .refl ix, fun _ _ _ => rfl⟩
  | cons i todo ih =>
    obtain ⟨hi, hnodup⟩ := List.nodup_cons.mp hnodup
    rw [List.mem_cons, not_or] at hne
    obtain ⟨ns, hns⟩ := h.onLayer_iff.mp (hon i List.mem_cons_self)
    obtain ⟨ix₁, ns', hrun, hset, hlinked⟩ := linkBack_spec (D := D) h hnew hne.1 hns
      (hfresh i List.mem_cons_self ns hns)
    have hrest : ∀ j ∈ todo, ∀ ms, ix₁.neighborsOf j layer = some ms → newIdx ∉ ms := by
      intro j hj ms hms
      have hji : j ≠ i := fun hji => hi (hji ▸ hj)
      rw [hset.lists, if_neg (fun hc => hji hc.1)] at hms
      exact hfresh j (List.mem_cons_of_mem i hj) ms hms
    obtain ⟨ix', hrun', hlinked', hsame, hlists⟩ := ih hlinked hnodup (hset.onLayer.mpr hnew) hne.2
      (fun j hj => hset.onLayer.mpr (hon j (List.mem_cons_of_mem i hj))) hrest
    refine ⟨ix', by simp [List.foldlM_cons, hrun, hrun'], hlinked', hset.toSameShape.trans hsame, ?_⟩
    intro j l hl
    rw [hlists j l hl, hset.lists, if_neg fun hc => hl hc.2]

/-- The new node is in no list of the layers up to `layer`. -/
def Fresh (ix : HnswIndex F) (newIdx layer : Nat) : Prop :=
  ∀ j l ns, l ≤ layer → ix.neighborsOf j l = some ns → newIdx ∉ ns

/-- The nodes of a layer other than the new one, which nothing links to yet. -/
def Others (ix : HnswIndex F) (newIdx layer i : Nat) : Prop := ix.OnLayer layer i ∧ i ≠ newIdx

theorem Fresh.closed {ix : HnswIndex F} {newIdx top layer : Nat} (hfresh : ix.Fresh newIdx top)
    (h : ix.Linked) (hle : layer ≤ top) : ix.Closed layer (ix.Others newIdx layer) := by
  rintro i ⟨hi, -⟩
  obtain ⟨ns, hns, hon⟩ := h.closed layer i hi
  exact ⟨ns, hns, fun j hj => ⟨hon j hj, fun hjn => hfresh i layer ns hle hns (hjn ▸ hj)⟩⟩

theorem connect_spec {ix : HnswIndex F} (h : ix.Linked) {newIdx layer : Nat} (found : List (D × Nat))
    (hnodup : (found.map Prod.snd).Nodup) (hnew : ix.OnLayer layer newIdx)
    (hfresh : ix.Fresh newIdx layer)
    (hfound : ∀ r ∈ found, ix.Others newIdx layer r.2) :
    ∃ ix', ix.connect newIdx found layer = some ix' ∧ ix'.Linked ∧ SameShape ix ix' ∧
      ∀ j l, l ≠ layer → ix'.neighborsOf j l = ix.neighborsOf j l := by
  have hpre : (found.take ix.config.m).map Prod.snd <+: found.map Prod.snd := (List.take_prefix _ _).map _
  have hmem : ∀ j ∈ (found.take ix.config.m).map Prod.snd, ix.Others newIdx layer j := by
    intro j hj
    obtain ⟨r, hr, rfl⟩ := List.mem_map.mp (hpre.subset hj)
    exact hfound r hr
  obtain ⟨old, hold⟩ := h.onLayer_iff.mp hnew
  obtain ⟨ix₁, hrun, hset⟩ := setNeighbors_spec hold ((found.take ix.config.m).map Prod.snd)
  have hlinked : ix₁.Linked := by
    refine h.relink hset ⟨fun j hj => (hmem j hj).1, fun hin => (hmem newIdx hin).2 rfl,
      hnodup.sublist hpre.sublist, ?_⟩
    rw [List.length_map, List.length_take]
    omega
  have hrest : ∀ i ∈ (found.take ix.config.m).map Prod.snd, ∀ ns, ix₁.neighborsOf i layer = some ns →
      newIdx ∉ ns := by
    intro i hi ns hns
    rw [hset.lists, if_neg fun hc => (hmem i hi).2 hc.1] at hns
    exact hfresh i layer ns le_rfl hns
  obtain ⟨ix', hrun', hlinked', hsame, hlists⟩ := linkBacks_spec (D := D) hlinked _
    (hnodup.sublist hpre.sublist) (hset.onLayer.mpr hnew) (fun hin => (hmem newIdx hin).2 rfl)
    (fun j hj => hset.onLayer.mpr (hmem j hj).1) hrest
  refine ⟨ix', by simp only [connect, Option.bind_eq_bind, hrun, Option.bind_some, hrun'], hlinked',
    hset.toSameShape.trans hsame, ?_⟩
  intro j l hl
  rw [hlists j l hl, hset.lists, if_neg fun hc => hl hc.2]

variable [BeamHeaps D]

/-- The last round, on layer 0: the nodes found there, and the index before they are linked, which has
the lists of layer 0 as they were at first. -/
structure LastRound (ix ix' : HnswIndex F) (newIdx : Nat) (ix₀ : HnswIndex F) (found : List (D × Nat)) :
    Prop where
  linked : ix₀.Linked
  sameShape : SameShape ix ix₀
  lists : ∀ j, ix₀.neighborsOf j 0 = ix.neighborsOf j 0
  nonempty : found ≠ []
  nodup : (found.map Prod.snd).Nodup
  others : ∀ r ∈ found, ix₀.Others newIdx 0 r.2
  connect : ix₀.connect newIdx found 0 = some ix'

theorem connectLayers_spec {ix : HnswIndex F} (h : ix.Linked) (query : List F) {newIdx layer current : Nat}
    (hnew : ix.OnLayer layer newIdx) (hfresh : ix.Fresh newIdx layer) (hcur : ix.Others newIdx layer current) :
    ∃ ix', connectLayers D newIdx query layer ix current = some ix' ∧ ix'.Linked ∧ SameShape ix ix' ∧
      ∃ ix₀, ∃ found : List (D × Nat), LastRound ix ix' newIdx ix₀ found := by
  induction layer generalizing ix current with
  | zero =>
    obtain ⟨found, hrun, hnonempty, hnodup, hfound⟩ := searchLayer_spec (D := D) (hfresh.closed h le_rfl) query
      current ix.config.efConstruction hcur
    obtain ⟨ix', hrun', hlinked, hsame, -⟩ := connect_spec h found hnodup hnew hfresh hfound
    refine ⟨ix', ?_, hlinked, hsame, ix, found, h, .refl ix, fun _ => rfl, hnonempty, hnodup, hfound, hrun'⟩
    rw [connectLayers]
    simp only [Option.bind_eq_bind, hrun, Option.bind_some, hrun']
    rfl
  | succ layer ih =>
    obtain ⟨found, hrun, hnonempty, hnodup, hfound⟩ := searchLayer_spec (D := D) (hfresh.closed h le_rfl) query
      current ix.config.efConstruction hcur
    obtain ⟨ix₁, hrun₁, hlinked, hsame, hlists⟩ := connect_spec h found hnodup hnew hfresh hfound
    obtain ⟨r, rest, rfl⟩ := List.exists_cons_of_ne_nil hnonempty
    obtain ⟨hr, hrne⟩ := hfound r List.mem_cons_self
    have hfresh₁ : ix₁.Fresh newIdx layer := by
      intro j l ns hl hns
      rw [hlists j l (by omega)] at hns
      exact hfresh j l ns (by omega) hns
    obtain ⟨ix', hrun', hlinked', hsame', ix₀, last, hlast⟩ := ih hlinked
      (hsame.onLayer.mpr (hnew.mono (by omega))) hfresh₁ ⟨hsame.onLayer.mpr (hr.mono (by omega)), hrne⟩
    refine ⟨ix', ?_, hlinked', hsame.trans hsame', ix₀, last, { hlast with
      sameShape := hsame.trans hlast.sameShape
      lists := fun j => (hlast.lists j).trans (hlists j 0 (by omega)) }⟩
    rw [connectLayers]
    simp only [Option.bind_eq_bind, hrun, Option.bind_some, hrun₁]
    exact hrun'

end Links

/-! ## Insertion and removal -/

section Ops

variable {F D : Type}

theorem getElem?_pushNode (ix : HnswIndex F) (id : String) (vector : List F) (level i : Nat) :
    (ix.pushNode id vector level).nodes[i]? =
      if i = ix.nodes.length then some ⟨id, vector, level, List.replicate (level + 1) [], false⟩
      else ix.nodes[i]? := by
  rw [pushNode, List.getElem?_append]
  by_cases hi : i < ix.nodes.length
  · rw [if_pos hi, if_neg (by omega)]
  · by_cases heq : i = ix.nodes.length
    · simp [heq]
    · rw [if_neg hi, if_neg heq, List.getElem?_eq_none (by rw [List.length_singleton]; omega),
        List.getElem?_eq_none (by omega)]

theorem levelOf_pushNode (ix : HnswIndex F) (id : String) (vector : List F) (level i : Nat) :
    (ix.pushNode id vector level).levelOf i = if i = ix.nodes.length then some level else ix.levelOf i := by
  rw [levelOf, getElem?_pushNode]
  split <;> rfl

theorem neighborsOf_pushNode {ix : HnswIndex F} {id : String} {vector : List F} {level i layer : Nat}
    {ns : List Nat} (h : (ix.pushNode id vector level).neighborsOf i layer = some ns) :
    i = ix.nodes.length ∧ ns = [] ∨ ix.neighborsOf i layer = some ns := by
  rw [neighborsOf, getElem?_pushNode] at h
  split at h
  · rename_i hi
    rw [Option.bind_some, List.getElem?_replicate] at h
    split at h
    · exact .inl ⟨hi, (Option.some.inj h).symm⟩
    · cases h
  · exact .inr h

theorem Linked.pushNode {ix : HnswIndex F} (h : ix.Linked) (id : String) (vector : List F) (level : Nat) :
    (ix.pushNode id vector level).Linked where
  layers {i node} hnode := by
    rw [getElem?_pushNode] at hnode
    split at hnode
    · cases hnode
      exact List.length_replicate
    · exact h.layers hnode
  lists {i layer ns} hns := by
    rcases neighborsOf_pushNode hns with ⟨-, rfl⟩ | hold
    · exact ⟨fun _ hj => absurd hj List.not_mem_nil, List.not_mem_nil, List.nodup_nil, Nat.zero_le _⟩
    · have hok := h.lists hold
      refine ⟨fun j hj => ?_, hok.notSelf, hok.nodup, hok.length_le⟩
      obtain ⟨k, hk, hle⟩ := hok.onLayer j hj
      refine ⟨k, ?_, hle⟩
      rw [levelOf_pushNode, if_neg (hok.onLayer j hj).lt.ne, hk]

theorem Linked.fresh_pushNode {ix : HnswIndex F} (h : ix.Linked) (id : String) (vector : List F)
    (level layer : Nat) : (ix.pushNode id vector level).Fresh ix.nodes.length layer := by
  intro j l ns _ hns hin
  rcases neighborsOf_pushNode hns with ⟨-, rfl⟩ | hold
  · exact List.not_mem_nil hin
  · exact absurd ((h.lists hold).onLayer _ hin).lt (lt_irrefl _)

theorem Linked.setEntry {ix : HnswIndex F} (h : ix.Linked) (entryPoint : Option Nat) (maxLevel : Nat) :
    Linked { ix with entryPoint, maxLevel } where
  layers := h.layers
  lists hns := ⟨(h.lists hns).onLayer, (h.lists hns).notSelf, (h.lists hns).nodup, (h.lists hns).length_le⟩

theorem Inv.new (dim : Nat) (metric : DistanceMetric) (config : HnswConfig) :
    (HnswIndex.new dim metric config : HnswIndex F).Inv where
  layers hnode := by cases hnode
  lists hns := by cases hns
  entry hne := absurd rfl hne
  empty _ := rfl
  level_le hlevel := by cases hlevel
  lookup hid := by simp [HnswIndex.new] at hid

theorem randomLevel_spec {config : HnswConfig} (h : 1 ≤ config.maxLayers) (draw : Nat) :
    ∃ level, randomLevel config draw = some level ∧ level < config.maxLayers := by
  refine ⟨min draw (config.maxLayers - 1), ?_, by omega⟩
  rw [randomLevel, if_neg (by omega)]

theorem lookup_insert {ix : HnswIndex F} (h : ix.Inv) {id : String} {vector : List F} {level : Nat}
    {k : String} {i : Nat} (hk : (ix.pushNode id vector level).nodeLookup[k]? = some i) :
    ∃ node, (ix.pushNode id vector level).nodes[i]? = some node ∧ node.id = k ∧ node.deleted = false := by
  change (ix.nodeLookup.insert id ix.nodes.length)[k]? = some i at hk
  rw [Std.ExtTreeMap.getElem?_insert] at hk
  split at hk
  · rename_i hid
    cases hk
    rw [getElem?_pushNode, if_pos rfl]
    exact ⟨_, rfl, Std.LawfulEqCmp.eq_of_compare hid, rfl⟩
  · obtain ⟨node, hnode, hrest⟩ := h.lookup hk
    refine ⟨node, ?_, hrest⟩
    rw [getElem?_pushNode, if_neg (List.getElem?_eq_some_iff.mp hnode).1.ne, hnode]

theorem SameShape.lookup {ix ix' : HnswIndex F} (h : SameShape ix ix') {id : String} {i : Nat}
    (hix : ∃ node, ix.nodes[i]? = some node ∧ node.id = id ∧ node.deleted = false) :
    ∃ node, ix'.nodes[i]? = some node ∧ node.id = id ∧ node.deleted = false := by
  obtain ⟨node, hnode, hid, hdel⟩ := hix
  have hmap := h.getElem? i
  rw [hnode] at hmap
  obtain ⟨node', hnode', hshape⟩ := Option.map_eq_some_iff.mp hmap
  refine ⟨node', hnode', ?_, ?_⟩
  · rw [← hid]
    exact congrArg (·.id) hshape
  · rw [← hdel]
    exact congrArg (·.deleted) hshape

theorem Inv.level_le_pushNode {ix : HnswIndex F} (h : ix.Inv) {id : String} {vector : List F}
    {level i k : Nat} (hk : (ix.pushNode id vector level).levelOf i = some k) : k ≤ max level ix.maxLevel := by
  rw [levelOf_pushNode] at hk
  split at hk
  · cases hk
    exact le_max_left _ _
  · exact (h.level_le hk).trans (le_max_right _ _)

/-- `ix'` has the nodes of `ix`, one of them marked deleted. -/
structure Marked (ix ix' : HnswIndex F) (idx : Nat) (node : HnswNode F) : Prop where
  old : ix.nodes[idx]? = some node
  nodes : ∀ i, ix'.nodes[i]? = if i = idx then some { node with deleted := true } else ix.nodes[i]?
  config : ix'.config = ix.config

theorem marked_set {ix : HnswIndex F} {idx : Nat} {node : HnswNode F} (hnode : ix.nodes[idx]? = some node)
    (nodeLookup : Std.ExtTreeMap String Nat cmpString) :
    Marked ix { ix with nodes := ix.nodes.set idx { node with deleted := true }, nodeLookup } idx node := by
  refine ⟨hnode, fun i => ?_, rfl⟩
  rw [List.getElem?_set]
  by_cases hi : i = idx
  · rw [if_pos hi.symm, if_pos (List.getElem?_eq_some_iff.mp hnode).1, if_pos hi]
  · rw [if_neg (Ne.symm hi), if_neg hi]

theorem Marked.levelOf {ix ix' : HnswIndex F} {idx : Nat} {node : HnswNode F} (h : Marked ix ix' idx node)
    (i : Nat) : ix'.levelOf i = ix.levelOf i := by
  rw [HnswIndex.levelOf, HnswIndex.levelOf, h.nodes]
  split
  · rename_i hi
    rw [hi, h.old]
    rfl
  · rfl

theorem Marked.neighborsOf {ix ix' : HnswIndex F} {idx : Nat} {node : HnswNode F}
    (h : Marked ix ix' idx node) (i layer : Nat) : ix'.neighborsOf i layer = ix.neighborsOf i layer := by
  rw [HnswIndex.neighborsOf, HnswIndex.neighborsOf, h.nodes]
  split
  · rename_i hi
    rw [hi, h.old]
    rfl
  · rfl

theorem Linked.marked {ix ix' : HnswIndex F} (hix : ix.Linked) {idx : Nat} {node : HnswNode F}
    (h : Marked ix ix' idx node) : ix'.Linked where
  layers {i other} hother := by
    rw [h.nodes] at hother
    split at hother
    · cases hother
      have hlen := hix.layers h.old
      exact hlen
    · exact hix.layers hother
  lists {i layer ns} hns := by
    rw [h.neighborsOf] at hns
    have hok := hix.lists hns
    refine ⟨fun j hj => ?_, hok.notSelf, hok.nodup, h.config ▸ hok.length_le⟩
    rw [OnLayer, h.levelOf]
    exact hok.onLayer j hj

theorem Inv.remove {ix : HnswIndex F} (h : ix.Inv) (id : String) :
    ∃ existed ix', ix.remove id = some (existed, ix') ∧ ix'.Inv ∧ ix'.config = ix.config := by
  cases hid : ix.nodeLookup[id]? with
  | none => exact ⟨false, ix, by simp [HnswIndex.remove, hid], h, rfl⟩
  | some idx =>
    obtain ⟨node, hnode, rfl, hlive⟩ := h.lookup hid
    obtain ⟨hlt, -⟩ := List.getElem?_eq_some_iff.mp hnode
    refine ⟨true, { ix with
      nodes := ix.nodes.set idx { node with deleted := true }
      nodeLookup := ix.nodeLookup.erase node.id }, by simp [HnswIndex.remove, hid, hnode, hlive], ?_, rfl⟩
    have hmark := marked_set hnode (ix.nodeLookup.erase node.id)
    have hne : ix.nodes ≠ [] := List.ne_nil_of_length_pos (by omega)
    refine ⟨h.toLinked.marked hmark, fun _ => ?_, fun hnil => ?_, fun hlevel => ?_, fun {k i} hk => ?_⟩
    · obtain ⟨ep, hep, hlevel⟩ := h.entry hne
      exact ⟨ep, hep, (hmark.levelOf ep).trans hlevel⟩
    · exact absurd (by simpa using hnil) hne
    · rw [hmark.levelOf] at hlevel
      exact h.level_le hlevel
    · change (ix.nodeLookup.erase node.id)[k]? = some i at hk
      rw [Std.ExtTreeMap.getElem?_erase] at hk
      split at hk
      · cases hk
      · rename_i hki
        obtain ⟨other, hother, rfl, hdel⟩ := h.lookup hk
        refine ⟨other, ?_, rfl, hdel⟩
        rw [hmark.nodes, if_neg ?_, hother]
        rintro rfl
        rw [hnode] at hother
        cases hother
        exact hki (Std.ReflCmp.compare_self)

variable [LinearOrder D] [Distance F D] [BeamHeaps D]

/-- The insertion into an index that has nodes already. -/
theorem Inv.insert_linked {ix : HnswIndex F} (h : ix.Inv) {ep : Nat} (hep : ix.OnLayer ix.maxLevel ep)
    (id : String) (vector : List F) (level : Nat) :
    ∃ current ix', descend D (ix.pushNode id vector level) vector (level + 1) ix.maxLevel ep = some current ∧
      connectLayers D ix.nodes.length vector (min level ix.maxLevel) (ix.pushNode id vector level) current =
        some ix' ∧ ix'.Linked ∧ SameShape (ix.pushNode id vector level) ix' ∧
      ∃ ix₀, ∃ found : List (D × Nat), LastRound (ix.pushNode id vector level) ix' ix.nodes.length ix₀ found := by
  have hlinked := h.toLinked.pushNode id vector level
  have hfresh := h.toLinked.fresh_pushNode id vector level
  have hepOn : (ix.pushNode id vector level).Others ix.nodes.length ix.maxLevel ep := by
    have hne := hep.lt.ne
    obtain ⟨k, hk, hle⟩ := hep
    refine ⟨⟨k, ?_, hle⟩, hne⟩
    rw [levelOf_pushNode, if_neg hne, hk]
  have hnew : (ix.pushNode id vector level).OnLayer level ix.nodes.length :=
    ⟨level, by rw [levelOf_pushNode, if_pos rfl], le_rfl⟩
  obtain ⟨current, hrun, hcur⟩ := descend_spec (D := D) (fun layer => (hfresh layer).closed hlinked le_rfl)
    (fun hP hle => ⟨hP.1.mono hle, hP.2⟩) vector (level + 1) ix.maxLevel ep hepOn
  rw [Nat.add_sub_cancel] at hcur
  obtain ⟨ix', hrun', hlinked', hsame, hlast⟩ := connectLayers_spec (D := D) hlinked vector
    (hnew.mono (min_le_left _ _)) (hfresh _) hcur
  exact ⟨current, ix', hrun, hrun', hlinked', hsame, hlast⟩

theorem Inv.insert {ix : HnswIndex F} (h : ix.Inv) (hm : 1 ≤ ix.config.maxLayers) (id : String)
    (vector : List F) (draw : Nat) :
    ∃ ix', insert D ix id vector draw = some ix' ∧ ix'.Inv ∧ ix'.config = ix.config := by
  obtain ⟨level, hlevel, -⟩ := randomLevel_spec hm draw
  have hnewLevel : (ix.pushNode id vector level).levelOf ix.nodes.length = some level := by
    rw [levelOf_pushNode, if_pos rfl]
  simp only [HnswIndex.insert, hlevel, Option.bind_eq_bind, Option.bind_some]
  cases hep : (ix.pushNode id vector level).entryPoint with
  | none =>
    have hnil : ix.nodes = [] := by
      by_contra hne
      obtain ⟨ep, hsome, -⟩ := h.entry hne
      cases hsome.symm.trans hep
    refine ⟨_, rfl, ?_, rfl⟩
    refine ⟨(h.toLinked.pushNode id vector level).setEntry _ _, fun _ => ⟨_, rfl, hnewLevel⟩,
      fun hempty => ?_, ?_, lookup_insert h⟩
    · exact absurd hempty (by simp [pushNode])
    · intro i k hk
      have hk' : (ix.pushNode id vector level).levelOf i = some k := hk
      rw [levelOf_pushNode, levelOf, hnil] at hk'
      split at hk'
      · exact (Option.some.inj hk').ge
      · cases hk'
  | some ep =>
    have hne : ix.nodes ≠ [] := fun hnil => by cases (h.empty hnil).symm.trans hep
    obtain ⟨ep', hep', hepLevel⟩ := h.entry hne
    cases hep'.symm.trans hep
    have hepOn : ix.OnLayer ix.maxLevel ep := ⟨_, hepLevel, le_rfl⟩
    obtain ⟨current, ix', hrun, hrun', hlinked, hsame, -⟩ := h.insert_linked (D := D) hepOn id vector level
    have hmax : ix'.maxLevel = ix.maxLevel := by rw [hsame.rest]; rfl
    have hlookup : ∀ {k : String} {i : Nat}, ix'.nodeLookup[k]? = some i →
        ∃ node, ix'.nodes[i]? = some node ∧ node.id = k ∧ node.deleted = false := by
      intro k i hk
      rw [hsame.rest] at hk
      exact hsame.lookup (lookup_insert h hk)
    have hle : ∀ {i k : Nat}, ix'.levelOf i = some k → k ≤ max level ix.maxLevel := by
      intro i k hk
      rw [hsame.levelOf] at hk
      exact h.level_le_pushNode hk
    have hnonempty : ix'.nodes ≠ [] := by
      intro hnil
      have hlen := congrArg List.length hsame.nodes
      simp [hnil, pushNode] at hlen
    refine ⟨_, by
      simp only [show (ix.pushNode id vector level).maxLevel = ix.maxLevel from rfl, hrun, Option.bind_some,
        hrun']; rfl, ?_⟩
    rw [hmax]
    by_cases hgt : ix.maxLevel < level
    · rw [if_pos hgt]
      refine ⟨⟨hlinked.setEntry _ _, fun _ => ⟨_, rfl, ?_⟩, fun hnil => absurd hnil hnonempty, ?_, hlookup⟩,
        hsame.config⟩
      · exact (hsame.levelOf _).trans hnewLevel
      · intro i k hk
        exact (hle hk).trans (by simp [hgt.le])
    · rw [if_neg hgt]
      refine ⟨⟨hlinked, fun _ => ⟨ep, ?_, ?_⟩, fun hnil => absurd hnil hnonempty, ?_, hlookup⟩, hsame.config⟩
      · rw [hsame.rest]
        exact hep
      · rw [hsame.levelOf, levelOf_pushNode, if_neg hepOn.lt.ne, hepLevel, hmax]
      · intro i k hk
        rw [hmax]
        exact (hle hk).trans (by omega)

/-! ## Every sequence of operations -/

inductive Op (F : Type) where
  | insert (id : String) (vector : List F) (draw : Nat)
  | remove (id : String)

def exec (D : Type) [LinearOrder D] [Distance F D] [BeamHeaps D] (ix : HnswIndex F) :
    Op F → Option (HnswIndex F)
  | .insert id vector draw => insert D ix id vector draw
  | .remove id => (ix.remove id).map Prod.snd

theorem Inv.exec {ix : HnswIndex F} (h : ix.Inv) (hm : 1 ≤ ix.config.maxLayers) (op : Op F) :
    ∃ ix', exec D ix op = some ix' ∧ ix'.Inv ∧ ix'.config = ix.config := by
  cases op with
  | insert id vector draw => exact h.insert hm id vector draw
  | remove id =>
    obtain ⟨existed, ix', hrun, hinv, hconfig⟩ := h.remove id
    exact ⟨ix', by simp [HnswIndex.exec, hrun], hinv, hconfig⟩

theorem Inv.execAll {ix : HnswIndex F} (h : ix.Inv) (hm : 1 ≤ ix.config.maxLayers) (ops : List (Op F)) :
    ∃ ix', ops.foldlM (HnswIndex.exec D) ix = some ix' ∧ ix'.Inv := by
  induction ops generalizing ix with
  | nil => exact ⟨ix, rfl, h⟩
  | cons op ops ih =>
    obtain ⟨ix₁, hrun, hinv, hconfig⟩ := h.exec (D := D) hm op
    obtain ⟨ix', hrun', hinv'⟩ := ih hinv (hconfig ▸ hm)
    exact ⟨ix', by simp [List.foldlM_cons, hrun, hrun'], hinv'⟩

omit [LinearOrder D] [Distance F D] [BeamHeaps D] in
theorem liveHits_spec {ix : HnswIndex F} (k : Nat) (found : List (D × Nat))
    (h : ∀ r ∈ found, ix.OnLayer 0 r.2) : ∃ hits, liveHits ix k found = some hits := by
  induction found generalizing k with
  | nil => cases k <;> exact ⟨[], rfl⟩
  | cons r found ih =>
    cases k with
    | zero => exact ⟨[], rfl⟩
    | succ k =>
      have hrest : ∀ r ∈ found, ix.OnLayer 0 r.2 := fun x hx => h x (List.mem_cons_of_mem r hx)
      obtain ⟨node, hnode⟩ := (h r List.mem_cons_self).node
      simp only [liveHits, hnode, Option.bind_eq_bind, Option.bind_some]
      split
      · exact ih (k + 1) hrest
      · obtain ⟨hits, hhits⟩ := ih k hrest
        exact ⟨⟨node.id, r.1⟩ :: hits, by rw [hhits]; rfl⟩

theorem Inv.searchEf {ix : HnswIndex F} (h : ix.Inv) (query : List F) (k ef : Nat) :
    ∃ hits : List (VectorHit D), ix.searchEf query k ef = some hits := by
  rw [HnswIndex.searchEf]
  cases hep : ix.entryPoint with
  | none => exact ⟨[], rfl⟩
  | some ep =>
    have hne : ix.nodes ≠ [] := fun hnil => by cases (h.empty hnil).symm.trans hep
    obtain ⟨ep', hep', hlevel⟩ := h.entry hne
    cases hep'.symm.trans hep
    obtain ⟨current, hrun, hcur⟩ := descend_spec (D := D) h.toLinked.closed OnLayer.mono query 1 ix.maxLevel ep
      ⟨_, hlevel, le_rfl⟩
    obtain ⟨found, hrun', -, -, hfound⟩ := searchLayer_spec (D := D) (h.toLinked.closed 0) query current
      (max ef k) (hcur.mono (Nat.zero_le _))
    obtain ⟨hits, hhits⟩ := liveHits_spec k found hfound
    exact ⟨hits, by simp [hrun, hrun', hhits]⟩

/-- After any insertions and removals, with any levels below `maxLayers`, the index is well formed;
every call so far and every search from here indexes in range and ends. -/
theorem representation_invariant (dim : Nat) (metric : DistanceMetric) (config : HnswConfig)
    (hm : 1 ≤ config.maxLayers) (ops : List (Op F)) :
    ∃ ix, ops.foldlM (exec D) (new dim metric config) = some ix ∧ ix.Inv ∧
      ∀ query : List F,
        (∀ layer start, ix.OnLayer layer start →
          (∃ r, greedyClosest D ix query start layer = some r ∧ ix.OnLayer layer r) ∧
          ∀ ef, ∃ found : List (D × Nat), ix.searchLayer query start ef layer = some found) ∧
        ∀ k ef, ∃ hits : List (VectorHit D), ix.searchEf query k ef = some hits := by
  obtain ⟨ix, hrun, hinv⟩ := (Inv.new dim metric config).execAll (D := D) hm ops
  refine ⟨ix, hrun, hinv, fun query => ⟨fun layer start hstart => ⟨?_, fun ef => ?_⟩, hinv.searchEf query⟩⟩
  · exact greedyClosest_spec (hinv.toLinked.closed layer) query start hstart
  · obtain ⟨found, hfound, -⟩ := searchLayer_spec (D := D) (hinv.toLinked.closed layer) query start ef hstart
    exact ⟨found, hfound⟩

end Ops

/-! ## A run with whole numbers -/

namespace Whole

/-- The dot product kernel, exact on whole numbers; the run below has no other metric. -/
scoped instance dotProduct : Distance Int Int where
  distance a b _ := -(List.zipWith (· * ·) a b).sum

scoped instance listHeaps : BeamHeaps Int where
  nearest :=
    have : Std.Refl fun a b : Int × Nat => b.1 ≤ a.1 := ⟨fun a => le_refl a.1⟩
    have : IsTrans (Int × Nat) fun a b => b.1 ≤ a.1 := ⟨fun _ _ _ hab hbc => le_trans hbc hab⟩
    have : Std.Total fun a b : Int × Nat => b.1 ≤ a.1 := ⟨fun a b => le_total b.1 a.1⟩
    ListHeap.heap _
  farthest :=
    have : Std.Refl fun a b : Int × Nat => a.1 ≤ b.1 := ⟨fun a => le_refl a.1⟩
    have : IsTrans (Int × Nat) fun a b => a.1 ≤ b.1 := ⟨fun _ _ _ => le_trans⟩
    have : Std.Total fun a b : Int × Nat => a.1 ≤ b.1 := ⟨fun a b => le_total a.1 b.1⟩
    ListHeap.heap _

def config : HnswConfig := { m := 1, efConstruction := 2, maxLayers := 2 }

/-- The list of the first node overflows and is pruned, and the last insertion raises the top. -/
def ops : List (Op Int) :=
  [.insert "a" [3, 1] 0, .insert "b" [1, 2] 0, .insert "c" [2, 2] 0, .insert "d" [5, 0] 0, .remove "b",
    .insert "a" [0, 4] 7]

end Whole

open Whole in
theorem representation_invariant_whole :
    1 ≤ Whole.config.maxLayers ∧ ∃ ix, ops.foldlM (exec Int) (new 2 .dotProduct Whole.config) = some ix ∧ ix.Inv := by
  obtain ⟨ix, hrun, hinv, -⟩ := representation_invariant (D := Int) 2 .dotProduct Whole.config (by decide) ops
  exact ⟨by decide, ix, hrun, hinv⟩

end Dllb.HnswIndex
