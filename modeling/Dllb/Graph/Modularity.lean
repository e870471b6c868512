import Mathlib
import Dllb.Lib.Modularity
import Dllb.Graph.Exact

/-! # Louvain ascends modularity

The edges as a network: the totals that a run keeps are the volumes of its
communities, and the gain that a move is made for is what modularity grows by.
-/

namespace Dllb

set_option autoImplicit false

namespace Community

open Components (Groups sortMembers endpoints)
open Modularity (Network)

/-- The weight of all the edges between two nodes. -/
def weightBetween (edges : List (Edge ℚ)) (u v : String) : ℚ :=
  (edges.map fun e => if e.1 ≠ e.2.1 ∧ s(e.1, e.2.1) = s(u, v) then e.2.2 else 0).sum

def network (edges : List (Edge ℚ)) : Network String ℚ where
  nodes := (endpoints (ends edges)).toFinset
  weight := weightBetween edges
  symm u v := by rw [weightBetween, weightBetween, Sym2.eq_swap]
  loopless v := by
    refine List.sum_eq_zero fun x hx => ?_
    obtain ⟨e, -, rfl⟩ := List.mem_map.mp hx
    refine if_neg fun ⟨hne, heq⟩ => hne ?_
    rw [Sym2.eq_iff] at heq
    obtain ⟨rfl, h⟩ | ⟨rfl, h⟩ := heq
    · exact h.symm
    · exact h.symm

/-- The community of each node, as a part. -/
def partOf (labels : StringMap String) (v : String) : Option String := labels[v]?

def modularity (edges : List (Edge ℚ)) (resolution : ℚ) (labels : StringMap String) : ℚ :=
  (network edges).modularity (partOf labels) resolution

/-- `sigma_tot` holds the degrees of the nodes in each community. -/
def SigmaExact (edges : List (Edge ℚ)) (st : LouvainState ℚ) : Prop :=
  ∀ comm : String, st.sigmaTot[comm]?.getD 0 =
    ∑ v ∈ (endpoints (ends edges)).toFinset, if st.nodeToComm[v]? = some comm then (degrees edges)[v]?.getD 0 else 0

/-! ## The edges as a network -/

section Network

variable {edges : List (Edge ℚ)}

theorem mem_nodes {v : String} : v ∈ (network edges).nodes ↔ v ∈ endpoints (ends edges) := List.mem_toFinset

/-- One edge, seen from one of its ends. -/
theorem sum_edge {nodes : Finset String} {a b : String} (ha : a ∈ nodes) (hb : b ∈ nodes) (hne : a ≠ b)
    (p : String → Prop) [DecidablePred p] (v : String) (w : ℚ) :
    (∑ u ∈ nodes, if p u then (if a ≠ b ∧ s(a, b) = s(v, u) then w else 0) else 0) =
      (if a = v then if p b then w else 0 else 0) + if b = v then if p a then w else 0 else 0 := by
  have hsplit : ∀ u, (if p u then (if a ≠ b ∧ s(a, b) = s(v, u) then w else 0) else 0) =
      (if b = u then if a = v then if p b then w else 0 else 0 else 0) +
        if a = u then if b = v then if p a then w else 0 else 0 else 0 := by
    intro u
    simp only [Sym2.eq_iff, hne, ne_eq, not_false_eq_true, true_and]
    by_cases hav : a = v
    · subst hav
      by_cases hbu : b = u
      · subst hbu
        simp [hne]
      · simp [hbu, Ne.symm hne]
    · by_cases hau : a = u
      · subst hau
        by_cases hbv : b = v
        · simp [hav, hbv]
        · simp [hav, hbv, Ne.symm hne]
      · by_cases hbv : b = v
        · simp [hav, hau, hbv]
        · simp [hav, hau, hbv]
  simp only [hsplit, Finset.sum_add_distrib, Finset.sum_ite_eq, ha, hb, if_true]

/-- What is summed over the ends of edges is summed over the nodes. -/
theorem sum_ends (p : String → Prop) [DecidablePred p] (v : String) :
    (edges.map fun e => if e.1 = e.2.1 then 0 else (if e.1 = v then if p e.2.1 then e.2.2 else 0 else 0) +
        if e.2.1 = v then if p e.1 then e.2.2 else 0 else 0).sum =
      ∑ u ∈ (network edges).nodes, if p u then weightBetween edges v u else 0 := by
  have hgo : ∀ rest : List (Edge ℚ), (∀ e ∈ rest, e.1 ∈ (network edges).nodes ∧ e.2.1 ∈ (network edges).nodes) →
      (rest.map fun e => if e.1 = e.2.1 then 0 else (if e.1 = v then if p e.2.1 then e.2.2 else 0 else 0) +
          if e.2.1 = v then if p e.1 then e.2.2 else 0 else 0).sum =
        ∑ u ∈ (network edges).nodes, if p u then weightBetween rest v u else 0 := by
    intro rest
    induction rest with
    | nil => simp [weightBetween]
    | cons e rest ih =>
      intro hends
      obtain ⟨⟨hsrc, hdst⟩, hends⟩ := List.forall_mem_cons.mp hends
      have hcons : ∀ u, (if p u then weightBetween (e :: rest) v u else 0) =
          (if p u then (if e.1 ≠ e.2.1 ∧ s(e.1, e.2.1) = s(v, u) then e.2.2 else 0) else 0) +
            if p u then weightBetween rest v u else 0 := by
        intro u
        split
        · rw [weightBetween, weightBetween, List.map_cons, List.sum_cons]
        · rw [add_zero]
      rw [List.map_cons, List.sum_cons, ih hends]
      simp only [hcons, Finset.sum_add_distrib]
      by_cases hloop : e.1 = e.2.1
      · simp [hloop]
      · rw [if_neg hloop, sum_edge hsrc hdst hloop]
  refine hgo edges fun e he => ?_
  rw [mem_nodes, mem_nodes]
  have hmem : (e.1, e.2.1) ∈ ends edges := List.mem_map_of_mem he
  exact ⟨mem_endpoints (.inr hmem), mem_endpoints (.inl hmem)⟩

theorem degree_network (v : String) : (network edges).degree v = (degrees edges)[v]?.getD 0 := by
  have hends := @sum_ends edges (fun _ => True) _ v
  simp only [if_true] at hends
  rw [getD_degrees, degreeOf, hends]
  rfl

theorem total_network : (network edges).total = 2 * edgeWeight edges := by
  rw [← sum_degreeOf _ fun v hv => mem_nodes.mpr hv]
  exact Finset.sum_congr rfl fun v _ => (degree_network v).trans (getD_degrees edges v)

theorem weightInto_network (labels : StringMap String) (node comm : String) :
    weightInto labels (neighborsOf edges node) comm = (network edges).into (partOf labels) node (some comm) := by
  rw [weightInto, neighborsOf, louvainGraph, adj_graphOf, Network.into]
  simp only [partOf]
  refine Eq.trans ?_ (sum_ends (fun u => labels[u]? = some comm) node)
  rw [List.map_flatMap, List.flatMap_def, List.sum_flatten, List.map_map]
  refine congrArg List.sum (List.map_congr_left fun e _ => ?_)
  simp only [Function.comp_apply, listed]
  split
  · rfl
  · rw [List.map_append, List.sum_append]
    congr 1
    · split <;> simp
    · split <;> simp

theorem volume_network (labels : StringMap String) (comm : String) :
    (network edges).volume (partOf labels) (some comm) =
      ∑ v ∈ (endpoints (ends edges)).toFinset, if labels[v]? = some comm then (degrees edges)[v]?.getD 0 else 0 := by
  simp only [← degree_network]
  rfl

theorem netGain_network {st : LouvainState ℚ} (h : SigmaExact edges st) {node currentComm : String}
    (hcurrent : st.nodeToComm[node]? = some currentComm) (resolution : ℚ) (comm : String) :
    netGain edges resolution node st currentComm comm =
      (network edges).gain (partOf st.nodeToComm) resolution node (some comm) := by
  have hpart : partOf st.nodeToComm node = some currentComm := hcurrent
  simp only [netGain, Network.gain, Network.share, hpart, weightInto_network, ← degree_network, ← total_network,
    volume_network, h comm, h currentComm]

theorem partOf_insert (labels : StringMap String) (node comm : String) :
    partOf (labels.insert node comm) = Function.update (partOf labels) node (some comm) := by
  funext v
  rw [partOf, getElem?_insert_string, Function.update_apply, partOf]
  simp only [eq_comm]

/-! ## A move -/

variable {st : LouvainState ℚ} {node currentComm targetComm : String}

/-- The totals stay exact. -/
theorem SigmaExact.move (h : SigmaExact edges st) (hnode : node ∈ endpoints (ends edges))
    (hcurrent : st.nodeToComm[node]? = some currentComm) :
    SigmaExact edges (st.move node currentComm targetComm ((degrees edges)[node]?.getD 0)) := by
  intro comm
  have hpart : partOf st.nodeToComm node = some currentComm := hcurrent
  have hvolume : (network edges).volume (Function.update (partOf st.nodeToComm) node (some targetComm)) (some comm) = _ :=
    Network.volume_update (mem_nodes.mpr hnode) (some targetComm) (some comm)
  rw [← partOf_insert, volume_network, volume_network, ← h comm, hpart, degree_network] at hvolume
  refine Eq.trans ?_ hvolume.symm
  simp only [LouvainState.move, Option.some.injEq]
  rw [getD_addTo, getElem?_insert_string]
  by_cases hcomm : currentComm = comm
  · simp [hcomm]
  · simp [hcomm]

theorem modularity_move (h : SigmaExact edges st) (hnode : node ∈ endpoints (ends edges))
    (hcurrent : st.nodeToComm[node]? = some currentComm) (hne : targetComm ≠ currentComm) (resolution : ℚ) :
    modularity edges resolution (st.move node currentComm targetComm ((degrees edges)[node]?.getD 0)).nodeToComm =
      modularity edges resolution st.nodeToComm +
        netGain edges resolution node st currentComm targetComm / edgeWeight edges := by
  have hpart : partOf st.nodeToComm node = some currentComm := hcurrent
  have hupdate : (network edges).modularity (Function.update (partOf st.nodeToComm) node (some targetComm)) resolution = _ :=
    Network.modularity_update resolution (mem_nodes.mpr hnode) (by simpa [hpart] using hne)
  rw [modularity, LouvainState.move, partOf_insert, hupdate, netGain_network h hcurrent, total_network,
    mul_div_mul_left _ _ two_ne_zero, modularity]

end Network

theorem sigmaExact_start (edges : List (Edge ℚ)) : SigmaExact edges (louvainStart edges) := by
  intro comm
  have hmem := mem_sorted (louvainGraph_of edges)
  have hlabel : ∀ v ∈ (endpoints (ends edges)).toFinset,
      (if (louvainStart edges).nodeToComm[v]? = some comm then (degrees edges)[v]?.getD 0 else 0) =
        if comm = v then (degrees edges)[v]?.getD 0 else 0 := by
    intro v hv
    simp only [louvainStart, getElem?_tabulate, if_pos ((hmem v).mpr (List.mem_toFinset.mp hv)), id_eq,
      Option.some.injEq, eq_comm]
  rw [Finset.sum_congr rfl hlabel, Finset.sum_ite_eq]
  simp only [louvainStart, getElem?_tabulate, hmem, List.mem_toFinset]
  split
  · rfl
  · rfl

/-! ## A run -/

/-- The visit moves its node to the best community, for the best gain. -/
def Executes (order : HashOrder) (edges : List (Edge ℚ)) (resolution : ℚ) (v : Rounds.Visit String (LouvainState ℚ))
    (bestGain : ℚ) : Prop :=
  let ki := (degrees edges)[v.element]?.getD 0
  ∃ currentComm targetComm, v.before.nodeToComm[v.element]? = some currentComm ∧
    bestMove order (louvainGraph edges) (edgeWeight edges) resolution v.round v.element ki currentComm v.before =
      some (bestGain, some targetComm) ∧
    v.after = v.before.move v.element currentComm targetComm ki

/-- What holds of the run of Louvain that ends in `st`. -/
structure Ascent (order : HashOrder) (edges : List (Edge ℚ)) (opts : Options ℚ) (st : LouvainState ℚ) : Prop where
  weight : totalWeight order edges = some (edgeWeight edges)
  leads : Rounds.Leads (louvainVisit order (louvainGraph edges) (degrees edges) (edgeWeight edges) opts.resolution)
    (sortMembers (louvainGraph edges).allNodes) (louvainStart edges)
    (louvainTrace order edges opts (edgeWeight edges)) st
  groups : louvain order edges opts = some (communitiesFromAssignment order st.nodeToComm)
  exactStart : SigmaExact edges (louvainStart edges)
  exact : ∀ v ∈ louvainTrace order edges opts (edgeWeight edges), SigmaExact edges v.before ∧ SigmaExact edges v.after
  stays : ∀ v ∈ louvainTrace order edges opts (edgeWeight edges), v.changed = false → v.after = v.before
  gains : ∀ v ∈ louvainTrace order edges opts (edgeWeight edges), v.changed = true → ∃ bestGain,
    Executes order edges opts.resolution v bestGain ∧ 0 < bestGain / edgeWeight edges ∧
      modularity edges opts.resolution v.after.nodeToComm =
        modularity edges opts.resolution v.before.nodeToComm + bestGain / edgeWeight edges
  distinct : ((Rounds.states (louvainStart edges) (louvainTrace order edges opts (edgeWeight edges))).map
    LouvainState.nodeToComm).Nodup
  last : (Rounds.states (louvainStart edges) (louvainTrace order edges opts (edgeWeight edges))).getLast? = some st
  improves : modularity edges opts.resolution (louvainStart edges).nodeToComm ≤
    modularity edges opts.resolution st.nodeToComm

/-- A visit of the run leaves all as it is, or moves its node to the best community. -/
theorem visit_cases {order : HashOrder} {edges : List (Edge ℚ)} {opts : Options ℚ} (hm : edgeWeight edges ≠ 0)
    {v : Rounds.Visit String (LouvainState ℚ)} (hv : v ∈ louvainTrace order edges opts (edgeWeight edges)) :
    v.element ∈ endpoints (ends edges) ∧
      (v.changed = false ∧ v.after = v.before ∨
        v.changed = true ∧ ∃ currentComm targetComm bestGain, v.before.nodeToComm[v.element]? = some currentComm ∧
          bestMove order (louvainGraph edges) (edgeWeight edges) opts.resolution v.round v.element
            ((degrees edges)[v.element]?.getD 0) currentComm v.before = some (bestGain, some targetComm) ∧
          IsBest (netGain edges opts.resolution v.element v.before currentComm)
            (Candidate edges v.element v.before currentComm) (bestGain, some targetComm) ∧
          v.after = v.before.move v.element currentComm targetComm ((degrees edges)[v.element]?.getD 0)) := by
  obtain ⟨st, -, -, hleads, hcases⟩ := louvain_run divides_rat order edges opts (m := edgeWeight edges)
    (by simpa using hm)
  obtain ⟨hmem, heq⟩ := hleads.visit_eq v hv
  have hnode := (mem_sorted (louvainGraph_of edges) v.element).mp hmem
  obtain ⟨currentComm, hcurrent, -⟩ := (hcases v hv).1.get hnode
  refine ⟨hnode, ?_⟩
  obtain hstay | ⟨bestGain, targetComm, hbest, hmax, hmove⟩ :=
    louvainVisit_rat hm (hcases v hv).1 opts.resolution hcurrent order v.round
  · rw [heq, Option.some.injEq, Prod.mk.injEq] at hstay
    exact .inl ⟨hstay.2, hstay.1⟩
  · rw [heq, Option.some.injEq, Prod.mk.injEq] at hmove
    exact .inr ⟨hmove.2, currentComm, targetComm, bestGain, hcurrent, hbest, hmax, hmove.1⟩

/-- Louvain ascends modularity, from every node on its own. -/
theorem louvain_ascends (order : HashOrder) (edges : List (Edge ℚ)) (opts : Options ℚ) (h : 0 < edgeWeight edges) :
    ∃ st, Ascent order edges opts st := by
  have hm : edgeWeight edges ≠ 0 := h.ne'
  obtain ⟨st, hrun, -, hleads, -⟩ := louvain_run divides_rat order edges opts (m := edgeWeight edges)
    (by simpa using hm)
  have hexact := (hleads.keeps (sigmaExact_start edges) fun v hv hbefore => by
    obtain ⟨hnode, ⟨-, hsame⟩ | ⟨-, currentComm, targetComm, bestGain, hcurrent, -, -, hmove⟩⟩ := visit_cases hm hv
    · rwa [hsame]
    · rw [hmove]
      exact hbefore.move hnode hcurrent).1
  have hstay : ∀ v ∈ louvainTrace order edges opts (edgeWeight edges), v.changed = false → v.after = v.before := by
    intro v hv hchanged
    obtain ⟨-, ⟨-, hsame⟩ | ⟨hchanged', -⟩⟩ := visit_cases hm hv
    · exact hsame
    · cases hchanged.symm.trans hchanged'
  have hgain : ∀ v ∈ louvainTrace order edges opts (edgeWeight edges), v.changed = true → ∃ bestGain,
      Executes order edges opts.resolution v bestGain ∧ 0 < bestGain / edgeWeight edges ∧
        modularity edges opts.resolution v.after.nodeToComm =
          modularity edges opts.resolution v.before.nodeToComm + bestGain / edgeWeight edges := by
    intro v hv hchanged
    obtain ⟨hnode, ⟨hchanged', -⟩ | ⟨-, currentComm, targetComm, bestGain, hcurrent, hbest, hmax, hmove⟩⟩ :=
      visit_cases hm hv
    · cases hchanged.symm.trans hchanged'
    · obtain ⟨rfl, ⟨hne, -⟩, hpos, -⟩ := hmax
      refine ⟨_, ⟨currentComm, targetComm, hcurrent, hbest, hmove⟩, div_pos hpos h, ?_⟩
      rw [hmove]
      exact modularity_move (hexact v hv).1 hnode hcurrent hne opts.resolution
  obtain ⟨hascends, hlast⟩ := hleads.ascends (f := fun st => modularity edges opts.resolution st.nodeToComm) hstay
    fun v hv hchanged => by
      obtain ⟨bestGain, -, hpos, heq⟩ := hgain v hv hchanged
      rw [heq]
      exact lt_add_of_pos_right _ hpos
  refine ⟨st, totalWeight_rat order edges, hleads, ?_, sigmaExact_start edges, hexact, hstay, hgain, ?_, hlast, ?_⟩
  · have hnil : (louvainGraph edges).allNodes ≠ [] := by
      refine (louvainGraph_of edges).allNodes_ne_nil ?_
      rintro rfl
      exact absurd h (by simp [edgeWeight])
    simp [louvain, hnil, totalWeight_rat, hm, hrun]
  · refine List.pairwise_map.mpr (hascends.imp fun hlt heq => ?_)
    simp only [heq, lt_irrefl] at hlt
  · obtain heq | hmem := List.mem_cons.mp (List.mem_of_getLast? hlast)
    · rw [heq]
    · exact ((List.pairwise_cons.mp hascends).1 st hmem).le

theorem louvain_ascends_loop : ∃ st, Ascent default [("a", "b", 1), ("a", "c", 2), ("c", "c", 5)] ⟨.louvain, 10, 1⟩ st :=
  louvain_ascends _ _ _ (by decide +kernel)

end Community

end Dllb
