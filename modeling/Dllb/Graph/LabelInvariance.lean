import Mathlib
import Dllb.Graph.Community

/-! # Label propagation sees the undirected edges

Lists with the same undirected edges, each as often, give a node the same
neighbours in some order, and no visit depends on that order.
-/

namespace Dllb

set_option autoImplicit false

namespace Community

open Components (Groups sortMembers endpoints)

/-- The undirected edges, each as often as it is listed. -/
def multigraph {R : Type} (edges : List (Edge R)) : Multiset (Sym2 String) :=
  ↑(edges.map fun e => s(e.1, e.2.1))

/-- What a node has at the other end of an edge. -/
def otherEnd (v : String) : Sym2 String → List String :=
  Sym2.lift ⟨fun a b => if a = b then [] else if a = v then [b] else if b = v then [a] else [], by
    intro a b
    by_cases hab : a = b
    · simp [hab]
    · by_cases ha : a = v
      · subst ha
        simp [hab, Ne.symm hab]
      · simp [hab, Ne.symm hab, ha]⟩

theorem listed_eq {R : Type} (v : String) (e : Edge R) :
    listed (fun node _ => node) v e = otherEnd v s(e.1, e.2.1) := by
  obtain ⟨src, dst, weight⟩ := e
  simp only [listed, otherEnd, Sym2.lift_mk]
  by_cases hloop : src = dst
  · simp [hloop]
  · by_cases hsrc : src = v
    · subst hsrc
      simp [hloop, Ne.symm hloop]
    · simp [hloop, hsrc]

theorem mem_endpoints_iff {R : Type} {edges : List (Edge R)} {v : String} :
    v ∈ endpoints (ends edges) ↔ ∃ p ∈ multigraph edges, v ∈ p := by
  simp only [endpoints, ends, multigraph, List.flatMap_map, List.mem_flatMap, Multiset.mem_coe, List.mem_map,
    List.mem_cons, List.not_mem_nil, or_false, exists_exists_and_eq_and, Sym2.mem_iff]

section Same

variable {R : Type} {edges edges' : List (Edge R)}

theorem neighbors_perm (h : multigraph edges = multigraph edges') (v : String) :
    ((labelGraph edges).adj[v]?.getD []).Perm ((labelGraph edges').adj[v]?.getD []) := by
  have hlist : ∀ edges : List (Edge R), (labelGraph edges).adj[v]?.getD [] =
      (edges.map fun e => s(e.1, e.2.1)).flatMap (otherEnd v) := by
    intro edges
    rw [labelGraph, adj_graphOf, List.flatMap_map]
    exact congrArg edges.flatMap (funext (listed_eq v))
  rw [hlist, hlist]
  exact (Multiset.coe_eq_coe.mp h).flatMap_right _

theorem sorted_nodes_eq (h : multigraph edges = multigraph edges') :
    sortMembers (labelGraph edges).allNodes = sortMembers (labelGraph edges').allNodes := by
  have hg := labelGraph_of edges
  have hg' := labelGraph_of edges'
  refine eq_of_sorted (Components.pairwise_sortMembers hg.nodup) (Components.pairwise_sortMembers hg'.nodup)
    fun v => ?_
  rw [mem_sorted hg, mem_sorted hg', mem_endpoints_iff, mem_endpoints_iff, h]

end Same

/-! ## A visit does not depend on an order -/

theorem countLabels_perm {neighbors neighbors' : List String} (h : neighbors.Perm neighbors')
    (labels : StringMap String) :
    neighbors.foldl (countLabel labels) ∅ = neighbors'.foldl (countLabel labels) ∅ := by
  refine h.foldl_eq' (fun a _ b _ freq => ?_) ∅
  exact insert_right_comm freq (labels[a]?.getD a) (labels[b]?.getD b) (fun o => o.getD 0 + 1)
    (fun o => o.getD 0 + 1) fun _ => rfl

theorem max_perm {counts counts' : List Nat} (h : counts.Perm counts') : counts.max? = counts'.max? := by
  refine Option.ext fun n => ?_
  rw [List.max?_eq_some_iff, List.max?_eq_some_iff, h.mem_iff]
  simp only [h.mem_iff]

theorem least_perm {ss ss' : List String} (h : ss.Perm ss') : least ss = least ss' := by
  cases hleast : least ss with
  | none =>
    cases ss with
    | nil => rw [← h.nil_eq, least]
    | cons s rest => simp [least] at hleast
  | some s =>
    cases hleast' : least ss' with
    | none =>
      cases ss' with
      | nil =>
        rw [h.eq_nil] at hleast
        cases hleast
      | cons s rest => simp [least] at hleast'
    | some s' =>
      obtain ⟨hmem, hle⟩ := least_spec hleast
      obtain ⟨hmem', hle'⟩ := least_spec hleast'
      -- each of the two is not less than the other
      have heq : cmpString s s' = .eq := by
        have hge := hle s' (h.mem_iff.mpr hmem')
        have hswap : cmpString s' s = (cmpString s s').swap := Std.OrientedCmp.eq_swap
        have hne := hle' s (h.mem_iff.mp hmem)
        rw [hswap] at hge
        cases hcmp : cmpString s s' with
        | lt => exact absurd hcmp hne
        | eq => rfl
        | gt => simp [hcmp] at hge
      rw [Std.LawfulEqCmp.compare_eq_iff_eq.mp heq]

theorem winner_perm {freq freq' : List (String × Nat)} (h : freq.Perm freq') (maxCount : Nat) (current : String) :
    winner freq maxCount current = winner freq' maxCount current := by
  rw [winner, winner, least_perm ((h.filter _).map Prod.fst)]

theorem labelVisit_perm (order order' : HashOrder) {g g' : Graph String} {node : String}
    (h : (g.adj[node]?.getD []).Perm (g'.adj[node]?.getD [])) (round : Nat) (labels : StringMap String) :
    labelVisit order g round node labels = labelVisit order' g' round node labels := by
  have hnil : g.adj[node]?.getD [] = [] ↔ g'.adj[node]?.getD [] = [] :=
    ⟨fun hnil => (hnil ▸ h).nil_eq.symm, fun hnil => (hnil ▸ h).eq_nil⟩
  have hfreq := countLabels_perm h labels
  have hentries : ∀ freq : List (String × Nat), (order.arrange (.frequencies round node) freq).Perm
      (order'.arrange (.frequencies round node) freq) :=
    fun freq => (order.arrange_perm _ _).trans (order'.arrange_perm _ _).symm
  simp only [labelVisit, hnil, hfreq, max_perm ((hentries _).map Prod.snd), winner_perm (hentries _)]

/-- The groups depend on the undirected edges alone. -/
theorem labelPropagation_of_multigraph (order order' : HashOrder) {edges edges' : List (Edge F64)}
    (h : multigraph edges = multigraph edges') (opts : Options F64) :
    ∃ groups, labelPropagation order edges opts = some groups ∧
      labelPropagation order' edges' opts = some groups := by
  have hnodes := sorted_nodes_eq h
  have hvisit : labelVisit order (labelGraph edges) = labelVisit order' (labelGraph edges') := by
    funext round node labels
    exact labelVisit_perm order order' (neighbors_perm h node) round labels
  have hnil : (labelGraph edges).allNodes = [] ↔ (labelGraph edges').allNodes = [] := by
    simp only [List.eq_nil_iff_forall_not_mem, (labelGraph_of edges).mem_allNodes, (labelGraph_of edges').mem_allNodes,
      mem_endpoints_iff, h]
  by_cases hempty : (labelGraph edges).allNodes = []
  · exact ⟨∅, if_pos hempty, if_pos (hnil.mp hempty)⟩
  · obtain ⟨labels, hrun, -⟩ := labelPropagation_run order edges opts
    have hrun' := hrun
    rw [hvisit, hnodes] at hrun'
    refine ⟨communitiesFromAssignment order labels, by simp [labelPropagation, hempty, hrun], ?_⟩
    rw [(groupsOf_assignment order labels).eq (groupsOf_assignment order' labels)]
    simp [labelPropagation, mt hnil.mpr hempty, hrun']

def square : List (Edge F64) := [("a", "b", 1), ("b", "c", 1), ("c", "d", 1), ("d", "a", 1)]

/-- The square, from other corners and with other weights. -/
def turned : List (Edge F64) := [("d", "c", 2), ("a", "b", 0), ("a", "d", 1), ("c", "b", 1)]

def backwards : HashOrder where
  arrange _ entries := entries.reverse
  arrange_perm _ entries := entries.reverse_perm

theorem labelPropagation_square :
    ∃ groups, labelPropagation default square ⟨.labelPropagation, 10, 1⟩ = some groups ∧
      labelPropagation backwards turned ⟨.labelPropagation, 10, 1⟩ = some groups :=
  labelPropagation_of_multigraph default backwards (by decide) ⟨.labelPropagation, 10, 1⟩

end Community

end Dllb
