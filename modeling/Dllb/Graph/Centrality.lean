import Mathlib
import Dllb.Graph.Ranking

/-! # Degree centrality

The degrees are counted with floats, which is exact as long as there are no more
than `2 ^ 53` ends of edges.
-/

namespace Dllb

set_option autoImplicit false

namespace Centrality

open Community (StringMap addTo)
open Components (endpoints)

inductive CentralityKind where
  | degree
  | inDegree
  | outDegree
  deriving DecidableEq

/-- The order in which the set of the nodes is gone through. -/
structure SetOrder where
  arrange : List String → List String
  arrange_perm (nodes : List String) : (arrange nodes).Perm nodes

instance : Inhabited SetOrder := ⟨⟨id, .refl⟩⟩

structure Tally where
  indeg : StringMap F64
  outdeg : StringMap F64
  nodes : List String

def Tally.empty : Tally := { indeg := ∅, outdeg := ∅, nodes := [] }

def Tally.count (t : Tally) (e : String × String) : Tally where
  nodes := (t.nodes.insert e.1).insert e.2
  outdeg := addTo t.outdeg e.1 1
  indeg := addTo t.indeg e.2 1

def Tally.score (t : Tally) (kind : CentralityKind) (node : String) : F64 :=
  match kind with
  | .inDegree => t.indeg[node]?.getD 0
  | .outDegree => t.outdeg[node]?.getD 0
  | .degree => t.indeg[node]?.getD 0 + t.outdeg[node]?.getD 0

def degreeCentrality (order : SetOrder) (edges : List (String × String)) (kind : CentralityKind) :
    List (String × F64) :=
  let t := edges.foldl Tally.count .empty
  ((order.arrange t.nodes).map fun node => (node, t.score kind node)).insertionSort
    fun a b => (PageRank.byScore a b != .gt) = true

/-! ## Degrees -/

/-- The number of edges at a node; a loop is there twice. -/
def degreeOf (edges : List (String × String)) (kind : CentralityKind) (node : String) : Nat :=
  match kind with
  | .inDegree => edges.countP (·.2 = node)
  | .outDegree => edges.countP (·.1 = node)
  | .degree => edges.countP (·.2 = node) + edges.countP (·.1 = node)

theorem degreeOf_le (edges : List (String × String)) (kind : CentralityKind) (node : String) :
    degreeOf edges kind node ≤ 2 * edges.length := by
  have hin := List.countP_le_length (p := fun e : String × String => decide (e.2 = node)) (l := edges)
  have hout := List.countP_le_length (p := fun e : String × String => decide (e.1 = node)) (l := edges)
  cases kind with
  | degree =>
    simp only [degreeOf]
    omega
  | inDegree =>
    simp only [degreeOf]
    omega
  | outDegree =>
    simp only [degreeOf]
    omega

/-- Every end of an edge adds one. -/
theorem getD_foldl_addTo (key : String × String → String) (node : String) {edges : List (String × String)}
    {m : StringMap F64} {n : Nat} (hm : m[node]?.getD 0 = F64.ofNat n) (hn : n + edges.length ≤ 2 ^ 53) :
    (edges.foldl (fun m e => addTo m (key e) 1) m)[node]?.getD 0 =
      F64.ofNat (n + edges.countP fun e => key e = node) := by
  induction edges generalizing m n with
  | nil => exact hm
  | cons e edges ih =>
    rw [List.length_cons] at hn
    rw [List.foldl_cons, List.countP_cons]
    by_cases hkey : key e = node
    · have hnext : (addTo m (key e) 1)[node]?.getD 0 = F64.ofNat (n + 1) := by
        rw [addTo, getElem?_insert_string, if_pos hkey, Option.getD_some, hkey, hm]
        exact F64.ofNat_add (m := n) (n := 1) (by omega)
      rw [ih hnext (by omega), if_pos (decide_eq_true hkey)]
      congr 1
      omega
    · have hnext : (addTo m (key e) 1)[node]?.getD 0 = F64.ofNat n := by
        rw [addTo, getElem?_insert_string, if_neg hkey, hm]
      rw [ih hnext (by omega), if_neg (by simpa using hkey), Nat.add_zero]

theorem foldl_count (edges : List (String × String)) (t : Tally) :
    (edges.foldl Tally.count t).indeg = edges.foldl (fun m e => addTo m e.2 1) t.indeg ∧
      (edges.foldl Tally.count t).outdeg = edges.foldl (fun m e => addTo m e.1 1) t.outdeg := by
  induction edges generalizing t with
  | nil => exact ⟨rfl, rfl⟩
  | cons e edges ih => exact ih (t.count e)

theorem score_tally {edges : List (String × String)} (hsize : 2 * edges.length ≤ 2 ^ 53) (kind : CentralityKind)
    (node : String) :
    (edges.foldl Tally.count .empty).score kind node = F64.ofNat (degreeOf edges kind node) := by
  obtain ⟨hindeg, houtdeg⟩ := foldl_count edges .empty
  have hzero : (∅ : StringMap F64)[node]?.getD 0 = F64.ofNat 0 := by
    rw [Std.ExtTreeMap.getElem?_empty]
    rfl
  have hin := getD_foldl_addTo Prod.snd node (m := Tally.empty.indeg) hzero
    (show 0 + edges.length ≤ 2 ^ 53 by omega)
  have hout := getD_foldl_addTo Prod.fst node (m := Tally.empty.outdeg) hzero
    (show 0 + edges.length ≤ 2 ^ 53 by omega)
  rw [Nat.zero_add] at hin hout
  have hle := degreeOf_le edges .degree node
  cases kind with
  | inDegree => rw [Tally.score, hindeg, hin, degreeOf]
  | outDegree => rw [Tally.score, houtdeg, hout, degreeOf]
  | degree =>
    rw [Tally.score, hindeg, houtdeg, hin, hout, degreeOf]
    exact F64.ofNat_add (by rw [degreeOf] at hle; omega)

theorem nodes_tally (edges : List (String × String)) :
    (edges.foldl Tally.count .empty).nodes.Nodup ∧
      ∀ v, v ∈ (edges.foldl Tally.count .empty).nodes ↔ v ∈ endpoints edges := by
  have hrun : ∀ t : Tally, t.nodes.Nodup → (edges.foldl Tally.count t).nodes.Nodup ∧
      ∀ v, v ∈ (edges.foldl Tally.count t).nodes ↔ v ∈ t.nodes ∨ v ∈ endpoints edges := by
    induction edges with
    | nil => exact fun t ht => ⟨ht, fun v => by simp [endpoints]⟩
    | cons e edges ih =>
      intro t ht
      obtain ⟨hnodup, hmem⟩ := ih (t.count e) (List.Nodup.insert (List.Nodup.insert ht))
      refine ⟨hnodup, fun v => (hmem v).trans ?_⟩
      simp only [Tally.count, List.mem_insert_iff, endpoints, List.flatMap_cons, List.mem_append, List.mem_cons,
        List.not_mem_nil, or_false]
      tauto
  obtain ⟨hnodup, hmem⟩ := hrun .empty List.nodup_nil
  exact ⟨hnodup, fun v => (hmem v).trans (by simp [Tally.empty])⟩

/-! ## The ranking -/

/-- The nodes of the edges, each once and with its degree, by falling degree and then by name. -/
structure Ranks (edges : List (String × String)) (kind : CentralityKind) (ranked : List (String × Nat)) : Prop where
  nodup : (ranked.map Prod.fst).Nodup
  mem_iff : ∀ v, v ∈ ranked.map Prod.fst ↔ v ∈ endpoints edges
  degree : ∀ r ∈ ranked, r.2 = degreeOf edges kind r.1
  sorted : ranked.Pairwise fun a b => b.2 < a.2 ∨ b.2 = a.2 ∧ cmpString a.1 b.1 = .lt

theorem exists_ranks (order : SetOrder) {edges : List (String × String)} (hsize : 2 * edges.length ≤ 2 ^ 53)
    (kind : CentralityKind) :
    ∃ ranked, Ranks edges kind ranked ∧
      degreeCentrality order edges kind = ranked.map fun r => (r.1, F64.ofNat r.2) := by
  obtain ⟨hnodup, hmem⟩ := nodes_tally edges
  have harrange := order.arrange_perm (edges.foldl Tally.count .empty).nodes
  have hscored := List.perm_insertionSort (fun a b => (PageRank.byScore a b != .gt) = true)
    ((order.arrange (edges.foldl Tally.count .empty).nodes).map
      fun node => (node, (edges.foldl Tally.count .empty).score kind node))
  have hdegree : ∀ r ∈ degreeCentrality order edges kind, r.2 = F64.ofNat (degreeOf edges kind r.1) := by
    intro r hr
    obtain ⟨node, -, rfl⟩ := List.mem_map.mp (hscored.mem_iff.mp hr)
    exact score_tally hsize kind node
  have hvalue : ∀ r ∈ degreeCentrality order edges kind, r.2.Finite ∧ r.2.value = degreeOf edges kind r.1 := by
    intro r hr
    rw [hdegree r hr]
    exact F64.value_ofNat ((degreeOf_le edges kind r.1).trans hsize)
  have hnames : ((degreeCentrality order edges kind).map Prod.fst).Perm
      (edges.foldl Tally.count .empty).nodes := by
    refine (hscored.map Prod.fst).trans ?_
    rw [List.map_map]
    exact (List.Perm.of_eq (List.map_id _)).trans harrange
  have hranked : (degreeCentrality order edges kind).Pairwise RankedBefore := by
    refine pairwise_rankedBefore id (fun _ _ => rfl) (fun a ha => ?_) ?_
    · exact (hvalue a (hscored.mem_iff.mpr ha)).1
    · exact ((hscored.map Prod.fst).symm.trans hnames).nodup_iff.mpr hnodup
  refine ⟨(degreeCentrality order edges kind).map fun r => (r.1, degreeOf edges kind r.1), ⟨?_, ?_, ?_, ?_⟩, ?_⟩
  · rw [List.map_map]
    exact hnames.nodup_iff.mpr hnodup
  · intro v
    rw [List.map_map, ← hmem]
    exact hnames.mem_iff
  · intro r hr
    obtain ⟨r', -, rfl⟩ := List.mem_map.mp hr
    rfl
  · refine List.pairwise_map.mpr (hranked.imp_of_mem fun {a b} ha hb h => ?_)
    rw [RankedBefore, (hvalue a ha).2, (hvalue b hb).2, Nat.cast_lt, Nat.cast_inj] at h
    exact h
  · rw [List.map_map]
    refine ((List.map_congr_left fun r hr => ?_).trans (List.map_id _)).symm
    exact Prod.ext rfl (hdegree r hr).symm

end Centrality

end Dllb
