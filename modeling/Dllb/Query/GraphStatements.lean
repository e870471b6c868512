import Mathlib
import Dllb.Graph.Centrality
import Dllb.Graph.Path
import Dllb.Lib.Classes
import Dllb.Query.LiveGraph

/-! # What graph statements answer

With the algorithms of the graph crate in place, `GRAPH COMPONENTS` counts the
components of the graph of a run, `GRAPH CENTRALITY` ranks its vertices by their
degrees, and `GRAPH PATH` answers with a shortest of its paths.
-/

namespace Dllb

set_option autoImplicit false

open Key

/-! ## The algorithms -/

def communityAlgorithm : CommunityAlgorithm → Community.Algorithm
  | .louvain => .louvain
  | .labelPropagation => .labelPropagation

def centralityKind : CentralityMode → Centrality.CentralityKind
  | .degree => .degree
  | .inDegree => .inDegree
  | .outDegree => .outDegree

/-- `1e-6` -/
def defaultTolerance : F64 := ⟨0x3EB0C6F7A0B5ED8D⟩

/-- The algorithms of the graph crate on floats. Nothing stands for a result where they panic. -/
@[reducible] def graphCrate (order : Community.HashOrder) (nodes : Centrality.SetOrder) : GraphAlgorithms where
  detectCommunitiesWeighted edges algorithm maxIterations resolution :=
    ((Community.detectWeighted order edges
      { algorithm := communityAlgorithm algorithm, maxIterations, resolution }).getD ∅).toList
  connectedComponents edges := ((Components.connectedComponents edges).getD ∅).toList
  pagerank edges damping maxIterations :=
    (PageRank.pagerank edges { damping, maxIterations, tolerance := defaultTolerance }).getD []
  degreeCentrality edges mode := Centrality.degreeCentrality nodes edges (centralityKind mode)
  shortestPath edges src dst maxDepth := (Path.shortestPath edges src dst maxDepth).getD none

/-! ## The graph in its own terms -/

namespace Links

def Linked (g : Links) (a b : String) : Prop := (g a b).isSome

/-- The ids that some edge starts or ends at. -/
def vertices (g : Links) : Set String := {v | ∃ w, g.Linked v w ∨ g.Linked w v}

def links (g : Links) : Set (String × String) := {e | g.Linked e.1 e.2}

/-- A path from one to the other, in which edges count both ways. -/
def Connected (g : Links) : String → String → Prop := Relation.EqvGen g.Linked

def components (g : Links) : Set (Set String) := classesOf g.Connected g.vertices

/-- A list of vertices from one to another, each with an edge to the next. -/
structure Walk (g : Links) (src dst : String) (p : List String) : Prop where
  head : p.head? = some src
  last : p.getLast? = some dst
  chain : p.IsChain g.Linked

/-- The number of edges at a vertex; a loop is there twice. -/
noncomputable def degree (g : Links) (mode : CentralityMode) (v : String) : Nat :=
  match mode with
  | .inDegree => {w | g.Linked w v}.ncard
  | .outDegree => {w | g.Linked v w}.ncard
  | .degree => {w | g.Linked w v}.ncard + {w | g.Linked v w}.ncard

theorem links_relate (g : Links) (src dst : String) (properties : Fields) :
    (g.relate src dst properties).links = insert (src, dst) g.links := by
  ext e
  rw [links, Set.mem_ofPred_eq, Linked, relate, Set.mem_insert_iff, Prod.ext_iff]
  split
  · rename_i hends
    exact iff_of_true rfl (.inl hends)
  · rename_i hends
    exact ⟨.inr, fun h => h.resolve_left hends⟩

theorem ncard_links_relate_le (g : Links) (src dst : String) (properties : Fields) :
    (g.relate src dst properties).links.ncard ≤ g.links.ncard + 1 := by
  rw [links_relate]
  exact Set.ncard_insert_le ..

theorem ncard_links_empty : empty.links.ncard = 0 := by
  have hnone : empty.links = ∅ := Set.eq_empty_of_forall_notMem fun _ h => Bool.false_ne_true h
  rw [hnone, Set.ncard_empty]

theorem mem_endpoints_of_connected {pairs : List (String × String)} {u v : String}
    (hu : u ∈ Components.endpoints pairs) (h : Components.Connected pairs u v) :
    v ∈ Components.endpoints pairs := by
  induction h with
  | refl => exact hu
  | tail _ hadjacent _ =>
    rcases hadjacent with he | he
    · exact List.mem_flatMap.mpr ⟨_, he, by simp⟩
    · exact List.mem_flatMap.mpr ⟨_, he, by simp⟩

namespace Listed

variable {g : Links} {edges : List (String × String × Fields)}

theorem mem_pairs_iff (h : g.Listed edges) (a b : String) :
    (a, b) ∈ edges.map (fun e => (e.1, e.2.1)) ↔ g.Linked a b := by
  rw [List.mem_map, Linked, Option.isSome_iff_exists]
  constructor
  · rintro ⟨⟨_, _, f⟩, he, heq⟩
    cases heq
    exact ⟨f, (h.mem_iff _ _ f).mp he⟩
  · rintro ⟨f, hf⟩
    exact ⟨(a, b, f), (h.mem_iff a b f).mpr hf, rfl⟩

theorem ncard_links (h : g.Listed edges) : g.links.ncard = (edges.map fun e => (e.1, e.2.1)).length := by
  rw [← ncard_setOf_mem h.nodup]
  congr 1
  ext e
  exact (h.mem_pairs_iff e.1 e.2).symm

theorem mem_endpoints_iff (h : g.Listed edges) (v : String) :
    v ∈ Components.endpoints (edges.map fun e => (e.1, e.2.1)) ↔ v ∈ g.vertices := by
  rw [Components.endpoints, List.mem_flatMap]
  constructor
  · rintro ⟨⟨a, b⟩, he, hv⟩
    have hlinked := (h.mem_pairs_iff a b).mp he
    rcases List.mem_cons.mp hv with rfl | hv
    · exact ⟨b, .inl hlinked⟩
    · rw [List.mem_singleton.mp hv]
      exact ⟨a, .inr hlinked⟩
  · rintro ⟨w, hlinked | hlinked⟩
    · exact ⟨(v, w), (h.mem_pairs_iff v w).mpr hlinked, by simp⟩
    · exact ⟨(w, v), (h.mem_pairs_iff w v).mpr hlinked, by simp⟩

theorem connected_eq (h : g.Listed edges) :
    Components.Connected (edges.map fun e => (e.1, e.2.1)) = g.Connected := by
  rw [Components.connected_eq_eqvGen, Connected]
  congr 1
  funext a b
  exact propext (h.mem_pairs_iff a b)

theorem directedPath_iff (h : g.Listed edges) {src dst : String} {p : List String} :
    Path.DirectedPath (edges.map fun e => (e.1, e.2.1)) src dst p ↔ g.Walk src dst p := by
  constructor
  · rintro ⟨hhead, hlast, hchain⟩
    exact ⟨hhead, hlast, hchain.imp fun a b hab => (h.mem_pairs_iff a b).mp hab⟩
  · rintro ⟨hhead, hlast, hchain⟩
    exact ⟨hhead, hlast, hchain.imp fun a b hab => (h.mem_pairs_iff a b).mpr hab⟩

/-- The edges of a list that meet a vertex at one end are counted by their other ends. -/
theorem countP_pairs (h : g.Listed edges) {p : String × String → Prop} [DecidablePred p]
    (other : String × String → String) (hother : ∀ e e', p e → p e' → other e = other e' → e = e') :
    (edges.map fun e => (e.1, e.2.1)).countP p = {w | ∃ e, g.Linked e.1 e.2 ∧ p e ∧ other e = w}.ncard := by
  have hnodup := h.nodup.filter fun e => decide (p e)
  rw [List.countP_eq_length_filter, ← ncard_setOf_mem hnodup, ← Set.InjOn.ncard_image (f := other)]
  · congr 1
    ext w
    constructor
    · rintro ⟨e, he, rfl⟩
      obtain ⟨he, hp⟩ := List.mem_filter.mp he
      exact ⟨e, (h.mem_pairs_iff e.1 e.2).mp he, of_decide_eq_true hp, rfl⟩
    · rintro ⟨e, he, hp, rfl⟩
      exact ⟨e, List.mem_filter.mpr ⟨(h.mem_pairs_iff e.1 e.2).mpr he, decide_eq_true hp⟩, rfl⟩
  · intro e he e' he' heq
    exact hother e e' (of_decide_eq_true (List.mem_filter.mp he).2)
      (of_decide_eq_true (List.mem_filter.mp he').2) heq

theorem degreeOf_eq (h : g.Listed edges) (mode : CentralityMode) (v : String) :
    Centrality.degreeOf (edges.map fun e => (e.1, e.2.1)) (centralityKind mode) v = g.degree mode v := by
  have hin := h.countP_pairs (p := (·.2 = v)) Prod.fst fun e e' he he' heq => Prod.ext heq (he.trans he'.symm)
  have hout := h.countP_pairs (p := (·.1 = v)) Prod.snd fun e e' he he' heq => Prod.ext (he.trans he'.symm) heq
  have hins : {w | ∃ e : String × String, g.Linked e.1 e.2 ∧ e.2 = v ∧ e.1 = w} = {w | g.Linked w v} := by
    ext w
    constructor
    · rintro ⟨e, he, rfl, rfl⟩
      exact he
    · exact fun hw => ⟨(w, v), hw, rfl, rfl⟩
  have houts : {w | ∃ e : String × String, g.Linked e.1 e.2 ∧ e.1 = v ∧ e.2 = w} = {w | g.Linked v w} := by
    ext w
    constructor
    · rintro ⟨e, he, rfl, rfl⟩
      exact he
    · exact fun hw => ⟨(v, w), hw, rfl, rfl⟩
  rw [hins] at hin
  rw [houts] at hout
  cases mode with
  | inDegree => exact hin
  | outDegree => exact hout
  | degree => exact congrArg₂ (· + ·) hin hout

/-- The groups of `connectedComponents` list the components. -/
theorem listsClasses (h : g.Listed edges) {groups : Components.Groups}
    (hgroups : Components.Partition (edges.map fun e => (e.1, e.2.1)) groups) :
    ListsClasses g.Connected g.vertices (groups.toList.map Prod.snd) := by
  have hkeys : ∀ x ∈ groups.toList, groups[x.1]? = some x.2 :=
    fun x hx => Std.ExtTreeMap.mem_toList_iff_getElem?_eq_some.mp hx
  have hmem : ∀ v, v ∈ (groups.toList.map Prod.snd).flatten ↔
      ∃ (key : String) (members : List String), groups[key]? = some members ∧ v ∈ members := by
    intro v
    rw [List.mem_flatten]
    constructor
    · rintro ⟨l, hl, hv⟩
      obtain ⟨x, hx, rfl⟩ := List.mem_map.mp hl
      exact ⟨x.1, x.2, hkeys x hx, hv⟩
    · rintro ⟨key, members, hgroup, hv⟩
      exact ⟨members, List.mem_map.mpr ⟨(key, members),
        Std.ExtTreeMap.mem_toList_iff_getElem?_eq_some.mpr hgroup, rfl⟩, hv⟩
  refine ⟨List.nodup_flatten.mpr ⟨?_, ?_⟩, fun v => ?_, ?_, ?_⟩
  · intro l hl
    obtain ⟨x, hx, rfl⟩ := List.mem_map.mp hl
    refine (hgroups.sorted x.1 x.2 (hkeys x hx)).imp fun {a b} hlt heq => ?_
    have hself : cmpString b b = .eq := Std.ReflCmp.compare_self
    rw [heq, hself] at hlt
    cases hlt
  · refine List.pairwise_map.mpr (Std.ExtTreeMap.distinct_keys_toList.imp_of_mem fun {x y} hx hy hne => ?_)
    intro v hvx hvy
    have heq := hgroups.disjoint x.1 y.1 x.2 y.2 v (hkeys x hx) (hkeys y hy) hvx hvy
    rw [heq] at hne
    exact hne Std.ReflCmp.compare_self
  · rw [hmem, ← h.mem_endpoints_iff, hgroups.covers]
  · intro l hl hnil
    obtain ⟨x, hx, rfl⟩ := List.mem_map.mp hl
    have hnamed := hgroups.named x.1 x.2 (hkeys x hx)
    rw [hnil] at hnamed
    cases hnamed
  · intro l hl v hv u
    obtain ⟨x, hx, rfl⟩ := List.mem_map.mp hl
    have hend : ∀ w, (∃ (key : String) (members : List String), groups[key]? = some members ∧ w ∈ members) →
        w ∈ Components.endpoints (edges.map fun e => (e.1, e.2.1)) := fun w => (hgroups.covers w).mpr
    have hvend := hend v ⟨x.1, x.2, hkeys x hx, hv⟩
    rw [← h.connected_eq]
    constructor
    · intro hconnected
      have huend : u ∈ Components.endpoints (edges.map fun e => (e.1, e.2.1)) :=
        mem_endpoints_of_connected hvend hconnected
      obtain ⟨key, members, hgroup, hv', hu⟩ := (hgroups.connected v hvend u huend).mpr hconnected
      have heq := hgroups.disjoint key x.1 members x.2 v hgroup (hkeys x hx) hv' hv
      subst heq
      rw [hkeys x hx] at hgroup
      cases hgroup
      exact hu
    · intro hu
      exact (hgroups.connected v hvend u (hend u ⟨x.1, x.2, hkeys x hx, hu⟩)).mp ⟨x.1, x.2, hkeys x hx, hv, hu⟩

end Listed

end Links

/-! ## Sizes -/

theorem foldl_max_spec (sizes : List Nat) (least : Nat) :
    least ≤ sizes.foldl max least ∧ (∀ n ∈ sizes, n ≤ sizes.foldl max least) ∧
      (sizes.foldl max least = least ∨ sizes.foldl max least ∈ sizes) := by
  induction sizes generalizing least with
  | nil => exact ⟨le_rfl, fun _ hn => absurd hn List.not_mem_nil, .inl rfl⟩
  | cons n sizes ih =>
    obtain ⟨hle, hall, hattained⟩ := ih (max least n)
    rw [List.foldl_cons]
    refine ⟨(le_max_left ..).trans hle, List.forall_mem_cons.mpr ⟨(le_max_right ..).trans hle, hall⟩, ?_⟩
    rcases hattained with heq | hmem
    · rw [heq]
      rcases max_choice least n with hmax | hmax
      · exact .inl hmax
      · exact .inr (List.mem_cons.mpr (.inl hmax))
    · exact .inr (List.mem_cons_of_mem _ hmem)

theorem foldl_max_cast (sizes : List Nat) (least : Nat) :
    (sizes.map fun n : Nat => (n : Int)).foldl max (least : Int) = (sizes.foldl max least : Nat) := by
  induction sizes generalizing least with
  | nil => rfl
  | cons n sizes ih =>
    rw [List.map_cons, List.foldl_cons, List.foldl_cons, ← Nat.cast_max, ih]

namespace QueryExecutor

section Answers

variable [Rmp] [CodeIntel] {ex : QueryExecutor} {edgeType : String} {reqs : List Request} {s : Store} {g : Links}

theorem exists_scan (hcodec : Rmp.Nonempty) (hex : ex.Regular) (htype : NulFree edgeType)
    (hnamed : ∀ r ∈ reqs, r.Named) (hrels : ∀ r ∈ reqs, ∀ rel ∈ r.relations, rel.Named)
    (hrun : ex.linked edgeType reqs = (s, g)) :
    ∃ edges, g.Listed edges ∧ (EdgeStore.scanAllEdges ⟨ex.ns, ex.db, edgeType⟩).run s =
      (.ok (edges.map fun e => (e.1, e.2.1)), s) := by
  have hmirrored := linked_mirrored hex htype hcodec hnamed hrels
  have hreadable := linked_edgesReadable hex edgeType hnamed
  rw [hrun] at hmirrored hreadable
  obtain ⟨edges, hlisted, hscan⟩ := hmirrored.listed
  obtain ⟨l, hl, hkeys⟩ := scanAllEdges_projects (hmirrored.edgeEntry hreadable)
  cases hl.symm.trans hscan
  rw [List.map_map] at hkeys
  exact ⟨edges, hlisted, hkeys⟩

/-- After any requests `GRAPH CENTRALITY` ranks the vertices of the graph that they have made by the
number of edges there, and by name where it is the same. -/
theorem graph_centrality_after_run (order : Community.HashOrder) (nodes : Centrality.SetOrder)
    (hcodec : Rmp.Nonempty) (hex : ex.Regular) (htype : NulFree edgeType)
    (hnamed : ∀ r ∈ reqs, r.Named) (hrels : ∀ r ∈ reqs, ∀ rel ∈ r.relations, rel.Named)
    (hrun : ex.linked edgeType reqs = (s, g)) (hsize : g.links.ncard ≤ 2 ^ 52) (mode : CentralityMode)
    (limit : Option Nat) :
    ∃ ranked : List (String × Nat),
      (@execGraphCentrality (graphCrate order nodes) ex edgeType mode limit).run s =
        (.ok (.rows (rankRows (ranked.map fun r => (r.1, F64.ofNat r.2)) limit)), s) ∧
      (ranked.map Prod.fst).Nodup ∧ (∀ v, v ∈ ranked.map Prod.fst ↔ v ∈ g.vertices) ∧
      (∀ r ∈ ranked, r.2 = g.degree mode r.1) ∧
      ranked.Pairwise fun a b => b.2 < a.2 ∨ b.2 = a.2 ∧ cmpString a.1 b.1 = .lt := by
  obtain ⟨edges, hlisted, hscan⟩ := exists_scan hcodec hex htype hnamed hrels hrun
  rw [hlisted.ncard_links] at hsize
  have hdouble : 2 * (edges.map fun e => (e.1, e.2.1)).length ≤ 2 ^ 53 := by omega
  obtain ⟨ranked, hranks, heq⟩ := Centrality.exists_ranks nodes hdouble (centralityKind mode)
  refine ⟨ranked, ?_, hranks.nodup, fun v => ?_, fun r hr => ?_, hranks.sorted⟩
  · refine (Prog.run_bind_ok hscan).trans ?_
    rw [← heq]
    rfl
  · rw [hranks.mem_iff, hlisted.mem_endpoints_iff]
  · rw [hranks.degree r hr, hlisted.degreeOf_eq]

/-- After any requests `GRAPH COMPONENTS` answers with the number of components of the graph that they
have made, the number of vertices in the largest, and that of all vertices. -/
theorem graph_components_after_run (order : Community.HashOrder) (nodes : Centrality.SetOrder)
    (hcodec : Rmp.Nonempty) (hex : ex.Regular) (htype : NulFree edgeType)
    (hnamed : ∀ r ∈ reqs, r.Named) (hrels : ∀ r ∈ reqs, ∀ rel ∈ r.relations, rel.Named)
    (hrun : ex.linked edgeType reqs = (s, g)) :
    ∃ largest : Nat, (@execGraphComponents (graphCrate order nodes) ex edgeType).run s =
        (.ok (.components g.components.ncard largest g.vertices.ncard), s) ∧
      (∀ c ∈ g.components, c.ncard ≤ largest) ∧ (largest = 0 ∨ ∃ c ∈ g.components, c.ncard = largest) := by
  obtain ⟨edges, hlisted, hscan⟩ := exists_scan hcodec hex htype hnamed hrels hrun
  obtain ⟨groups, labels, root, hgroups, hgrouping⟩ :=
    Components.connectedComponents_eq_some (edges.map fun e => (e.1, e.2.1))
  have hclasses := hlisted.listsClasses hgrouping.partition
  have hsizes : (groups.toList.map fun group => (group.2.length : Int)) =
      ((groups.toList.map Prod.snd).map List.length).map fun n : Nat => (n : Int) := by
    rw [List.map_map, List.map_map]
    rfl
  obtain ⟨-, hbound, hattained⟩ := foldl_max_spec ((groups.toList.map Prod.snd).map List.length) 0
  refine ⟨_, ?_, fun c hc => hbound _ ((hclasses.mem_sizes_iff _).mpr ⟨c, hc, rfl⟩),
    hattained.imp_right (hclasses.mem_sizes_iff _).mp⟩
  refine (Prog.run_bind_ok hscan).trans ?_
  have hanswer : ∀ sizes : List Int, sizes = groups.toList.map (fun group => (group.2.length : Int)) →
      QueryResult.components sizes.length (sizes.foldl max 0) sizes.sum = .components g.components.ncard
        (((groups.toList.map Prod.snd).map List.length).foldl max 0 : Nat) g.vertices.ncard := by
    rintro _ rfl
    rw [hsizes, List.length_map, List.length_map, ← hclasses.ncard_classes, ← Nat.cast_zero, foldl_max_cast,
      ← Nat.cast_list_sum, ← hclasses.ncard_elements]
    rfl
  refine Prod.ext (congrArg Except.ok (hanswer _ ?_)) rfl
  exact congrArg (fun found : Option Components.Groups =>
    (found.getD ∅).toList.map fun group => (group.2.length : Int)) hgroups

/-- After any requests `GRAPH PATH` answers with a shortest walk in the graph that they have made, or
says that there is none of the length allowed. -/
theorem graph_path_after_run (order : Community.HashOrder) (nodes : Centrality.SetOrder)
    (hcodec : Rmp.Nonempty) (hex : ex.Regular) (htype : NulFree edgeType)
    (hnamed : ∀ r ∈ reqs, r.Named) (hrels : ∀ r ∈ reqs, ∀ rel ∈ r.relations, rel.Named)
    (hrun : ex.linked edgeType reqs = (s, g)) (src dst : String) (maxDepth : Option Nat) :
    (∃ p, (@execGraphPath (graphCrate order nodes) ex src dst edgeType maxDepth).run s =
        (.ok (.rows [pathRow (some p)]), s) ∧
      g.Walk src dst p ∧ p.Nodup ∧ (∀ m ∈ maxDepth, p.length - 1 ≤ m) ∧
      ∀ q, g.Walk src dst q → p.length ≤ q.length) ∨
    (@execGraphPath (graphCrate order nodes) ex src dst edgeType maxDepth).run s =
        (.ok (.rows [pathRow none]), s) ∧
      ∀ q, g.Walk src dst q → ∃ m ∈ maxDepth, m < q.length - 1 := by
  obtain ⟨edges, hlisted, hscan⟩ := exists_scan hcodec hex htype hnamed hrels hrun
  have hanswer : ∀ found, Path.shortestPath (edges.map fun e => (e.1, e.2.1)) src dst maxDepth = some found →
      (@execGraphPath (graphCrate order nodes) ex src dst edgeType maxDepth).run s =
        (.ok (.rows [pathRow found]), s) := by
    intro found hfound
    refine (Prog.run_bind_ok hscan).trans (Prod.ext (congrArg Except.ok ?_) rfl)
    exact congrArg (fun found : Option (Option (List String)) => QueryResult.rows [pathRow (found.getD none)]) hfound
  rcases Path.shortestPath_cases (edges.map fun e => (e.1, e.2.1)) src dst maxDepth with
    ⟨p, hfound, hpath, hnodup, hmax, hshortest⟩ | ⟨hfound, hlong⟩
  · exact .inl ⟨p, hanswer _ hfound, hlisted.directedPath_iff.mp hpath, hnodup, hmax,
      fun q hq => hshortest q (hlisted.directedPath_iff.mpr hq)⟩
  · exact .inr ⟨hanswer _ hfound, fun q hq => hlong q (hlisted.directedPath_iff.mpr hq)⟩

end Answers

end QueryExecutor

section Witness

open QueryExecutor Concrete

theorem ncard_links_relatedAgain : (accounts.linked "e" relatedAgain).2.links.ncard ≤ 3 := by
  have hlinked : (accounts.linked "e" relatedAgain).2 =
      ((Links.empty.relate "a" "b" (assigned [("weight", .int 2)])).relate "b" "b" ∅).relate "a" "b" ∅ := rfl
  rw [hlinked]
  refine (Links.ncard_links_relate_le ..).trans (Nat.succ_le_succ ?_)
  refine (Links.ncard_links_relate_le ..).trans (Nat.succ_le_succ ?_)
  refine (Links.ncard_links_relate_le ..).trans (Nat.succ_le_succ ?_)
  rw [Links.ncard_links_empty]

theorem graph_centrality_after_run_relatedAgain :
    ∃ ranked : List (String × Nat),
      (@execGraphCentrality (graphCrate default default) accounts "e" .degree none).run
          (accounts.linked "e" relatedAgain).1 =
        (.ok (.rows (rankRows (ranked.map fun r => (r.1, F64.ofNat r.2)) none)),
          (accounts.linked "e" relatedAgain).1) ∧
      ∀ r ∈ ranked, r.2 = (accounts.linked "e" relatedAgain).2.degree .degree r.1 := by
  obtain ⟨ranked, hrun, -, -, hdegree, -⟩ := graph_centrality_after_run default default nonempty_codec
    regular_accounts (show NulFree "e" by decide) named_relatedAgain named_relations_relatedAgain rfl
    (ncard_links_relatedAgain.trans (by decide)) .degree none
  exact ⟨ranked, hrun, hdegree⟩

theorem graph_components_after_run_relatedAgain :
    ∃ largest : Nat, (@execGraphComponents (graphCrate default default) accounts "e").run
          (accounts.linked "e" relatedAgain).1 =
        (.ok (.components (accounts.linked "e" relatedAgain).2.components.ncard largest
          (accounts.linked "e" relatedAgain).2.vertices.ncard), (accounts.linked "e" relatedAgain).1) := by
  obtain ⟨largest, hrun, -, -⟩ := graph_components_after_run default default nonempty_codec regular_accounts
    (show NulFree "e" by decide) named_relatedAgain named_relations_relatedAgain rfl
  exact ⟨largest, hrun⟩

theorem walk_relatedAgain : (accounts.linked "e" relatedAgain).2.Walk "a" "b" ["a", "b"] :=
  ⟨rfl, rfl, .cons_cons rfl (.singleton "b")⟩

theorem graph_path_after_run_relatedAgain :
    ∃ p, (@execGraphPath (graphCrate default default) accounts "a" "b" "e" none).run
          (accounts.linked "e" relatedAgain).1 =
        (.ok (.rows [pathRow (some p)]), (accounts.linked "e" relatedAgain).1) ∧
      (accounts.linked "e" relatedAgain).2.Walk "a" "b" p ∧ p.length ≤ 2 := by
  have hfound := graph_path_after_run default default nonempty_codec regular_accounts
    (show NulFree "e" by decide) named_relatedAgain named_relations_relatedAgain rfl "a" "b" none
  rcases hfound with ⟨p, hrun, hwalk, -, -, hshortest⟩ | ⟨-, hnone⟩
  · exact ⟨p, hrun, hwalk, hshortest _ walk_relatedAgain⟩
  · obtain ⟨m, hm, -⟩ := hnone _ walk_relatedAgain
    cases hm

end Witness

end Dllb
