import Mathlib
import Dllb.Core.Arithmetic
import Dllb.Lib.Rounds
import Dllb.Graph.Components

/-! # Communities

Louvain and label propagation, over the edges as undirected ones. A map that is
gone through is gone through in an order of its own, which is a parameter, and
the numbers are any that the code's operations work on. A function returns `none`
where the source panics, or where a quotient is missing.
-/

namespace Dllb

set_option autoImplicit false

namespace Community

open Components (Groups sortMembers endpoints Adjacent Connected)

/-- The maps that the source goes through. -/
inductive HashSite where
  | degrees
  | candidates (pass : Nat) (node : String)
  | frequencies (round : Nat) (node : String)
  | assignment

structure HashOrder where
  arrange {V : Type} (site : HashSite) (entries : List (String × V)) : List (String × V)
  arrange_perm {V : Type} (site : HashSite) (entries : List (String × V)) :
    (arrange site entries).Perm entries

instance : Inhabited HashOrder := ⟨⟨fun _ entries => entries, fun _ entries => .refl entries⟩⟩

abbrev StringMap (V : Type) := Std.ExtTreeMap String V cmpString

inductive Algorithm where
  | louvain | labelPropagation
  deriving DecidableEq

structure Options (R : Type) where
  algorithm : Algorithm
  maxIterations : Nat
  resolution : R

abbrev Edge (R : Type) := String × String × R

/-- `entry(key).or_default().push(a)` -/
def push {α : Type} (m : StringMap (List α)) (key : String) (a : α) : StringMap (List α) :=
  m.insert key (m[key]?.getD [] ++ [a])

/-- `*entry(key).or_insert(0.0) += weight` -/
def addTo {R : Type} [OfNat R 0] [Add R] (m : StringMap R) (key : String) (weight : R) : StringMap R :=
  m.insert key (m[key]?.getD 0 + weight)

/-- A map with one entry for each node. -/
def tabulate {V : Type} (f : String → V) (nodes : List String) : StringMap V :=
  nodes.foldl (fun m n => m.insert n (f n)) ∅

/-! ## The graph -/

structure Graph (α : Type) where
  adj : StringMap (List α)
  allNodes : List String

/-- Both ends become nodes, and a loop does nothing more. -/
def addEdge {α R : Type} (neighbor : String → R → α) (g : Graph α) (e : Edge R) : Graph α :=
  let (src, dst, weight) := e
  let allNodes := (g.allNodes.insert src).insert dst
  if src = dst then { g with allNodes }
  else { adj := push (push g.adj src (neighbor dst weight)) dst (neighbor src weight), allNodes }

def graphOf {α R : Type} (neighbor : String → R → α) (edges : List (Edge R)) : Graph α :=
  edges.foldl (addEdge neighbor) { adj := ∅, allNodes := [] }

def communitiesFromAssignment (order : HashOrder) (nodeToComm : StringMap String) : Groups :=
  let groups := (order.arrange .assignment nodeToComm.toList).foldl (fun gs e => push gs e.2 e.1) ∅
  groups.map fun _ members => sortMembers members

/-! ## Louvain -/

section Louvain

variable {R : Type} [OfNat R 0] [OfNat R 2] [Add R] [Sub R] [Mul R] [Arith R]

def addDegrees (degree : StringMap R) (e : Edge R) : StringMap R :=
  let (src, dst, weight) := e
  if src = dst then degree else addTo (addTo degree src weight) dst weight

def louvainGraph (edges : List (Edge R)) : Graph (String × R) := graphOf Prod.mk edges

def degrees (edges : List (Edge R)) : StringMap R := edges.foldl addDegrees ∅

/-- `m`, half of the sum of the degrees. -/
def totalWeight (order : HashOrder) (edges : List (Edge R)) : Option R :=
  Arith.div ((order.arrange .degrees (degrees edges).toList).foldl (fun sum e => sum + e.2) 0) 2

structure LouvainState (R : Type) where
  nodeToComm : StringMap String
  sigmaTot : StringMap R

/-- The weight between a node and each community of its neighbours. -/
def kInPerComm (nodeToComm : StringMap String) : List (String × R) → StringMap R → Option (StringMap R)
  | [], acc => some acc
  | (nb, w) :: neighbors, acc => do
    let nbComm ← nodeToComm[nb]?
    kInPerComm nodeToComm neighbors (addTo acc nbComm w)

/-- The best gain and its community, after the candidates that follow. -/
def bestComm (net : String → R → Option R) (currentComm : String) :
    List (String × R) → R × Option String → Option (R × Option String)
  | [], best => some best
  | (comm, kiInC) :: candidates, best =>
    if comm = currentComm then bestComm net currentComm candidates best
    else do
      let gain ← net comm kiInC
      bestComm net currentComm candidates (if Arith.gt gain best.1 then (gain, some comm) else best)

/-- What a community gains with a node, before the node's own community is subtracted. -/
def gainOf (m resolution ki kiInC sigma : R) : Option R := do
  let expected ← Arith.div (resolution * sigma * ki) (2 * m)
  return kiInC - expected

/-- The best net gain of moving a node, and the community to move it to. -/
def bestMove (order : HashOrder) (g : Graph (String × R)) (m resolution : R) (pass : Nat) (node : String) (ki : R)
    (currentComm : String) (st : LouvainState R) : Option (R × Option String) := do
  let kIn ← kInPerComm st.nodeToComm (g.adj[node]?.getD []) ∅
  let sigmaCurrentWithoutI := st.sigmaTot[currentComm]?.getD 0 - ki
  let baseline ← gainOf m resolution ki (kIn[currentComm]?.getD 0) sigmaCurrentWithoutI
  let net (comm : String) (kiInC : R) : Option R := do
    let gain ← gainOf m resolution ki kiInC (st.sigmaTot[comm]?.getD 0)
    return gain - baseline
  bestComm net currentComm (order.arrange (.candidates pass node) kIn.toList) (0, none)

def LouvainState.move (st : LouvainState R) (node currentComm targetComm : String) (ki : R) : LouvainState R :=
  let left := st.sigmaTot.insert currentComm (st.sigmaTot[currentComm]?.getD 0 - ki)
  { nodeToComm := st.nodeToComm.insert node targetComm, sigmaTot := addTo left targetComm ki }

def louvainVisit (order : HashOrder) (g : Graph (String × R)) (degree : StringMap R) (m resolution : R) (pass : Nat)
    (node : String) (st : LouvainState R) : Option (LouvainState R × Bool) := do
  let ki := degree[node]?.getD 0
  if Arith.isZero ki then return (st, false)
  else
    let currentComm ← st.nodeToComm[node]?
    let best ← bestMove order g m resolution pass node ki currentComm st
    match best.2 with
    | none => return (st, false)
    | some targetComm => return (st.move node currentComm targetComm ki, true)

/-- Every node is its own community. -/
def louvainStart (edges : List (Edge R)) : LouvainState R :=
  let allNodes := sortMembers (louvainGraph edges).allNodes
  { nodeToComm := tabulate id allNodes
    sigmaTot := tabulate (fun node => (degrees edges)[node]?.getD 0) allNodes }

def louvain (order : HashOrder) (edges : List (Edge R)) (opts : Options R) : Option Groups :=
  let g := louvainGraph edges
  if g.allNodes = [] then some ∅
  else do
    let m ← totalWeight order edges
    if Arith.isZero m then return tabulate (fun node => [node]) g.allNodes
    else
      let st ← Rounds.run (louvainVisit order g (degrees edges) m opts.resolution) (sortMembers g.allNodes)
        opts.maxIterations 0 (louvainStart edges)
      return communitiesFromAssignment order st.nodeToComm

/-- The visits of the rounds. -/
def louvainTrace (order : HashOrder) (edges : List (Edge R)) (opts : Options R) (m : R) :
    List (Rounds.Visit String (LouvainState R)) :=
  Rounds.trace (louvainVisit order (louvainGraph edges) (degrees edges) m opts.resolution)
    (sortMembers (louvainGraph edges).allNodes) opts.maxIterations 0 (louvainStart edges)

end Louvain

/-! ## Label propagation -/

def countLabel (labels : StringMap String) (freq : StringMap Nat) (nb : String) : StringMap Nat :=
  let lbl := labels[nb]?.getD nb
  freq.insert lbl (freq[lbl]?.getD 0 + 1)

/-- `.min()` -/
def least : List String → Option String
  | [] => none
  | s :: rest => some (rest.foldl (fun best t => if cmpString t best = .lt then t else best) s)

/-- The least of the labels that are as frequent as the most frequent one. -/
def winner (freq : List (String × Nat)) (maxCount : Nat) (current : String) : String :=
  (least ((freq.filter fun e => e.2 = maxCount).map Prod.fst)).getD current

def labelVisit (order : HashOrder) (g : Graph String) (round : Nat) (node : String) (labels : StringMap String) :
    Option (StringMap String × Bool) := do
  let neighbors := g.adj[node]?.getD []
  if neighbors = [] then return (labels, false)
  else
    let freq := neighbors.foldl (countLabel labels) ∅
    let entries := order.arrange (.frequencies round node) freq.toList
    let maxCount := (entries.map Prod.snd).max?.getD 0
    let current ← labels[node]?
    if freq[current]?.getD 0 < maxCount then
      let winner := winner entries maxCount current
      if winner ≠ current then return (labels.insert node winner, true)
      else return (labels, false)
    else return (labels, false)

def labelGraph {R : Type} (edges : List (Edge R)) : Graph String := graphOf (fun node _ => node) edges

def labelPropagation {R : Type} (order : HashOrder) (edges : List (Edge R)) (opts : Options R) : Option Groups :=
  let g := labelGraph edges
  if g.allNodes = [] then some ∅
  else do
    let allNodes := sortMembers g.allNodes
    let labels ← Rounds.run (labelVisit order g) allNodes opts.maxIterations 0 (tabulate id allNodes)
    return communitiesFromAssignment order labels

def labelTrace {R : Type} (order : HashOrder) (edges : List (Edge R)) (opts : Options R) :
    List (Rounds.Visit String (StringMap String)) :=
  let allNodes := sortMembers (labelGraph edges).allNodes
  Rounds.trace (labelVisit order (labelGraph edges)) allNodes opts.maxIterations 0 (tabulate id allNodes)

def detectWeighted {R : Type} [OfNat R 0] [OfNat R 2] [Add R] [Sub R] [Mul R] [Arith R] (order : HashOrder)
    (edges : List (Edge R)) (opts : Options R) : Option Groups :=
  if edges = [] then some ∅
  else match opts.algorithm with
    | .louvain => louvain order edges opts
    | .labelPropagation => labelPropagation order edges opts

/-- Every edge counts one. -/
def detect (order : HashOrder) (edges : List (String × String)) (opts : Options F64) : Option Groups :=
  detectWeighted order (edges.map fun e => (e.1, e.2, (1 : F64))) opts

/-! ## Maps -/

theorem getD_push {α : Type} (m : StringMap (List α)) (key k : String) (a : α) :
    (push m key a)[k]?.getD [] = m[k]?.getD [] ++ if key = k then [a] else [] := by
  rw [push, getElem?_insert_string]
  by_cases hk : key = k
  · simp [hk]
  · simp [hk]

theorem mem_getD_push {α : Type} {m : StringMap (List α)} {key k : String} {a b : α} :
    b ∈ (push m key a)[k]?.getD [] ↔ b ∈ m[k]?.getD [] ∨ key = k ∧ b = a := by
  rw [getD_push, List.mem_append]
  by_cases hk : key = k
  · simp [hk]
  · simp [hk]

theorem mem_push {α : Type} {m : StringMap (List α)} {key k : String} {a : α} :
    k ∈ push m key a ↔ key = k ∨ k ∈ m := by
  rw [push, Std.ExtTreeMap.mem_insert, Std.LawfulEqCmp.compare_eq_iff_eq]

theorem mem_insert_string {V : Type} {m : StringMap V} {key k : String} {v : V} :
    k ∈ m.insert key v ↔ key = k ∨ k ∈ m := by
  rw [Std.ExtTreeMap.mem_insert, Std.LawfulEqCmp.compare_eq_iff_eq]

/-- Two updates that commute at one key commute. -/
theorem insert_right_comm {V : Type} (m : StringMap V) (key key' : String) (g g' : Option V → V)
    (hcomm : ∀ o, g' (some (g o)) = g (some (g' o))) :
    (m.insert key (g m[key]?)).insert key' (g' (m.insert key (g m[key]?))[key']?) =
      (m.insert key' (g' m[key']?)).insert key (g (m.insert key' (g' m[key']?))[key]?) := by
  by_cases hkey : key = key'
  · subst hkey
    simp only [getElem?_insert_string, if_true, hcomm]
    refine Std.ExtTreeMap.ext_getElem? fun k => ?_
    simp only [getElem?_insert_string]
    split <;> rfl
  · refine Std.ExtTreeMap.ext_getElem? fun k => ?_
    simp only [getElem?_insert_string, if_neg hkey, if_neg (Ne.symm hkey)]
    by_cases hk : key = k
    · subst hk
      rw [if_neg (Ne.symm hkey), if_pos rfl, if_pos rfl]
    · simp only [if_neg hk]

theorem getElem?_tabulate {V : Type} (f : String → V) (nodes : List String) (v : String) :
    (tabulate f nodes)[v]? = if v ∈ nodes then some (f v) else none := by
  have hgo : ∀ m : StringMap V, (nodes.foldl (fun m n => m.insert n (f n)) m)[v]? =
      if v ∈ nodes then some (f v) else m[v]? := by
    induction nodes with
    | nil => exact fun m => by simp
    | cons n nodes ih =>
      intro m
      rw [List.foldl_cons, ih, getElem?_insert_string]
      by_cases hmem : v ∈ nodes
      · simp [hmem]
      · by_cases hn : n = v
        · simp [hn]
        · simp [hmem, hn, Ne.symm hn]
  rw [tabulate, hgo, Std.ExtTreeMap.getElem?_empty]

/-! ## The adjacency lists -/

/-- The edges without their weights. -/
def ends {R : Type} (edges : List (Edge R)) : List (String × String) := edges.map fun e => (e.1, e.2.1)

/-- The nodes are the ends of edges, and what a node is listed with is at the other end of one. -/
structure Graph.Of {α : Type} (edges : List (String × String)) (name : α → String) (g : Graph α) : Prop where
  nodup : g.allNodes.Nodup
  mem_allNodes : ∀ v, v ∈ g.allNodes ↔ v ∈ endpoints edges
  adjacent : ∀ v, ∀ nb ∈ g.adj[v]?.getD [], Adjacent edges v (name nb)

theorem mem_endpoints {edges : List (String × String)} {u v : String} (h : Adjacent edges u v) :
    v ∈ endpoints edges := by
  simp only [endpoints, List.mem_flatMap, List.mem_cons, List.not_mem_nil, or_false]
  obtain h | h := h
  · exact ⟨_, h, .inr rfl⟩
  · exact ⟨_, h, .inl rfl⟩

theorem addEdge_spec {α R : Type} {neighbor : String → R → α} {name : α → String}
    (hname : ∀ node weight, name (neighbor node weight) = node) {edges before : List (String × String)}
    {g : Graph α} (hnodup : g.allNodes.Nodup) (hmem : ∀ v, v ∈ g.allNodes ↔ v ∈ endpoints before)
    (hadj : ∀ v, ∀ nb ∈ g.adj[v]?.getD [], Adjacent edges v (name nb)) {e : Edge R}
    (he : (e.1, e.2.1) ∈ edges) :
    (addEdge neighbor g e).allNodes.Nodup ∧
      (∀ v, v ∈ (addEdge neighbor g e).allNodes ↔ v ∈ endpoints (before ++ [(e.1, e.2.1)])) ∧
      ∀ v, ∀ nb ∈ (addEdge neighbor g e).adj[v]?.getD [], Adjacent edges v (name nb) := by
  obtain ⟨src, dst, weight⟩ := e
  have hnodes : (addEdge neighbor g (src, dst, weight)).allNodes = (g.allNodes.insert src).insert dst := by
    simp only [addEdge]
    split <;> rfl
  rw [hnodes]
  refine ⟨(hnodup.insert).insert, fun v => ?_, fun v nb hnb => ?_⟩
  · simp only [List.mem_insert_iff, hmem, endpoints, List.flatMap_append, List.flatMap_cons, List.flatMap_nil,
      List.mem_append, List.mem_cons, List.not_mem_nil, or_false]
    tauto
  · simp only [addEdge] at hnb
    split at hnb
    · exact hadj v nb hnb
    · rw [mem_getD_push, mem_getD_push] at hnb
      obtain (hnb | ⟨rfl, rfl⟩) | ⟨rfl, rfl⟩ := hnb
      · exact hadj v nb hnb
      · rw [hname]
        exact .inl he
      · rw [hname]
        exact .inr he

theorem graphOf_spec {α R : Type} (neighbor : String → R → α) (name : α → String)
    (hname : ∀ node weight, name (neighbor node weight) = node) (edges : List (Edge R)) :
    (graphOf neighbor edges).Of (ends edges) name := by
  have hgo : ∀ (rest : List (Edge R)) (before : List (String × String)) (g : Graph α),
      ends edges = before ++ ends rest → g.allNodes.Nodup →
      (∀ v, v ∈ g.allNodes ↔ v ∈ endpoints before) →
      (∀ v, ∀ nb ∈ g.adj[v]?.getD [], Adjacent (ends edges) v (name nb)) →
      (rest.foldl (addEdge neighbor) g).Of (ends edges) name := by
    intro rest
    induction rest with
    | nil =>
      intro before g hsplit hnodup hmem hadj
      refine ⟨hnodup, fun v => ?_, hadj⟩
      rw [List.foldl_nil, hmem, hsplit, ends, List.map_nil, List.append_nil]
    | cons e rest ih =>
      intro before g hsplit hnodup hmem hadj
      have he : (e.1, e.2.1) ∈ ends edges := by
        rw [hsplit]
        exact List.mem_append_right _ (List.mem_cons_self)
      obtain ⟨hnodup', hmem', hadj'⟩ := addEdge_spec hname hnodup hmem hadj he
      refine ih _ _ ?_ hnodup' hmem' hadj'
      rw [hsplit, ends, ends, List.map_cons, List.append_assoc, List.singleton_append]
  exact hgo edges [] _ rfl .nil (fun v => by simp [endpoints]) (fun v nb hnb => by simp at hnb)

theorem Graph.Of.allNodes_ne_nil {α R : Type} {edges : List (Edge R)} {name : α → String} {g : Graph α}
    (hg : g.Of (ends edges) name) (hne : edges ≠ []) : g.allNodes ≠ [] := by
  obtain ⟨e, rest, rfl⟩ := List.exists_cons_of_ne_nil hne
  exact List.ne_nil_of_mem ((hg.mem_allNodes e.1).mpr (by simp [ends, endpoints]))

/-- What an edge adds to the list of a node. -/
def listed {α R : Type} (neighbor : String → R → α) (v : String) (e : Edge R) : List α :=
  if e.1 = e.2.1 then []
  else (if e.1 = v then [neighbor e.2.1 e.2.2] else []) ++ if e.2.1 = v then [neighbor e.1 e.2.2] else []

theorem adj_graphOf {α R : Type} (neighbor : String → R → α) (edges : List (Edge R)) (v : String) :
    (graphOf neighbor edges).adj[v]?.getD [] = edges.flatMap (listed neighbor v) := by
  have hgo : ∀ g : Graph α, (edges.foldl (addEdge neighbor) g).adj[v]?.getD [] =
      g.adj[v]?.getD [] ++ edges.flatMap (listed neighbor v) := by
    induction edges with
    | nil => exact fun g => (List.append_nil _).symm
    | cons e edges ih =>
      intro g
      rw [List.foldl_cons, ih, List.flatMap_cons]
      simp only [addEdge, listed]
      split
      · rw [List.nil_append]
      · rw [getD_push, getD_push]
        simp only [List.append_assoc]
  rw [graphOf, hgo]
  simp

/-! ## Labels stay in their component -/

/-- Every end of an edge, and nothing else, has a label, and it is joined to it by a path. -/
structure Local (edges : List (String × String)) (labels : StringMap String) : Prop where
  mem_iff : ∀ v, v ∈ labels ↔ v ∈ endpoints edges
  connected : ∀ v label : String, labels[v]? = some label → Connected edges v label

theorem Local.get {edges : List (String × String)} {labels : StringMap String} (h : Local edges labels)
    {v : String} (hv : v ∈ endpoints edges) : ∃ label, labels[v]? = some label ∧ Connected edges v label := by
  have hmem := (h.mem_iff v).mpr hv
  rw [Std.ExtTreeMap.mem_iff_isSome_getElem?] at hmem
  obtain ⟨label, hlabel⟩ := Option.isSome_iff_exists.mp hmem
  exact ⟨label, hlabel, h.connected v label hlabel⟩

/-- The label of a neighbour is as near as the neighbour. -/
theorem Local.neighbor {edges : List (String × String)} {labels : StringMap String} (h : Local edges labels)
    {u v : String} (huv : Adjacent edges u v) : ∃ label, labels[v]? = some label ∧ Connected edges u label := by
  obtain ⟨label, hlabel, hconnected⟩ := h.get (mem_endpoints huv)
  exact ⟨label, hlabel, .head huv hconnected⟩

theorem Local.insert {edges : List (String × String)} {labels : StringMap String} (h : Local edges labels)
    {v label : String} (hv : v ∈ endpoints edges) (hlabel : Connected edges v label) :
    Local edges (labels.insert v label) := by
  refine ⟨fun u => ?_, fun u l hl => ?_⟩
  · rw [mem_insert_string, h.mem_iff]
    exact or_iff_right_of_imp fun heq => heq ▸ hv
  · rw [getElem?_insert_string] at hl
    split at hl
    · rename_i heq
      subst heq
      cases hl
      exact hlabel
    · exact h.connected u l hl

/-- A node takes the label of a neighbour in place of its own. -/
def Relabels (edges : List (String × String)) (node : String) (labels labels' : StringMap String) : Prop :=
  ∃ nb current target, Adjacent edges node nb ∧ labels[node]? = some current ∧ labels[nb]? = some target ∧
    target ≠ current ∧ labels' = labels.insert node target

theorem Local.relabels {edges : List (String × String)} {labels labels' : StringMap String} {node : String}
    (h : Local edges labels) (hr : Relabels edges node labels labels') : Local edges labels' := by
  obtain ⟨nb, current, target, hadj, -, htarget, -, rfl⟩ := hr
  exact h.insert (mem_endpoints hadj.symm) (.head hadj (h.connected nb target htarget))

theorem local_start {edges : List (String × String)} {nodes : List String}
    (hnodes : ∀ v, v ∈ nodes ↔ v ∈ endpoints edges) : Local edges (tabulate id nodes) := by
  refine ⟨fun v => ?_, fun v label hlabel => ?_⟩
  · rw [Std.ExtTreeMap.mem_iff_isSome_getElem?, getElem?_tabulate, ← hnodes]
    by_cases hv : v ∈ nodes
    · simp [hv]
    · simp [hv]
  · rw [getElem?_tabulate] at hlabel
    split at hlabel
    · cases hlabel
      exact .refl
    · cases hlabel

/-! ## Louvain takes communities of neighbours -/

section Louvain

variable {R : Type} [OfNat R 0] [OfNat R 2] [Add R] [Sub R] [Mul R] [Arith R]

omit [OfNat R 2] [Sub R] [Mul R] [Arith R] in
/-- The candidates are the communities of neighbours. -/
theorem kInPerComm_spec {P : String → Prop} {nodeToComm : StringMap String} {neighbors : List (String × R)}
    (h : ∀ e ∈ neighbors, ∃ comm, nodeToComm[e.1]? = some comm ∧ P comm) (acc : StringMap R)
    (hacc : ∀ comm ∈ acc, P comm) :
    ∃ kIn, kInPerComm nodeToComm neighbors acc = some kIn ∧ ∀ comm ∈ kIn, P comm := by
  induction neighbors generalizing acc with
  | nil => exact ⟨acc, rfl, hacc⟩
  | cons e neighbors ih =>
    obtain ⟨⟨comm, hcomm, hP⟩, h⟩ := List.forall_mem_cons.mp h
    have hacc' : ∀ c ∈ addTo acc comm e.2, P c := by
      intro c hc
      obtain rfl | hc := mem_insert_string.mp hc
      · exact hP
      · exact hacc c hc
    obtain ⟨kIn, hrest, hkIn⟩ := ih h _ hacc'
    exact ⟨kIn, by simp [kInPerComm, hcomm, hrest], hkIn⟩

omit [OfNat R 0] [OfNat R 2] [Add R] [Sub R] [Mul R] in
theorem bestComm_spec {net : String → R → Option R} {currentComm : String} {P : String → Prop}
    {candidates : List (String × R)} (hnet : ∀ comm k, ∃ gain, net comm k = some gain)
    (hP : ∀ c ∈ candidates, P c.1) {best : R × Option String}
    (hbest : ∀ target, best.2 = some target → P target ∧ target ≠ currentComm) :
    ∃ result, bestComm net currentComm candidates best = some result ∧
      ∀ target, result.2 = some target → P target ∧ target ≠ currentComm := by
  induction candidates generalizing best with
  | nil => exact ⟨best, rfl, hbest⟩
  | cons c candidates ih =>
    obtain ⟨hc, hP⟩ := List.forall_mem_cons.mp hP
    rw [bestComm]
    split
    · exact ih hP hbest
    · rename_i hcurrent
      obtain ⟨gain, hgain⟩ := hnet c.1 c.2
      simp only [hgain, Option.bind_eq_bind, Option.bind_some]
      refine ih hP fun target htarget => ?_
      split at htarget
      · cases htarget
        exact ⟨hc, hcurrent⟩
      · exact hbest target htarget

omit [OfNat R 0] [Add R] in
theorem gainOf_spec {m : R} (hdiv : ∀ x : R, ∃ q, Arith.div x (2 * m) = some q) (resolution ki kiInC sigma : R) :
    ∃ gain, gainOf m resolution ki kiInC sigma = some gain := by
  obtain ⟨q, hq⟩ := hdiv (resolution * sigma * ki)
  exact ⟨kiInC - q, by simp [gainOf, hq]⟩

theorem bestMove_spec {edges : List (String × String)} {g : Graph (String × R)} (hg : g.Of edges Prod.fst)
    {m : R} (hdiv : ∀ x : R, ∃ q, Arith.div x (2 * m) = some q) (order : HashOrder) (resolution : R) (pass : Nat)
    (node : String) (ki : R) (currentComm : String) {st : LouvainState R} (h : Local edges st.nodeToComm) :
    ∃ best, bestMove order g m resolution pass node ki currentComm st = some best ∧ ∀ target, best.2 = some target →
      (∃ nb, Adjacent edges node nb ∧ st.nodeToComm[nb]? = some target) ∧ target ≠ currentComm := by
  have hneighbors : ∀ e ∈ g.adj[node]?.getD [], ∃ comm, st.nodeToComm[e.1]? = some comm ∧
      ∃ nb, Adjacent edges node nb ∧ st.nodeToComm[nb]? = some comm := by
    intro e he
    have hadj := hg.adjacent node e he
    obtain ⟨label, hlabel, _⟩ := h.neighbor hadj
    exact ⟨label, hlabel, e.1, hadj, hlabel⟩
  obtain ⟨kIn, hkIn, hnear⟩ := kInPerComm_spec hneighbors ∅ (fun comm hcomm => by simp at hcomm)
  obtain ⟨baseline, hbaseline⟩ := gainOf_spec hdiv resolution ki (kIn[currentComm]?.getD 0)
    (st.sigmaTot[currentComm]?.getD 0 - ki)
  simp only [bestMove, hkIn, hbaseline, Option.bind_eq_bind, Option.bind_some]
  refine bestComm_spec (fun comm k => ?_) (fun c hc => ?_) (fun target htarget => by cases htarget)
  · obtain ⟨gain, hgain⟩ := gainOf_spec hdiv resolution ki k (st.sigmaTot[comm]?.getD 0)
    exact ⟨gain - baseline, by simp [hgain]⟩
  · rw [(order.arrange_perm _ _).mem_iff, Std.ExtTreeMap.mem_toList_iff_getElem?_eq_some] at hc
    refine hnear c.1 ?_
    rw [Std.ExtTreeMap.mem_iff_isSome_getElem?, hc]
    rfl

/-- A visit leaves all as it is, or moves the node to another community, which a neighbour is in. -/
theorem louvainVisit_cases {edges : List (String × String)} {g : Graph (String × R)} (hg : g.Of edges Prod.fst)
    {m : R} (hdiv : ∀ x : R, ∃ q, Arith.div x (2 * m) = some q) (order : HashOrder) (degree : StringMap R)
    (resolution : R) (pass : Nat) {node : String} (hnode : node ∈ endpoints edges) {st : LouvainState R}
    (h : Local edges st.nodeToComm) : ∃ st' moved,
      louvainVisit order g degree m resolution pass node st = some (st', moved) ∧
      (moved = false ∧ st' = st ∨ moved = true ∧ Relabels edges node st.nodeToComm st'.nodeToComm) := by
  obtain ⟨currentComm, hcurrent, _⟩ := h.get hnode
  obtain ⟨best, hbest, htarget⟩ := bestMove_spec hg hdiv order resolution pass node (degree[node]?.getD 0)
    currentComm h
  simp only [louvainVisit, hcurrent, hbest, Option.bind_eq_bind, Option.bind_some]
  split
  · exact ⟨st, false, rfl, .inl ⟨rfl, rfl⟩⟩
  · split
    · exact ⟨st, false, rfl, .inl ⟨rfl, rfl⟩⟩
    · rename_i targetComm hsome
      obtain ⟨⟨nb, hadj, hnb⟩, hne⟩ := htarget targetComm hsome
      exact ⟨_, true, rfl, .inr ⟨rfl, nb, currentComm, targetComm, hadj, hcurrent, hnb, hne, rfl⟩⟩

end Louvain

/-! ## Label propagation takes labels of neighbours -/

theorem countLabels_spec {P : String → Prop} {labels : StringMap String} {neighbors : List String}
    (h : ∀ nb ∈ neighbors, ∃ label, labels[nb]? = some label ∧ P label) (freq : StringMap Nat)
    (hfreq : ∀ label ∈ freq, P label) : ∀ label ∈ neighbors.foldl (countLabel labels) freq, P label := by
  induction neighbors generalizing freq with
  | nil => exact hfreq
  | cons nb neighbors ih =>
    obtain ⟨⟨lbl, hlbl, hP⟩, h⟩ := List.forall_mem_cons.mp h
    refine ih h _ fun label hlabel => ?_
    simp only [countLabel, hlbl, Option.getD_some] at hlabel
    obtain rfl | hlabel := mem_insert_string.mp hlabel
    · exact hP
    · exact hfreq label hlabel

/-- The least one is one of them, and none is less. -/
theorem least_spec {s : String} {ss : List String} (h : least ss = some s) :
    s ∈ ss ∧ ∀ t ∈ ss, cmpString t s ≠ .lt := by
  cases ss with
  | nil => cases h
  | cons first rest =>
    have hgo : ∀ (rest : List String) (best : String),
        rest.foldl (fun best t => if cmpString t best = .lt then t else best) best ∈ best :: rest ∧
        ∀ t ∈ best :: rest,
          cmpString t (rest.foldl (fun best t => if cmpString t best = .lt then t else best) best) ≠ .lt := by
      intro rest
      induction rest with
      | nil =>
        intro best
        have hself : cmpString best best = .eq := Std.ReflCmp.compare_self
        exact ⟨List.mem_cons_self, List.forall_mem_singleton.mpr (by simp [hself])⟩
      | cons t rest ih =>
        intro best
        rw [List.foldl_cons]
        by_cases hlt : cmpString t best = .lt
        · rw [if_pos hlt]
          obtain ⟨hmem, hleast⟩ := ih t
          refine ⟨List.mem_cons_of_mem _ hmem, List.forall_mem_cons.mpr ⟨fun hbest => ?_, hleast⟩⟩
          exact hleast t List.mem_cons_self (Std.TransCmp.lt_trans hlt hbest)
        · rw [if_neg hlt]
          obtain ⟨hmem, hleast⟩ := ih best
          obtain ⟨hbest, hrest⟩ := List.forall_mem_cons.mp hleast
          refine ⟨?_, List.forall_mem_cons.mpr ⟨hbest, List.forall_mem_cons.mpr ⟨fun ht => ?_, hrest⟩⟩⟩
          · obtain heq | hmem := List.mem_cons.mp hmem
            · exact List.mem_cons.mpr (.inl heq)
            · exact List.mem_cons_of_mem _ (List.mem_cons_of_mem _ hmem)
          · have hle := Std.OrientedCmp.isLE_of_isGE (Ordering.isGE_iff_ne_lt.mpr hbest)
            exact hlt (Std.TransCmp.lt_of_lt_of_isLE ht hle)
    cases h
    exact hgo rest first

theorem winner_cases (freq : List (String × Nat)) (maxCount : Nat) (current : String) :
    winner freq maxCount current = current ∨ ∃ count, (winner freq maxCount current, count) ∈ freq := by
  simp only [winner]
  cases hleast : least ((freq.filter fun e => e.2 = maxCount).map Prod.fst) with
  | none => exact .inl rfl
  | some label =>
    obtain ⟨e, he, rfl⟩ := List.mem_map.mp (least_spec hleast).1
    exact .inr ⟨e.2, List.mem_of_mem_filter he⟩

theorem labelVisit_cases {edges : List (String × String)} {g : Graph String} (hg : g.Of edges id)
    (order : HashOrder) (round : Nat) {node : String} (hnode : node ∈ endpoints edges) {labels : StringMap String}
    (h : Local edges labels) : ∃ labels' changed, labelVisit order g round node labels = some (labels', changed) ∧
      (changed = false ∧ labels' = labels ∨ changed = true ∧ Relabels edges node labels labels') := by
  obtain ⟨current, hcurrent, _⟩ := h.get hnode
  have hneighbors : ∀ nb ∈ g.adj[node]?.getD [], ∃ label, labels[nb]? = some label ∧
      ∃ nb, Adjacent edges node nb ∧ labels[nb]? = some label := by
    intro nb hnb
    have hadj := hg.adjacent node nb hnb
    obtain ⟨label, hlabel, _⟩ := h.neighbor hadj
    exact ⟨label, hlabel, nb, hadj, hlabel⟩
  have hnear := countLabels_spec hneighbors ∅ (fun label hlabel => by simp at hlabel)
  simp only [labelVisit, hcurrent, Option.bind_eq_bind, Option.bind_some]
  split
  · exact ⟨labels, false, rfl, .inl ⟨rfl, rfl⟩⟩
  · split
    · split
      · rename_i hne
        refine ⟨_, true, rfl, .inr ⟨rfl, ?_⟩⟩
        obtain heq | ⟨count, hmem⟩ := winner_cases _ _ current
        · exact absurd heq hne
        · rw [(order.arrange_perm _ _).mem_iff, Std.ExtTreeMap.mem_toList_iff_getElem?_eq_some] at hmem
          obtain ⟨nb, hadj, hnb⟩ := hnear _ (by
            rw [Std.ExtTreeMap.mem_iff_isSome_getElem?, hmem]
            rfl)
          exact ⟨nb, current, _, hadj, hcurrent, hnb, hne, rfl⟩
      · exact ⟨labels, false, rfl, .inl ⟨rfl, rfl⟩⟩
    · exact ⟨labels, false, rfl, .inl ⟨rfl, rfl⟩⟩

/-! ## Communities -/

/-- The nodes with the label `key`. -/
def labelled (entries : List (String × String)) (key : String) : List String :=
  (entries.filter fun e => e.2 = key).map Prod.fst

theorem mem_labelled {entries : List (String × String)} {key v : String} :
    v ∈ labelled entries key ↔ (v, key) ∈ entries := by
  simp [labelled]

theorem group_spec (entries : List (String × String)) (groups : Groups) (key : String) :
    (entries.foldl (fun gs e => push gs e.2 e.1) groups)[key]?.getD [] =
        groups[key]?.getD [] ++ labelled entries key ∧
      (key ∈ entries.foldl (fun gs e => push gs e.2 e.1) groups ↔
        key ∈ groups ∨ labelled entries key ≠ []) := by
  induction entries generalizing groups with
  | nil => simp [labelled]
  | cons e entries ih =>
    obtain ⟨hmembers, hkey⟩ := ih (push groups e.2 e.1)
    have hhead : labelled (e :: entries) key = (if e.2 = key then [e.1] else []) ++ labelled entries key := by
      by_cases hk : e.2 = key
      · simp [labelled, hk]
      · simp [labelled, hk]
    rw [List.foldl_cons, hmembers, hkey, hhead, getD_push, mem_push]
    by_cases hk : e.2 = key
    · simp [hk]
    · simp [hk]

/-- The groups of a result. -/
structure Communities (edges : List (String × String)) (groups : Groups) : Prop where
  covers : ∀ v, v ∈ endpoints edges ↔ ∃ (key : String) (members : List String),
    groups[key]? = some members ∧ v ∈ members
  disjoint : ∀ (key key' : String) (members members' : List String) (v : String), groups[key]? = some members →
    groups[key']? = some members' → v ∈ members → v ∈ members' → key = key'
  nonempty : ∀ (key : String) (members : List String), groups[key]? = some members → members ≠ []
  sorted : ∀ (key : String) (members : List String), groups[key]? = some members →
    members.Pairwise fun a b => cmpString a b = .lt
  connected : ∀ (key : String) (members : List String), groups[key]? = some members →
    ∀ u ∈ members, ∀ v ∈ members, Connected edges u v

/-- The groups are the sorted lists of the nodes with one label. -/
structure GroupsOf (labels : StringMap String) (groups : Groups) : Prop where
  group : ∀ (key : String) (members : List String), groups[key]? = some members →
    members ≠ [] ∧ (members.Pairwise fun a b => cmpString a b = .lt) ∧ ∀ v, v ∈ members ↔ labels[v]? = some key
  exists_group : ∀ v key : String, labels[v]? = some key → ∃ members, groups[key]? = some members

theorem GroupsOf.communities {edges : List (String × String)} {labels : StringMap String} {groups : Groups}
    (hg : GroupsOf labels groups) (h : Local edges labels) : Communities edges groups := by
  refine ⟨fun v => ⟨fun hv => ?_, ?_⟩, ?_, fun key members hgroup => (hg.group key members hgroup).1,
    fun key members hgroup => (hg.group key members hgroup).2.1, ?_⟩
  · obtain ⟨key, hlabel, _⟩ := h.get hv
    obtain ⟨members, hgroup⟩ := hg.exists_group v key hlabel
    exact ⟨key, members, hgroup, ((hg.group key members hgroup).2.2 v).mpr hlabel⟩
  · rintro ⟨key, members, hgroup, hv⟩
    have hlabel := ((hg.group key members hgroup).2.2 v).mp hv
    rw [← h.mem_iff, Std.ExtTreeMap.mem_iff_isSome_getElem?, hlabel]
    rfl
  · intro key key' members members' v hgroup hgroup' hv hv'
    have hlabel := ((hg.group key members hgroup).2.2 v).mp hv
    have hlabel' := ((hg.group key' members' hgroup').2.2 v).mp hv'
    exact Option.some.inj (hlabel.symm.trans hlabel')
  · intro key members hgroup u hu v hv
    have hE := Components.connected_equivalence edges
    have hu := h.connected u key (((hg.group key members hgroup).2.2 u).mp hu)
    have hv := h.connected v key (((hg.group key members hgroup).2.2 v).mp hv)
    exact hE.trans hu (hE.symm hv)

/-- Strictly sorted lists of the same strings are equal. -/
theorem eq_of_sorted {members members' : List String} (h : members.Pairwise fun a b => cmpString a b = .lt)
    (h' : members'.Pairwise fun a b => cmpString a b = .lt) (hmem : ∀ v, v ∈ members ↔ v ∈ members') :
    members = members' := by
  have hne : ∀ a b : String, cmpString a b = .lt → a ≠ b := by
    rintro a b hab rfl
    have hself : cmpString a a = .eq := Std.ReflCmp.compare_self
    cases hself.symm.trans hab
  have hperm : members.Perm members' := (List.perm_ext_iff_of_nodup (h.imp (hne _ _)) (h'.imp (hne _ _))).mpr hmem
  refine hperm.eq_of_pairwise (fun a b _ _ hab hba => ?_) h h'
  have hswap : cmpString b a = (cmpString a b).swap := Std.OrientedCmp.eq_swap
  rw [hab, hba] at hswap
  cases hswap

theorem sortMembers_eq {members sorted : List String} (h : members.Nodup)
    (hsorted : sorted.Pairwise fun a b => cmpString a b = .lt) (hmem : ∀ v, v ∈ members ↔ v ∈ sorted) :
    sortMembers members = sorted :=
  eq_of_sorted (Components.pairwise_sortMembers h) hsorted fun v => List.mem_mergeSort.trans (hmem v)

theorem GroupsOf.eq {labels : StringMap String} {groups groups' : Groups} (h : GroupsOf labels groups)
    (h' : GroupsOf labels groups') : groups = groups' := by
  have hsub : ∀ {groups groups' : Groups}, GroupsOf labels groups → GroupsOf labels groups' →
      ∀ (key : String) (members : List String), groups[key]? = some members → groups'[key]? = some members := by
    intro groups groups' h h' key members hgroup
    obtain ⟨hne, hsorted, hmem⟩ := h.group key members hgroup
    obtain ⟨v, hv⟩ := List.exists_mem_of_ne_nil _ hne
    obtain ⟨members', hgroup'⟩ := h'.exists_group v key ((hmem v).mp hv)
    obtain ⟨-, hsorted', hmem'⟩ := h'.group key members' hgroup'
    rw [hgroup', eq_of_sorted hsorted hsorted' fun v => (hmem v).trans (hmem' v).symm]
  refine Std.ExtTreeMap.ext_getElem? fun key => ?_
  exact Option.ext fun members => ⟨hsub h h' key members, hsub h' h key members⟩

theorem groupsOf_assignment (order : HashOrder) (labels : StringMap String) :
    GroupsOf labels (communitiesFromAssignment order labels) := by
  have hperm := order.arrange_perm .assignment labels.toList
  have hentry : ∀ v key : String,
      v ∈ labelled (order.arrange .assignment labels.toList) key ↔ labels[v]? = some key := by
    intro v key
    rw [mem_labelled, hperm.mem_iff, Std.ExtTreeMap.mem_toList_iff_getElem?_eq_some]
  have hnodup : ∀ key, (labelled (order.arrange .assignment labels.toList) key).Nodup := by
    intro key
    have hkeys : (labels.toList.map Prod.fst).Nodup := by
      rw [Std.ExtTreeMap.map_fst_toList_eq_keys]
      exact Std.ExtTreeMap.nodup_keys
    exact ((hperm.map Prod.fst).nodup_iff.mpr hkeys).sublist (List.filter_sublist.map Prod.fst)
  have hgroup : ∀ (key : String) (members : List String),
      (communitiesFromAssignment order labels)[key]? = some members ↔
      labelled (order.arrange .assignment labels.toList) key ≠ [] ∧
        members = sortMembers (labelled (order.arrange .assignment labels.toList) key) := by
    intro key members
    obtain ⟨hmembers, hkey⟩ := group_spec (order.arrange .assignment labels.toList) ∅ key
    simp only [Std.ExtTreeMap.getElem?_empty, Option.getD_none, List.nil_append, Std.ExtTreeMap.not_mem_empty,
      false_or] at hmembers hkey
    rw [communitiesFromAssignment, Std.ExtTreeMap.getElem?_map, Option.map_eq_some_iff, ← hkey, ← hmembers,
      Std.ExtTreeMap.mem_iff_isSome_getElem?]
    cases (List.foldl _ ∅ _ : Groups)[key]? with
    | none => simp
    | some ms => simp [eq_comm]
  refine ⟨fun key members hmembers => ?_, fun v key hlabel => ?_⟩
  · obtain ⟨hne, rfl⟩ := (hgroup key members).mp hmembers
    refine ⟨?_, Components.pairwise_sortMembers (hnodup key), fun v => ?_⟩
    · obtain ⟨v, hv⟩ := List.exists_mem_of_ne_nil _ hne
      exact List.ne_nil_of_mem (List.mem_mergeSort.mpr hv)
    · rw [← hentry]
      exact List.mem_mergeSort
  · exact ⟨_, (hgroup key _).mpr ⟨List.ne_nil_of_mem ((hentry v key).mpr hlabel), rfl⟩⟩

theorem groupsOf_singletons (nodes : List String) :
    GroupsOf (tabulate id nodes) (tabulate (fun node => [node]) nodes) := by
  refine ⟨fun key members hgroup => ?_, fun v key hlabel => ?_⟩
  · rw [getElem?_tabulate] at hgroup
    split at hgroup
    · rename_i hkey
      cases hgroup
      refine ⟨List.cons_ne_nil _ _, List.pairwise_singleton _ _, fun v => ?_⟩
      rw [getElem?_tabulate, List.mem_singleton]
      constructor
      · rintro rfl
        exact if_pos hkey
      · intro hlabel
        split at hlabel
        · exact Option.some.inj hlabel
        · cases hlabel
    · cases hgroup
  · rw [getElem?_tabulate] at hlabel ⊢
    split at hlabel
    · rename_i hv
      cases hlabel
      exact ⟨[v], if_pos hv⟩
    · cases hlabel

theorem mem_sorted {edges : List (String × String)} {α : Type} {name : α → String} {g : Graph α}
    (hg : g.Of edges name) (v : String) : v ∈ sortMembers g.allNodes ↔ v ∈ endpoints edges :=
  List.mem_mergeSort.trans (hg.mem_allNodes v)

theorem communities_empty {edges : List (String × String)} (h : ∀ v, v ∉ endpoints edges) :
    Communities edges ∅ := by
  have hnone : ∀ (key : String) (members : List String), (∅ : Groups)[key]? ≠ some members := by simp
  exact ⟨fun v => ⟨fun hv => absurd hv (h v),
      fun ⟨key, members, hgroup, _⟩ => absurd hgroup (hnone key members)⟩,
    fun key _ members _ _ hgroup => absurd hgroup (hnone key members),
    fun key members hgroup => absurd hgroup (hnone key members),
    fun key members hgroup => absurd hgroup (hnone key members),
    fun key members hgroup => absurd hgroup (hnone key members)⟩

theorem run_relabels {σ : Type} {visit : Nat → String → σ → Option (σ × Bool)} {as : List String}
    (f : σ → StringMap String) {edges : List (String × String)}
    (hvisit : ∀ n, ∀ a ∈ as, ∀ st, Local edges (f st) → ∃ st' changed, visit n a st = some (st', changed) ∧
      (changed = false ∧ st' = st ∨ changed = true ∧ Relabels edges a (f st) (f st')))
    (left n : Nat) {st : σ} (hst : Local edges (f st)) :
    ∃ st', Rounds.run visit as left n st = some st' ∧ Local edges (f st') ∧
      Rounds.Leads visit as st (Rounds.trace visit as left n st) st' ∧
      ∀ v ∈ Rounds.trace visit as left n st, Local edges (f v.before) ∧ (v.changed = false ∧ v.after = v.before ∨
        v.changed = true ∧ Relabels edges v.element (f v.before) (f v.after)) := by
  have hkeep : ∀ n, ∀ a ∈ as, ∀ st, Local edges (f st) → ∃ st' changed, visit n a st = some (st', changed) ∧
      Local edges (f st') := by
    intro n a ha st hst
    obtain ⟨st', changed, hrun, ⟨-, rfl⟩ | ⟨-, hr⟩⟩ := hvisit n a ha st hst
    · exact ⟨st', changed, hrun, hst⟩
    · exact ⟨st', changed, hrun, hst.relabels hr⟩
  obtain ⟨st', hrun, hlocal⟩ := Rounds.run_spec (P := fun st => Local edges (f st)) hkeep left n hst
  have hleads := Rounds.run_leads hrun
  have hcases : ∀ v ∈ Rounds.trace visit as left n st, Local edges (f v.before) →
      v.changed = false ∧ v.after = v.before ∨ v.changed = true ∧ Relabels edges v.element (f v.before) (f v.after) := by
    intro v hv hbefore
    obtain ⟨hmem, heq⟩ := hleads.visit_eq v hv
    obtain ⟨st₁, changed, heq', hcase⟩ := hvisit v.round v.element hmem v.before hbefore
    cases heq.symm.trans heq'
    exact hcase
  have hlocals := hleads.keeps (P := fun st => Local edges (f st)) hst fun v hv hbefore => by
    obtain ⟨-, heq⟩ | ⟨-, hr⟩ := hcases v hv hbefore
    · rwa [heq]
    · exact hbefore.relabels hr
  exact ⟨st', hrun, hlocal, hleads, fun v hv => ⟨(hlocals.1 v hv).1, hcases v hv (hlocals.1 v hv).1⟩⟩

theorem louvainGraph_of {R : Type} (edges : List (Edge R)) : (louvainGraph edges).Of (ends edges) Prod.fst :=
  graphOf_spec Prod.mk Prod.fst (fun _ _ => rfl) edges

theorem labelGraph_of {R : Type} (edges : List (Edge R)) : (labelGraph edges).Of (ends edges) id :=
  graphOf_spec (fun node _ => node) id (fun _ _ => rfl) edges

/-- The quotients that Louvain asks for are there. -/
structure Divides (R : Type) [OfNat R 0] [OfNat R 2] [Mul R] [Arith R] : Prop where
  half : ∀ x : R, ∃ q, Arith.div x 2 = some q
  twice : ∀ m : R, Arith.isZero m = false → ∀ x, ∃ q, Arith.div x (2 * m) = some q

theorem divides_f64 : Divides F64 := ⟨fun _ => ⟨_, rfl⟩, fun _ _ _ => ⟨_, rfl⟩⟩

theorem divides_rat : Divides ℚ := by
  refine ⟨fun x => ⟨_, Arith.div_rat two_ne_zero x⟩, fun m hm x => ⟨_, Arith.div_rat ?_ x⟩⟩
  exact mul_ne_zero two_ne_zero (by simpa using hm)

section Detect

variable {R : Type} [OfNat R 0] [OfNat R 2] [Add R] [Sub R] [Mul R] [Arith R]

theorem louvain_run (hR : Divides R) (order : HashOrder) (edges : List (Edge R)) (opts : Options R) {m : R}
    (hm : Arith.isZero m = false) :
    ∃ st, Rounds.run (louvainVisit order (louvainGraph edges) (degrees edges) m opts.resolution)
        (sortMembers (louvainGraph edges).allNodes) opts.maxIterations 0 (louvainStart edges) = some st ∧
      Local (ends edges) st.nodeToComm ∧
      Rounds.Leads (louvainVisit order (louvainGraph edges) (degrees edges) m opts.resolution)
        (sortMembers (louvainGraph edges).allNodes) (louvainStart edges) (louvainTrace order edges opts m) st ∧
      ∀ v ∈ louvainTrace order edges opts m, Local (ends edges) v.before.nodeToComm ∧
        (v.changed = false ∧ v.after = v.before ∨
          v.changed = true ∧ Relabels (ends edges) v.element v.before.nodeToComm v.after.nodeToComm) := by
  have hg := louvainGraph_of edges
  refine run_relabels LouvainState.nodeToComm (fun pass node hnode st hst => ?_) opts.maxIterations 0
    (local_start (mem_sorted hg))
  exact louvainVisit_cases hg (hR.twice m hm) order (degrees edges) opts.resolution pass
    ((mem_sorted hg node).mp hnode) hst

theorem louvain_eq (hR : Divides R) (order : HashOrder) (edges : List (Edge R)) (opts : Options R)
    (hne : (louvainGraph edges).allNodes ≠ []) :
    ∃ m, totalWeight order edges = some m ∧
      (Arith.isZero m = true ∧ louvain order edges opts =
          some (tabulate (fun node => [node]) (louvainGraph edges).allNodes) ∨
        Arith.isZero m = false ∧ ∃ st, Rounds.Leads
            (louvainVisit order (louvainGraph edges) (degrees edges) m opts.resolution)
            (sortMembers (louvainGraph edges).allNodes) (louvainStart edges) (louvainTrace order edges opts m) st ∧
          Local (ends edges) st.nodeToComm ∧
          louvain order edges opts = some (communitiesFromAssignment order st.nodeToComm)) := by
  obtain ⟨m, hm⟩ : ∃ m, totalWeight order edges = some m := hR.half _
  refine ⟨m, hm, ?_⟩
  simp only [louvain, if_neg hne, hm, Option.bind_eq_bind, Option.bind_some]
  cases hzero : Arith.isZero m with
  | true => exact .inl ⟨rfl, rfl⟩
  | false =>
    obtain ⟨st, hrun, hlocal, hleads, -⟩ := louvain_run hR order edges opts hzero
    exact .inr ⟨rfl, st, hleads, hlocal, by simp [hrun]⟩

theorem louvain_spec (hR : Divides R) (order : HashOrder) (edges : List (Edge R)) (opts : Options R) :
    ∃ groups, louvain order edges opts = some groups ∧ Communities (ends edges) groups := by
  have hg := louvainGraph_of edges
  by_cases hnil : (louvainGraph edges).allNodes = []
  · refine ⟨∅, if_pos hnil, communities_empty fun v => ?_⟩
    rw [← hg.mem_allNodes, hnil]
    exact List.not_mem_nil
  · obtain ⟨m, -, ⟨-, heq⟩ | ⟨-, st, -, hst, heq⟩⟩ := louvain_eq hR order edges opts hnil
    · exact ⟨_, heq, (groupsOf_singletons _).communities (local_start hg.mem_allNodes)⟩
    · exact ⟨_, heq, (groupsOf_assignment order _).communities hst⟩

end Detect

theorem labelPropagation_run {R : Type} (order : HashOrder) (edges : List (Edge R)) (opts : Options R) :
    ∃ labels, Rounds.run (labelVisit order (labelGraph edges)) (sortMembers (labelGraph edges).allNodes)
        opts.maxIterations 0 (tabulate id (sortMembers (labelGraph edges).allNodes)) = some labels ∧
      Local (ends edges) labels ∧
      Rounds.Leads (labelVisit order (labelGraph edges)) (sortMembers (labelGraph edges).allNodes)
        (tabulate id (sortMembers (labelGraph edges).allNodes)) (labelTrace order edges opts) labels ∧
      ∀ v ∈ labelTrace order edges opts, Local (ends edges) v.before ∧ (v.changed = false ∧ v.after = v.before ∨
        v.changed = true ∧ Relabels (ends edges) v.element v.before v.after) := by
  have hg := labelGraph_of edges
  refine run_relabels id (fun round node hnode labels hlabels => ?_) opts.maxIterations 0 (local_start (mem_sorted hg))
  exact labelVisit_cases hg order round ((mem_sorted hg node).mp hnode) hlabels

theorem labelPropagation_eq {R : Type} (order : HashOrder) (edges : List (Edge R)) (opts : Options R)
    (hne : (labelGraph edges).allNodes ≠ []) : ∃ labels, Local (ends edges) labels ∧
      Rounds.Leads (labelVisit order (labelGraph edges)) (sortMembers (labelGraph edges).allNodes)
        (tabulate id (sortMembers (labelGraph edges).allNodes)) (labelTrace order edges opts) labels ∧
      labelPropagation order edges opts = some (communitiesFromAssignment order labels) := by
  obtain ⟨labels, hrun, hlocal, hleads, -⟩ := labelPropagation_run order edges opts
  exact ⟨labels, hlocal, hleads, by simp [labelPropagation, hne, hrun]⟩

theorem labelPropagation_spec {R : Type} (order : HashOrder) (edges : List (Edge R)) (opts : Options R) :
    ∃ groups, labelPropagation order edges opts = some groups ∧ Communities (ends edges) groups := by
  have hg := labelGraph_of edges
  by_cases hnil : (labelGraph edges).allNodes = []
  · refine ⟨∅, if_pos hnil, communities_empty fun v => ?_⟩
    rw [← hg.mem_allNodes, hnil]
    exact List.not_mem_nil
  · obtain ⟨labels, hlabels, -, heq⟩ := labelPropagation_eq order edges opts hnil
    exact ⟨_, heq, (groupsOf_assignment order _).communities hlabels⟩

/-- Both algorithms split the ends of the edges into communities that stay in a component. -/
theorem communities_refine_components (order : HashOrder) (edges : List (Edge F64)) (opts : Options F64) :
    ∃ groups, detectWeighted order edges opts = some groups ∧ Communities (ends edges) groups := by
  simp only [detectWeighted]
  split
  · rename_i hnil
    exact ⟨∅, rfl, communities_empty fun v => by simp [hnil, ends, endpoints]⟩
  · cases opts.algorithm with
    | louvain => exact louvain_spec divides_f64 order edges opts
    | labelPropagation => exact labelPropagation_spec order edges opts

/-- A community lies in one of the groups that the components are. -/
theorem Communities.subset_component {edges : List (String × String)} {groups components : Groups}
    (h : Communities edges groups) (hcomponents : Components.Partition edges components) {key : String}
    {members : List String} (hgroup : groups[key]? = some members) :
    ∃ (key' : String) (component : List String), components[key']? = some component ∧ members ⊆ component := by
  have hend : ∀ u ∈ members, u ∈ endpoints edges := fun u hu => (h.covers u).mpr ⟨key, members, hgroup, hu⟩
  obtain ⟨v, hv⟩ := List.exists_mem_of_ne_nil _ (h.nonempty key members hgroup)
  obtain ⟨key', component, hcomponent, hv'⟩ := (hcomponents.covers v).mp (hend v hv)
  refine ⟨key', component, hcomponent, fun u hu => ?_⟩
  obtain ⟨key'', component', hcomponent', hu', hv''⟩ := (hcomponents.connected u (hend u hu) v (hend v hv)).mpr
    (h.connected key members hgroup u hu v hv)
  obtain rfl := hcomponents.disjoint key'' key' component' component v hcomponent' hcomponent hv'' hv'
  cases hcomponent.symm.trans hcomponent'
  exact hu'

end Community

end Dllb
