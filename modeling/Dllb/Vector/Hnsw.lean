import Mathlib
import Dllb.Core.Value
import Dllb.Document.Document
import Dllb.Lib.Heap

/-! # The HNSW index

Distances are values of a linear order `D`; the kernels that compute them from
vectors over `F` are a parameter, and so is the order in which a heap hands out
equal distances. A function returns `none` where the source panics. The two
search loops are cut after more rounds than there are nodes, and a cut is a
`none` as well.
-/

namespace Dllb

set_option autoImplicit false

inductive DistanceMetric where
  | cosine | euclidean | dotProduct
  deriving DecidableEq

class Distance (F D : Type) where
  distance : List F → List F → DistanceMetric → D

/-- The two heaps of a beam search: the nearest candidate on top, and the farthest result on top. -/
class BeamHeaps (D : Type) [LinearOrder D] where
  nearest : BinaryHeap fun a b : D × Nat => b.1 ≤ a.1
  farthest : BinaryHeap fun a b : D × Nat => a.1 ≤ b.1

structure HnswConfig where
  m : Nat
  efConstruction : Nat
  maxLayers : Nat

structure HnswNode (F : Type) where
  id : String
  vector : List F
  level : Nat
  neighbors : List (List Nat)
  deleted : Bool

structure HnswIndex (F : Type) where
  config : HnswConfig
  metric : DistanceMetric
  dim : Nat
  nodes : List (HnswNode F)
  nodeLookup : Std.ExtTreeMap String Nat cmpString
  entryPoint : Option Nat
  maxLevel : Nat

structure VectorHit (D : Type) where
  id : String
  distance : D

namespace HnswIndex

def new {F : Type} (dim : Nat) (metric : DistanceMetric) (config : HnswConfig) : HnswIndex F :=
  { config, metric, dim, nodes := [], nodeLookup := ∅, entryPoint := none, maxLevel := 0 }

/-- The level of a new node, from the whole part of `-ln r / ln m` of the random draw `r`. -/
def randomLevel (config : HnswConfig) (draw : Nat) : Option Nat :=
  if config.maxLayers = 0 then none else some (min draw (config.maxLayers - 1))

variable {F D : Type} [LinearOrder D] [Distance F D]

/-- `nodes[i].neighbors[layer]` -/
def neighborsOf (ix : HnswIndex F) (i layer : Nat) : Option (List Nat) :=
  ix.nodes[i]?.bind fun node => node.neighbors[layer]?

def setNeighbors (ix : HnswIndex F) (i layer : Nat) (ns : List Nat) : Option (HnswIndex F) := do
  let node ← ix.nodes[i]?
  if layer < node.neighbors.length then
    return { ix with nodes := ix.nodes.set i { node with neighbors := node.neighbors.set layer ns } }
  else none

def dist (ix : HnswIndex F) (query : List F) (i : Nat) : Option D := do
  let node ← ix.nodes[i]?
  return Distance.distance query node.vector ix.metric

/-! ## Greedy descent -/

/-- One pass over the neighbors: the closest so far, its distance, and whether it moved. -/
def greedyRound (ix : HnswIndex F) (query : List F) : List Nat → Nat × D × Bool → Option (Nat × D × Bool)
  | [], st => some st
  | n :: ns, st => do
    let node ← ix.nodes[n]?
    if node.deleted then greedyRound ix query ns st
    else
      let d ← ix.dist query n
      greedyRound ix query ns (if d < st.2.1 then (n, d, true) else st)

def greedyLoop (ix : HnswIndex F) (query : List F) (layer : Nat) : Nat → Nat → D → Option Nat
  | 0, _, _ => none
  | fuel + 1, current, currentDist => do
    let ns ← ix.neighborsOf current layer
    let st ← greedyRound ix query ns (current, currentDist, false)
    if st.2.2 then greedyLoop ix query layer fuel st.1 st.2.1 else return st.1

def greedyClosest (D : Type) [LinearOrder D] [Distance F D] (ix : HnswIndex F) (query : List F)
    (start layer : Nat) : Option Nat := do
  let startDist : D ← ix.dist query start
  greedyLoop ix query layer (ix.nodes.length + 1) start startDist

/-- `for layer in (low..=layer).rev()`, for a positive `low`. -/
def descend (D : Type) [LinearOrder D] [Distance F D] (ix : HnswIndex F) (query : List F) (low : Nat) :
    Nat → Nat → Option Nat
  | 0, current => some current
  | layer + 1, current =>
    if low ≤ layer + 1 then do
      let current ← greedyClosest D ix query current (layer + 1)
      descend D ix query low layer current
    else some current

/-! ## Beam search -/

variable [BeamHeaps D]

abbrev nearest (D : Type) [LinearOrder D] [BeamHeaps D] : BinaryHeap fun a b : D × Nat => b.1 ≤ a.1 :=
  BeamHeaps.nearest

abbrev farthest (D : Type) [LinearOrder D] [BeamHeaps D] : BinaryHeap fun a b : D × Nat => a.1 ≤ b.1 :=
  BeamHeaps.farthest

structure Beam (D : Type) [LinearOrder D] [BeamHeaps D] where
  candidates : (nearest D).Heap
  results : (farthest D).Heap
  visited : List Nat

def Beam.start (d : D) (i : Nat) : Beam D :=
  { candidates := (nearest D).push (nearest D).empty (d, i)
    results := (farthest D).push (farthest D).empty (d, i)
    visited := [i] }

/-- Keep a node among the results, evicting the worst when there are more than `ef`. -/
def Beam.add (b : Beam D) (ef : Nat) (d : D) (i : Nat) : Beam D :=
  let results := (farthest D).push b.results (d, i)
  { b with
    candidates := (nearest D).push b.candidates (d, i)
    results :=
      if ef < (farthest D).len results then
        match (farthest D).pop results with
        | some (_, rest) => rest
        | none => results
      else results }

/-- Whether a node at distance `d` enters the results; the worst result is looked at only when
they are full. -/
def Beam.shouldAdd (b : Beam D) (ef : Nat) (d : D) : Option Bool :=
  if (farthest D).len b.results < ef then some true
  else ((farthest D).peek b.results).map fun worst => decide (d < worst.1)

def visitNeighbors (ix : HnswIndex F) (query : List F) (ef : Nat) : List Nat → Beam D → Option (Beam D)
  | [], b => some b
  | n :: ns, b =>
    if n ∈ b.visited then visitNeighbors ix query ef ns b
    else do
      let b := { b with visited := n :: b.visited }
      let d ← ix.dist query n
      let shouldAdd ← b.shouldAdd ef d
      visitNeighbors ix query ef ns (if shouldAdd then b.add ef d n else b)

/-- The closest candidate is farther than the worst result, and the results are full. -/
def Beam.exhausted (b : Beam D) (ef : Nat) (candidateDist : D) : Bool :=
  match (farthest D).peek b.results with
  | some worst => decide (worst.1 < candidateDist) && decide (ef ≤ (farthest D).len b.results)
  | none => false

def beamLoop (ix : HnswIndex F) (query : List F) (ef layer : Nat) : Nat → Beam D → Option (Beam D)
  | 0, _ => none
  | fuel + 1, b =>
    match (nearest D).pop b.candidates with
    | none => some b
    | some (c, rest) =>
      let b := { b with candidates := rest }
      if b.exhausted ef c.1 then some b
      else do
        let ns ← ix.neighborsOf c.2 layer
        let b ← visitNeighbors ix query ef ns b
        beamLoop ix query ef layer fuel b

/-- The stable sort by distance. -/
def sortByDist (l : List (D × Nat)) : List (D × Nat) := l.insertionSort fun a b => a.1 ≤ b.1

def searchLayer (ix : HnswIndex F) (query : List F) (start ef layer : Nat) : Option (List (D × Nat)) := do
  let startDist : D ← ix.dist query start
  let b ← beamLoop ix query ef layer (ix.nodes.length + 1) (.start startDist start)
  return sortByDist ((farthest D).toList b.results)

/-- The first `k` hits among the nodes found: those that are not deleted. -/
def liveHits (ix : HnswIndex F) : Nat → List (D × Nat) → Option (List (VectorHit D))
  | 0, _ => some []
  | _, [] => some []
  | k + 1, c :: cs => do
    let node ← ix.nodes[c.2]?
    if node.deleted then liveHits ix (k + 1) cs
    else
      let hits ← liveHits ix k cs
      return ⟨node.id, c.1⟩ :: hits

def searchEf (ix : HnswIndex F) (query : List F) (k ef : Nat) : Option (List (VectorHit D)) :=
  match ix.entryPoint with
  | none => some []
  | some ep => do
    let current ← descend D ix query 1 ix.maxLevel ep
    let found ← searchLayer ix query current (max ef k) 0
    liveHits ix k found

def search (ix : HnswIndex F) (query : List F) (k : Nat) : Option (List (VectorHit D)) :=
  ix.searchEf query k ix.config.efConstruction

/-! ## Insertion and removal -/

def score (D : Type) [Distance F D] (ix : HnswIndex F) (v : List F) : List Nat → Option (List (D × Nat))
  | [] => some []
  | n :: ns => do
    let node ← ix.nodes[n]?
    let rest ← score D ix v ns
    return (Distance.distance v node.vector ix.metric, n) :: rest

/-- Add the new node to the list of a neighbor, and cut that list to the `m` nearest when it holds
more than `2 * m`. -/
def linkBack (D : Type) [LinearOrder D] [Distance F D] (newIdx layer : Nat) (ix : HnswIndex F) (i : Nat) :
    Option (HnswIndex F) := do
  let node ← ix.nodes[i]?
  let ns ← node.neighbors[layer]?
  let ns := ns ++ [newIdx]
  if ix.config.m * 2 < ns.length then
    let scored ← score D ix node.vector ns
    ix.setNeighbors i layer (((sortByDist scored).take ix.config.m).map Prod.snd)
  else ix.setNeighbors i layer ns

def connect (ix : HnswIndex F) (newIdx : Nat) (neighbors : List (D × Nat)) (layer : Nat) :
    Option (HnswIndex F) := do
  let nearest := (neighbors.take ix.config.m).map Prod.snd
  let ix ← ix.setNeighbors newIdx layer nearest
  nearest.foldlM (linkBack D newIdx layer) ix

/-- From `layer` down to 0: find the neighbors of the new node and connect it. -/
def connectLayers (D : Type) [LinearOrder D] [Distance F D] [BeamHeaps D] (newIdx : Nat)
    (query : List F) : Nat → HnswIndex F → Nat → Option (HnswIndex F)
  | layer, ix, current => do
    let neighbors : List (D × Nat) ← ix.searchLayer query current ix.config.efConstruction layer
    let ix ← ix.connect newIdx neighbors layer
    match layer with
    | 0 => return ix
    | layer + 1 => connectLayers D newIdx query layer ix ((neighbors.head?.map Prod.snd).getD current)

def pushNode (ix : HnswIndex F) (id : String) (vector : List F) (level : Nat) : HnswIndex F :=
  { ix with
    nodes := ix.nodes ++ [{ id, vector, level, neighbors := List.replicate (level + 1) [], deleted := false }]
    nodeLookup := ix.nodeLookup.insert id ix.nodes.length }

def insert (D : Type) [LinearOrder D] [Distance F D] [BeamHeaps D] (ix : HnswIndex F) (id : String)
    (vector : List F) (draw : Nat) : Option (HnswIndex F) := do
  let level ← randomLevel ix.config draw
  let newIdx := ix.nodes.length
  let ix := ix.pushNode id vector level
  match ix.entryPoint with
  | none => return { ix with entryPoint := some newIdx, maxLevel := level }
  | some ep =>
    let current ← descend D ix vector (level + 1) ix.maxLevel ep
    let ix ← connectLayers D newIdx vector (min level ix.maxLevel) ix current
    return if ix.maxLevel < level then { ix with maxLevel := level, entryPoint := some newIdx } else ix

def remove (ix : HnswIndex F) (id : String) : Option (Bool × HnswIndex F) :=
  match ix.nodeLookup[id]? with
  | none => some (false, ix)
  | some idx => do
    let node ← ix.nodes[idx]?
    if node.deleted then return (false, ix)
    else
      return (true, { ix with
        nodes := ix.nodes.set idx { node with deleted := true }
        nodeLookup := ix.nodeLookup.erase id })

def len (ix : HnswIndex F) : Nat := (ix.nodes.filter fun node => !node.deleted).length

end HnswIndex

end Dllb
