import Mathlib
import Dllb.Lib.Reader
import Dllb.Vector.Hnsw

/-! # Snapshots of an HNSW index

All numbers are little-endian, counts come before what they count, and vectors
have no count: the reader takes the dimension of the index for it. The lookup
table is not written but made anew from the nodes.
-/

namespace Dllb

set_option autoImplicit false

namespace HnswIndex

/-! ## Writing -/

def magic : Bytes := [0x48, 0x4E, 0x53, 0x57]

def version : UInt8 := 1

/-- `to_le_bytes` of `n as u32`. -/
def putU32 (n : Nat) : Bytes := leBytes 4 n

def putF32 (f : F32) : Bytes := leBytes 4 f.bits.toNat

def putI64 (n : Int64) : Bytes := leBytes 8 n.toUInt64.toNat

def metricByte : DistanceMetric → UInt8
  | .cosine => 0
  | .euclidean => 1
  | .dotProduct => 2

/-- `-1` stands for no entry point. -/
def entryCode : Option Nat → Int64
  | some idx => Int64.ofNat idx
  | none => -1

def putLayer (layerNeighbors : List Nat) : Bytes :=
  putU32 layerNeighbors.length ++ layerNeighbors.flatMap putU32

def putId (id : String) : Bytes := putU32 (asBytes id).length ++ asBytes id

def putNode (node : HnswNode F32) : Bytes :=
  putId node.id ++ ([if node.deleted then 1 else 0] ++ (putU32 node.level ++
    (node.vector.flatMap putF32 ++ (putU32 node.neighbors.length ++ node.neighbors.flatMap putLayer))))

def putConfig (config : HnswConfig) : Bytes :=
  putU32 config.m ++ (putU32 config.efConstruction ++ putU32 config.maxLayers)

def serialize (ix : HnswIndex F32) : Bytes :=
  magic ++ ([version] ++ (putConfig ix.config ++ ([metricByte ix.metric] ++ (putU32 ix.dim ++
    (putI64 (entryCode ix.entryPoint) ++ (putU32 ix.maxLevel ++ (putU32 ix.nodes.length ++
      ix.nodes.flatMap putNode)))))))

/-- What is wrong with the data; the text shows what is kept here. -/
inductive SnapshotError where
  | unexpectedEnd
  | unexpectedEndReadingId
  | invalidMagic (got : Bytes)
  | unsupportedVersion (got : UInt8)
  | unknownMetric (got : UInt8)
  | invalidUtf8 (id : Bytes)

open Reader

def readU8 : Reader SnapshotError UInt8 := do
  let b ← readExact 1 .unexpectedEnd
  return b.headD 0

def readU32 : Reader SnapshotError Nat := do
  let b ← readExact 4 .unexpectedEnd
  return leValue b

def readF32 : Reader SnapshotError F32 := do
  let b ← readExact 4 .unexpectedEnd
  return ⟨UInt32.ofNat (leValue b)⟩

def readI64 : Reader SnapshotError Int64 := do
  let b ← readExact 8 .unexpectedEnd
  return (UInt64.ofNat (leValue b)).toInt64

def readMetric : Reader SnapshotError DistanceMetric := do
  match ← readU8 with
  | 0 => return .cosine
  | 1 => return .euclidean
  | 2 => return .dotProduct
  | other => fail (.unknownMetric other)

def readId : Reader SnapshotError String := do
  let idLen ← readU32
  let idBuf ← readExact idLen .unexpectedEndReadingId
  match fromUtf8 idBuf with
  | some id => return id
  | none => fail (.invalidUtf8 idBuf)

def readLayer : Reader SnapshotError (List Nat) := do
  let neighborCount ← readU32
  times neighborCount readU32

def readNode (dim : Nat) : Reader SnapshotError (HnswNode F32) := do
  let id ← readId
  let deleted ← readU8
  let level ← readU32
  let vector ← times dim readF32
  let numLayers ← readU32
  let neighbors ← times numLayers readLayer
  return { id, vector, level, neighbors, deleted := deleted != 0 }

def readMagic : Reader SnapshotError Unit := do
  let got ← readExact 4 .unexpectedEnd
  if got = magic then return () else fail (.invalidMagic got)

def readVersion : Reader SnapshotError Unit := do
  let got ← readU8
  if got = version then return () else fail (.unsupportedVersion got)

def readConfig : Reader SnapshotError HnswConfig := do
  let m ← readU32
  let efConstruction ← readU32
  let maxLayers ← readU32
  return { m, efConstruction, maxLayers }

def entryOf (raw : Int64) : Option Nat := if raw < 0 then none else some raw.toNatClampNeg

/-- The lookup table of nodes that start at position `i`, over `lookup`. -/
def lookupFrom {F : Type} : List (HnswNode F) → Nat → Std.ExtTreeMap String Nat cmpString →
    Std.ExtTreeMap String Nat cmpString
  | [], _, lookup => lookup
  | node :: nodes, i, lookup =>
    lookupFrom nodes (i + 1) (if node.deleted then lookup else lookup.insert node.id i)

def readIndex : Reader SnapshotError (HnswIndex F32) := do
  readMagic
  readVersion
  let config ← readConfig
  let metric ← readMetric
  let dim ← readU32
  let epRaw ← readI64
  let maxLevel ← readU32
  let nodeCount ← readU32
  let nodes ← times nodeCount (readNode dim)
  return { config, metric, dim, nodes, nodeLookup := lookupFrom nodes 0 ∅, entryPoint := entryOf epRaw, maxLevel }

/-- What follows the last node is not looked at. -/
def deserialize (data : Bytes) : Except SnapshotError (HnswIndex F32) := (readIndex data).map Prod.fst

/-! ## What fits into a snapshot -/

structure NodeFits (dim : Nat) (node : HnswNode F32) : Prop where
  id : (asBytes node.id).length < 2 ^ 32
  vector : node.vector.length = dim
  level : node.level < 2 ^ 32
  layers : node.neighbors.length < 2 ^ 32
  neighbors : ∀ layerNeighbors ∈ node.neighbors, layerNeighbors.length < 2 ^ 32 ∧
    ∀ i ∈ layerNeighbors, i < 2 ^ 32

/-- Vectors have the dimension of the index, and numbers and counts fit into 32 bits. -/
structure Fits (ix : HnswIndex F32) : Prop where
  m : ix.config.m < 2 ^ 32
  efConstruction : ix.config.efConstruction < 2 ^ 32
  maxLayers : ix.config.maxLayers < 2 ^ 32
  dim : ix.dim < 2 ^ 32
  maxLevel : ix.maxLevel < 2 ^ 32
  count : ix.nodes.length < 2 ^ 32
  nodes : ∀ node ∈ ix.nodes, NodeFits ix.dim node

/-- The ids of the live nodes are distinct, and they are the keys of the lookup table. -/
structure Keyed (ix : HnswIndex F32) : Prop where
  distinct : ((ix.nodes.filter (!·.deleted)).map HnswNode.id).Nodup
  keys : ∀ id, id ∈ ix.nodeLookup ↔ ∃ node ∈ ix.nodes, node.deleted = false ∧ node.id = id

/-- A key of the lookup table leads to the live node that has the id. -/
def Placed (ix : HnswIndex F32) : Prop :=
  ∀ (id : String) (i : Nat), ix.nodeLookup[id]? = some i →
    ∃ node : HnswNode F32, ix.nodes[i]? = some node ∧ node.deleted = false ∧ node.id = id

/-- The entry point is told from the sentinel. -/
def EntryFits (ix : HnswIndex F32) : Prop := ∀ i ∈ ix.entryPoint, i < 2 ^ 63

/-! ## What is written is read back -/

theorem reads_u8 (x : UInt8) : Reads readU8 [x] x :=
  (reads_readExact (b := [x]) SnapshotError.unexpectedEnd rfl).last (reads_pure x)

theorem reads_u32 {n : Nat} (h : n < 2 ^ 32) : Reads readU32 (putU32 n) n := by
  refine (reads_readExact SnapshotError.unexpectedEnd (length_leBytes 4 n)).last ?_
  rw [leValue_leBytes (by norm_num at h ⊢; exact h)]
  exact reads_pure n

theorem reads_f32 (f : F32) : Reads readF32 (putF32 f) f := by
  refine (reads_readExact SnapshotError.unexpectedEnd (length_leBytes 4 f.bits.toNat)).last ?_
  have hlt : f.bits.toNat < 256 ^ 4 := f.bits.toNat_lt
  rw [leValue_leBytes hlt, UInt32.ofNat_toNat]
  exact reads_pure f

theorem reads_i64 (n : Int64) : Reads readI64 (putI64 n) n := by
  refine (reads_readExact SnapshotError.unexpectedEnd (length_leBytes 8 n.toUInt64.toNat)).last ?_
  have hlt : n.toUInt64.toNat < 256 ^ 8 := n.toUInt64.toNat_lt
  rw [leValue_leBytes hlt, UInt64.ofNat_toNat]
  exact reads_pure n

theorem reads_metric (metric : DistanceMetric) : Reads readMetric [metricByte metric] metric := by
  cases metric <;> exact (reads_u8 _).last (reads_pure _)

theorem reads_id {id : String} (h : (asBytes id).length < 2 ^ 32) : Reads readId (putId id) id := by
  refine (reads_u32 h).bind ((reads_readExact SnapshotError.unexpectedEndReadingId rfl).last ?_)
  rw [fromUtf8_asBytes]
  exact reads_pure id

theorem reads_layer {layerNeighbors : List Nat}
    (h : layerNeighbors.length < 2 ^ 32 ∧ ∀ i ∈ layerNeighbors, i < 2 ^ 32) :
    Reads readLayer (putLayer layerNeighbors) layerNeighbors :=
  (reads_u32 h.1).bind (reads_times fun i hi => reads_u32 (h.2 i hi))

theorem reads_vector {dim : Nat} {vector : List F32} (h : vector.length = dim) :
    Reads (times dim readF32) (vector.flatMap putF32) vector := by
  rw [← h]
  exact reads_times fun f _ => reads_f32 f

theorem reads_magic : Reads readMagic magic () := (reads_readExact (b := magic) _ rfl).last (reads_pure ())

theorem reads_version : Reads readVersion [version] () := (reads_u8 version).last (reads_pure ())

theorem Fits.reads_config {ix : HnswIndex F32} (h : ix.Fits) :
    Reads readConfig (putConfig ix.config) ix.config :=
  (reads_u32 h.m).bind ((reads_u32 h.efConstruction).bind ((reads_u32 h.maxLayers).last (reads_pure _)))

theorem Keyed.eq_of_id {ix : HnswIndex F32} (h : ix.Keyed) {i j : Nat} {node other : HnswNode F32}
    (hi : ix.nodes[i]? = some node) (hj : ix.nodes[j]? = some other) (hlive : node.deleted = false)
    (hliveOther : other.deleted = false) (hid : node.id = other.id) : i = j := by
  have hpairs := h.distinct
  rw [List.Nodup, List.pairwise_map, List.pairwise_filter, List.pairwise_iff_getElem] at hpairs
  obtain ⟨hiLt, rfl⟩ := List.getElem?_eq_some_iff.mp hi
  obtain ⟨hjLt, rfl⟩ := List.getElem?_eq_some_iff.mp hj
  rcases lt_trichotomy i j with hlt | heq | hlt
  · exact absurd hid (hpairs i j hiLt hjLt hlt (by simp [hlive]) (by simp [hliveOther]))
  · exact heq
  · exact absurd hid.symm (hpairs j i hjLt hiLt hlt (by simp [hliveOther]) (by simp [hlive]))

end HnswIndex

end Dllb
