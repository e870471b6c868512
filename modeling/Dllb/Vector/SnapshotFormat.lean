import Mathlib
import Dllb.Vector.Snapshot

/-! # The snapshots that are read

The reader accepts exactly the data that begin with the numbers and texts of a
snapshot in their order. It looks at no number but to count by it: which node a
neighbor or the entry point names is not checked.
-/

namespace Dllb.HnswIndex

set_option autoImplicit false

open Reader

/-- A node as the data have it. -/
structure RawNode where
  id : String
  deleted : UInt8
  level : Nat
  vector : List F32
  neighbors : List (List Nat)

/-- The numbers and texts of a snapshot. -/
structure RawSnapshot where
  config : HnswConfig
  metric : DistanceMetric
  dim : Nat
  entry : Int64
  maxLevel : Nat
  nodes : List RawNode

namespace RawNode

def bytes (raw : RawNode) : Bytes :=
  putId raw.id ++ ([raw.deleted] ++ (putU32 raw.level ++
    (raw.vector.flatMap putF32 ++ (putU32 raw.neighbors.length ++ raw.neighbors.flatMap putLayer))))

def node (raw : RawNode) : HnswNode F32 :=
  { id := raw.id, vector := raw.vector, level := raw.level, neighbors := raw.neighbors, deleted := raw.deleted != 0 }

/-- The counts and numbers have 32 bits. -/
def Fits (dim : Nat) (raw : RawNode) : Prop := NodeFits dim raw.node

end RawNode

namespace RawSnapshot

def bytes (raw : RawSnapshot) : Bytes :=
  magic ++ ([version] ++ (putConfig raw.config ++ ([metricByte raw.metric] ++ (putU32 raw.dim ++
    (putI64 raw.entry ++ (putU32 raw.maxLevel ++ (putU32 raw.nodes.length ++ raw.nodes.flatMap RawNode.bytes)))))))

def index (raw : RawSnapshot) : HnswIndex F32 where
  config := raw.config
  metric := raw.metric
  dim := raw.dim
  nodes := raw.nodes.map RawNode.node
  nodeLookup := lookupFrom (raw.nodes.map RawNode.node) 0 ∅
  entryPoint := entryOf raw.entry
  maxLevel := raw.maxLevel

def Fits (raw : RawSnapshot) : Prop := raw.index.Fits

end RawSnapshot

/-! ## What the readers take -/

theorem reads_rawNode {dim : Nat} {raw : RawNode} (h : raw.Fits dim) :
    Reads (readNode dim) raw.bytes raw.node :=
  (reads_id h.id).bind ((reads_u8 raw.deleted).bind ((reads_u32 h.level).bind ((reads_vector h.vector).bind
    ((reads_u32 h.layers).bind ((reads_times fun ns hns => reads_layer (h.neighbors ns hns)).last
      (reads_pure raw.node))))))

theorem RawSnapshot.Fits.reads {raw : RawSnapshot} (h : raw.Fits) : Reads readIndex raw.bytes raw.index := by
  have hcount : raw.nodes.length < 2 ^ 32 := by
    have hlen := HnswIndex.Fits.count h
    rwa [RawSnapshot.index, List.length_map] at hlen
  have hnodes : ∀ node ∈ raw.nodes, node.Fits raw.dim := fun node hnode =>
    HnswIndex.Fits.nodes h node.node (List.mem_map_of_mem hnode)
  exact reads_magic.bind (reads_version.bind ((HnswIndex.Fits.reads_config h).bind ((reads_metric raw.metric).bind
    ((reads_u32 (HnswIndex.Fits.dim h)).bind ((reads_i64 raw.entry).bind ((reads_u32 (HnswIndex.Fits.maxLevel h)).bind
      ((reads_u32 hcount).bind ((reads_times_map fun node hnode => reads_rawNode (hnodes node hnode)).last
        (reads_pure raw.index)))))))))

end Dllb.HnswIndex
