import Mathlib
import Dllb.Document.Document

/-! # The edge store

An edge is two entries, one under each of its vertices, written in one batch.
The properties are stored with the outgoing entry only.
-/

namespace Dllb

set_option autoImplicit false

structure Edge where
  src : String
  edgeType : String
  dst : String
  properties : Fields

namespace Edge

def new (src edgeType dst : String) : Edge := { src, edgeType, dst, properties := ∅ }

def withProperty (edge : Edge) (name : String) (value : Value) : Edge :=
  { edge with properties := edge.properties.insert name value }

end Edge

structure EdgeStore where
  ns : String
  db : String
  table : String

namespace EdgeStore

variable [Rmp]

def serializeProps (props : Fields) : Result Bytes :=
  if props.isEmpty then .ok [] else (Rmp.toVec props).mapError fun e => .serialization [.text e]

def deserializeProps (bytes : Bytes) : Result Fields :=
  if bytes.isEmpty then .ok ∅ else (Rmp.fromSlice bytes).mapError fun e => .serialization [.text e]

def relateToOps (es : EdgeStore) (edge : Edge) : Result (List PutOp) := do
  let props ← serializeProps edge.properties
  return [(Key.graphOutgoingKey es.ns es.db es.table edge.src edge.edgeType edge.dst, props),
    (Key.graphIncomingKey es.ns es.db es.table edge.dst edge.edgeType edge.src, [])]

def relate (es : EdgeStore) (edge : Edge) : Db Unit := do
  let props ← .lift (serializeProps edge.properties)
  Db.putBatch [(Key.graphOutgoingKey es.ns es.db es.table edge.src edge.edgeType edge.dst, props),
    (Key.graphIncomingKey es.ns es.db es.table edge.dst edge.edgeType edge.src, [])]

def get (es : EdgeStore) (src edgeType dst : String) : Db (Option Edge) := do
  match ← Db.get (Key.graphOutgoingKey es.ns es.db es.table src edgeType dst) with
  | some bytes =>
    let properties ← .lift (deserializeProps bytes)
    return some { src, edgeType, dst, properties }
  | none => return none

def delete (es : EdgeStore) (src edgeType dst : String) : Db Bool := do
  let outKey := Key.graphOutgoingKey es.ns es.db es.table src edgeType dst
  let existed ← Db.contains outKey
  if existed then
    Db.deleteBatch [outKey, Key.graphIncomingKey es.ns es.db es.table dst edgeType src]
    return existed
  else return existed

def updateProperties (es : EdgeStore) (src edgeType dst : String) (props : Fields) : Db Unit := do
  let outKey := Key.graphOutgoingKey es.ns es.db es.table src edgeType dst
  let existed ← Db.contains outKey
  if !existed then
    .fail (.notFound [.text ("edge not found: " ++ src ++ "->" ++ edgeType ++ "->" ++ dst)])
  else
    let bytes ← .lift (serializeProps props)
    Db.put outKey bytes

/-! ## Scans of the whole table -/

/-- Source, edge type and destination of an outgoing entry; incoming entries are passed over. -/
def outgoingSegments (k : Bytes) : Result (Option (Bytes × Bytes × Bytes)) := do
  let parts ← Key.parseKey k
  match Key.splitn 3 parts.remainder with
  | src :: (dir :: edgeType) :: dst :: _ =>
    return if dir = Key.Dir.outgoing then some (src, edgeType, dst) else none
  | _ => return none

/-- Walk over the entries, keeping what `f` makes of those that are outgoing. -/
def collectOutgoing {α : Type} (f : Bytes → Bytes → Bytes → Bytes → Result (Option α)) :
    List PutOp → Result (List α)
  | [] => .ok []
  | (k, v) :: entries => do
    let found ← match ← outgoingSegments k with
      | some (src, edgeType, dst) => f src edgeType dst v
      | none => .ok none
    let rest ← collectOutgoing f entries
    return found.toList ++ rest

/-- The float `1.0`, the weight of an edge that has none. -/
def unitWeight : F64 := ⟨0x3FF0000000000000⟩

def weightOf (props : Fields) : F64 :=
  match props["weight"]? with
  | some (.float f) => f
  | some (.int n) => F64.ofInt64 n
  | _ => unitWeight

/-- Properties that cannot be read count as none. -/
def weightOfBytes (v : Bytes) : F64 :=
  if v.isEmpty then unitWeight else weightOf ((Rmp.fromSlice v).toOption.getD ∅)

def scanAllOutgoing (es : EdgeStore) : Db (List (String × String × F64)) := do
  let entries ← Db.prefixScan (Key.tablePrefix es.ns es.db es.table Key.Tag.graphEdge)
  .lift (collectOutgoing (fun src _ dst v =>
    .ok ((fromUtf8 src).bind fun src => (fromUtf8 dst).map fun dst => (src, dst, weightOfBytes v))) entries)

/-- Reads the keys only. -/
def scanAllEdges (es : EdgeStore) : Db (List (String × String)) := do
  let keys ← Db.scanPrefixKeys (Key.tablePrefix es.ns es.db es.table Key.Tag.graphEdge)
  .lift (collectOutgoing (fun src _ dst _ =>
    .ok ((fromUtf8 src).bind fun src => (fromUtf8 dst).map fun dst => (src, dst))) (keys.map (·, [])))

def scanAllOutgoingEdges (es : EdgeStore) : Db (List Edge) := do
  let entries ← Db.prefixScan (Key.tablePrefix es.ns es.db es.table Key.Tag.graphEdge)
  .lift (collectOutgoing (fun src edgeType dst v =>
    match fromUtf8 src, fromUtf8 edgeType, fromUtf8 dst with
    | some src, some edgeType, some dst => do
      let properties ← deserializeProps v
      return some { src, edgeType, dst, properties }
    | _, _, _ => .ok none) entries)

end EdgeStore

end Dllb
