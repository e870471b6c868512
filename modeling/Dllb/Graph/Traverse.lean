import Mathlib
import Dllb.Graph.Store

/-! # Traversal of the edge store

The edges at a vertex are found by a prefix scan. An incoming entry carries no
properties: they are looked up in the outgoing entry, one read for each edge.
-/

namespace Dllb

set_option autoImplicit false

/-- Edge type and other vertex of an edge key, behind the vertex it is stored under. -/
def parseDirectedRemainder (remainder : Bytes) : Result (String × String) :=
  match Key.splitn 3 remainder with
  | _ :: dirAndType :: other :: _ =>
    match dirAndType with
    | [] => .error (.storage [.text "malformed graph edge key: empty dir+type"])
    | _ :: edgeType =>
      match fromUtf8 edgeType, fromUtf8 other with
      | some edgeType, some other => .ok (edgeType, other)
      | _, _ => .error (.storage [.text "invalid utf-8"])
  | [_, _] => .error (.storage [.text "malformed graph edge key: missing other vertex"])
  | _ => .error (.storage [.text "malformed graph edge key: missing edge_type"])

def parseOtherVertex (remainder : Bytes) : Result String :=
  match Key.splitn 3 remainder with
  | _ :: _ :: other :: _ =>
    match fromUtf8 other with
    | some other => .ok other
    | none => .error (.storage [.text "invalid utf-8"])
  | _ => .error (.storage [.text "malformed graph edge key: missing other vertex"])

namespace Traversal

variable [Rmp]

/-! ## Edges -/

def decodeOutgoing (src : String) : List PutOp → Result (List Edge)
  | [] => .ok []
  | (k, v) :: entries => do
    let parts ← Key.parseKey k
    let (edgeType, dst) ← parseDirectedRemainder parts.remainder
    let properties ← EdgeStore.deserializeProps v
    let edges ← decodeOutgoing src entries
    return { src, edgeType, dst, properties } :: edges

def scanOutgoing (src : String) (p : Bytes) : Db (List Edge) := do
  let entries ← Db.prefixScan p
  .lift (decodeOutgoing src entries)

def outgoing (es : EdgeStore) (src : String) : Db (List Edge) :=
  scanOutgoing src (Key.vertexOutgoingPrefix es.ns es.db es.table src)

def outgoingTyped (es : EdgeStore) (src edgeType : String) : Db (List Edge) :=
  scanOutgoing src (Key.vertexOutgoingTypedPrefix es.ns es.db es.table src edgeType)

/-- The outgoing entry is read for the properties; an edge without one has none. -/
def fetchIncoming (es : EdgeStore) (dst : String) : List PutOp → Db (List Edge)
  | [] => return []
  | (k, _) :: entries => do
    let parts ← .lift (Key.parseKey k)
    let (edgeType, src) ← .lift (parseDirectedRemainder parts.remainder)
    let found ← es.get src edgeType dst
    let properties := match found with
      | some e => e.properties
      | none => ∅
    let edges ← fetchIncoming es dst entries
    return { src, edgeType, dst, properties } :: edges

def scanIncoming (es : EdgeStore) (dst : String) (p : Bytes) : Db (List Edge) := do
  let entries ← Db.prefixScan p
  fetchIncoming es dst entries

def incoming (es : EdgeStore) (dst : String) : Db (List Edge) :=
  scanIncoming es dst (Key.vertexIncomingPrefix es.ns es.db es.table dst)

def incomingTyped (es : EdgeStore) (dst edgeType : String) : Db (List Edge) :=
  scanIncoming es dst (Key.vertexIncomingTypedPrefix es.ns es.db es.table dst edgeType)

/-! ## Walks of several hops -/

inductive Direction where
  | out | in'
  deriving DecidableEq

/-- Without an edge type every edge is followed. -/
structure HopSpec where
  direction : Direction
  edgeType : Option String

/-- The vertices from the start of a walk on, one at least. -/
abbrev VertexPath := { path : List String // path ≠ [] }

namespace VertexPath

def start (v : String) : VertexPath := ⟨[v], List.cons_ne_nil _ _⟩

def last (path : VertexPath) : String := path.1.getLast path.2

def push (path : VertexPath) (v : String) : VertexPath := ⟨path.1 ++ [v], List.concat_ne_nil v path.1⟩

@[simp] theorem last_start (v : String) : (start v).last = v := rfl

@[simp] theorem last_push (path : VertexPath) (v : String) : (path.push v).last = v :=
  List.getLast_concat

end VertexPath

def hopEdges (es : EdgeStore) (hop : HopSpec) (current : String) : Db (List Edge) :=
  match hop.direction, hop.edgeType with
  | .out, some et => outgoingTyped es current et
  | .out, none => outgoing es current
  | .in', some et => incomingTyped es current et
  | .in', none => incoming es current

def HopSpec.nextVertex (hop : HopSpec) (edge : Edge) : String :=
  match hop.direction with
  | .out => edge.dst
  | .in' => edge.src

def nextPaths (es : EdgeStore) (hop : HopSpec) : List VertexPath → Db (List VertexPath)
  | [] => return []
  | path :: paths => do
    let edges ← hopEdges es hop path.last
    let rest ← nextPaths es hop paths
    return edges.map (fun edge => path.push (hop.nextVertex edge)) ++ rest

def walkFrom (es : EdgeStore) : List HopSpec → List VertexPath → Db (List VertexPath)
  | [], paths => return paths
  | hop :: hops, paths => do
    let next ← nextPaths es hop paths
    walkFrom es hops next

def walk (es : EdgeStore) (start : String) (hops : List HopSpec) : Db (List VertexPath) :=
  walkFrom es hops [.start start]

/-! ## Neighbors, from the keys alone -/

def decodeNeighbors : List Bytes → Result (List String)
  | [] => .ok []
  | k :: keys => do
    let parts ← Key.parseKey k
    let other ← parseOtherVertex parts.remainder
    let others ← decodeNeighbors keys
    return other :: others

def scanNeighbors (p : Bytes) : Db (List String) := do
  let keys ← Db.scanPrefixKeys p
  .lift (decodeNeighbors keys)

def outgoingNeighbors (es : EdgeStore) (src : String) : Db (List String) :=
  scanNeighbors (Key.vertexOutgoingPrefix es.ns es.db es.table src)

def outgoingNeighborsTyped (es : EdgeStore) (src edgeType : String) : Db (List String) :=
  scanNeighbors (Key.vertexOutgoingTypedPrefix es.ns es.db es.table src edgeType)

def incomingNeighbors (es : EdgeStore) (dst : String) : Db (List String) :=
  scanNeighbors (Key.vertexIncomingPrefix es.ns es.db es.table dst)

def incomingNeighborsTyped (es : EdgeStore) (dst edgeType : String) : Db (List String) :=
  scanNeighbors (Key.vertexIncomingTypedPrefix es.ns es.db es.table dst edgeType)

end Traversal

end Dllb
