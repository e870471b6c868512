import Mathlib
import Dllb.Core.Value

/-! # MetaAST trees

The uniform nodes that every language is analysed into, walked depth-first.
-/

namespace Dllb

set_option autoImplicit false

inductive NodeType where
  | literal | variable' | binaryOp | unaryOp | functionCall | conditional | earlyReturn | throw | block | list
  | map | pair | tuple | assignment | inlineMatch | range | stringInterpolation | binSegment | comment
  | loop | lambda | collectionOp | patternMatch | matchArm | exceptionHandling | asyncOperation | yield
  | comprehension | generator | filter | pipe | pin | assertType
  | container | functionDef | param | attributeAccess | augmentedAssignment | property | import'
  | typeAnnotation | decorator | recordUpdate | childSpec
  | languageSpecific
  | wildcard
  deriving DecidableEq

mutual

inductive MetaValue where
  | string (s : String)
  | int (n : Int64)
  | float (f : F64)
  | bool (b : Bool)
  | null
  | atom (s : String)
  | list (values : List MetaValue)
  | node (n : MetaNode)

inductive NodeChildren where
  | value (v : MetaValue)
  | nodes (ns : List MetaNode)

inductive MetaNode where
  | mk (nodeType : NodeType) (metadata : List (String × MetaValue)) (children : NodeChildren)

end

namespace MetaNode

def nodeType : MetaNode → NodeType
  | mk nodeType _ _ => nodeType

def metadata : MetaNode → List (String × MetaValue)
  | mk _ metadata _ => metadata

def getMeta (node : MetaNode) (key : String) : Option MetaValue :=
  (node.metadata.find? fun entry => entry.1 = key).map Prod.snd

def getMetaStr (node : MetaNode) (key : String) : Option String :=
  match node.getMeta key with
  | some (.string s) => some s
  | some (.atom s) => some s
  | _ => none

/-- `as usize` of an `i64` wraps around. -/
def asUsize (n : Int64) : Nat := n.toUInt64.toNat

def getMetaInt (node : MetaNode) (key : String) : Option Int64 :=
  match node.getMeta key with
  | some (.int n) => some n
  | _ => none

/-- The arity a function is known by, where none is given zero. -/
def arity (node : MetaNode) : Nat := ((node.getMetaInt "arity").map asUsize).getD 0

end MetaNode

/-! ## Walking -/

mutual

/-- The nodes of a tree in the order in which they are visited. -/
def walk : MetaNode → List MetaNode
  | .mk nodeType metadata children => .mk nodeType metadata children :: walkChildren children

def walkChildren : NodeChildren → List MetaNode
  | .value _ => []
  | .nodes ns => walkAll ns

def walkAll : List MetaNode → List MetaNode
  | [] => []
  | n :: ns => walk n ++ walkAll ns

end

theorem mem_walk_self (node : MetaNode) : node ∈ walk node := by
  cases node
  rw [walk]
  exact List.mem_cons_self

/-! ## Extraction -/

structure FunctionInfo where
  name : String
  arity : Nat
  params : List String
  visibility : String
  line : Option Int64

structure ImportInfo where
  source : String
  importType : String
  language : Option String

/-- The parameters that are given by their names. -/
def paramNames (node : MetaNode) : List String :=
  match node.getMeta "params" with
  | some (.list params) => params.filterMap fun
    | .string s => some s
    | _ => none
  | _ => []

def functionInfo (node : MetaNode) : FunctionInfo where
  name := (node.getMetaStr "name").getD ""
  arity := node.arity
  params := paramNames node
  visibility := (node.getMetaStr "visibility").getD "public"
  line := node.getMetaInt "line"

def extractFunctions (node : MetaNode) : List FunctionInfo :=
  ((walk node).filter (·.nodeType = .functionDef)).map functionInfo

def importInfo (node : MetaNode) : ImportInfo where
  source := (node.getMetaStr "source").getD ""
  importType := (node.getMetaStr "import_type").getD "import"
  language := node.getMetaStr "language"

def extractImports (node : MetaNode) : List ImportInfo :=
  ((walk node).filter (·.nodeType = .import')).map importInfo

def extractCalls (node : MetaNode) : List String :=
  ((walk node).filter (·.nodeType = .functionCall)).filterMap (·.getMetaStr "name")

end Dllb
