import Mathlib
import Dllb.CodeIntel.MetaAst
import Dllb.Query.Ast

/-! # Ingestion of trees

The containers and functions of a tree become documents, and what they contain
and call and the modules they import become edges. The text of a node in JSON
is made by `serde_json`, and is a parameter.
-/

namespace Dllb

set_option autoImplicit false

class MetaJson where
  toString : MetaNode → Option String

structure AstDocument where
  id : String
  name : String
  kind : String
  language : String
  filePath : String
  lineStart : Option Int64
  lineEnd : Option Int64
  sourceText : Option String
  signature : Option String
  docstring : Option String
  astSerialized : Option String

structure AstEdge where
  fromId : String
  edgeType : String
  toId : String

structure IngestStats where
  containers : Nat
  functions : Nat
  imports : Nat
  calls : Nat
  edges : Nat

structure IngestBatch where
  documents : List AstDocument
  edges : List AstEdge
  filePath : String
  language : String
  stats : IngestStats

/-! ## Ids -/

def containerId (filePath kind name : String) : String := filePath ++ "::" ++ kind ++ "::" ++ name

def functionId (filePath name : String) (arity : Nat) : String :=
  filePath ++ "::" ++ name ++ "/" ++ toString arity

def importId (source : String) : String := "import::" ++ source

def callTargetId (targetName : String) : String := "call_target::" ++ targetName

/-! ## Batches -/

/-- What one container, or one function outside any, adds to a batch. -/
structure IngestPart where
  documents : List AstDocument
  edges : List AstEdge
  stats : IngestStats

section

variable [MetaJson]

/-- The functions of the tree by name, the last one in front. -/
def localFunctions (root : MetaNode) : List (String × Nat) :=
  (((walk root).filter (·.nodeType = .functionDef)).filterMap fun n =>
    (n.getMetaStr "name").map fun name => (name, n.arity)).reverse

def isFunction (func : FunctionInfo) (n : MetaNode) : Bool :=
  n.nodeType = .functionDef ∧ n.getMetaStr "name" = some func.name ∧ n.arity = func.arity

def containerName (node : MetaNode) : String := (node.getMetaStr "name").getD "anonymous"

def containerKind (node : MetaNode) : String := (node.getMetaStr "container_type").getD "container"

def containerDocument (filePath language : String) (node : MetaNode) : AstDocument where
  id := containerId filePath (containerKind node) (containerName node)
  name := containerName node
  kind := containerKind node
  language := language
  filePath := filePath
  lineStart := node.getMetaInt "line"
  lineEnd := none
  sourceText := node.getMetaStr "source"
  signature := none
  docstring := node.getMetaStr "doc"
  astSerialized := MetaJson.toString node

/-- Of several definitions of a function the last one is taken. -/
def functionDocument (filePath language : String) (node : MetaNode) (func : FunctionInfo) : AstDocument where
  id := functionId filePath func.name func.arity
  name := func.name
  kind := "function_def"
  language := language
  filePath := filePath
  lineStart := func.line
  lineEnd := none
  sourceText := (((walk node).filter (isFunction func)).getLast?).bind (·.getMetaStr "source")
  signature := some (func.name ++ "(" ++ String.intercalate ", " func.params ++ ") [" ++ func.visibility ++ "]")
  docstring := (((walk node).filter (isFunction func)).getLast?).bind (·.getMetaStr "doc")
  astSerialized := (((walk node).filter (isFunction func)).getLast?).bind MetaJson.toString

/-- The calls in a tree; a call of a function of the file goes to that function. -/
def callEdges (filePath : String) (localFns : List (String × Nat)) (caller : String) (node : MetaNode) :
    List AstEdge :=
  (extractCalls node).map fun call =>
    ⟨caller, "calls",
      match localFns.lookup call with
      | some arity => functionId filePath call arity
      | none => callTargetId call⟩

def containerPart (filePath language : String) (localFns : List (String × Nat)) (node : MetaNode) : IngestPart :=
  let cid := containerId filePath (containerKind node) (containerName node)
  let functions := extractFunctions node
  let imports := (extractImports node).map fun imp => (⟨cid, "imports", importId imp.source⟩ : AstEdge)
  let calls := functions.flatMap fun func =>
    ((walk node).filter (isFunction func)).flatMap
      (callEdges filePath localFns (functionId filePath func.name func.arity))
  let contains := functions.map fun func =>
    (⟨cid, "contains", functionId filePath func.name func.arity⟩ : AstEdge)
  { documents := containerDocument filePath language node :: functions.map (functionDocument filePath language node)
    edges := contains ++ imports ++ calls
    stats := ⟨1, functions.length, imports.length, calls.length, (contains ++ imports ++ calls).length⟩ }

/-- A function at the top of the tree. -/
def functionPart (filePath language : String) (localFns : List (String × Nat)) (root : MetaNode)
    (func : FunctionInfo) : IngestPart :=
  let calls := callEdges filePath localFns (functionId filePath func.name func.arity) root
  { documents := [functionDocument filePath language root func]
    edges := calls
    stats := ⟨0, 1, 0, calls.length, calls.length⟩ }

def IngestStats.add (s s' : IngestStats) : IngestStats :=
  ⟨s.containers + s'.containers, s.functions + s'.functions, s.imports + s'.imports, s.calls + s'.calls,
    s.edges + s'.edges⟩

def ingestParts (root : MetaNode) (filePath language : String) : List IngestPart :=
  let localFns := localFunctions root
  ((walk root).filter (·.nodeType = .container)).map (containerPart filePath language localFns) ++
    if root.nodeType = .functionDef then
      (extractFunctions root).map (functionPart filePath language localFns root)
    else []

def prepareBatch (root : MetaNode) (filePath language : String) : IngestBatch :=
  let parts := ingestParts root filePath language
  { documents := parts.flatMap (·.documents)
    edges := parts.flatMap (·.edges)
    filePath, language
    stats := parts.foldl (fun s part => s.add part.stats) ⟨0, 0, 0, 0, 0⟩ }

end

/-! ## Queries -/

/-- Single quotes are doubled. -/
def escapeStr (s : String) : String :=
  String.ofList (s.toList.flatMap fun c => if c = '\'' then ['\'', '\''] else [c])

def setString (field s : String) : String := field ++ " = '" ++ escapeStr s ++ "'"

def setInt (field : String) (n : Int64) : String := field ++ " = " ++ toString n

def documentSets (doc : AstDocument) : List String :=
  [setString "name" doc.name, setString "kind" doc.kind, setString "language" doc.language,
    setString "file_path" doc.filePath] ++
    (doc.lineStart.map (setInt "line_start")).toList ++
    (doc.lineEnd.map (setInt "line_end")).toList ++
    (doc.sourceText.map (setString "source_text")).toList ++
    (doc.signature.map (setString "signature")).toList ++
    (doc.docstring.map (setString "docstring")).toList ++
    (doc.astSerialized.map (setString "ast_serialized")).toList

def createLine (doc : AstDocument) : String :=
  "CREATE ast_node:" ++ escapeStr doc.id ++ " SET " ++ String.intercalate ", " (documentSets doc)

def relateLine (edge : AstEdge) : String :=
  "RELATE ast_node:" ++ escapeStr edge.fromId ++ " -> " ++ edge.edgeType ++ " -> ast_node:" ++ escapeStr edge.toId

def generateDllbQueries (batch : IngestBatch) : List String :=
  ["BEGIN BATCH"] ++ batch.documents.map createLine ++ batch.edges.map relateLine ++ ["END BATCH"]

end Dllb
