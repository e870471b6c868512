import Mathlib
import Dllb.Query.Executor

/-! # Formatting of results and errors

How a float, a value in debug form and rows in JSON are written out belongs to
the standard library and to `serde_json`, and is a parameter.
-/

namespace Dllb

set_option autoImplicit false

class Texts where
  float : F64 → String
  float32 : F32 → String
  debug : Value → String
  debugLiterals : List Literal → String
  jsonRows : List Fields → Option String

def replaceChar (c : Char) (replacement : String) (s : String) : String :=
  String.ofList (s.toList.flatMap fun d => if d = c then replacement.toList else [d])

def RecordId.display (r : RecordId) : String := r.table ++ ":" ++ r.id

section

variable [Texts]

def Piece.display : Piece → String
  | text s => s
  | debug v => Texts.debug v

def Message.display (m : Message) : String := String.join (m.map Piece.display)

def Error.display : Error → String
  | storage m => "storage error: " ++ m.display
  | serialization m => "serialization error: " ++ m.display
  | notFound m => "record not found: " ++ m.display
  | schema m => "schema violation: " ++ m.display
  | conflict m => "transaction conflict: " ++ m.display
  | query m => "query error: " ++ m.display
  | index m => "index error: " ++ m.display
  | dimensionMismatch expected actual =>
    "dimension mismatch: expected " ++ toString expected ++ ", got " ++ toString actual
  | other m => m.display

/-! ## JSON -/

def formatResultJson : QueryResult → String
  | .cachedResponse s => s
  | .ok => "\x7b\"status\":\"ok\"\x7d"
  | .created id => "\x7b\"status\":\"created\",\"id\":\"" ++ id.display ++ "\"\x7d"
  | .updated id => "\x7b\"status\":\"updated\",\"id\":\"" ++ id.display ++ "\"\x7d"
  | .deleted existed => "\x7b\"status\":\"deleted\",\"existed\":" ++ toString existed ++ "\x7d"
  | .deletedMany count => "\x7b\"status\":\"deleted_many\",\"count\":" ++ toString count ++ "\x7d"
  | .batch count created updated =>
    "\x7b\"status\":\"batch\",\"count\":" ++ toString count ++ ",\"created\":" ++ toString created ++
      ",\"updated\":" ++ toString updated ++ "\x7d"
  | .rows rows =>
    "\x7b\"status\":\"rows\",\"count\":" ++ toString rows.length ++ ",\"data\":" ++
      (Texts.jsonRows rows).getD "[]" ++ "\x7d"
  | .communities algorithm groups =>
    "\x7b\"status\":\"communities\",\"algorithm\":\"" ++ algorithm ++ "\",\"community_count\":" ++
      toString groups.length ++ ",\"data\":" ++ (Texts.jsonRows groups).getD "[]" ++ "\x7d"
  | .update matched => "\x7b\"status\":\"update\",\"matched\":" ++ toString matched ++ "\x7d"
  | .count count => "\x7b\"status\":\"count\",\"count\":" ++ toString count ++ "\x7d"
  | .components count largest nodes =>
    "\x7b\"status\":\"components\",\"component_count\":" ++ toString count ++ ",\"largest\":" ++
      toString largest ++ ",\"nodes\":" ++ toString nodes ++ "\x7d"

def formatErrorJson (err : Error) : String :=
  "\x7b\"status\":\"error\",\"message\":\"" ++ replaceChar '"' "\\\"" err.display ++ "\"\x7d"

/-! ## TOON -/

mutual

def toonValue : Value → String
  | .none => "\"none\""
  | .bool b => toString b
  | .int n => toString n.toInt
  | .float f => Texts.float f
  | .string s => "\"" ++ replaceChar '"' "\\\"" (replaceChar '\\' "\\\\" s) ++ "\""
  | .bytes b => "\"<" ++ toString b.length ++ " bytes>\""
  | .array xs => "[" ++ String.intercalate ", " (toonItems xs) ++ "]"
  | .object fields => "\x7b " ++ String.intercalate ", " (toonPairs fields) ++ " \x7d"
  | .recordId r => "\"" ++ r.display ++ "\""
  | .vector v => "[" ++ String.intercalate ", " (v.map Texts.float32) ++ "]"

def toonItems : List Value → List String
  | [] => []
  | x :: xs => toonValue x :: toonItems xs

def toonPairs : List (String × Value) → List String
  | [] => []
  | (k, v) :: fields => (k ++ " = " ++ toonValue v) :: toonPairs fields

end

def toonRow (row : Fields) : String :=
  "\n\n[[data]]" ++ String.join (row.toList.map fun kv => "\n" ++ kv.1 ++ " = " ++ toonValue kv.2)

def formatResultToon : QueryResult → String
  | .cachedResponse s => s
  | .ok => "status = \"ok\""
  | .created id => "status = \"created\"\nid = \"" ++ id.display ++ "\""
  | .updated id => "status = \"updated\"\nid = \"" ++ id.display ++ "\""
  | .deleted existed => "status = \"deleted\"\nexisted = " ++ toString existed
  | .deletedMany count => "status = \"deleted_many\"\ncount = " ++ toString count
  | .batch count created updated =>
    "status = \"batch\"\ncount = " ++ toString count ++ "\ncreated = " ++ toString created ++
      "\nupdated = " ++ toString updated
  | .rows rows => "status = \"rows\"\ncount = " ++ toString rows.length ++ String.join (rows.map toonRow)
  | .communities algorithm groups =>
    "status = \"communities\"\nalgorithm = \"" ++ algorithm ++ "\"\ncommunity_count = " ++
      toString groups.length ++ String.join (groups.map toonRow)
  | .update matched => "status = \"update\"\nmatched = " ++ toString matched
  | .count count => "status = \"count\"\ncount = " ++ toString count
  | .components count largest nodes =>
    "status = \"components\"\ncomponent_count = " ++ toString count ++ "\nlargest = " ++ toString largest ++
      "\nnodes = " ++ toString nodes

def formatErrorToon (err : Error) : String :=
  "status = \"error\"\nmessage = \"" ++ replaceChar '"' "\\\"" err.display ++ "\""

/-! ## CSV -/

def csvEscape (s : String) : String :=
  if ',' ∈ s.toList ∨ '"' ∈ s.toList ∨ '\n' ∈ s.toList then "\"" ++ replaceChar '"' "\"\"" s ++ "\"" else s

mutual

def csvValue : Value → String
  | .none => ""
  | .bool b => toString b
  | .int n => toString n.toInt
  | .float f => Texts.float f
  | .string s => s
  | .bytes b => "<" ++ toString b.length ++ " bytes>"
  | .array xs => "[" ++ String.intercalate ";" (csvItems xs) ++ "]"
  | .object _ => "<object>"
  | .recordId r => r.display
  | .vector v => "[" ++ String.intercalate ";" (v.map Texts.float32) ++ "]"

def csvItems : List Value → List String
  | [] => []
  | x :: xs => csvValue x :: csvItems xs

end

/-- The column names of all rows, in the order in which they first appear. -/
def csvColumns (rows : List Fields) : List String :=
  rows.foldl (fun columns row =>
    row.keys.foldl (fun columns key => if key ∈ columns then columns else columns ++ [key]) columns) []

def csvCell (row : Fields) (column : String) : String :=
  match row[column]? with
  | some v => csvEscape (csvValue v)
  | none => ""

def formatRowsCsv (rows : List Fields) : String :=
  if rows.isEmpty then "status,count\nrows,0"
  else
    let columns := csvColumns rows
    String.intercalate "," columns ++
      String.join (rows.map fun row => "\n" ++ String.intercalate "," (columns.map (csvCell row)))

def formatResultCsv : QueryResult → String
  | .cachedResponse s => s
  | .ok => "status\nok"
  | .created id => "status,id\ncreated," ++ csvEscape id.display
  | .updated id => "status,id\nupdated," ++ csvEscape id.display
  | .deleted existed => "status,existed\ndeleted," ++ toString existed
  | .deletedMany count => "status,count\ndeleted_many," ++ toString count
  | .batch count created updated =>
    "status,count,created,updated\nbatch," ++ toString count ++ "," ++ toString created ++ "," ++
      toString updated
  | .rows rows => formatRowsCsv rows
  | .communities _ groups => formatRowsCsv groups
  | .update matched => "status,matched\nupdate," ++ toString matched
  | .count count => "status,count\ncount," ++ toString count
  | .components count largest nodes =>
    "status,component_count,largest,nodes\ncomponents," ++ toString count ++ "," ++ toString largest ++ "," ++
      toString nodes

def formatErrorCsv (err : Error) : String := "status,message\nerror," ++ csvEscape err.display

/-! ## By the requested format -/

def formatResult (result : QueryResult) : OutcomeFormat → String
  | .json => formatResultJson result
  | .toon => formatResultToon result
  | .csv => formatResultCsv result

def formatError (err : Error) : OutcomeFormat → String
  | .json => formatErrorJson err
  | .toon => formatErrorToon err
  | .csv => formatErrorCsv err

/-- A payload of the cache is sent as it is. -/
@[simp] theorem formatResult_cachedResponse (payload : String) (outcome : OutcomeFormat) :
    formatResult (.cachedResponse payload) outcome = payload := by
  cases outcome <;> rfl

end

end Dllb
