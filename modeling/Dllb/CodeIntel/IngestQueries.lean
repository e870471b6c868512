import Mathlib
import Dllb.CodeIntel.Ingest
import Dllb.Query.Identifiers

/-! # What the queries of an ingestion say

The id of a document stands in its query as it is. Ids have a `::` in them, and
identifiers of the query language have none.
-/

namespace Dllb

set_option autoImplicit false

open Dllb.Parser

/-! ## What is created -/

section

variable [Debug]

theorem parseId_eq_ok {ts rest : List Token} {id : String} (h : parseId ts = .ok (some id, rest)) :
    ts = .colon :: .ident id :: rest := by
  by_cases hColon : ts.head? = some .colon
  · obtain ⟨ts, rfl⟩ := List.head?_eq_some_iff.mp hColon
    rw [parseId, when_next, bind_ok (skip_apply _ _)] at h
    obtain ⟨id', ts', hId, h⟩ := bind_eq_ok.mp h
    cases h
    rw [expectIdent_eq_ok hId]
  · rw [parseId, unless_next hColon] at h
    cases h

theorem parseCreate_id {ts rest : List Token} {table id : String} {fields : Assignments}
    {onConflict : Option OnConflict}
    (h : parseCreate (.create :: ts) = .ok (.create table (some id) fields onConflict, rest)) : .ident id ∈ ts := by
  rw [parseCreate, bind_ok (expect_cons _ ts)] at h
  obtain ⟨table', ts₁, hTable, h⟩ := bind_eq_ok.mp h
  obtain ⟨id', ts₂, hId, h⟩ := bind_eq_ok.mp h
  obtain ⟨-, ts₃, -, h⟩ := bind_eq_ok.mp h
  obtain ⟨fields', ts₄, -, h⟩ := bind_eq_ok.mp h
  obtain ⟨onConflict', ts₅, -, h⟩ := bind_eq_ok.mp h
  cases h
  rw [expectIdent_eq_ok hTable, parseId_eq_ok hId]
  simp

/-- The id of a record that a query creates is a word. -/
theorem parse_create_id {text table id : String} {fields : Assignments}
    {onConflict : Option OnConflict} {outcome : OutcomeFormat}
    (h : parse ("CREATE " ++ text) = .ok ⟨.create table (some id) fields onConflict, outcome⟩) : ∀ c ∈ id.toList, isWordChar c = Bool.true := by
  rw [parse] at h
  cases hTokens : tokenize ("CREATE " ++ text) with
  | error e =>
    rw [hTokens] at h
    cases h
  | ok tokens =>
    rw [hTokens] at h
    obtain ⟨ts, rfl⟩ := tokenize_keyword .create "CREATE" rfl hTokens
    obtain ⟨rest, hQuery⟩ := parseTokens_eq_ok h
    obtain ⟨statement, ts', hStatement, hOutcome⟩ := bind_eq_ok.mp hQuery
    obtain ⟨outcome', ts'', -, hOutcome⟩ := bind_eq_ok.mp hOutcome
    cases hOutcome
    exact tokenize_ident hTokens (List.mem_cons_of_mem _ (parseCreate_id hStatement))

/-! ## What a batch says -/

def stringField (field s : String) : String × Literal := (field, .string s)

def intField (field : String) (n : Int64) : String × Literal := (field, .int n)

/-- The fields of a document that are present, in order. -/
def AstDocument.fields (doc : AstDocument) : Assignments :=
  [stringField "name" doc.name, stringField "kind" doc.kind, stringField "language" doc.language,
    stringField "file_path" doc.filePath] ++
    (doc.lineStart.map (intField "line_start")).toList ++
    (doc.lineEnd.map (intField "line_end")).toList ++
    (doc.sourceText.map (stringField "source_text")).toList ++
    (doc.signature.map (stringField "signature")).toList ++
    (doc.docstring.map (stringField "docstring")).toList ++
    (doc.astSerialized.map (stringField "ast_serialized")).toList

/-- The statement that a document or an edge stands for. -/
def AstDocument.statement (doc : AstDocument) : Statement := .create "ast_node" (some doc.id) doc.fields none

def AstEdge.statement (edge : AstEdge) : Statement :=
  .relate ⟨"ast_node", edge.fromId⟩ edge.edgeType ⟨"ast_node", edge.toId⟩ []

/-- A line without a line break that is parsed as the statement. -/
def Says (line : String) (s : Statement) : Prop := '\n' ∉ line.toList ∧ ∃ outcome, parse line = .ok ⟨s, outcome⟩

/-- The lines between the first and the last say the documents and then the edges. -/
def IngestBatch.Faithful (batch : IngestBatch) : Prop :=
  ∃ lines, generateDllbQueries batch = ["BEGIN BATCH"] ++ lines ++ ["END BATCH"] ∧
    List.Forall₂ Says lines (batch.documents.map AstDocument.statement ++ batch.edges.map AstEdge.statement)

omit [Debug] in
theorem generateDllbQueries_lines {batch : IngestBatch} {lines : List String}
    (h : generateDllbQueries batch = ["BEGIN BATCH"] ++ lines ++ ["END BATCH"]) :
    lines = batch.documents.map createLine ++ batch.edges.map relateLine := by
  rw [generateDllbQueries, List.append_assoc ["BEGIN BATCH"]] at h
  exact (List.append_cancel_left (List.append_cancel_right h)).symm

omit [Debug] in
theorem create_append (a b c : String) :
    "CREATE ast_node:" ++ a ++ b ++ c = "CREATE " ++ ("ast_node:" ++ (a ++ (b ++ c))) := by
  have hKeyword : "CREATE ast_node:" = "CREATE " ++ "ast_node:" := by decide
  rw [hKeyword, String.append_assoc, String.append_assoc, String.append_assoc]

omit [Debug] in
theorem createLine_eq (doc : AstDocument) : ∃ text, createLine doc = "CREATE " ++ text :=
  ⟨_, create_append _ _ _⟩

theorem not_says_createLine {doc : AstDocument} (h : ':' ∈ doc.id.toList) :
    ¬ Says (createLine doc) doc.statement := by
  rintro ⟨-, outcome, hParse⟩
  obtain ⟨text, hLine⟩ := createLine_eq doc
  rw [hLine] at hParse
  exact absurd (parse_create_id hParse ':' h) (by decide)

theorem documents_eq_nil_of_faithful {batch : IngestBatch} (hIds : ∀ doc ∈ batch.documents, ':' ∈ doc.id.toList)
    (h : batch.Faithful) : batch.documents = [] := by
  obtain ⟨lines, hLines, hSays⟩ := h
  rw [generateDllbQueries_lines hLines] at hSays
  cases hDocuments : batch.documents with
  | nil => rfl
  | cons doc documents =>
    rw [hDocuments] at hSays hIds
    obtain ⟨hDoc, -⟩ := List.forall₂_cons.mp hSays
    exact absurd hDoc (not_says_createLine (hIds doc List.mem_cons_self))

/-! ## What a tree gives rise to -/

variable [MetaJson]

omit [Debug] in
theorem colon_mem_id {root : MetaNode} {filePath language : String} {part : IngestPart}
    (hPart : part ∈ ingestParts root filePath language) : ∀ doc ∈ part.documents, ':' ∈ doc.id.toList := by
  have hFunction : ∀ node func, ':' ∈ (functionDocument filePath language node func).id.toList := by
    intro node func
    simp [functionDocument, functionId]
  rw [ingestParts, List.mem_append, List.mem_map] at hPart
  obtain ⟨node, -, rfl⟩ | hPart := hPart
  · intro doc hDoc
    rw [containerPart, List.mem_cons, List.mem_map] at hDoc
    obtain rfl | ⟨func, -, rfl⟩ := hDoc
    · simp [containerDocument, containerId]
    · exact hFunction node func
  · split at hPart
    · obtain ⟨func, -, rfl⟩ := List.mem_map.mp hPart
      rintro doc hDoc
      rw [List.mem_singleton.mp hDoc]
      exact hFunction root func
    · cases hPart

omit [Debug] in
theorem part_documents_ne_nil {root : MetaNode} {filePath language : String} {part : IngestPart}
    (hPart : part ∈ ingestParts root filePath language) : part.documents ≠ [] := by
  rw [ingestParts, List.mem_append, List.mem_map] at hPart
  obtain ⟨node, -, rfl⟩ | hPart := hPart
  · exact List.cons_ne_nil _ _
  · split at hPart
    · obtain ⟨func, -, rfl⟩ := List.mem_map.mp hPart
      exact List.cons_ne_nil _ _
    · cases hPart

omit [Debug] in
theorem ingestParts_eq_nil_iff {root : MetaNode} {filePath language : String} :
    ingestParts root filePath language = [] ↔
      (∀ n ∈ walk root, n.nodeType ≠ .container) ∧ root.nodeType ≠ .functionDef := by
  rw [ingestParts, List.append_eq_nil_iff, List.map_eq_nil_iff, List.filter_eq_nil_iff]
  refine and_congr (by simp) ?_
  split
  next hRoot =>
    have hSelf : root ∈ (walk root).filter (·.nodeType = .functionDef) :=
      List.mem_filter.mpr ⟨mem_walk_self root, decide_eq_true hRoot⟩
    rw [extractFunctions, List.map_eq_nil_iff, List.map_eq_nil_iff]
    exact iff_of_false (List.ne_nil_of_mem hSelf) (fun h => h hRoot)
  next hRoot => exact iff_of_true rfl hRoot

omit [Debug] in
theorem prepareBatch_documents_eq_nil {root : MetaNode} {filePath language : String}
    (h : (prepareBatch root filePath language).documents = []) : ingestParts root filePath language = [] := by
  rw [List.eq_nil_iff_forall_not_mem]
  intro part hPart
  exact part_documents_ne_nil hPart (List.flatMap_eq_nil_iff.mp h part hPart)

omit [Debug] in
theorem prepareBatch_ids {root : MetaNode} {filePath language : String} :
    ∀ doc ∈ (prepareBatch root filePath language).documents, ':' ∈ doc.id.toList := by
  intro doc hDoc
  obtain ⟨part, hPart, hDoc⟩ := List.mem_flatMap.mp hDoc
  exact colon_mem_id hPart doc hDoc

theorem faithful_of_ingestParts_eq_nil {root : MetaNode} {filePath language : String}
    (h : ingestParts root filePath language = []) : (prepareBatch root filePath language).Faithful := by
  refine ⟨[], ?_, ?_⟩
  · simp [prepareBatch, h, generateDllbQueries]
  · simp [prepareBatch, h]

/-- The queries say what a batch says only where there is nothing to say. -/
theorem ingest_faithful_iff (root : MetaNode) (filePath language : String) :
    (prepareBatch root filePath language).Faithful ↔
      (∀ n ∈ walk root, n.nodeType ≠ .container) ∧ root.nodeType ≠ .functionDef := by
  rw [← ingestParts_eq_nil_iff]
  constructor
  · intro h
    exact prepareBatch_documents_eq_nil (documents_eq_nil_of_faithful prepareBatch_ids h)
  · exact faithful_of_ingestParts_eq_nil

end

section Runs

open Concrete

/-- A module without anything in it. -/
def emptyModule : MetaNode := .mk .container [("name", .string "MyApp")] (.nodes [])

namespace Concrete

/-- The text of the empty module. -/
scoped instance emptyModuleJson : MetaJson where
  toString _ := some ("\x7b\"node_type\":\"Container\",\"meta\":[[\"name\",\x7b\"String\":\"MyApp\"\x7d]]," ++
    "\"children\":\x7b\"Nodes\":[]\x7d\x7d")

end Concrete

theorem empty_module_rejected :
    ¬ ∀ (root : MetaNode) (filePath language : String), (prepareBatch root filePath language).Faithful := by
  intro h
  have hEmpty := documents_eq_nil_of_faithful prepareBatch_ids (h emptyModule "lib/my_app.ex" "elixir")
  cases hEmpty

end Runs

end Dllb
