import Mathlib
import Dllb.Lib.Csv
import Dllb.Query.Reads

/-! # Rows as comma-separated values

Rows are written under a header with the names of their columns. The cells are
quoted where they hold a comma, a quote or a line feed, and the header never is.
-/

namespace Dllb

set_option autoImplicit false

/-- The records that a text holds. -/
def readCsv (text : String) : Option (List (List String)) :=
  (Csv.read text.toList).map fun records => records.map fun record => record.map String.ofList

/-- The names of the columns, by their first appearance. -/
def distinctColumns (rows : List Fields) : List String := (rows.flatMap fun row => row.keys).eraseDups

section

variable [Texts]

def csvText (row : Fields) (column : String) : String := (row[column]?.map csvValue).getD ""

/-- What can be read back: no name needs quotes, a cell that holds a carriage return is quoted for something
else, and the last row does not show as an empty line. -/
structure CsvDecodable (rows : List Fields) : Prop where
  columns : distinctColumns rows ≠ []
  names : ∀ name ∈ distinctColumns rows,
    ',' ∉ name.toList ∧ '"' ∉ name.toList ∧ '\r' ∉ name.toList ∧ '\n' ∉ name.toList
  cells : ∀ row ∈ rows, ∀ column ∈ distinctColumns rows, '\r' ∈ (csvText row column).toList →
    ',' ∈ (csvText row column).toList ∨ '"' ∈ (csvText row column).toList ∨ '\n' ∈ (csvText row column).toList
  last : ∀ row ∈ rows.getLast?, ∀ column, distinctColumns rows = [column] → csvText row column ≠ ""

/-! ## The columns -/

omit [Texts] in
theorem columns_eq (keys columns : List String) :
    keys.foldl (fun columns key => if key ∈ columns then columns else columns ++ [key]) columns =
      columns ++ (keys.filter fun key => key ∉ columns).eraseDups := by
  induction keys generalizing columns with
  | nil => simp
  | cons key keys ih =>
    rw [List.foldl_cons, ih]
    by_cases hkey : key ∈ columns
    · rw [if_pos hkey, List.filter_cons_of_neg (by simpa using hkey)]
    · have hrest : (keys.filter fun k => k ∉ columns ++ [key]) =
          (keys.filter fun k => k ∉ columns).filter fun k => !k == key := by
        rw [List.filter_filter]
        refine List.filter_congr fun k _ => ?_
        by_cases hk : k = key
        · simp [hk]
        · simp [hk]
      rw [if_neg hkey, List.filter_cons_of_pos (by simpa using hkey), List.eraseDups_cons, hrest, List.append_assoc,
        List.singleton_append]

omit [Texts] in
theorem csvColumns_eq (rows : List Fields) : csvColumns rows = distinctColumns rows := by
  have hfold : csvColumns rows = (rows.flatMap fun row => row.keys).foldl
      (fun columns key => if key ∈ columns then columns else columns ++ [key]) [] := by
    rw [csvColumns, List.foldl_flatMap]
  rw [hfold, columns_eq, distinctColumns, List.nil_append]
  simp

/-! ## The cells -/

def headerCell (name : String) : Csv.Cell := { text := name.toList, quoted := false }

def bodyCell (row : Fields) (column : String) : Csv.Cell :=
  let text := (csvText row column).toList
  { text, quoted := decide (',' ∈ text ∨ '"' ∈ text ∨ '\n' ∈ text) }

theorem csvCell_eq (row : Fields) (column : String) : (csvCell row column).toList = (bodyCell row column).write := by
  have hcell : csvCell row column = csvEscape (csvText row column) := by
    rw [csvCell, csvText]
    cases row[column]? with
    | none => rfl
    | some v => rfl
  rw [hcell, csvEscape, bodyCell, Csv.Cell.write]
  by_cases hquoted : ',' ∈ (csvText row column).toList ∨ '"' ∈ (csvText row column).toList ∨
      '\n' ∈ (csvText row column).toList
  · simp [hquoted, replaceChar, Csv.escape]
  · simp [hquoted]

omit [Texts] in
theorem isText_iff {c : Char} : Csv.isText c = true ↔ c ≠ ',' ∧ c ≠ '"' ∧ c ≠ '\r' ∧ c ≠ '\n' := by
  simp only [Csv.isText, Bool.and_eq_true, bne_iff_ne, ne_eq, and_assoc]

omit [Texts] in
theorem forall_isText_iff {text : List Char} :
    (∀ c ∈ text, Csv.isText c = true) ↔ ',' ∉ text ∧ '"' ∉ text ∧ '\r' ∉ text ∧ '\n' ∉ text := by
  simp only [isText_iff]
  constructor
  · exact fun h => ⟨fun hc => (h _ hc).1 rfl, fun hc => (h _ hc).2.1 rfl, fun hc => (h _ hc).2.2.1 rfl,
      fun hc => (h _ hc).2.2.2 rfl⟩
  · rintro ⟨hcomma, hquote, hcr, hlf⟩ c hc
    exact ⟨fun heq => hcomma (heq ▸ hc), fun heq => hquote (heq ▸ hc), fun heq => hcr (heq ▸ hc),
      fun heq => hlf (heq ▸ hc)⟩

omit [Texts] in
theorem headerCell_readable {name : String} : (headerCell name).Readable ↔
    ',' ∉ name.toList ∧ '"' ∉ name.toList ∧ '\r' ∉ name.toList ∧ '\n' ∉ name.toList := by
  rw [Csv.Cell.Readable, ← forall_isText_iff]
  simp [headerCell]

theorem bodyCell_readable {row : Fields} {column : String} : (bodyCell row column).Readable ↔
    ('\r' ∈ (csvText row column).toList → ',' ∈ (csvText row column).toList ∨
      '"' ∈ (csvText row column).toList ∨ '\n' ∈ (csvText row column).toList) := by
  simp only [Csv.Cell.Readable, bodyCell, forall_isText_iff, decide_eq_true_eq]
  tauto

/-- The header and the rows, as cells. -/
def csvCells (rows : List Fields) : List (List Csv.Cell) :=
  (distinctColumns rows).map headerCell :: rows.map fun row => (distinctColumns rows).map (bodyCell row)

theorem formatRowsCsv_eq {rows : List Fields} (hne : rows ≠ []) :
    (formatRowsCsv rows).toList = Csv.writeRecords (csvCells rows) := by
  have hempty : rows.isEmpty = false := by simpa using hne
  have hheader : (String.intercalate "," (distinctColumns rows)).toList =
      Csv.writeRecord ((distinctColumns rows).map headerCell) := by
    rw [String.toList_intercalate, Csv.writeRecord, List.map_map]
    rfl
  have hrow : ∀ row, (String.intercalate "," ((distinctColumns rows).map (csvCell row))).toList =
      Csv.writeRecord ((distinctColumns rows).map (bodyCell row)) := by
    intro row
    rw [String.toList_intercalate, Csv.writeRecord, List.map_map, List.map_map]
    exact congrArg _ (List.map_congr_left fun column _ => csvCell_eq row column)
  rw [formatRowsCsv, hempty, csvCells, Csv.writeRecords_eq, List.flatMap_map]
  simp only [Bool.false_eq_true, if_false, csvColumns_eq, String.toList_append, hheader, String.toList_join,
    List.flatMap_map, hrow]
  rfl

omit [Texts] in
theorem readCsv_eq_some {text : String} {records : List (List String)} :
    readCsv text = some records ↔ Csv.read text.toList = some (records.map fun record => record.map String.toList) := by
  have hback : ∀ records : List (List (List Char)),
      (records.map fun record => record.map String.ofList).map (fun record => record.map String.toList) = records := by
    intro records
    simp [Function.comp_def]
  constructor
  · intro h
    obtain ⟨chars, hread, rfl⟩ := Option.map_eq_some_iff.mp h
    rw [hread, hback]
  · intro h
    simp [readCsv, h, Function.comp_def]

/-- A row is an empty line only if its one cell is empty. -/
theorem writeRecord_ne_nil_iff {row : Fields} {columns : List String} (hne : columns ≠ []) :
    Csv.writeRecord (columns.map (bodyCell row)) ≠ [] ↔ ∀ column, columns = [column] → csvText row column ≠ "" := by
  obtain ⟨column, rest, rfl⟩ := List.exists_cons_of_ne_nil hne
  by_cases hrest : rest = []
  · subst hrest
    have hone : ∀ c, [column] = [c] ↔ column = c := by simp
    simp only [hone, forall_eq', List.map_cons, List.map_nil, Csv.writeRecord_singleton]
    rw [Csv.Cell.write, bodyCell]
    split
    · rename_i hquoted
      refine iff_of_true (List.cons_ne_nil _ _) fun hempty => ?_
      simp [hempty] at hquoted
    · exact not_congr String.toList_eq_nil_iff
  · refine iff_of_true ?_ fun c hc => absurd (List.cons.inj hc).2 hrest
    rw [List.map_cons, Csv.writeRecord_cons _ (by simpa using hrest)]
    simp

theorem csvCells_readable {rows : List Fields} : (∀ row ∈ csvCells rows, ∀ c ∈ row, c.Readable) ↔
    (∀ name ∈ distinctColumns rows, (headerCell name).Readable) ∧
      ∀ row ∈ rows, ∀ column ∈ distinctColumns rows, (bodyCell row column).Readable := by
  simp only [csvCells, List.forall_mem_cons, List.forall_mem_map]

/-- Rows are read back from their CSV exactly if they are decodable. -/
theorem csv_decodes_iff {rows : List Fields} (hne : rows ≠ []) :
    readCsv (formatRowsCsv rows) = some (distinctColumns rows :: rows.map fun row =>
      (distinctColumns rows).map (csvText row)) ↔ CsvDecodable rows := by
  have hcells : (distinctColumns rows :: rows.map fun row => (distinctColumns rows).map (csvText row)).map
      (fun record => record.map String.toList) = (csvCells rows).map fun row => row.map Csv.Cell.text := by
    simp [csvCells, headerCell, bodyCell, Function.comp_def]
  rw [readCsv_eq_some, hcells, formatRowsCsv_eq hne]
  by_cases hcolumns : distinctColumns rows = []
  · refine iff_of_false (fun hread => ?_) fun h => h.columns hcolumns
    obtain ⟨record, rest, records, hrecord, heq⟩ := Csv.head_of_readRecords hread
    rw [csvCells, hcolumns] at heq
    cases heq
    exact Csv.ne_nil_of_readRecord hrecord rfl
  · have hrows : ∀ row ∈ csvCells rows, row ≠ [] := by
      simp [csvCells, hcolumns]
    have hlast : Csv.EndsVisibly (csvCells rows) ↔
        ∀ row ∈ rows.getLast?, ∀ column, distinctColumns rows = [column] → csvText row column ≠ "" := by
      simp only [Csv.EndsVisibly, csvCells, List.tail_cons, List.getLast?_map, Option.mem_map,
        forall_exists_index, and_imp, forall_apply_eq_imp_iff₂, writeRecord_ne_nil_iff hcolumns]
    rw [Csv.read_iff (by simp [csvCells]) hrows, csvCells_readable, hlast]
    simp only [headerCell_readable, bodyCell_readable]
    exact ⟨fun h => ⟨hcolumns, h.1.1, h.1.2, h.2⟩, fun h => ⟨⟨h.names, h.cells⟩, h.last⟩⟩

end

/-- Rows with different columns and a cell with a comma and a carriage return. -/
def mixedRows : List Fields := [(∅ : Fields).insert "a" (.string "x, \r y"), ((∅ : Fields).insert "b" (.int 1)).insert "a" .none]

open Concrete in
theorem csv_decodes_mixedRows : readCsv (formatRowsCsv mixedRows) =
    some (distinctColumns mixedRows :: mixedRows.map fun row => (distinctColumns mixedRows).map (csvText row)) ↔
      CsvDecodable mixedRows :=
  csv_decodes_iff (List.cons_ne_nil _ _)

/-- What `SELECT ast::scope(tree, 3)` gives for a record. -/
def scopedRows : List Fields :=
  [((∅ : Fields).insert "ast::scope(tree, 3)" (.string "[]")).insert "id" (.recordId ⟨"t", "1"⟩)]

open Concrete in
/-- The name of the column becomes two. -/
theorem csv_splits_header : readCsv (formatRowsCsv scopedRows) ≠
    some (distinctColumns scopedRows :: scopedRows.map fun row => (distinctColumns scopedRows).map (csvText row)) := by
  decide +kernel

end Dllb
