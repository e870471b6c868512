import Mathlib
import Dllb.Query.Toon

/-! # Results as TOML documents

The lines of a document are read one by one up to the first row that wants
quotes or escapes. What is read of such a row is not the row, and no line behind
it makes up for that.
-/

namespace Dllb

set_option autoImplicit false

section

variable [Texts]

/-! ## The lines -/

def statusLine : List Char := ['s', 't', 'a', 't', 'u', 's', ' ', '=', ' ', '"', 'r', 'o', 'w', 's', '"']

def countLine (count : Nat) : List Char := ['c', 'o', 'u', 'n', 't', ' ', '=', ' '] ++ (toString count).toList

def dataHeader : List Char := ['[', '[', 'd', 'a', 't', 'a', ']', ']']

def rowLines (row : Fields) : List (List Char) := [] :: dataHeader :: row.toList.map pairChars

theorem toList_toonRow (row : Fields) : (toonRow row).toList = Toml.further (rowLines row) := by
  have hheader : "\n\n[[data]]".toList = '\n' :: '\n' :: dataHeader := by decide
  have hnewline : "\n".toList = ['\n'] := rfl
  have hequals : " = ".toList = [' ', '=', ' '] := rfl
  simp only [toonRow, String.toList_append, String.toList_join, List.flatMap_map, hheader, hnewline, hequals,
    Toml.further, rowLines, List.flatMap_cons, pairChars, toonChars, List.append_assoc, List.cons_append,
    List.nil_append]

theorem toList_formatResultToon (rows : List Fields) : (formatResultToon (.rows rows)).toList =
    Toml.lines (statusLine :: countLine rows.length :: rows.flatMap rowLines) := by
  have hstatus : "status = \"rows\"\ncount = ".toList = statusLine ++ '\n' :: ['c', 'o', 'u', 'n', 't', ' ', '=', ' '] := by
    decide
  unfold formatResultToon
  simp only [String.toList_append, String.toList_join, List.flatMap_map, hstatus, Toml.lines_cons, toList_toonRow,
    Toml.further, List.flatMap_cons, List.flatMap_assoc, countLine, List.append_assoc, List.cons_append]

/-! ## One line -/

omit [Texts] in
theorem follows_further (segments : List (List Char)) : Follows (Toml.further segments) := by
  cases segments with
  | nil => exact fun c hc => by cases hc
  | cons segment segments => exact follows_cons rfl (by decide) _

theorem pairChars_cons {f : String × Value} (h : isBareKey f.1 = true) :
    ∃ c cs, pairChars f = c :: cs ∧ Toml.isSolid c = true ∧ c ≠ '[' := by
  obtain ⟨hne, hbare⟩ := isBareKey_iff.mp h
  obtain ⟨c, cs, hcs⟩ := List.exists_cons_of_ne_nil hne
  have hc := hbare c (hcs ▸ List.mem_cons_self)
  have hnot : ∀ d, Toml.isBare d = false → c ≠ d := by
    rintro d hd rfl
    rw [hc] at hd
    cases hd
  refine ⟨c, _, by rw [pairChars, hcs]; rfl, ?_, hnot '[' rfl⟩
  simp [Toml.isSolid, Toml.isBlank, hnot ' ' rfl, hnot '\t' rfl, hnot '\n' rfl, hnot '\r' rfl, hnot '#' rfl]

/-- A line with a field that can be read. -/
theorem readStatements_pair {f : String × Value} (hbare : isBareKey f.1 = true) (hbegins : BeginsItem f.2)
    (hreads : ReadsToon f.2) (fuel : Nat) (hfuel : (pairChars f).length ≤ fuel) (segments : List (List Char)) :
    ∃ t, Denotes f.2 t ∧ Toml.readStatements (fuel + 1) (Toml.lines (pairChars f :: segments)) =
      (Toml.readStatements fuel (Toml.lines segments)).map (.pair [f.1] t :: ·) := by
  have hlength : (toonChars f.2).length ≤ fuel ∧ 0 < fuel := by
    rw [pairChars, List.length_append, List.length_cons, List.length_cons, List.length_cons] at hfuel
    omega
  obtain ⟨n, rfl⟩ : ∃ n, fuel = n + 1 := ⟨fuel - 1, by omega⟩
  obtain ⟨t, ht, hdenotes⟩ := hreads (n + 1) (Toml.further segments) hlength.1 (follows_further segments)
  obtain ⟨c, cs, htext, hsolid, hbracket⟩ := pairChars_cons hbare
  refine ⟨t, hdenotes, ?_⟩
  have hkey := readKey_pair hbare n (Toml.further segments)
  rw [htext] at hkey ⊢
  refine Toml.readStatements_line hsolid (Toml.readStatement_pair hbracket hkey ?_)
  rw [hbegins.skipBlank, ht]

def pairStatements (pairs : List (List String × Toml)) : List Toml.Statement := pairs.map fun p => .pair p.1 p.2

/-- The lines of a row that can be read. -/
theorem readStatements_pairs {todo : List (String × Value)} (hbare : ∀ f ∈ todo, isBareKey f.1 = true)
    (hbegins : ∀ f ∈ todo, BeginsItem f.2) (hreads : ∀ f ∈ todo, ReadsToon f.2) (segments : List (List Char)) {fuel : Nat}
    (hfuel : (Toml.lines (todo.map pairChars ++ segments)).length < fuel) : ∃ pairs fuel', Matches todo pairs ∧
      (Toml.lines segments).length < fuel' ∧ Toml.readStatements fuel (Toml.lines (todo.map pairChars ++ segments)) =
        (Toml.readStatements fuel' (Toml.lines segments)).map (pairStatements pairs ++ ·) := by
  induction todo generalizing fuel with
  | nil => exact ⟨[], fuel, .nil, hfuel, by simp [pairStatements]⟩
  | cons f todo ih =>
    rw [List.map_cons, List.cons_append] at hfuel ⊢
    have hlength := Toml.length_lines_le (todo.map pairChars ++ segments)
    have hpositive : 0 < (pairChars f).length := by simp [pairChars]
    rw [Toml.lines_cons, List.length_append] at hfuel
    obtain ⟨n, rfl⟩ : ∃ n, fuel = n + 1 := ⟨fuel - 1, by omega⟩
    obtain ⟨t, hdenotes, hread⟩ := readStatements_pair (hbare f List.mem_cons_self) (hbegins f List.mem_cons_self)
      (hreads f List.mem_cons_self) n (by omega) (todo.map pairChars ++ segments)
    obtain ⟨pairs, fuel', hmatches, hfuel', hrest⟩ := ih (fun g hg => hbare g (List.mem_cons_of_mem _ hg))
      (fun g hg => hbegins g (List.mem_cons_of_mem _ hg)) (fun g hg => hreads g (List.mem_cons_of_mem _ hg))
      (show _ < n by omega)
    refine ⟨([f.1], t) :: pairs, fuel', .cons ⟨rfl, hdenotes⟩ hmatches, hfuel', ?_⟩
    rw [hread, hrest, Option.map_map]
    rfl

omit [Texts] in
theorem readStatements_header (fuel : Nat) (segments : List (List Char)) :
    Toml.readStatements (fuel + 3) (Toml.lines ([] :: dataHeader :: segments)) =
      (Toml.readStatements (fuel + 1) (Toml.lines segments)).map (.arrayHeader ["data"] :: ·) := by
  rw [Toml.readStatements_blank, dataHeader]
  exact Toml.readStatements_line rfl rfl

/-! ## All rows -/

def rowStatements (pairs : List (List String × Toml)) : List Toml.Statement :=
  .arrayHeader ["data"] :: pairStatements pairs

/-- Every field of a row can be read. -/
structure RowReads (row : Fields) : Prop where
  bare : ∀ f ∈ row.toList, isBareKey f.1 = true
  begins : ∀ f ∈ row.toList, BeginsItem f.2
  reads : ∀ f ∈ row.toList, ReadsToon f.2

theorem rowReads_of_isReadable {row : Fields} (hplain : (Value.object row.toList).isPlain = true)
    (hreadable : (Value.object row.toList).isReadable = true) : RowReads row := by
  rw [Value.isPlain, Bool.and_eq_true, plainFields_iff] at hplain
  rw [Value.isReadable, Value.passes, fieldsPass_iff] at hreadable
  exact ⟨fun f hf => (hreadable f hf).1, fun f hf => begins_of_isPlain (hplain.2 f hf),
    fun f hf => reads_of_isReadable (hplain.2 f hf) (hreadable f hf).2⟩

theorem lines_rowLines (row : Fields) (segments : List (List Char)) :
    Toml.lines (rowLines row ++ segments) = '\n' :: Toml.lines (dataHeader :: (row.toList.map pairChars ++ segments)) := by
  rw [rowLines, List.cons_append, List.cons_append, Toml.lines_cons, Toml.lines_cons]
  rfl

theorem readStatements_rows {rows : List Fields} (hrows : ∀ row ∈ rows, RowReads row) (segments : List (List Char))
    {fuel : Nat} (hfuel : (Toml.lines (rows.flatMap rowLines ++ segments)).length < fuel) : ∃ tables fuel',
      List.Forall₂ (fun row pairs => Matches row.toList pairs) rows tables ∧ (Toml.lines segments).length < fuel' ∧
        Toml.readStatements fuel (Toml.lines (rows.flatMap rowLines ++ segments)) =
          (Toml.readStatements fuel' (Toml.lines segments)).map (tables.flatMap rowStatements ++ ·) := by
  induction rows generalizing fuel with
  | nil => exact ⟨[], fuel, .nil, hfuel, by simp⟩
  | cons row rows ih =>
    obtain ⟨hrow, hrows⟩ := List.forall_mem_cons.mp hrows
    rw [List.flatMap_cons, List.append_assoc] at hfuel ⊢
    have hlength := Toml.length_lines_le (row.toList.map pairChars ++ (rows.flatMap rowLines ++ segments))
    have hheader : dataHeader.length = 8 := rfl
    rw [lines_rowLines, List.length_cons, Toml.lines_cons, List.length_append, hheader] at hfuel
    obtain ⟨n, rfl⟩ : ∃ n, fuel = n + 3 := ⟨fuel - 3, by omega⟩
    obtain ⟨pairs, fuel₁, hmatches, hfuel₁, hpairs⟩ := readStatements_pairs hrow.bare hrow.begins hrow.reads
      (rows.flatMap rowLines ++ segments) (show _ < n + 1 by omega)
    obtain ⟨tables, fuel₂, htables, hfuel₂, hrest⟩ := ih hrows hfuel₁
    refine ⟨pairs :: tables, fuel₂, .cons hmatches htables, hfuel₂, ?_⟩
    rw [rowLines, List.cons_append, List.cons_append, readStatements_header, hpairs, hrest, Option.map_map,
      Option.map_map]
    simp [rowStatements, Function.comp_def]

/-! ## What the statements build -/

def headEntries (count : Nat) : Toml.Entries :=
  [("status", .value (.string "rows")), ("count", .value (.integer count))]

/-- The entries of a document with these tables. -/
def documentEntries (count : Nat) : List Toml.Entries → Toml.Entries
  | [] => headEntries count
  | items => headEntries count ++ [("data", .tables items)]

omit [Texts] in
theorem documentEntries_of_ne_nil (count : Nat) {items : List Toml.Entries} (h : items ≠ []) :
    documentEntries count items = headEntries count ++ [("data", .tables items)] := by
  cases items with
  | nil => exact absurd rfl h
  | cons entries items => rfl

omit [Texts] in
theorem lookup_data (count : Nat) {items : List Toml.Entries} (h : items ≠ []) :
    (documentEntries count items).lookup "data" = some (.tables items) := by
  rw [documentEntries_of_ne_nil count h]
  rfl

omit [Texts] in
theorem setEntry_data (count : Nat) {items items' : List Toml.Entries} (h : items ≠ []) (h' : items' ≠ []) :
    Toml.setEntry "data" (.tables items') (documentEntries count items) = documentEntries count items' := by
  rw [documentEntries_of_ne_nil count h, documentEntries_of_ne_nil count h']
  rfl

omit [Texts] in
theorem execute_arrayHeader (current : List String) (count : Nat) (items : List Toml.Entries) :
    Toml.execute ⟨current, documentEntries count items⟩ (.arrayHeader ["data"]) =
      some ⟨["data"], documentEntries count (items ++ [[]])⟩ := by
  cases items with
  | nil => rfl
  | cons entries items =>
    have hne := List.cons_ne_nil entries items
    simp only [Toml.execute, List.dropLast, List.getLastD, List.getLast, Toml.within, Toml.openItem, lookup_data count hne,
      setEntry_data count hne (List.concat_ne_nil [] (entries :: items)), Option.map_some]

omit [Texts] in
theorem execute_pair (count : Nat) (items : List Toml.Entries) (entries : Toml.Entries) (path : List String) (v : Toml) :
    Toml.execute ⟨["data"], documentEntries count (items ++ [entries])⟩ (.pair path v) =
      (Toml.insertPair path v entries).map fun entries => ⟨["data"], documentEntries count (items ++ [entries])⟩ := by
  have hne : items ++ [entries] ≠ [] := List.concat_ne_nil entries items
  rw [Toml.execute]
  simp only [Toml.within, Toml.descend, lookup_data count hne, List.getLastD_concat, List.dropLast_concat,
    Option.map_map]
  refine congrArg (Option.map · _) (funext fun sub => ?_)
  exact congrArg (Toml.State.mk ["data"]) (setEntry_data count hne (List.concat_ne_nil sub items))

omit [Texts] in
theorem execute_pairs (count : Nat) (items : List Toml.Entries) (pairs : List (List String × Toml))
    (entries : Toml.Entries) :
    (pairStatements pairs).foldlM Toml.execute ⟨["data"], documentEntries count (items ++ [entries])⟩ =
      (insertPairs pairs entries).map fun entries => ⟨["data"], documentEntries count (items ++ [entries])⟩ := by
  induction pairs generalizing entries with
  | nil => rfl
  | cons p pairs ih =>
    rw [pairStatements, List.map_cons, List.foldlM_cons, execute_pair, insertPairs, List.foldlM_cons]
    cases hinsert : Toml.insertPair p.1 p.2 entries with
    | none => rfl
    | some entries' => exact ih entries'

omit [Texts] in
theorem ascend_toList (row : Fields) : row.toList.Pairwise fun a b => cmpString a.1 b.1 = .lt :=
  Std.ExtTreeMap.ordered_keys_toList

omit [Texts] in
/-- One table for each row. -/
theorem execute_rows {rows : List Fields} {tables : List (List (List String × Toml))}
    (h : List.Forall₂ (fun row pairs => Matches row.toList pairs) rows tables) (current : List String) (count : Nat)
    (items : List Toml.Entries) : ∃ current' items',
      (tables.flatMap rowStatements).foldlM Toml.execute ⟨current, documentEntries count items⟩ =
        some ⟨current', documentEntries count (items ++ items')⟩ ∧
      List.Forall₂ (fun row entries => Holds row.toList entries) rows items' := by
  induction h generalizing current items with
  | nil => exact ⟨current, [], by rw [List.append_nil]; rfl, .nil⟩
  | @cons row pairs rows tables hmatches _ ih =>
    obtain ⟨entries, hentries, hholds⟩ := holds_of_matches hmatches .nil (nodup_of_ascend (ascend_toList row))
    obtain ⟨current', items', hrun, hall⟩ := ih ["data"] (items ++ [entries])
    refine ⟨current', entries :: items', ?_, .cons hholds hall⟩
    rw [List.flatMap_cons, rowStatements, List.cons_append, List.foldlM_cons, execute_arrayHeader]
    simp only [Option.bind_eq_bind, Option.bind_some, List.foldlM_append, execute_pairs, hentries, Option.map_some]
    rw [hrun, List.append_assoc, List.singleton_append]

/-! ## The head of a document -/

/-- The statements in front of the rows. -/
def headStatements (count : Nat) : List Toml.Statement :=
  [.pair ["status"] (.string "rows"), .pair ["count"] (.integer count)]

omit [Texts] in
theorem execute_head (count : Nat) : (headStatements count).foldlM Toml.execute ⟨[], []⟩ =
    some ⟨[], documentEntries count []⟩ := rfl

omit [Texts] in
theorem readValue_count (count fuel : Nat) {rest : List Char} (hrest : Follows rest) :
    Toml.readValue (fuel + 1) ((toString count).toList ++ rest) = some (.integer count, rest) := by
  obtain ⟨c, cs, htext, -, hc⟩ := toString_int_cons count
  have hread := Toml.readWord_int count fun c hc => (hrest c hc).1
  rw [htext, List.cons_append] at hread
  rw [show (toString count).toList = c :: cs from htext, List.cons_append, Toml.readValue_word, hread]
  exact fun hmem => hc (by simp at hmem ⊢; tauto)

theorem readStatements_status (fuel : Nat) (hfuel : 15 ≤ fuel) (segments : List (List Char)) :
    Toml.readStatements (fuel + 1) (Toml.lines (statusLine :: segments)) =
      (Toml.readStatements fuel (Toml.lines segments)).map (.pair ["status"] (.string "rows") :: ·) := by
  have hline : pairChars ("status", .string "rows") = statusLine := by
    rw [pairChars, toonChars_string]
    decide
  obtain ⟨t, hdenotes, hread⟩ := readStatements_pair (f := ("status", .string "rows")) rfl (begins_of_isPlain rfl)
    (reads_string rfl) fuel (by rw [hline]; exact hfuel) segments
  cases t with
  | string s =>
    obtain rfl : s = "rows" := hdenotes
    rwa [hline] at hread
  | _ => exact hdenotes.elim

omit [Texts] in
theorem readStatements_count (count fuel : Nat) (segments : List (List Char)) :
    Toml.readStatements (fuel + 2) (Toml.lines (countLine count :: segments)) =
      (Toml.readStatements (fuel + 1) (Toml.lines segments)).map (.pair ["count"] (.integer count) :: ·) := by
  obtain ⟨c, cs, htext, hsolid, -⟩ := toString_int_cons count
  have hskip : Toml.skipBlank (' ' :: ((toString count).toList ++ Toml.further segments)) =
      (toString count).toList ++ Toml.further segments := by
    rw [show (toString count).toList = c :: cs from htext, Toml.skipBlank_space]
    exact Toml.skipBlank_cons (isBlank_of_isSolid hsolid) _
  have hkey : Toml.readKey (fuel + 1) (countLine count ++ Toml.further segments) =
      some (["count"], '=' :: ' ' :: ((toString count).toList ++ Toml.further segments)) := rfl
  refine Toml.readStatements_line rfl (Toml.readStatement_pair (by decide) hkey ?_)
  rw [hskip, readValue_count count fuel (follows_further segments)]

/-! ## Documents -/

theorem readStatements_document (rows : List Fields) : ∃ fuel, (Toml.lines (rows.flatMap rowLines)).length < fuel ∧
    Toml.readStatements ((formatResultToon (.rows rows)).toList.length + 1) (formatResultToon (.rows rows)).toList =
      (Toml.readStatements fuel (Toml.lines (rows.flatMap rowLines))).map (headStatements rows.length ++ ·) := by
  have hstatus : statusLine.length = 15 := rfl
  have hcount : 8 ≤ (countLine rows.length).length := by simp [countLine]
  have hlines := Toml.length_lines_le (rows.flatMap rowLines)
  have hlength : (Toml.lines (statusLine :: countLine rows.length :: rows.flatMap rowLines)).length =
      16 + (countLine rows.length).length + (Toml.further (rows.flatMap rowLines)).length := by
    rw [Toml.lines_cons, List.length_append, hstatus, Toml.further, List.flatMap_cons, ← Toml.further]
    simp only [List.cons_append, List.length_cons, List.length_append]
    omega
  rw [toList_formatResultToon]
  obtain ⟨n, hn⟩ : ∃ n, (Toml.lines (statusLine :: countLine rows.length :: rows.flatMap rowLines)).length = n + 2 :=
    Nat.exists_eq_add_of_le' (by omega)
  refine ⟨n + 1, by omega, ?_⟩
  rw [hn, readStatements_status (n + 2) (by omega), readStatements_count, Option.map_map]
  rfl

/-- Rows that can be read are read, if there are any. -/
theorem toonDecodes_of_rowReads {rows : List Fields} (hne : rows ≠ []) (hrows : ∀ row ∈ rows, RowReads row) :
    ToonDecodes rows := by
  obtain ⟨fuel, hfuel, hdocument⟩ := readStatements_document rows
  obtain ⟨tables, fuel', hmatches, hfuel', hread⟩ := readStatements_rows hrows [] (by rwa [List.append_nil])
  obtain ⟨current, items, hrun, hholds⟩ := execute_rows hmatches [] rows.length []
  obtain ⟨n, rfl⟩ : ∃ n, fuel' = n + 1 := ⟨fuel' - 1, by omega⟩
  have hnil : Toml.readStatements (n + 1) (Toml.lines []) = some [] := rfl
  rw [List.append_nil, hnil] at hread
  rw [List.nil_append] at hrun
  have hitems : items ≠ [] := by
    rintro rfl
    exact hne (List.forall₂_nil_right_iff.mp hholds)
  refine ⟨Toml.tomlEntries (documentEntries rows.length items), ?_, ?_, ?_, Toml.tomlTables items, ?_, ?_⟩
  · rw [Toml.parse, hdocument, hread]
    simp only [Option.map_some, Option.bind_eq_bind, Option.bind_some, List.append_nil, Toml.run, List.foldlM_append,
      execute_head, hrun]
    rfl
  · rw [Toml.lookup_tomlEntries, documentEntries_of_ne_nil _ hitems]
    rfl
  · rw [Toml.lookup_tomlEntries, documentEntries_of_ne_nil _ hitems]
    rfl
  · rw [Toml.lookup_tomlEntries, lookup_data _ hitems]
    rfl
  · rw [Toml.tomlTables_eq, List.forall₂_map_right_iff]
    exact hholds.imp fun _ _ h => h.denotes (nodup_of_ascend (ascend_toList _))

/-! ## Rows that cannot be read -/

theorem skipBlank_line {f : String × Value} (h : startsAsKey f.1 = true) (rest : List Char) :
    ∃ c cs, Toml.skipBlank (pairChars f ++ rest) = c :: cs ∧ Toml.isSolid c = true ∧ c ≠ '[' := by
  cases hkey : f.1.toList with
  | nil =>
    rw [pairChars, hkey]
    exact ⟨'=', _, rfl, rfl, by decide⟩
  | cons c cs =>
    have hopening : isOpening c = false := by simpa [startsAsKey, hkey] using h
    have hne : ∀ d, isOpening d = true → c ≠ d := by
      rintro d hd rfl
      rw [hd] at hopening
      cases hopening
    have hsolid : Toml.isSolid c = true := by
      simp [Toml.isSolid, Toml.isBlank, hne ' ' rfl, hne '\t' rfl, hne '\n' rfl, hne '\r' rfl, hne '#' rfl]
    rw [pairChars, hkey]
    exact ⟨c, _, Toml.skipBlank_cons (isBlank_of_isSolid hsolid) _, hsolid, hne '[' rfl⟩

theorem strays_of_readStatements {todo : List (String × Value)} (hstarts : ∀ f ∈ todo, startsAsKey f.1 = true)
    (hbegins : ∀ f ∈ todo, BeginsItem f.2) (hreads : ∀ f ∈ todo, ReadsToon f.2 ∨ Misreads f.2)
    (hbad : ∃ f ∈ todo, isBareKey f.1 = false ∨ Misreads f.2) (segments : List (List Char)) {fuel : Nat}
    (hfuel : (Toml.lines (todo.map pairChars ++ segments)).length < fuel) {statements : List Toml.Statement}
    (h : Toml.readStatements fuel (Toml.lines (todo.map pairChars ++ segments)) = some statements) :
    ∃ pairs statements', statements = pairStatements pairs ++ statements' ∧ Strays todo pairs := by
  induction todo generalizing fuel statements with
  | nil => simp at hbad
  | cons f todo ih =>
    rw [List.map_cons, List.cons_append] at hfuel h
    have hlength := Toml.length_lines_le (todo.map pairChars ++ segments)
    have hpositive : (toonChars f.2).length + 3 ≤ (pairChars f).length := by
      rw [pairChars, List.length_append]
      simp only [List.length_cons]
      omega
    rw [Toml.lines_cons, List.length_append] at hfuel
    obtain ⟨n, rfl⟩ : ∃ n, fuel = n + 2 := Nat.exists_eq_add_of_le' (by omega)
    by_cases hread : isBareKey f.1 = false ∨ Misreads f.2
    · rw [Toml.lines_cons] at h
      obtain ⟨c, cs, hskip, hsolid, hbracket⟩ :=
        skipBlank_line (hstarts f List.mem_cons_self) (Toml.further (todo.map pairChars ++ segments))
      obtain ⟨statement, rest, statements', hstatement, rfl⟩ := Toml.readStatements_head hskip hsolid h
      obtain ⟨path, after, t, hkey, ht, rfl⟩ := Toml.readStatement_head hbracket hstatement
      refine ⟨[(path, t)], statements', rfl, ?_⟩
      rw [← hskip] at hkey
      cases hbare : isBareKey f.1 with
      | false =>
        obtain ⟨key, path', rfl, hlt⟩ := readKey_odd (hstarts f List.mem_cons_self) hbare hkey
        exact .key hlt todo path' t []
      | true =>
        rw [(skipBlank_pair hbare _).1, readKey_pair hbare] at hkey
        cases hkey
        rw [(hbegins f List.mem_cons_self).skipBlank] at ht
        have hmisreads := hread.resolve_left (by simp [hbare])
        exact .value (hmisreads (n + 1) _ t rest (by omega) ht) todo []
    · -- the line is read as it should be, and the one that is not comes later
      rw [not_or, Bool.not_eq_false] at hread
      obtain ⟨g, hg, hbad⟩ := hbad
      have hmem : g ∈ todo := by
        obtain rfl | hmem := List.mem_cons.mp hg
        · rw [hread.1] at hbad
          exact absurd (hbad.resolve_left (by simp)) hread.2
        · exact hmem
      obtain ⟨t, hdenotes, hline⟩ := readStatements_pair hread.1 (hbegins f List.mem_cons_self)
        ((hreads f List.mem_cons_self).resolve_right hread.2) (n + 1) (by omega) (todo.map pairChars ++ segments)
      rw [hline] at h
      obtain ⟨statements', hstatements', rfl⟩ := Option.map_eq_some_iff.mp h
      obtain ⟨pairs, rest, rfl, hstrays⟩ := ih (fun y hy => hstarts y (List.mem_cons_of_mem _ hy))
        (fun y hy => hbegins y (List.mem_cons_of_mem _ hy)) (fun y hy => hreads y (List.mem_cons_of_mem _ hy))
        ⟨g, hmem, hbad⟩ (by omega) hstatements'
      exact ⟨([f.1], t) :: pairs, rest, rfl, .later hdenotes hstrays⟩

/-- The fields of a row with something in it that cannot be read. -/
theorem exists_misreads {fields : List (String × Value)} (hplain : (Value.object fields).isPlain = true)
    (hstarts : (Value.object fields).startsKeys = true) (hreadable : (Value.object fields).isReadable = false) :
    (∀ f ∈ fields, startsAsKey f.1 = true) ∧ (∀ f ∈ fields, BeginsItem f.2) ∧
      (∀ f ∈ fields, ReadsToon f.2 ∨ Misreads f.2) ∧ ∃ f ∈ fields, isBareKey f.1 = false ∨ Misreads f.2 := by
  rw [Value.isPlain, Bool.and_eq_true, plainFields_iff] at hplain
  rw [Value.startsKeys, Value.passes, fieldsPass_iff] at hstarts
  rw [Value.isReadable, Value.passes, ← Bool.not_eq_true, fieldsPass_iff] at hreadable
  refine ⟨fun f hf => (hstarts f hf).1, fun f hf => begins_of_isPlain (hplain.2 f hf), fun f hf => ?_, ?_⟩
  · cases hf' : f.2.isReadable with
    | true => exact .inl (reads_of_isReadable (hplain.2 f hf) hf')
    | false => exact .inr (misreads_of_not_isReadable (hplain.2 f hf) (hstarts f hf).2 hf')
  · push Not at hreadable
    obtain ⟨f, hf, hnot⟩ := hreadable
    cases hbare : isBareKey f.1 with
    | false => exact ⟨f, hf, .inl hbare⟩
    | true =>
      have hvalue : f.2.isReadable = false := Bool.not_eq_true _ ▸ hnot hbare
      exact ⟨f, hf, .inr (misreads_of_not_isReadable (hplain.2 f hf) (hstarts f hf).2 hvalue)⟩

theorem not_toonDecodes_nil : ¬ ToonDecodes [] := by
  rintro ⟨entries, hparse, -, -, tables, hdata, -⟩
  obtain ⟨fuel, hfuel, hdocument⟩ := readStatements_document []
  obtain ⟨n, rfl⟩ : ∃ n, fuel = n + 1 := Nat.exists_eq_add_of_le' (by omega)
  have hnil : Toml.readStatements (n + 1) (Toml.lines ([].flatMap rowLines)) = some [] := rfl
  rw [Toml.parse, hdocument, hnil] at hparse
  cases hparse
  cases hdata

omit [Texts] in
/-- Behind the tables of the good rows stands a table that is not the bad row's. -/
theorem off_of_run {good : List Fields} {tables : List (List (List String × Toml))}
    (hmatches : List.Forall₂ (fun row pairs => Matches row.toList pairs) good tables) {bad : Fields}
    {pairs : List (List String × Toml)} (hstrays : Strays bad.toList pairs) {count : Nat} {rest : List Toml.Statement}
    {st : Toml.State} (hrun : Toml.run (headStatements count ++ (tables.flatMap rowStatements ++
      .arrayHeader ["data"] :: (pairStatements pairs ++ rest))) = some st) :
    ∃ items entries, st.root.lookup "data" = some (.tables items) ∧ items[good.length]? = some entries ∧
      Off bad.toList entries := by
  obtain ⟨current, items, hgood, hholds⟩ := execute_rows hmatches [] count []
  rw [Toml.run, List.foldlM_append, execute_head] at hrun
  simp only [Option.bind_eq_bind, Option.bind_some, List.foldlM_append, hgood, List.foldlM_cons, execute_arrayHeader,
    execute_pairs, List.nil_append] at hrun
  obtain ⟨st', hpairs, hrest⟩ := Option.bind_eq_some_iff.mp hrun
  obtain ⟨entries, hentries, rfl⟩ := Option.map_eq_some_iff.mp hpairs
  have hoff : Off bad.toList entries := off_of_strays hstrays .nil (ascend_toList bad) hentries
  have hlookup : (documentEntries count (items ++ [entries])).lookup "data" = some (.tables (items ++ [entries])) :=
    lookup_data count (List.concat_ne_nil entries items)
  have hlast : (items ++ [entries])[good.length]? = some entries := by
    rw [hholds.length_eq, List.getElem?_concat_length]
  obtain ⟨items', entries', hitems', hentries', hkeeps⟩ := Toml.tables_of_execute hrest hlookup hlast
  exact ⟨items', entries', hitems', hentries', hoff.keeps hkeeps⟩

/-- The first row that cannot be read is no row of the document, whatever follows it. -/
theorem isReadable_of_toonDecodes {rows : List Fields}
    (hplain : ∀ row ∈ rows, (Value.object row.toList).isPlain = true)
    (hstarts : ∀ row ∈ rows, (Value.object row.toList).startsKeys = true) (h : ToonDecodes rows) :
    ∀ row ∈ rows, (Value.object row.toList).isReadable = true := by
  by_contra hreadable
  push Not at hreadable
  obtain ⟨bad, hbad⟩ : ∃ bad, rows.find? (fun row => !(Value.object row.toList).isReadable) = some bad := by
    rw [← Option.isSome_iff_exists, List.find?_isSome]
    obtain ⟨row, hrow, hnot⟩ := hreadable
    exact ⟨row, hrow, by simpa using hnot⟩
  obtain ⟨hnot, good, later, rfl, hgood⟩ := List.find?_eq_some_iff_append.mp hbad
  have hmem : bad ∈ good ++ bad :: later := List.mem_append_right _ List.mem_cons_self
  obtain ⟨hkeys, hbegins, hreads, hfield⟩ :=
    exists_misreads (hplain bad hmem) (hstarts bad hmem) (by simpa using hnot)
  obtain ⟨entries, hparse, -, -, tables, hdata, htables⟩ := h
  obtain ⟨fuel, hfuel, hdocument⟩ := readStatements_document (good ++ bad :: later)
  rw [List.flatMap_append, List.flatMap_cons] at hfuel hdocument
  obtain ⟨goodTables, fuel', hmatches, hfuel', hread⟩ := readStatements_rows
    (fun row hrow => rowReads_of_isReadable (hplain row (List.mem_append_left _ hrow)) (by simpa using hgood row hrow))
    (rowLines bad ++ later.flatMap rowLines) hfuel
  have hlength := Toml.length_lines_le (bad.toList.map pairChars ++ later.flatMap rowLines)
  have hheader : dataHeader.length = 8 := rfl
  rw [lines_rowLines, List.length_cons, Toml.lines_cons, List.length_append, hheader] at hfuel'
  obtain ⟨n, rfl⟩ : ∃ n, fuel' = n + 3 := Nat.exists_eq_add_of_le' (by omega)
  rw [rowLines, List.cons_append, List.cons_append, readStatements_header] at hread
  rw [Toml.parse, hdocument, rowLines, List.cons_append, List.cons_append, hread] at hparse
  obtain ⟨statements, hstatements, hparse⟩ := Option.bind_eq_some_iff.mp hparse
  obtain ⟨st, hrun, heq⟩ := Option.bind_eq_some_iff.mp hparse
  cases heq
  simp only [Option.map_eq_some_iff] at hstatements
  obtain ⟨_, ⟨_, ⟨rest, hrest, rfl⟩, rfl⟩, rfl⟩ := hstatements
  obtain ⟨pairs, rest', rfl, hstrays⟩ :=
    strays_of_readStatements hkeys hbegins hreads hfield (later.flatMap rowLines) (by omega) hrest
  obtain ⟨items, badEntries, hitems, hbadEntries, hoff⟩ := off_of_run hmatches hstrays hrun
  rw [Toml.lookup_tomlEntries, hitems, Option.map_some, Toml.Node.toToml, Toml.tomlTables_eq] at hdata
  cases hdata
  rw [List.forall₂_map_right_iff, List.forall₂_iff_get] at htables
  obtain ⟨hindex, hget⟩ := List.getElem?_eq_some_iff.mp hbadEntries
  have hdenotes := htables.2 good.length (by simp) hindex
  rw [List.get_eq_getElem, List.get_eq_getElem, hget, List.getElem_append_right le_rfl] at hdenotes
  simp only [Nat.sub_self, List.getElem_cons_zero] at hdenotes
  exact hoff.not_denotes hdenotes

/-- Rows are read back from their TOML if there are any, their keys are bare and their strings printable; and, where
no key begins as something else does, only then. -/
theorem toon_decodes {rows : List Fields} (hplain : ∀ row ∈ rows, (Value.object row.toList).isPlain = true) :
    ((rows ≠ [] ∧ ∀ row ∈ rows, (Value.object row.toList).isReadable = true) → ToonDecodes rows) ∧
      ((∀ row ∈ rows, (Value.object row.toList).startsKeys = true) → ToonDecodes rows →
        rows ≠ [] ∧ ∀ row ∈ rows, (Value.object row.toList).isReadable = true) := by
  constructor
  · rintro ⟨hne, hreadable⟩
    exact toonDecodes_of_rowReads hne fun row hrow => rowReads_of_isReadable (hplain row hrow) (hreadable row hrow)
  · intro hstarts h
    refine ⟨?_, isReadable_of_toonDecodes hplain hstarts h⟩
    rintro rfl
    exact not_toonDecodes_nil h

end

/-- A row with every kind of value, and one with nothing. -/
def nestedRows : List Fields :=
  [((∅ : Fields).insert "a" (.array [.none, .bool true, .int (-3), .string "q\"\\"])).insert "b"
    (.object [("k", .object []), ("k-2", .string "")]), ∅]

open Concrete in
theorem toon_decodes_nestedRows :
    ((nestedRows ≠ [] ∧ ∀ row ∈ nestedRows, (Value.object row.toList).isReadable = true) → ToonDecodes nestedRows) ∧
      ((∀ row ∈ nestedRows, (Value.object row.toList).startsKeys = true) → ToonDecodes nestedRows →
        nestedRows ≠ [] ∧ ∀ row ∈ nestedRows, (Value.object row.toList).isReadable = true) :=
  toon_decodes (by decide +kernel)

/-- The column that `SELECT ast::scope(tree, 3)` gives. -/
def scopeRows : List Fields := [(∅ : Fields).insert "ast::scope(tree, 3)" (.string "[]")]

open Concrete in
/-- The name of the column is no key. -/
theorem toon_rejects_column : ¬ ToonDecodes scopeRows := by
  have hnone : (Toml.parse (formatResultToon (.rows scopeRows)).toList).isNone = true := by decide +kernel
  rintro ⟨entries, hparse, -⟩
  rw [hparse] at hnone
  cases hnone

end Dllb
