import Mathlib.Data.List.TakeDrop
import Mathlib.Data.List.TakeWhile
import Mathlib.Tactic.Common

/-! # Comma-separated values

The format of RFC 4180, with a line feed for a line break as well: a field is
quoted or holds neither a comma nor a quote nor any part of a line break, and a
quote within quotes is doubled. The last line may end with a line break.
-/

namespace Dllb

set_option autoImplicit false

namespace Csv

/-- A character that an unquoted field can hold. -/
def isText (c : Char) : Bool := c != ',' && c != '"' && c != '\r' && c != '\n'

/-- The rest of a quoted field. -/
def readQuoted : List Char → Option (List Char × List Char)
  | [] => none
  | '"' :: '"' :: cs => (readQuoted cs).map fun r => ('"' :: r.1, r.2)
  | '"' :: cs => some ([], cs)
  | c :: cs => (readQuoted cs).map fun r => (c :: r.1, r.2)

def readField : List Char → Option (List Char × List Char)
  | '"' :: cs => readQuoted cs
  | cs => some (cs.span isText)

/-- No more fields than `fuel`. -/
def readRecord : Nat → List Char → Option (List (List Char) × List Char)
  | 0, _ => none
  | fuel + 1, cs => do
    let (field, rest) ← readField cs
    match rest with
    | ',' :: rest => do
      let (fields, rest) ← readRecord fuel rest
      return (field :: fields, rest)
    | rest => return ([field], rest)

/-- What follows a line break. -/
def lineBreak : List Char → Option (List Char)
  | '\n' :: cs => some cs
  | '\r' :: '\n' :: cs => some cs
  | _ => none

def readRecords : Nat → List Char → Option (List (List (List Char)))
  | 0, _ => none
  | fuel + 1, cs => do
    let (record, rest) ← readRecord (cs.length + 1) cs
    if rest = [] then return [record]
    else
      let next ← lineBreak rest
      if next = [] then return [record]
      else
        let records ← readRecords fuel next
        return record :: records

def read (text : List Char) : Option (List (List (List Char))) := readRecords (text.length + 1) text

/-! ## Writing -/

structure Cell where
  text : List Char
  quoted : Bool

def escape (text : List Char) : List Char := text.flatMap fun d => if d = '"' then ['"', '"'] else [d]

def Cell.write (c : Cell) : List Char := if c.quoted then '"' :: (escape c.text ++ ['"']) else c.text

def writeRecord (cells : List Cell) : List Char := List.intercalate [','] (cells.map Cell.write)

def writeRecords (rows : List (List Cell)) : List Char := List.intercalate ['\n'] (rows.map writeRecord)

def Cell.Readable (c : Cell) : Prop := c.quoted = true ∨ ∀ d ∈ c.text, isText d = true

/-! ## Fields -/

/-- What comes after a field. -/
def Ends (rest : List Char) : Prop := rest = [] ∨ ∃ cs, rest = ',' :: cs ∨ rest = '\n' :: cs

theorem readQuoted_escape (text : List Char) {rest : List Char} (h : Ends rest) :
    readQuoted (escape text ++ '"' :: rest) = some (text, rest) := by
  induction text with
  | nil =>
    obtain rfl | ⟨cs, rfl | rfl⟩ := h
    · rfl
    · rfl
    · rfl
  | cons c text ih =>
    by_cases hc : c = '"'
    · subst hc
      simp only [escape, List.flatMap_cons, if_true, List.cons_append, List.nil_append] at ih ⊢
      rw [readQuoted, ih]
      rfl
    · simp only [escape, List.flatMap_cons, if_neg hc, List.cons_append, List.nil_append] at ih ⊢
      rw [readQuoted, ih]
      · rfl
      · exact fun _ hquote _ => hc hquote
      · exact hc

theorem readField_of_readable {c : Cell} (hc : c.Readable) {rest : List Char} (h : Ends rest) :
    readField (c.write ++ rest) = some (c.text, rest) := by
  obtain ⟨text, quoted⟩ := c
  cases quoted with
  | true =>
    rw [Cell.write, if_pos rfl, List.cons_append, readField, List.append_assoc, List.singleton_append]
    exact readQuoted_escape text h
  | false =>
    have htext : ∀ d ∈ text, isText d = true := hc.resolve_left Bool.false_ne_true
    have hspan : (text ++ rest).span isText = (text, rest) := by
      rw [List.span_eq_takeWhile_dropWhile, List.takeWhile_append_of_pos htext, List.dropWhile_append_of_pos htext]
      obtain rfl | ⟨cs, rfl | rfl⟩ := h
      · simp
      · simp [isText]
      · simp [isText]
    simp only [Cell.write, Bool.false_eq_true, if_false]
    rw [readField, hspan]
    rintro cs hquote
    cases text with
    | nil => obtain rfl | ⟨cs', rfl | rfl⟩ := h <;> cases hquote
    | cons d text =>
      cases hquote
      exact absurd (htext '"' List.mem_cons_self) (by decide)

/-- A quote that was read had been doubled. -/
theorem readQuoted_quote {cs text rest : List Char} (h : readQuoted cs = some ('"' :: text, rest)) :
    ∃ cs', cs = '"' :: '"' :: cs' ∧ readQuoted cs' = some (text, rest) := by
  unfold readQuoted at h
  split at h
  · cases h
  · rename_i cs'
    obtain ⟨r, hr, heq⟩ := Option.map_eq_some_iff.mp h
    cases heq
    exact ⟨cs', rfl, hr⟩
  · cases h
  · rename_i c cs' hother hquote
    obtain ⟨r, hr, heq⟩ := Option.map_eq_some_iff.mp h
    cases heq
    exact absurd rfl hquote

/-- With quotes in front, what was read is shorter than it would have to be. -/
theorem readQuoted_ne {rest : List Char} (h : Ends rest) :
    ∀ (text : List Char) (k : Nat) (r : List Char),
      readQuoted (text ++ rest) ≠ some (List.replicate (k + 1) '"' ++ text, r)
  | [], k, r => by
    intro hread
    obtain ⟨cs, heq, -⟩ := readQuoted_quote hread
    obtain rfl | ⟨cs', rfl | rfl⟩ := h <;> cases heq
  | [c], k, r => by
    intro hread
    obtain ⟨cs, heq, -⟩ := readQuoted_quote hread
    obtain rfl | ⟨cs', rfl | rfl⟩ := h <;> cases heq
  | c :: d :: text, k, r => by
    intro hread
    obtain ⟨cs, heq, hread'⟩ := readQuoted_quote hread
    cases heq
    refine readQuoted_ne h text (k + 1) r (hread'.trans ?_)
    simp [List.replicate_succ']

/-- A field is read as its text only where the text needs no quotes or has them. -/
theorem readable_of_readField {c : Cell} {rest r : List Char} (h : Ends rest)
    (hread : readField (c.write ++ rest) = some (c.text, r)) : c.Readable := by
  obtain ⟨text, quoted⟩ := c
  cases quoted with
  | true => exact .inl rfl
  | false =>
    refine .inr ?_
    simp only [Cell.write, Bool.false_eq_true, if_false] at hread ⊢
    cases text with
    | nil => exact List.forall_mem_nil _
    | cons d text =>
      by_cases hd : d = '"'
      · subst hd
        rw [List.cons_append, readField] at hread
        exact absurd hread (readQuoted_ne h text 0 r)
      · rw [readField] at hread
        · rw [List.span_eq_takeWhile_dropWhile, Option.some.injEq, Prod.mk.injEq] at hread
          intro e he
          rw [← hread.1] at he
          exact List.mem_takeWhile_imp he
        · rintro cs ⟨⟩
          exact hd rfl

/-! ## Records -/

theorem writeRecord_cons (c : Cell) {cells : List Cell} (h : cells ≠ []) :
    writeRecord (c :: cells) = c.write ++ ',' :: writeRecord cells := by
  obtain ⟨c', cells, rfl⟩ := List.exists_cons_of_ne_nil h
  simp [writeRecord, List.intercalate]

theorem writeRecord_singleton (c : Cell) : writeRecord [c] = c.write := by simp [writeRecord, List.intercalate]

/-- What comes after a record. -/
def Breaks (rest : List Char) : Prop := rest = [] ∨ ∃ cs, rest = '
' :: cs

theorem Breaks.ends {rest : List Char} (h : Breaks rest) : Ends rest :=
  h.imp_right fun ⟨cs, heq⟩ => ⟨cs, .inr heq⟩

theorem readRecord_of_readable {cells : List Cell} (hne : cells ≠ []) (hcells : ∀ c ∈ cells, c.Readable)
    {rest : List Char} (h : Breaks rest) {fuel : Nat} (hfuel : cells.length ≤ fuel) :
    readRecord fuel (writeRecord cells ++ rest) = some (cells.map Cell.text, rest) := by
  induction cells generalizing fuel with
  | nil => exact absurd rfl hne
  | cons c cells ih =>
    obtain ⟨fuel, rfl⟩ : ∃ n, fuel = n + 1 := Nat.exists_eq_add_one_of_ne_zero (by simp at hfuel; omega)
    obtain ⟨hc, hcells⟩ := List.forall_mem_cons.mp hcells
    by_cases hnil : cells = []
    · subst hnil
      rw [writeRecord_singleton, readRecord, readField_of_readable hc h.ends]
      obtain rfl | ⟨cs, rfl⟩ := h
      · rfl
      · rfl
    · have hrest : Ends (',' :: (writeRecord cells ++ rest)) := .inr ⟨_, .inl rfl⟩
      rw [writeRecord_cons c hnil, readRecord, List.append_assoc, List.cons_append, readField_of_readable hc hrest]
      simp only [Option.bind_eq_bind, Option.bind_some, List.map_cons]
      rw [ih hnil hcells (Nat.le_of_succ_le_succ hfuel)]
      rfl

theorem readable_of_readRecord {cells : List Cell} {rest r : List Char} (h : Breaks rest) {fuel : Nat}
    (hread : readRecord fuel (writeRecord cells ++ rest) = some (cells.map Cell.text, r)) :
    ∀ c ∈ cells, c.Readable := by
  induction cells generalizing fuel with
  | nil => exact List.forall_mem_nil _
  | cons c cells ih =>
    cases fuel with
    | zero => cases hread
    | succ fuel =>
      rw [readRecord] at hread
      simp only [Option.bind_eq_bind, Option.bind_eq_some_iff, List.map_cons] at hread
      obtain ⟨⟨field, after⟩, hfield, hread⟩ := hread
      have hhead : field = c.text := by
        split at hread
        · obtain ⟨⟨fields, rest'⟩, -, heq⟩ := Option.bind_eq_some_iff.mp hread
          cases heq
          rfl
        · simp only [Option.pure_def, Option.some.injEq, Prod.mk.injEq, List.cons.injEq] at hread
          exact hread.1.1
      subst hhead
      by_cases hnil : cells = []
      · subst hnil
        rw [writeRecord_singleton] at hfield
        exact List.forall_mem_singleton.mpr (readable_of_readField h.ends hfield)
      · rw [writeRecord_cons c hnil, List.append_assoc, List.cons_append] at hfield
        have hrest : Ends (',' :: (writeRecord cells ++ rest)) := .inr ⟨_, .inl rfl⟩
        have hc := readable_of_readField hrest hfield
        rw [readField_of_readable hc hrest] at hfield
        cases hfield
        simp only [Option.bind_eq_some_iff] at hread
        obtain ⟨⟨fields, rest'⟩, hrecord, heq⟩ := hread
        cases heq
        exact List.forall_mem_cons.mpr ⟨hc, ih hrecord⟩

/-! ## All of a text -/

theorem writeRecords_cons (row : List Cell) {rows : List (List Cell)} (h : rows ≠ []) :
    writeRecords (row :: rows) = writeRecord row ++ '\n' :: writeRecords rows := by
  obtain ⟨row', rows, rfl⟩ := List.exists_cons_of_ne_nil h
  simp [writeRecords, List.intercalate]

theorem writeRecords_singleton (row : List Cell) : writeRecords [row] = writeRecord row := by
  simp [writeRecords, List.intercalate]

theorem writeRecords_eq (row : List Cell) (rows : List (List Cell)) :
    writeRecords (row :: rows) = writeRecord row ++ rows.flatMap fun row => '\n' :: writeRecord row := by
  induction rows generalizing row with
  | nil => simp [writeRecords_singleton]
  | cons row' rows ih => rw [writeRecords_cons row (List.cons_ne_nil _ _), ih, List.flatMap_cons, List.cons_append]

theorem length_le_writeRecord (cells : List Cell) : cells.length ≤ (writeRecord cells).length + 1 := by
  induction cells with
  | nil => exact Nat.zero_le _
  | cons c cells ih =>
    by_cases hnil : cells = []
    · subst hnil
      simp
    · rw [writeRecord_cons c hnil]
      simp only [List.length_cons, List.length_append]
      omega

/-- Nothing at the end would not be a record, unless it were the only one. -/
def EndsVisibly (rows : List (List Cell)) : Prop := ∀ row ∈ rows.tail.getLast?, writeRecord row ≠ []

theorem endsVisibly_cons (row : List Cell) {rows : List (List Cell)} (h : rows ≠ []) :
    EndsVisibly (row :: rows) ↔ writeRecords rows ≠ [] ∧ EndsVisibly rows := by
  obtain ⟨row', rows, rfl⟩ := List.exists_cons_of_ne_nil h
  cases rows with
  | nil => simp [EndsVisibly, writeRecords_singleton]
  | cons row'' rows =>
    rw [writeRecords_cons row' (List.cons_ne_nil _ _)]
    simp [EndsVisibly, List.getLast?_cons_cons]

theorem head_of_readRecords {fuel : Nat} {cs : List Char} {records : List (List (List Char))}
    (h : readRecords fuel cs = some records) :
    ∃ record rest tail, readRecord (cs.length + 1) cs = some (record, rest) ∧ records = record :: tail := by
  cases fuel with
  | zero => cases h
  | succ fuel =>
    simp only [readRecords, Option.bind_eq_bind, Option.bind_eq_some_iff] at h
    obtain ⟨⟨record, rest⟩, hrecord, h⟩ := h
    split at h
    · exact ⟨record, rest, [], hrecord, (Option.some.inj h).symm⟩
    · obtain ⟨next, -, h⟩ := Option.bind_eq_some_iff.mp h
      split at h
      · exact ⟨record, rest, [], hrecord, (Option.some.inj h).symm⟩
      · obtain ⟨tail, -, h⟩ := Option.bind_eq_some_iff.mp h
        exact ⟨record, rest, tail, hrecord, (Option.some.inj h).symm⟩

/-- The rows are read back exactly if every cell can be and the last row shows. -/
theorem readRecords_iff {rows : List (List Cell)} (hne : rows ≠ []) (hrows : ∀ row ∈ rows, row ≠ []) {fuel : Nat}
    (hfuel : rows.length ≤ fuel) :
    readRecords fuel (writeRecords rows) = some (rows.map fun row => row.map Cell.text) ↔
      (∀ row ∈ rows, ∀ c ∈ row, c.Readable) ∧ EndsVisibly rows := by
  induction rows generalizing fuel with
  | nil => exact absurd rfl hne
  | cons row rows ih =>
    obtain ⟨fuel, rfl⟩ : ∃ n, fuel = n + 1 := Nat.exists_eq_add_one_of_ne_zero (by simp at hfuel; omega)
    obtain ⟨hrow, hrows⟩ := List.forall_mem_cons.mp hrows
    obtain ⟨rest, htext, hrest⟩ : ∃ rest, writeRecords (row :: rows) = writeRecord row ++ rest ∧
        (rows = [] ∧ rest = [] ∨ rows ≠ [] ∧ rest = '\n' :: writeRecords rows) := by
      by_cases hnil : rows = []
      · exact ⟨[], by rw [hnil, writeRecords_singleton, List.append_nil], .inl ⟨hnil, rfl⟩⟩
      · exact ⟨_, writeRecords_cons row hnil, .inr ⟨hnil, rfl⟩⟩
    have hbreaks : Breaks rest := hrest.imp And.right fun h => ⟨_, h.2⟩
    rw [htext, List.forall_mem_cons, List.map_cons]
    by_cases hcells : ∀ c ∈ row, c.Readable
    · have hlength := length_le_writeRecord row
      rw [readRecords, readRecord_of_readable hrow hcells hbreaks (by rw [List.length_append]; omega)]
      obtain ⟨rfl, rfl⟩ | ⟨hnil, rfl⟩ := hrest
      · simpa [EndsVisibly] using hcells
      · rw [endsVisibly_cons row hnil]
        by_cases hshows : writeRecords rows = []
        · simp [lineBreak, hshows, hnil]
        · have hih := ih hnil hrows (Nat.le_of_succ_le_succ hfuel)
          simp only [Option.bind_eq_bind, Option.bind_some, List.cons_ne_nil, if_false, lineBreak, hshows,
            Option.bind_eq_some_iff, Option.pure_def, Option.some.injEq, List.cons.injEq, true_and, exists_eq_right]
          rw [hih]
          exact ⟨fun h => ⟨⟨hcells, h.1⟩, hshows, h.2⟩, fun h => ⟨h.1.2, h.2.2⟩⟩
    · simp only [hcells, false_and, iff_false]
      intro hread
      obtain ⟨record, after, records, hrecord, heq⟩ := head_of_readRecords hread
      cases heq
      exact hcells (readable_of_readRecord hbreaks hrecord)

theorem length_le_writeRecords (rows : List (List Cell)) : rows.length ≤ (writeRecords rows).length + 1 := by
  induction rows with
  | nil => exact Nat.zero_le _
  | cons row rows ih =>
    by_cases hnil : rows = []
    · subst hnil
      simp
    · rw [writeRecords_cons row hnil]
      simp only [List.length_cons, List.length_append]
      omega

theorem read_iff {rows : List (List Cell)} (hne : rows ≠ []) (hrows : ∀ row ∈ rows, row ≠ []) :
    read (writeRecords rows) = some (rows.map fun row => row.map Cell.text) ↔
      (∀ row ∈ rows, ∀ c ∈ row, c.Readable) ∧ EndsVisibly rows :=
  readRecords_iff hne hrows (length_le_writeRecords rows)

/-- No record is without a field. -/
theorem ne_nil_of_readRecord {fuel : Nat} {cs rest : List Char} {record : List (List Char)}
    (h : readRecord fuel cs = some (record, rest)) : record ≠ [] := by
  cases fuel with
  | zero => cases h
  | succ fuel =>
    simp only [readRecord, Option.bind_eq_bind, Option.bind_eq_some_iff] at h
    obtain ⟨⟨field, after⟩, -, h⟩ := h
    split at h
    · obtain ⟨⟨fields, after'⟩, -, heq⟩ := Option.bind_eq_some_iff.mp h
      cases heq
      exact List.cons_ne_nil _ _
    · cases h
      exact List.cons_ne_nil _ _

end Csv

end Dllb
