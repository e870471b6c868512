import Dllb.Lib.TomlTree

/-! # TOML documents

The recursive part of the grammar: values with their arrays and inline tables,
and the lines of a document.
-/

namespace Dllb.Toml

set_option autoImplicit false

/-! ## Values -/

mutual

/-- No more than `fuel` levels and items. -/
def readValue : Nat → List Char → Option (Toml × List Char)
  | 0, _ => none
  | fuel + 1, cs =>
    match cs with
    | '"' :: _ => (readString cs).map fun r => (.string (String.ofList r.1), r.2)
    | '\'' :: _ => (readString cs).map fun r => (.string (String.ofList r.1), r.2)
    | '[' :: cs => (readItems fuel cs).map fun r => (.array r.1, r.2)
    | '{' :: cs =>
      match skipBlank cs with
      | '}' :: rest => some (.table [], rest)
      | cs => do
        let (pairs, rest) ← readPairs fuel cs
        (inlineTable pairs).map fun entries => (.table entries, rest)
    | cs => readWord cs

def readItems : Nat → List Char → Option (List Toml × List Char)
  | 0, _ => none
  | fuel + 1, cs => do
    match ← skipFiller Bool.false cs with
    | ']' :: rest => some ([], rest)
    | cs => do
      let (v, cs) ← readValue fuel cs
      match ← skipFiller Bool.false cs with
      | ',' :: cs => (readItems fuel cs).map fun r => (v :: r.1, r.2)
      | ']' :: rest => some ([v], rest)
      | _ => none

def readPairs : Nat → List Char → Option (List (List String × Toml) × List Char)
  | 0, _ => none
  | fuel + 1, cs => do
    match ← readKey fuel cs with
    | (path, '=' :: cs) => do
      let (v, cs) ← readValue fuel (skipBlank cs)
      match skipBlank cs with
      | ',' :: cs => (readPairs fuel (skipBlank cs)).map fun r => ((path, v) :: r.1, r.2)
      | '}' :: rest => some ([(path, v)], rest)
      | _ => none
    | _ => none

end

theorem readString_basic {cs : List Char} (h : ∀ cs', cs ≠ '"' :: '"' :: cs') : readString ('"' :: cs) = readBasic cs := by
  rw [readString]
  exact fun cs' heq => h cs' heq

theorem readValue_string (fuel : Nat) (cs : List Char) : readValue (fuel + 1) ('"' :: cs) =
    (readString ('"' :: cs)).map fun r => (.string (String.ofList r.1), r.2) := by
  rw [readValue]

theorem readValue_array (fuel : Nat) (cs : List Char) : readValue (fuel + 1) ('[' :: cs) =
    (readItems fuel cs).map fun r => (.array r.1, r.2) := by
  rw [readValue]

theorem readValue_object {cs : List Char} (h : (skipBlank cs).head? ≠ some '}') (fuel : Nat) :
    readValue (fuel + 1) ('{' :: cs) = (readPairs fuel (skipBlank cs)).bind fun r =>
      (inlineTable r.1).map fun entries => (.table entries, r.2) := by
  rw [readValue]
  split
  · rename_i heq
    exact absurd (by rw [heq]; rfl) h
  · rfl

theorem readValue_emptyObject {cs rest : List Char} (h : skipBlank cs = '}' :: rest) (fuel : Nat) :
    readValue (fuel + 1) ('{' :: cs) = some (.table [], rest) := by
  rw [readValue, h]
  rfl

theorem readValue_word {c : Char} (hc : c ∉ ['"', '\'', '[', '{']) (fuel : Nat) (cs : List Char) :
    readValue (fuel + 1) (c :: cs) = readWord (c :: cs) := by
  simp only [List.mem_cons, List.not_mem_nil, or_false, not_or] at hc
  obtain ⟨hquote, happostrophe, hbracket, hbrace⟩ := hc
  rw [readValue]
  · exact fun _ h => hquote (List.cons.inj h).1
  · exact fun _ h => happostrophe (List.cons.inj h).1
  · exact fun _ h => hbracket (List.cons.inj h).1
  · exact fun _ h => hbrace (List.cons.inj h).1

theorem readItems_cons {c : Char} (hsolid : isSolid c = Bool.true) (hclose : c ≠ ']') (fuel : Nat) (cs : List Char) :
    readItems (fuel + 1) (c :: cs) = (readValue fuel (c :: cs)).bind fun r =>
      (skipFiller Bool.false r.2).bind fun cs =>
        match cs with
        | ',' :: cs => (readItems fuel cs).map fun items => (r.1 :: items.1, items.2)
        | ']' :: rest => some ([r.1], rest)
        | _ => none := by
  rw [readItems, skipFiller_cons hsolid]
  simp only [Option.bind_eq_bind, Option.bind_some]
  split
  · rename_i heq
    exact absurd (List.cons.inj heq).1 hclose
  · rfl

theorem readItems_head {c : Char} (hsolid : isSolid c = Bool.true) (hclose : c ≠ ']') {fuel : Nat} {cs rest : List Char}
    {ts : List Toml} (h : readItems (fuel + 1) (c :: cs) = some (ts, rest)) :
    ∃ t after ts', readValue fuel (c :: cs) = some (t, after) ∧ ts = t :: ts' := by
  rw [readItems_cons hsolid hclose] at h
  obtain ⟨⟨t, after⟩, ht, h⟩ := Option.bind_eq_some_iff.mp h
  obtain ⟨cs', -, h⟩ := Option.bind_eq_some_iff.mp h
  refine ⟨t, after, ?_⟩
  split at h
  · obtain ⟨items, -, heq⟩ := Option.map_eq_some_iff.mp h
    exact ⟨items.1, ht, (congrArg Prod.fst heq).symm⟩
  · exact ⟨[], ht, (congrArg Prod.fst (Option.some.inj h)).symm⟩
  · cases h

theorem readPairs_succ (fuel : Nat) (cs : List Char) : readPairs (fuel + 1) cs = (readKey fuel cs).bind fun r =>
    match r.2 with
    | '=' :: cs => (readValue fuel (skipBlank cs)).bind fun v =>
      match skipBlank v.2 with
      | ',' :: cs => (readPairs fuel (skipBlank cs)).map fun q => ((r.1, v.1) :: q.1, q.2)
      | '}' :: rest => some ([(r.1, v.1)], rest)
      | _ => none
    | _ => none := by
  rw [readPairs]
  refine congrArg (Option.bind _) (funext fun r => ?_)
  obtain ⟨path, cs⟩ := r
  dsimp only
  split <;> simp_all

theorem readPairs_head {fuel : Nat} {cs rest : List Char} {pairs : List (List String × Toml)}
    (h : readPairs (fuel + 1) cs = some (pairs, rest)) : ∃ path after t after' pairs',
      readKey fuel cs = some (path, '=' :: after) ∧ readValue fuel (skipBlank after) = some (t, after') ∧
        pairs = (path, t) :: pairs' := by
  rw [readPairs_succ] at h
  obtain ⟨⟨path, cs'⟩, hkey, h⟩ := Option.bind_eq_some_iff.mp h
  dsimp only at h
  split at h
  · rename_i after
    obtain ⟨⟨t, after'⟩, ht, h⟩ := Option.bind_eq_some_iff.mp h
    refine ⟨path, after, t, after', ?_⟩
    split at h
    · obtain ⟨q, -, heq⟩ := Option.map_eq_some_iff.mp h
      exact ⟨q.1, hkey, ht, (congrArg Prod.fst heq).symm⟩
    · exact ⟨[], hkey, ht, (congrArg Prod.fst (Option.some.inj h)).symm⟩
    · cases h
  · cases h

/-! ## Keys -/

theorem readKey_bare {key : List Char} (hne : key ≠ []) (hbare : ∀ c ∈ key, isBare c = Bool.true) (fuel : Nat)
    (cs : List Char) : readKey (fuel + 1) (key ++ ' ' :: '=' :: cs) = some ([String.ofList key], '=' :: cs) := by
  have hstops : StopsAt isBare (' ' :: '=' :: cs) := by
    rintro _ ⟨⟩
    rfl
  rw [readKey, readSimpleKey_bare hne hbare hstops]
  rfl

theorem readKey_head {fuel : Nat} {cs rest rest' : List Char} {key : String} {path : List String}
    (hkey : readSimpleKey cs = some (key, rest)) (h : readKey fuel cs = some (path, rest')) :
    ∃ path', path = key :: path' := by
  cases fuel with
  | zero => cases h
  | succ fuel =>
    rw [readKey, hkey] at h
    simp only [Option.bind_eq_bind, Option.bind_some] at h
    split at h
    · obtain ⟨r, -, heq⟩ := Option.map_eq_some_iff.mp h
      exact ⟨r.1, (congrArg Prod.fst heq).symm⟩
    · exact ⟨[], (congrArg Prod.fst (Option.some.inj h)).symm⟩

theorem readKey_none {cs : List Char} (h : readSimpleKey cs = none) (fuel : Nat) : readKey fuel cs = none := by
  cases fuel with
  | zero => rfl
  | succ fuel =>
    rw [readKey, h]
    rfl

/-! ## Documents -/

def readStatement (fuel : Nat) (cs : List Char) : Option (Statement × List Char) :=
  match cs with
  | '[' :: '[' :: cs => do
    match ← readKey fuel (skipBlank cs) with
    | (path, ']' :: ']' :: rest) => some (.arrayHeader path, rest)
    | _ => none
  | '[' :: cs => do
    match ← readKey fuel (skipBlank cs) with
    | (path, ']' :: rest) => some (.header path, rest)
    | _ => none
  | cs => do
    match ← readKey fuel cs with
    | (path, '=' :: cs) => (readValue fuel (skipBlank cs)).map fun r => (.pair path r.1, r.2)
    | _ => none

def readStatements : Nat → List Char → Option (List Statement)
  | 0, _ => none
  | fuel + 1, cs =>
    match skipBlank cs with
    | [] => some []
    | c :: cs =>
      if c = '#' ∨ startsLine (c :: cs) then do
        let rest ← endOfLine (c :: cs)
        readStatements fuel rest
      else do
        let (statement, rest) ← readStatement fuel (c :: cs)
        let rest ← endOfLine rest
        (readStatements fuel rest).map (statement :: ·)

def parse (text : List Char) : Option (List (String × Toml)) := do
  let statements ← readStatements (text.length + 1) text
  let st ← run statements
  return tomlEntries st.root

/-! ## Lines -/

def lines (segments : List (List Char)) : List Char := List.intercalate ['\n'] segments

/-- The lines behind the first. -/
def further (segments : List (List Char)) : List Char := segments.flatMap fun segment => '\n' :: segment

theorem lines_cons (segment : List Char) (segments : List (List Char)) :
    lines (segment :: segments) = segment ++ further segments := by
  induction segments generalizing segment with
  | nil => simp [lines, further]
  | cons next segments ih =>
    have hnext : lines (next :: segments) = next ++ further segments := ih next
    rw [lines, List.intercalate_cons_cons, ← lines, hnext]
    simp [further]

theorem endOfLine_further (segments : List (List Char)) : endOfLine (further segments) = some (lines segments) := by
  cases segments with
  | nil => rfl
  | cons segment segments =>
    rw [lines_cons]
    rfl

theorem length_lines_le (segments : List (List Char)) : (lines segments).length ≤ (further segments).length := by
  cases segments with
  | nil => exact le_rfl
  | cons segment segments =>
    simp only [lines_cons, further, List.flatMap_cons, List.cons_append, List.length_cons]
    exact Nat.le_succ _

/-- A first letter that stands in the way of white space, a line and a comment stands before a statement. -/
theorem readStatements_succ {cs text : List Char} {c : Char} (hskip : skipBlank text = c :: cs)
    (hsolid : isSolid c = Bool.true) (fuel : Nat) : readStatements (fuel + 1) text =
      (readStatement fuel (c :: cs)).bind fun r =>
        (endOfLine r.2).bind fun rest => (readStatements fuel rest).map (r.1 :: ·) := by
  simp only [isSolid, Bool.not_eq_true', Bool.or_eq_false_iff, beq_eq_false_iff_ne] at hsolid
  obtain ⟨⟨⟨-, hnewline⟩, hreturn⟩, hcomment⟩ := hsolid
  have hline : ¬ (c = '#' ∨ startsLine (c :: cs) = Bool.true) := by
    rintro (h | h)
    · exact hcomment h
    · unfold startsLine readNewline at h
      split at h
      · exact hnewline (List.cons.inj ‹_›).1
      · exact hreturn (List.cons.inj ‹_›).1
      · cases h
  rw [readStatements, hskip]
  simp only [if_neg hline]
  rfl

theorem readStatements_head {cs text : List Char} {c : Char} (hskip : skipBlank text = c :: cs)
    (hsolid : isSolid c = Bool.true) {fuel : Nat} {statements : List Statement}
    (h : readStatements (fuel + 1) text = some statements) : ∃ statement rest statements',
      readStatement fuel (c :: cs) = some (statement, rest) ∧ statements = statement :: statements' := by
  rw [readStatements_succ hskip hsolid] at h
  obtain ⟨⟨statement, rest⟩, hstatement, h⟩ := Option.bind_eq_some_iff.mp h
  obtain ⟨next, -, h⟩ := Option.bind_eq_some_iff.mp h
  obtain ⟨statements', -, rfl⟩ := Option.map_eq_some_iff.mp h
  exact ⟨statement, rest, statements', hstatement, rfl⟩

theorem readStatements_line {cs : List Char} {c : Char} (hsolid : isSolid c = Bool.true) {segments : List (List Char)}
    {fuel : Nat} {statement : Statement}
    (h : readStatement fuel (c :: cs ++ further segments) = some (statement, further segments)) :
    readStatements (fuel + 1) (lines ((c :: cs) :: segments)) =
      (readStatements fuel (lines segments)).map (statement :: ·) := by
  have hskip : skipBlank (c :: cs ++ further segments) = c :: (cs ++ further segments) := by
    refine skipBlank_cons ?_ _
    cases hblank : isBlank c with
    | false => rfl
    | true => simp [isSolid, hblank] at hsolid
  rw [lines_cons, readStatements_succ hskip hsolid, ← List.cons_append, h]
  simp only [Option.bind_some, endOfLine_further]

theorem readStatements_blank (segment : List Char) (segments : List (List Char)) (fuel : Nat) :
    readStatements (fuel + 1) (lines ([] :: segment :: segments)) =
      readStatements fuel (lines (segment :: segments)) := by
  have htext : lines ([] :: segment :: segments) = '\n' :: lines (segment :: segments) := by
    rw [lines_cons, lines_cons]
    rfl
  have hend : endOfLine ('\n' :: lines (segment :: segments)) = some (lines (segment :: segments)) := rfl
  rw [htext, readStatements, skipBlank_cons rfl]
  simp only [if_pos (show '\n' = '#' ∨ startsLine ('\n' :: lines (segment :: segments)) = Bool.true from .inr rfl), hend,
    Option.bind_eq_bind, Option.bind_some]

theorem readStatement_pair {c : Char} (hc : c ≠ '[') {fuel : Nat} {cs after rest : List Char} {path : List String}
    {v : Toml} (hkey : readKey fuel (c :: cs) = some (path, '=' :: after))
    (hv : readValue fuel (skipBlank after) = some (v, rest)) :
    readStatement fuel (c :: cs) = some (.pair path v, rest) := by
  rw [readStatement]
  · rw [hkey]
    simp only [Option.bind_eq_bind, Option.bind_some, hv]
    rfl
  · exact fun _ h => hc (List.cons.inj h).1
  · exact fun _ h => hc (List.cons.inj h).1

theorem readStatement_head {c : Char} (hc : c ≠ '[') {fuel : Nat} {cs rest : List Char} {statement : Statement}
    (h : readStatement fuel (c :: cs) = some (statement, rest)) : ∃ path after v,
      readKey fuel (c :: cs) = some (path, '=' :: after) ∧ readValue fuel (skipBlank after) = some (v, rest) ∧
        statement = .pair path v := by
  rw [readStatement] at h
  · obtain ⟨⟨path, after⟩, hkey, h⟩ := Option.bind_eq_some_iff.mp h
    split at h
    · rename_i path after hafter
      obtain ⟨v, hv, hstatement⟩ := Option.map_eq_some_iff.mp h
      cases hafter
      cases hstatement
      exact ⟨path, after, v.1, hkey, hv, rfl⟩
    · cases h
  · exact fun _ h => hc (List.cons.inj h).1
  · exact fun _ h => hc (List.cons.inj h).1

end Dllb.Toml
