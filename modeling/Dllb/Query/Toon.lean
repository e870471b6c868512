import Mathlib
import Dllb.Lib.TomlDocument
import Dllb.Query.Reads

/-! # Rows as TOML

A row becomes a table of an array of tables. Strings are written with their
quotes and backslashes escaped, and the names of columns and fields as they are.
-/

namespace Dllb

set_option autoImplicit false

/-! ## What is written and what it should be read as -/

mutual

/-- Values without floats, bytes, record identifiers and vectors, with every object in the order of its keys. -/
def Value.isPlain : Value → Bool
  | .none => true
  | .bool _ => true
  | .int _ => true
  | .string _ => true
  | .array xs => plainItems xs
  | .object fields => decide (fields.Pairwise fun a b => cmpString a.1 b.1 = .lt) && plainFields fields
  | _ => false

def plainItems : List Value → Bool
  | [] => true
  | x :: xs => x.isPlain && plainItems xs

def plainFields : List (String × Value) → Bool
  | [] => true
  | (_, v) :: fields => v.isPlain && plainFields fields

end

mutual

/-- All keys and all strings in a value pass a check. -/
def Value.passes (key string : String → Bool) : Value → Bool
  | .string s => string s
  | .array xs => itemsPass key string xs
  | .object fields => fieldsPass key string fields
  | _ => true

def itemsPass (key string : String → Bool) : List Value → Bool
  | [] => true
  | x :: xs => x.passes key string && itemsPass key string xs

def fieldsPass (key string : String → Bool) : List (String × Value) → Bool
  | [] => true
  | (k, v) :: fields => key k && v.passes key string && fieldsPass key string fields

end

mutual

/-- The value that a TOML value stands for; `None` is written as a string. -/
def Denotes : Value → Toml → Prop
  | .none, .string s => s = "none"
  | .bool b, .boolean b' => b' = b
  | .int n, .integer m => m = n.toInt
  | .string s, .string t => t = s
  | .array xs, .array ts => ItemsDenote xs ts
  | .object fields, .table entries =>
    (∀ key, (entries.lookup key).isSome → key ∈ fields.map Prod.fst) ∧ FieldsDenote fields entries
  | _, _ => False

def ItemsDenote : List Value → List Toml → Prop
  | [], [] => True
  | x :: xs, t :: ts => Denotes x t ∧ ItemsDenote xs ts
  | _, _ => False

def FieldsDenote : List (String × Value) → List (String × Toml) → Prop
  | [], _ => True
  | (k, v) :: fields, entries => (∃ t, entries.lookup k = some t ∧ Denotes v t) ∧ FieldsDenote fields entries

end

/-- A key that stands for itself without quotes. -/
def isBareKey (key : String) : Bool := key.toList != [] && key.toList.all Toml.isBare

def isPrintable (s : String) : Bool := s.toList.all fun c => !Toml.isControl c

/-- Letters that begin white space, a string, a comment or a header. -/
def isOpening (c : Char) : Bool := c ∈ [' ', '\t', '\n', '\r', '"', '\'', '#', '[']

def startsAsKey (key : String) : Bool := !key.toList.head?.any isOpening

/-- Every key is a bare key and no string holds a control character other than a tab. -/
def Value.isReadable (v : Value) : Bool := v.passes isBareKey isPrintable

def Value.startsKeys (v : Value) : Bool := v.passes startsAsKey fun _ => true

section

variable [Texts]

/-- The text is accepted, and says the status, the number of the rows and the rows. -/
def ToonDecodes (rows : List Fields) : Prop :=
  ∃ entries, Toml.parse (formatResultToon (.rows rows)).toList = some entries ∧
    entries.lookup "status" = some (.string "rows") ∧ entries.lookup "count" = some (.integer rows.length) ∧
      ∃ tables, entries.lookup "data" = some (.array tables) ∧
        List.Forall₂ (fun row table => Denotes (.object row.toList) table) rows tables

/-! ## The text -/

def toonChars (v : Value) : List Char := (toonValue v).toList

def pairChars (f : String × Value) : List Char := f.1.toList ++ ' ' :: '=' :: ' ' :: toonChars f.2

/-- Texts with commas between them. -/
def listed (texts : List (List Char)) (close : List Char) : List Char := List.intercalate [',', ' '] texts ++ close

theorem toonItems_eq (xs : List Value) : toonItems xs = xs.map toonValue := by
  induction xs with
  | nil => rfl
  | cons x xs ih => rw [toonItems, ih, List.map_cons]

theorem toonPairs_eq (fields : List (String × Value)) :
    toonPairs fields = fields.map fun f => f.1 ++ " = " ++ toonValue f.2 := by
  induction fields with
  | nil => rfl
  | cons f fields ih =>
    obtain ⟨k, v⟩ := f
    rw [toonPairs, ih, List.map_cons]

theorem toonChars_array (xs : List Value) : toonChars (.array xs) = '[' :: listed (xs.map toonChars) [']'] := by
  have hopen : "[".toList = ['['] := rfl
  have hcomma : ", ".toList = [',', ' '] := rfl
  have hclose : "]".toList = [']'] := rfl
  rw [toonChars, toonValue, String.toList_append, String.toList_append, String.toList_intercalate, toonItems_eq,
    List.map_map, hopen, hcomma, hclose]
  rfl

theorem toonChars_object (fields : List (String × Value)) :
    toonChars (.object fields) = '{' :: ' ' :: listed (fields.map pairChars) [' ', '}'] := by
  have hopen : "\x7b ".toList = ['{', ' '] := rfl
  have hcomma : ", ".toList = [',', ' '] := rfl
  have hclose : " \x7d".toList = [' ', '}'] := rfl
  have hpair : ∀ f : String × Value, (f.1 ++ " = " ++ toonValue f.2).toList = pairChars f := by
    intro f
    rw [String.toList_append, String.toList_append, List.append_assoc]
    rfl
  rw [toonChars, toonValue, String.toList_append, String.toList_append, String.toList_intercalate, toonPairs_eq,
    List.map_map, hopen, hcomma, hclose]
  simp only [Function.comp_def, hpair]
  rfl

omit [Texts] in
theorem listed_singleton (text close : List Char) : listed [text] close = text ++ close := by
  rw [listed, List.intercalate_singleton]

omit [Texts] in
theorem listed_cons (text next : List Char) (texts : List (List Char)) (close : List Char) :
    listed (text :: next :: texts) close = text ++ ',' :: ' ' :: listed (next :: texts) close := by
  rw [listed, List.intercalate_cons_cons]
  simp [listed]

omit [Texts] in
theorem listed_head (text : List Char) (texts : List (List Char)) {close : List Char} (hclose : close ≠ []) :
    ∃ after, listed (text :: texts) close = text ++ after ∧ after ≠ [] := by
  cases texts with
  | nil => exact ⟨close, listed_singleton _ _, hclose⟩
  | cons next texts => exact ⟨_, listed_cons _ _ _ _, List.cons_ne_nil _ _⟩

/-! ## Strings -/

def escapeToon (s : List Char) : List Char :=
  s.flatMap fun c => if c = '\\' then ['\\', '\\'] else if c = '"' then ['\\', '"'] else [c]

theorem toonChars_string (s : String) : toonChars (.string s) = '"' :: (escapeToon s.toList ++ ['"']) := by
  have hquote : "\"".toList = ['"'] := rfl
  have hbackslashes : "\\\\".toList = ['\\', '\\'] := rfl
  have hescaped : "\\\"".toList = ['\\', '"'] := rfl
  have hchar : ∀ c, List.flatMap (fun d => if d = '"' then ['\\', '"'] else [d])
      (if c = '\\' then ['\\', '\\'] else [c]) =
        if c = '\\' then ['\\', '\\'] else if c = '"' then ['\\', '"'] else [c] := by
    intro c
    split
    · rfl
    · simp
  rw [toonChars, toonValue, String.toList_append, String.toList_append]
  simp only [replaceChar, String.toList_ofList, hquote, hbackslashes, hescaped, List.flatMap_assoc, hchar]
  rfl

omit [Texts] in
/-- A string is read back if nothing in it is a control character, and not at all otherwise. -/
theorem readBasic_escapeToon (s rest : List Char) : Toml.readBasic (escapeToon s ++ '"' :: rest) =
    if s.all (fun c => !Toml.isControl c) then some (s, rest) else none := by
  induction s with
  | nil => exact Toml.readBasic_quote rest
  | cons c s ih =>
    rw [escapeToon, List.flatMap_cons, ← escapeToon, List.append_assoc, List.all_cons]
    by_cases hbackslash : c = '\\'
    · subst hbackslash
      rw [if_pos rfl, List.cons_append, List.singleton_append, Toml.readBasic_escape rfl, ih]
      cases s.all (fun c => !Toml.isControl c) <;> rfl
    by_cases hquote : c = '"'
    · subst hquote
      rw [if_neg hbackslash, if_pos rfl, List.cons_append, List.singleton_append, Toml.readBasic_escape rfl, ih]
      cases s.all (fun c => !Toml.isControl c) <;> rfl
    · rw [if_neg hbackslash, if_neg hquote, List.singleton_append, Toml.readBasic_char hquote hbackslash, ih]
      cases Toml.isControl c <;> cases s.all (fun c => !Toml.isControl c) <;> rfl

/-! ## Values -/

/-- What comes after a value: nothing, or a letter that belongs to no word and no string. -/
def Follows (rest : List Char) : Prop := ∀ c ∈ rest.head?, Toml.isWordChar c = false ∧ c ≠ '"'

/-- The text of the value begins as a value in an array does. -/
def BeginsItem (v : Value) : Prop := ∃ c cs, toonChars v = c :: cs ∧ Toml.isSolid c = true ∧ c ≠ ']'

def ReadsToon (v : Value) : Prop := ∀ fuel rest, (toonChars v).length ≤ fuel → Follows rest →
  ∃ t, Toml.readValue fuel (toonChars v ++ rest) = some (t, rest) ∧ Denotes v t

/-- What is read is not the value, if anything is read at all. -/
def Misreads (v : Value) : Prop := ∀ fuel rest t rest', (toonChars v).length ≤ fuel →
  Toml.readValue fuel (toonChars v ++ rest) = some (t, rest') → ¬ Denotes v t

omit [Texts] in
theorem readString_escapeToon {s : List Char} {rest : List Char} (h : s = [] → rest.head? ≠ some '"') :
    Toml.readString ('"' :: (escapeToon s ++ '"' :: rest)) =
      if s.all (fun c => !Toml.isControl c) then some (s, rest) else none := by
  rw [Toml.readString_basic, readBasic_escapeToon]
  rintro cs heq
  cases s with
  | nil => exact h rfl (by rw [(List.cons.inj heq).2]; rfl)
  | cons c s =>
    rw [escapeToon, List.flatMap_cons] at heq
    split at heq
    · cases heq
    · split at heq
      · cases heq
      · exact ‹¬ c = '"'› (List.cons.inj heq).1

theorem readValue_string {s : String} {rest : List Char} (h : s.toList = [] → rest.head? ≠ some '"') (fuel : Nat) :
    Toml.readValue (fuel + 1) (toonChars (.string s) ++ rest) =
      if isPrintable s then some (.string s, rest) else none := by
  rw [toonChars_string, List.cons_append, List.append_assoc, List.singleton_append, Toml.readValue_string,
    readString_escapeToon h, isPrintable]
  split
  · rw [Option.map_some, String.ofList_toList]
  · rfl

theorem reads_string {s : String} (h : isPrintable s = true) : ReadsToon (.string s) := by
  intro fuel rest hfuel hrest
  cases fuel with
  | zero => simp [toonChars_string] at hfuel
  | succ fuel =>
    refine ⟨.string s, ?_, rfl⟩
    rw [readValue_string fun _ hhead => (hrest '"' hhead).2 rfl, if_pos h]

theorem misreads_string {s : String} (h : isPrintable s = false) : Misreads (.string s) := by
  intro fuel rest t rest' hfuel hread
  cases fuel with
  | zero => simp [toonChars_string] at hfuel
  | succ fuel =>
    have hne : s.toList ≠ [] := by
      intro hnil
      rw [isPrintable, hnil] at h
      cases h
    rw [readValue_string fun hnil => absurd hnil hne, if_neg (by simp [h])] at hread
    cases hread

theorem reads_none : ReadsToon .none := by
  have htext : toonChars .none = toonChars (.string "none") := by
    rw [toonChars_string, toonChars, toonValue]
    rfl
  intro fuel rest hfuel hrest
  rw [htext] at hfuel ⊢
  obtain ⟨t, hread, hdenotes⟩ := reads_string (s := "none") rfl fuel rest hfuel hrest
  refine ⟨t, hread, ?_⟩
  cases t with
  | string t => exact hdenotes
  | _ => exact hdenotes.elim

theorem reads_word {v : Value} {t : Toml} (hhead : ∃ c cs, toonChars v = c :: cs ∧ c ∉ ['"', '\'', '[', '{'])
    (hread : ∀ rest, Toml.StopsAt Toml.isWordChar rest → Toml.readWord (toonChars v ++ rest) = some (t, rest))
    (hdenotes : Denotes v t) : ReadsToon v := by
  obtain ⟨c, cs, htext, hc⟩ := hhead
  intro fuel rest hfuel hrest
  cases fuel with
  | zero => simp [htext] at hfuel
  | succ fuel =>
    refine ⟨t, ?_, hdenotes⟩
    have h := hread rest fun c hc => (hrest c hc).1
    rw [htext, List.cons_append] at h ⊢
    rw [Toml.readValue_word hc, h]

theorem toonChars_bool (b : Bool) : toonChars (.bool b) = (toString b).toList := by
  rw [toonChars, toonValue]

theorem toonChars_int (n : Int64) : toonChars (.int n) = (toString n.toInt).toList := by
  rw [toonChars, toonValue]

theorem reads_bool (b : Bool) : ReadsToon (.bool b) := by
  refine reads_word ?_ (fun rest hrest => ?_) (show Denotes (.bool b) (.boolean b) from rfl)
  · rw [toonChars_bool]
    cases b with
    | true => exact ⟨'t', _, rfl, by decide⟩
    | false => exact ⟨'f', _, rfl, by decide⟩
  · rw [toonChars_bool, Toml.readWord_bool b hrest]

omit [Texts] in
/-- An integer begins with a digit or a minus. -/
theorem toString_int_cons (n : Int) : ∃ c cs, (toString n).toList = c :: cs ∧ Toml.isSolid c = true ∧
    c ∉ ['"', '\'', '[', '{', ']'] := by
  have hletters : ∀ c : Char, c.isDigit = true ∨ c = '-' →
      Toml.isSolid c = true ∧ c ∉ ['"', '\'', '[', '{', ']'] := by
    intro c hc
    have hne : ∀ d : Char, d.isDigit = false → d ≠ '-' → c ≠ d := by
      rintro d hd hminus rfl
      simp [hd, hminus] at hc
    refine ⟨?_, ?_⟩
    · simp [Toml.isSolid, Toml.isBlank, hne ' ', hne '\t', hne '\n', hne '\r', hne '#']
    · simp [hne '"', hne '\'', hne '[', hne '{', hne ']']
  cases n with
  | ofNat n =>
    obtain ⟨c, cs, hcs⟩ := List.exists_cons_of_ne_nil (Nat.toDigits_ne_nil (n := n) (b := 10))
    refine ⟨c, cs, (Toml.toList_toString_nat n).trans hcs, hletters c (.inl ?_)⟩
    exact Toml.isDigit_toDigits n c (hcs ▸ List.mem_cons_self)
  | negSucc n => exact ⟨'-', (toString (n + 1)).toList, String.toList_append, hletters '-' (.inr rfl)⟩

theorem reads_int (n : Int64) : ReadsToon (.int n) := by
  refine reads_word ?_ (fun rest hrest => ?_) (show Denotes (.int n) (.integer n.toInt) from rfl)
  · obtain ⟨c, cs, htext, -, hc⟩ := toString_int_cons n.toInt
    exact ⟨c, cs, (toonChars_int n).trans htext, fun hmem => hc (by simp at hmem ⊢; tauto)⟩
  · rw [toonChars_int, Toml.readWord_int _ hrest]

theorem begins_of_isPlain {v : Value} (h : v.isPlain = true) : BeginsItem v := by
  cases v with
  | none => exact ⟨'"', _, by rw [toonChars, toonValue]; rfl, rfl, by decide⟩
  | bool b =>
    rw [BeginsItem, toonChars_bool]
    cases b with
    | true => exact ⟨'t', _, rfl, rfl, by decide⟩
    | false => exact ⟨'f', _, rfl, rfl, by decide⟩
  | int n =>
    obtain ⟨c, cs, htext, hsolid, hc⟩ := toString_int_cons n.toInt
    refine ⟨c, cs, (toonChars_int n).trans htext, hsolid, ?_⟩
    rintro rfl
    simp at hc
  | string s => exact ⟨'"', _, toonChars_string s, rfl, by decide⟩
  | array xs => exact ⟨'[', _, toonChars_array xs, rfl, by decide⟩
  | object fields => exact ⟨'{', _, toonChars_object fields, rfl, by decide⟩
  | _ => cases h

/-! ## Arrays -/

omit [Texts] in
theorem readItems_space (fuel : Nat) (cs : List Char) : Toml.readItems fuel (' ' :: cs) = Toml.readItems fuel cs := by
  cases fuel with
  | zero => rfl
  | succ fuel =>
    rw [Toml.readItems, Toml.readItems]
    rfl

omit [Texts] in
theorem follows_cons {c : Char} (hword : Toml.isWordChar c = false) (hquote : c ≠ '"') (rest : List Char) :
    Follows (c :: rest) := by
  rintro _ ⟨⟩
  exact ⟨hword, hquote⟩

theorem readItems_listed {xs : List Value} (hne : xs ≠ []) (hbegins : ∀ x ∈ xs, BeginsItem x) (hreads : ∀ x ∈ xs, ReadsToon x)
    (fuel : Nat) (rest : List Char) (hfuel : (listed (xs.map toonChars) [']']).length ≤ fuel) :
    ∃ ts, Toml.readItems fuel (listed (xs.map toonChars) [']'] ++ rest) = some (ts, rest) ∧ ItemsDenote xs ts := by
  induction xs generalizing fuel with
  | nil => exact absurd rfl hne
  | cons x xs ih =>
    obtain ⟨c, cs, htext, hsolid, hclose⟩ := hbegins x List.mem_cons_self
    have hread := hreads x List.mem_cons_self
    cases xs with
    | nil =>
      rw [List.map_singleton, listed_singleton] at hfuel ⊢
      cases fuel with
      | zero => simp at hfuel
      | succ fuel =>
        rw [List.length_append] at hfuel
        obtain ⟨t, ht, hdenotes⟩ := hread fuel (']' :: rest) (by simpa using hfuel)
          (follows_cons rfl (by decide) rest)
        refine ⟨[t], ?_, hdenotes, trivial⟩
        rw [List.append_assoc, List.singleton_append]
        rw [htext, List.cons_append] at ht ⊢
        rw [Toml.readItems_cons hsolid hclose, ht]
        rfl
    | cons y ys =>
      rw [List.map_cons, List.map_cons, listed_cons] at hfuel ⊢
      cases fuel with
      | zero => simp at hfuel
      | succ fuel =>
        rw [List.length_append, List.length_cons, List.length_cons] at hfuel
        obtain ⟨t, ht, hdenotes⟩ := hread fuel (',' :: ' ' :: (listed ((y :: ys).map toonChars) [']'] ++ rest))
          (by omega) (follows_cons rfl (by decide) _)
        obtain ⟨ts, hts, hrest⟩ := ih (List.cons_ne_nil _ _) (fun z hz => hbegins z (List.mem_cons_of_mem _ hz))
          (fun z hz => hreads z (List.mem_cons_of_mem _ hz)) fuel (by rw [List.map_cons]; omega)
        refine ⟨t :: ts, ?_, hdenotes, hrest⟩
        rw [List.append_assoc, List.cons_append, List.cons_append, ← List.map_cons]
        rw [htext, List.cons_append] at ht ⊢
        rw [Toml.readItems_cons hsolid hclose, ht, Option.bind_some, Toml.skipFiller_cons rfl, Option.bind_some]
        simp only [readItems_space, hts, Option.map_some]

theorem misreadItems {xs : List Value} (hbegins : ∀ x ∈ xs, BeginsItem x) (hreads : ∀ x ∈ xs, ReadsToon x ∨ Misreads x)
    (hbad : ∃ x ∈ xs, Misreads x) {fuel : Nat} {rest rest' : List Char} {ts : List Toml}
    (hfuel : (listed (xs.map toonChars) [']']).length ≤ fuel)
    (h : Toml.readItems fuel (listed (xs.map toonChars) [']'] ++ rest) = some (ts, rest')) : ¬ ItemsDenote xs ts := by
  induction xs generalizing fuel ts with
  | nil => simp at hbad
  | cons x xs ih =>
    obtain ⟨c, cs, htext, hsolid, hclose⟩ := hbegins x List.mem_cons_self
    obtain ⟨after, hafter, hne⟩ := listed_head (toonChars x) (xs.map toonChars) (List.cons_ne_nil ']' [])
    cases fuel with
    | zero =>
      rw [Toml.readItems] at h
      cases h
    | succ fuel =>
      have hlength := List.length_pos_iff.mpr hne
      by_cases hx : Misreads x
      · rw [List.map_cons, hafter, List.append_assoc] at h
        rw [List.map_cons, hafter, List.length_append] at hfuel
        have hmisread := hx fuel (after ++ rest)
        rw [htext, List.cons_append] at h hmisread
        obtain ⟨t, after', ts', ht, rfl⟩ := Toml.readItems_head hsolid hclose h
        exact fun hdenote => hmisread t after' (by rw [← htext]; omega) ht hdenote.1
      · -- the item is read as it should be, and the one that is not comes later
        obtain ⟨y, hy, hbad⟩ := hbad
        have hmem : y ∈ xs := by
          obtain rfl | hmem := List.mem_cons.mp hy
          · exact absurd hbad hx
          · exact hmem
        cases xs with
        | nil => cases hmem
        | cons z zs =>
          rw [List.map_cons, List.map_cons, listed_cons] at hfuel h
          rw [List.length_append, List.length_cons, List.length_cons] at hfuel
          obtain ⟨t, ht, -⟩ := (hreads x List.mem_cons_self).resolve_right hx fuel
            (',' :: ' ' :: (listed ((z :: zs).map toonChars) [']'] ++ rest)) (by omega) (follows_cons rfl (by decide) _)
          rw [List.append_assoc, List.cons_append, List.cons_append, ← List.map_cons] at h
          rw [htext, List.cons_append] at ht h
          rw [Toml.readItems_cons hsolid hclose, ht, Option.bind_some, Toml.skipFiller_cons rfl, Option.bind_some] at h
          simp only [readItems_space] at h
          obtain ⟨r, hr, heq⟩ := Option.map_eq_some_iff.mp h
          cases heq
          intro hdenote
          exact ih (fun z hz => hbegins z (List.mem_cons_of_mem _ hz)) (fun z hz => hreads z (List.mem_cons_of_mem _ hz))
            ⟨y, hmem, hbad⟩ (by rw [List.map_cons]; omega) hr hdenote.2

theorem reads_array {xs : List Value} (hbegins : ∀ x ∈ xs, BeginsItem x) (hreads : ∀ x ∈ xs, ReadsToon x) :
    ReadsToon (.array xs) := by
  intro fuel rest hfuel hrest
  rw [toonChars_array] at hfuel ⊢
  cases fuel with
  | zero => simp at hfuel
  | succ fuel =>
    rw [List.cons_append, Toml.readValue_array]
    by_cases hne : xs = []
    · subst hne
      cases fuel with
      | zero => simp [listed] at hfuel
      | succ fuel => exact ⟨.array [], rfl, trivial⟩
    · obtain ⟨ts, hts, hdenotes⟩ := readItems_listed hne hbegins hreads fuel rest (by simpa using hfuel)
      exact ⟨.array ts, by rw [hts]; rfl, hdenotes⟩

theorem misreads_array {xs : List Value} (hbegins : ∀ x ∈ xs, BeginsItem x) (hreads : ∀ x ∈ xs, ReadsToon x ∨ Misreads x)
    (hbad : ∃ x ∈ xs, Misreads x) : Misreads (.array xs) := by
  intro fuel rest t rest' hfuel hread
  rw [toonChars_array] at hfuel hread
  cases fuel with
  | zero => simp at hfuel
  | succ fuel =>
    rw [List.cons_append, Toml.readValue_array] at hread
    obtain ⟨r, hr, heq⟩ := Option.map_eq_some_iff.mp hread
    cases heq
    exact misreadItems hbegins hreads hbad (by simpa using hfuel) hr

/-! ## The entries of a table -/

omit [Texts] in
theorem itemsDenote_iff {xs : List Value} {ts : List Toml} : ItemsDenote xs ts ↔ List.Forall₂ Denotes xs ts := by
  induction xs generalizing ts with
  | nil => cases ts <;> simp [ItemsDenote]
  | cons x xs ih => cases ts <;> simp [ItemsDenote, ih]

omit [Texts] in
theorem fieldsDenote_iff {fields : List (String × Value)} {entries : List (String × Toml)} :
    FieldsDenote fields entries ↔ ∀ f ∈ fields, ∃ t, entries.lookup f.1 = some t ∧ Denotes f.2 t := by
  induction fields with
  | nil => simp [FieldsDenote]
  | cons f fields ih =>
    obtain ⟨k, v⟩ := f
    rw [FieldsDenote, ih, List.forall_mem_cons]

/-- The entries are the fields so far, in their order. -/
def Holds (fields : List (String × Value)) (entries : Toml.Entries) : Prop :=
  List.Forall₂ (fun f e => e.1 = f.1 ∧ ∃ t, e.2 = .value t ∧ Denotes f.2 t) fields entries

/-- The entries have a key that is no field's, or at the key of a field a value that is not the field's. -/
def Off (fields : List (String × Value)) (entries : Toml.Entries) : Prop :=
  (∃ key, (entries.lookup key).isSome ∧ key ∉ fields.map Prod.fst) ∨
    ∃ f ∈ fields, ∃ t, entries.lookup f.1 = some (.value t) ∧ ¬ Denotes f.2 t

omit [Texts] in
theorem Holds.keys {fields : List (String × Value)} {entries : Toml.Entries} (h : Holds fields entries) :
    entries.map Prod.fst = fields.map Prod.fst := by
  induction h with
  | nil => rfl
  | cons hhead _ ih => rw [List.map_cons, List.map_cons, ih, hhead.1]

omit [Texts] in
theorem isSome_lookup_iff {β : Type} {entries : List (String × β)} {key : String} :
    (entries.lookup key).isSome ↔ key ∈ entries.map Prod.fst := by
  simp only [List.lookup_isSome_iff, beq_iff_eq, List.mem_map]
  exact exists_congr fun e => and_congr_right fun _ => eq_comm

omit [Texts] in
theorem Holds.lookup_none {fields : List (String × Value)} {entries : Toml.Entries} (h : Holds fields entries)
    {key : String} (hkey : key ∉ fields.map Prod.fst) : entries.lookup key = none := by
  rw [← Option.not_isSome_iff_eq_none, isSome_lookup_iff, h.keys]
  exact hkey

omit [Texts] in
theorem Holds.lookup_value {fields : List (String × Value)} {entries : Toml.Entries} (h : Holds fields entries)
    {key : String} (hkey : key ∈ fields.map Prod.fst) : ∃ t, entries.lookup key = some (.value t) := by
  induction h with
  | nil => cases hkey
  | @cons f e fields entries hhead _ ih =>
    obtain ⟨k, n⟩ := e
    obtain ⟨rfl, t, rfl, -⟩ := hhead
    rw [Toml.lookup_cons_ite]
    split
    · exact ⟨t, rfl⟩
    · exact ih ((List.mem_cons.mp hkey).resolve_left ‹_›)

omit [Texts] in
/-- The fields, with their keys distinct, are what the table of the entries stands for. -/
theorem Holds.denotes {fields : List (String × Value)} {entries : Toml.Entries} (h : Holds fields entries)
    (hdistinct : (fields.map Prod.fst).Nodup) : Denotes (.object fields) (.table (Toml.tomlEntries entries)) := by
  refine ⟨fun key hkey => ?_, fieldsDenote_iff.mpr ?_⟩
  · rw [Toml.lookup_tomlEntries, Option.isSome_map, isSome_lookup_iff, h.keys] at hkey
    exact hkey
  · induction h with
    | nil => simp
    | @cons f e fields entries hhead _ ih =>
      obtain ⟨k, n⟩ := e
      obtain ⟨rfl, t, rfl, hdenotes⟩ := hhead
      obtain ⟨hnot, hdistinct⟩ := List.nodup_cons.mp hdistinct
      rw [Toml.tomlEntries]
      refine List.forall_mem_cons.mpr ⟨⟨t, ?_, hdenotes⟩, fun g hg => ?_⟩
      · rw [Toml.lookup_cons_ite, if_pos rfl, Toml.Node.toToml]
      · rw [Toml.lookup_cons_ite, if_neg]
        · exact ih hdistinct g hg
        · exact fun heq => hnot (List.mem_map.mpr ⟨g, hg, heq⟩)

omit [Texts] in
theorem Off.keeps {fields : List (String × Value)} {before after : Toml.Entries} (h : Off fields before)
    (hkeeps : Toml.Keeps before after) : Off fields after := by
  obtain ⟨key, hsome, hkey⟩ | ⟨f, hf, t, ht, hdenotes⟩ := h
  · exact .inl ⟨key, hkeeps.present key hsome, hkey⟩
  · exact .inr ⟨f, hf, t, hkeeps.value f.1 t ht, hdenotes⟩

omit [Texts] in
theorem Off.not_denotes {fields : List (String × Value)} {entries : Toml.Entries} (h : Off fields entries) :
    ¬ Denotes (.object fields) (.table (Toml.tomlEntries entries)) := by
  rintro ⟨hkeys, hfields⟩
  obtain ⟨key, hsome, hkey⟩ | ⟨f, hf, t, ht, hdenotes⟩ := h
  · refine hkey (hkeys key ?_)
    rw [Toml.lookup_tomlEntries, Option.isSome_map]
    exact hsome
  · obtain ⟨t', ht', hdenotes'⟩ := fieldsDenote_iff.mp hfields f hf
    rw [Toml.lookup_tomlEntries, ht, Option.map_some, Toml.Node.toToml] at ht'
    cases ht'
    exact hdenotes hdenotes'

/-! ## Pairs in place of fields -/

/-- The pairs are the fields. -/
def Matches (fields : List (String × Value)) (pairs : List (List String × Toml)) : Prop :=
  List.Forall₂ (fun f p => p.1 = [f.1] ∧ Denotes f.2 p.2) fields pairs

/-- The pairs are the fields up to one: it comes under an earlier key, or with another value. -/
inductive Strays : List (String × Value) → List (List String × Toml) → Prop
  | key {f : String × Value} {key : String} (h : cmpString key f.1 = .lt) (fields : List (String × Value))
      (path : List String) (t : Toml) (pairs : List (List String × Toml)) : Strays (f :: fields) ((key :: path, t) :: pairs)
  | value {f : String × Value} {t : Toml} (h : ¬ Denotes f.2 t) (fields : List (String × Value))
      (pairs : List (List String × Toml)) : Strays (f :: fields) (([f.1], t) :: pairs)
  | later {f : String × Value} {t : Toml} {fields : List (String × Value)} {pairs : List (List String × Toml)}
      (h : Denotes f.2 t) (hstrays : Strays fields pairs) : Strays (f :: fields) (([f.1], t) :: pairs)

def insertPairs (pairs : List (List String × Toml)) (entries : Toml.Entries) : Option Toml.Entries :=
  pairs.foldlM (fun entries p => Toml.insertPair p.1 p.2 entries) entries

omit [Texts] in
theorem Holds.insert {done : List (String × Value)} {entries : Toml.Entries} (h : Holds done entries)
    {f : String × Value} (hnew : f.1 ∉ done.map Prod.fst) {t : Toml} (ht : Denotes f.2 t) :
    Toml.insertPair [f.1] t entries = some (entries ++ [(f.1, .value t)]) ∧
      Holds (done ++ [f]) (entries ++ [(f.1, .value t)]) :=
  ⟨Toml.insertPair_new (h.lookup_none hnew) t,
    List.rel_append h (List.Forall₂.cons ⟨rfl, t, rfl, ht⟩ .nil)⟩

omit [Texts] in
theorem holds_of_matches {todo : List (String × Value)} {pairs : List (List String × Toml)} (h : Matches todo pairs)
    {done : List (String × Value)} {entries : Toml.Entries} (hdone : Holds done entries)
    (hdistinct : ((done ++ todo).map Prod.fst).Nodup) :
    ∃ entries', insertPairs pairs entries = some entries' ∧ Holds (done ++ todo) entries' := by
  induction h generalizing done entries with
  | nil => exact ⟨entries, rfl, by rwa [List.append_nil]⟩
  | @cons f p todo pairs hhead _ ih =>
    obtain ⟨path, t⟩ := p
    obtain ⟨rfl, ht⟩ := hhead
    have hnew : f.1 ∉ done.map Prod.fst := by
      rw [List.map_append, List.map_cons] at hdistinct
      exact fun hmem => (List.nodup_append.mp hdistinct).2.2 f.1 hmem f.1 List.mem_cons_self rfl
    obtain ⟨hinsert, hholds⟩ := hdone.insert hnew ht
    rw [List.append_cons] at hdistinct ⊢
    obtain ⟨entries', hentries', hall⟩ := ih hholds hdistinct
    refine ⟨entries', ?_, hall⟩
    rw [insertPairs, List.foldlM_cons, hinsert]
    exact hentries'

omit [Texts] in
/-- An earlier key is in the table already, or it is no key of the fields. -/
theorem off_of_strays {todo : List (String × Value)} {pairs : List (List String × Toml)} (h : Strays todo pairs)
    {done : List (String × Value)} {entries entries' : Toml.Entries} (hdone : Holds done entries)
    (hascend : (done ++ todo).Pairwise fun a b => cmpString a.1 b.1 = .lt)
    (hinsert : insertPairs pairs entries = some entries') : Off (done ++ todo) entries' := by
  have hself : ∀ key : String, cmpString key key ≠ .lt := by
    intro key h
    have heq : cmpString key key = .eq := Std.ReflCmp.compare_self
    rw [heq] at h
    cases h
  induction h generalizing done entries with
  | @key f key hkey fields path t pairs =>
    obtain ⟨next, hnext, hrest⟩ := Option.bind_eq_some_iff.mp ((List.foldlM_cons ..).symm.trans hinsert)
    refine Off.keeps (.inl ⟨key, Toml.insertPair_present hnext, fun hmem => ?_⟩) (Toml.keeps_of_insertPairs hrest)
    rw [List.map_append, List.mem_append] at hmem
    obtain hmem | hmem := hmem
    · obtain ⟨w, hw⟩ := hdone.lookup_value hmem
      rw [Toml.insertPair_closed hw] at hnext
      cases hnext
    · obtain ⟨g, hg, rfl⟩ := List.mem_map.mp hmem
      obtain rfl | hg := List.mem_cons.mp hg
      · exact hself g.1 hkey
      · have hlt := List.rel_of_pairwise_cons (List.pairwise_append.mp hascend).2.1 hg
        have hswap : cmpString f.1 g.1 = (cmpString g.1 f.1).swap := Std.OrientedCmp.eq_swap
        rw [hswap, hkey] at hlt
        cases hlt
  | @value f t hnot fields pairs =>
    obtain ⟨next, hnext, hrest⟩ := Option.bind_eq_some_iff.mp ((List.foldlM_cons ..).symm.trans hinsert)
    have hf : f ∈ done ++ f :: fields := List.mem_append_right _ List.mem_cons_self
    exact Off.keeps (.inr ⟨f, hf, t, Toml.insertPair_value hnext, hnot⟩) (Toml.keeps_of_insertPairs hrest)
  | @later f t fields pairs ht _ ih =>
    obtain ⟨next, hnext, hrest⟩ := Option.bind_eq_some_iff.mp ((List.foldlM_cons ..).symm.trans hinsert)
    have hnew : f.1 ∉ done.map Prod.fst := by
      rintro hmem
      obtain ⟨g, hg, heq⟩ := List.mem_map.mp hmem
      have hlt := (List.pairwise_append.mp hascend).2.2 g hg f List.mem_cons_self
      rw [heq] at hlt
      exact hself f.1 hlt
    obtain ⟨hentries, hholds⟩ := hdone.insert hnew ht
    rw [hentries] at hnext
    cases hnext
    rw [List.append_cons] at hascend ⊢
    exact ih hholds hascend hrest

/-! ## Keys -/

omit [Texts] in
theorem asBytes_append (s t : String) : asBytes (s ++ t) = asBytes s ++ asBytes t := by
  rw [asBytes, String.toByteArray_append]
  simp [asBytes]

omit [Texts] in
theorem cmpString_append {t : String} (h : t ≠ "") (s : String) : cmpString s (s ++ t) = .lt := by
  rw [cmpString, cmpBytes_eq_lt_iff, asBytes_append]
  cases hbytes : asBytes t with
  | nil => exact absurd (asBytes_inj.mp (hbytes.trans rfl)) h
  | cons b bytes => exact Lex.lt_append_cons (asBytes s) b bytes

omit [Texts] in
/-- What comes before the first letter that fails is an earlier string. -/
theorem cmpString_takeWhile {p : Char → Bool} {s : String} (h : s.toList.dropWhile p ≠ []) :
    cmpString (String.ofList (s.toList.takeWhile p)) s = .lt := by
  have hsplit : String.ofList (s.toList.takeWhile p) ++ String.ofList (s.toList.dropWhile p) = s := by
    rw [← String.ofList_append, List.takeWhile_append_dropWhile, String.ofList_toList]
  have hne : String.ofList (s.toList.dropWhile p) ≠ "" := fun hempty => h (by
    rw [← String.toList_ofList (l := s.toList.dropWhile p), hempty]
    rfl)
  exact (congrArg (cmpString _) hsplit).symm.trans (cmpString_append hne _)

omit [Texts] in
theorem isBareKey_iff {key : String} :
    isBareKey key = true ↔ key.toList ≠ [] ∧ ∀ c ∈ key.toList, Toml.isBare c = true := by
  simp [isBareKey]

theorem readKey_pair {f : String × Value} (h : isBareKey f.1 = true) (fuel : Nat) (rest : List Char) :
    Toml.readKey (fuel + 1) (pairChars f ++ rest) = some ([f.1], '=' :: ' ' :: (toonChars f.2 ++ rest)) := by
  obtain ⟨hne, hbare⟩ := isBareKey_iff.mp h
  have hread := Toml.readKey_bare hne hbare fuel (' ' :: (toonChars f.2 ++ rest))
  rw [String.ofList_toList] at hread
  rw [← hread, pairChars, List.append_assoc]
  rfl

/-- A key that is not bare is read up to its first letter that is not, if at all. -/
theorem readKey_odd {f : String × Value} (hstarts : startsAsKey f.1 = true) (hodd : isBareKey f.1 = false) {fuel : Nat}
    {rest rest' : List Char} {path : List String}
    (h : Toml.readKey fuel (Toml.skipBlank (pairChars f ++ rest)) = some (path, rest')) :
    ∃ key path', path = key :: path' ∧ cmpString key f.1 = .lt := by
  rw [pairChars, List.append_assoc] at h
  generalize hmore : ' ' :: '=' :: ' ' :: toonChars f.2 ++ rest = more at h
  cases hkey : f.1.toList with
  | nil =>
    rw [hkey, List.nil_append, ← hmore] at h
    rw [show Toml.skipBlank (' ' :: '=' :: ' ' :: toonChars f.2 ++ rest) = '=' :: ' ' :: (toonChars f.2 ++ rest) from rfl,
      Toml.readKey_none rfl] at h
    cases h
  | cons c cs =>
    have hopening : isOpening c = false := by simpa [startsAsKey, hkey] using hstarts
    have hne : ∀ d, isOpening d = true → c ≠ d := by
      rintro d hd rfl
      rw [hd] at hopening
      cases hopening
    have hblank : Toml.isBlank c = false := by simp [Toml.isBlank, hne ' ' rfl, hne '\t' rfl]
    have hsimple := Toml.readSimpleKey_cons (hne '"' rfl) (hne '\'' rfl) (cs ++ more)
    rw [hkey, List.cons_append, Toml.skipBlank_cons hblank] at h
    split at hsimple
    · obtain ⟨path', rfl⟩ := Toml.readKey_head hsimple h
      refine ⟨_, path', rfl, ?_⟩
      have hbare : ¬ ∀ d ∈ f.1.toList, Toml.isBare d = true := by
        intro hall
        rw [isBareKey_iff.mpr ⟨hkey ▸ List.cons_ne_nil c cs, hall⟩] at hodd
        cases hodd
      have hdrop : f.1.toList.dropWhile Toml.isBare ≠ [] := fun hnil => hbare (List.dropWhile_eq_nil_iff.mp hnil)
      have htake : (c :: (cs ++ more)).takeWhile Toml.isBare = f.1.toList.takeWhile Toml.isBare := by
        rw [← List.cons_append, ← hkey, List.takeWhile_append, if_neg]
        intro hlength
        refine hdrop (List.length_eq_zero_iff.mp ?_)
        have hsum := congrArg List.length (List.takeWhile_append_dropWhile (p := Toml.isBare) (l := f.1.toList))
        rw [List.length_append] at hsum
        omega
      rw [htake]
      exact cmpString_takeWhile hdrop
    · rw [Toml.readKey_none hsimple] at h
      cases h

/-! ## Objects -/

omit [Texts] in
theorem isBlank_of_isSolid {c : Char} (h : Toml.isSolid c = true) : Toml.isBlank c = false := by
  unfold Toml.isSolid at h
  cases hblank : Toml.isBlank c with
  | false => rfl
  | true => simp [hblank] at h

theorem BeginsItem.skipBlank {v : Value} (h : BeginsItem v) (rest : List Char) :
    Toml.skipBlank (' ' :: (toonChars v ++ rest)) = toonChars v ++ rest := by
  obtain ⟨c, cs, htext, hsolid, -⟩ := h
  rw [htext, Toml.skipBlank_space]
  exact Toml.skipBlank_cons (isBlank_of_isSolid hsolid) _

theorem skipBlank_pair {f : String × Value} (h : isBareKey f.1 = true) (rest : List Char) :
    Toml.skipBlank (pairChars f ++ rest) = pairChars f ++ rest ∧ (pairChars f ++ rest).head? ≠ some '}' := by
  obtain ⟨hne, hbare⟩ := isBareKey_iff.mp h
  obtain ⟨c, cs, hcs⟩ := List.exists_cons_of_ne_nil hne
  have hc := hbare c (hcs ▸ List.mem_cons_self)
  rw [pairChars, hcs]
  refine ⟨Toml.skipBlank_cons ?_ _, ?_⟩
  · cases hblank : Toml.isBlank c with
    | false => rfl
    | true =>
      simp only [Toml.isBlank, Bool.or_eq_true, beq_iff_eq] at hblank
      obtain rfl | rfl := hblank <;> cases hc
  · rintro ⟨⟩
    cases hc

theorem skipBlank_listed {f : String × Value} (h : isBareKey f.1 = true) (texts : List (List Char))
    (close rest : List Char) (hclose : close ≠ []) :
    Toml.skipBlank (listed (pairChars f :: texts) close ++ rest) = listed (pairChars f :: texts) close ++ rest ∧
      (listed (pairChars f :: texts) close ++ rest).head? ≠ some '}' := by
  obtain ⟨after, hafter, -⟩ := listed_head (pairChars f) texts hclose
  rw [hafter, List.append_assoc]
  exact skipBlank_pair h _

/-- A field in front of others, or of the end. -/
theorem readPairs_pair {f : String × Value} (hbare : isBareKey f.1 = true) (hbegins : BeginsItem f.2)
    (hreads : ReadsToon f.2) (fuel : Nat) (hfuel : (pairChars f).length ≤ fuel) (after : List Char) (hafter : Follows after) :
    ∃ t, Denotes f.2 t ∧ Toml.readPairs (fuel + 1) (pairChars f ++ after) =
      match Toml.skipBlank after with
      | ',' :: cs => (Toml.readPairs fuel (Toml.skipBlank cs)).map fun q => (([f.1], t) :: q.1, q.2)
      | '}' :: rest => some ([([f.1], t)], rest)
      | _ => none := by
  have hlength : (toonChars f.2).length ≤ fuel ∧ 0 < fuel := by
    rw [pairChars, List.length_append, List.length_cons, List.length_cons, List.length_cons] at hfuel
    omega
  obtain ⟨n, rfl⟩ : ∃ n, fuel = n + 1 := ⟨fuel - 1, by omega⟩
  obtain ⟨t, ht, hdenotes⟩ := hreads (n + 1) after hlength.1 hafter
  refine ⟨t, hdenotes, ?_⟩
  rw [Toml.readPairs_succ, readKey_pair hbare]
  simp only [Option.bind_some, hbegins.skipBlank, ht] <;> rfl

theorem readPairs_listed {todo : List (String × Value)} (hne : todo ≠ []) (hbare : ∀ f ∈ todo, isBareKey f.1 = true)
    (hbegins : ∀ f ∈ todo, BeginsItem f.2) (hreads : ∀ f ∈ todo, ReadsToon f.2) (fuel : Nat) (rest : List Char)
    (hfuel : (listed (todo.map pairChars) [' ', '}']).length ≤ fuel) :
    ∃ pairs, Toml.readPairs fuel (listed (todo.map pairChars) [' ', '}'] ++ rest) = some (pairs, rest) ∧
      Matches todo pairs := by
  induction todo generalizing fuel with
  | nil => exact absurd rfl hne
  | cons f todo ih =>
    obtain ⟨hf, htodo⟩ := List.forall_mem_cons.mp hbare
    cases todo with
    | nil =>
      rw [List.map_singleton, listed_singleton] at hfuel ⊢
      rw [List.length_append] at hfuel
      cases fuel with
      | zero => simp at hfuel
      | succ fuel =>
        rw [List.length_cons] at hfuel
        obtain ⟨t, hdenotes, hread⟩ := readPairs_pair hf (hbegins f List.mem_cons_self) (hreads f List.mem_cons_self)
          fuel (by omega) (' ' :: '}' :: rest) (follows_cons rfl (by decide) _)
        refine ⟨[([f.1], t)], ?_, .cons ⟨rfl, hdenotes⟩ .nil⟩
        rw [List.append_assoc]
        exact hread
    | cons g gs =>
      rw [List.map_cons, List.map_cons, listed_cons] at hfuel ⊢
      rw [List.length_append, List.length_cons, List.length_cons] at hfuel
      cases fuel with
      | zero => simp at hfuel
      | succ fuel =>
        obtain ⟨t, hdenotes, hread⟩ := readPairs_pair hf (hbegins f List.mem_cons_self) (hreads f List.mem_cons_self)
          fuel (by omega) (',' :: ' ' :: (listed (pairChars g :: gs.map pairChars) [' ', '}'] ++ rest))
          (follows_cons rfl (by decide) _)
        obtain ⟨pairs, hpairs, hmatches⟩ := ih (List.cons_ne_nil _ _) htodo
          (fun z hz => hbegins z (List.mem_cons_of_mem _ hz)) (fun z hz => hreads z (List.mem_cons_of_mem _ hz)) fuel
          (by rw [List.map_cons]; omega)
        refine ⟨([f.1], t) :: pairs, ?_, .cons ⟨rfl, hdenotes⟩ hmatches⟩
        rw [List.append_assoc]
        refine hread.trans ?_
        rw [Toml.skipBlank_cons rfl]
        simp only [Toml.skipBlank_space, (skipBlank_listed (htodo g List.mem_cons_self) _ _ _ (List.cons_ne_nil _ _)).1]
        rw [← List.map_cons, hpairs]
        rfl

theorem strays_of_readPairs {todo : List (String × Value)} (hstarts : ∀ f ∈ todo, startsAsKey f.1 = true)
    (hbegins : ∀ f ∈ todo, BeginsItem f.2) (hreads : ∀ f ∈ todo, ReadsToon f.2 ∨ Misreads f.2)
    (hbad : ∃ f ∈ todo, isBareKey f.1 = false ∨ Misreads f.2) {fuel : Nat} {rest rest' : List Char}
    {pairs : List (List String × Toml)} (hfuel : (listed (todo.map pairChars) [' ', '}']).length ≤ fuel)
    (h : Toml.readPairs fuel (Toml.skipBlank (listed (todo.map pairChars) [' ', '}'] ++ rest)) = some (pairs, rest')) :
    Strays todo pairs := by
  induction todo generalizing fuel pairs with
  | nil => simp at hbad
  | cons f todo ih =>
    obtain ⟨after, hafter, -⟩ := listed_head (pairChars f) (todo.map pairChars) (List.cons_ne_nil ' ' ['}'])
    cases fuel with
    | zero =>
      rw [Toml.readPairs] at h
      cases h
    | succ fuel =>
      have hlength := congrArg List.length hafter
      rw [List.length_append] at hlength
      rw [List.map_cons] at hfuel h
      cases hbare : isBareKey f.1 with
      | false =>
        rw [hafter, List.append_assoc] at h
        obtain ⟨path, after', t, after'', pairs', hkey, -, rfl⟩ := Toml.readPairs_head h
        obtain ⟨key, path', rfl, hlt⟩ := readKey_odd (hstarts f List.mem_cons_self) hbare hkey
        exact .key hlt todo path' t pairs'
      | true =>
        rw [(skipBlank_listed hbare _ _ _ (List.cons_ne_nil _ _)).1] at h
        by_cases hvalue : Misreads f.2
        · rw [hafter, List.append_assoc] at h
          obtain ⟨path, after', t, after'', pairs', hkey, ht, rfl⟩ := Toml.readPairs_head h
          have hvaluelength : (toonChars f.2).length + 3 ≤ (pairChars f).length := by
            rw [pairChars, List.length_append]
            simp only [List.length_cons]
            omega
          obtain ⟨n, rfl⟩ : ∃ n, fuel = n + 1 := ⟨fuel - 1, by omega⟩
          rw [readKey_pair hbare] at hkey
          cases hkey
          rw [(hbegins f List.mem_cons_self).skipBlank] at ht
          exact .value (hvalue (n + 1) (after ++ rest) t after'' (by omega) ht) todo pairs'
        · -- the field is read as it should be, and the one that is not comes later
          obtain ⟨g, hg, hbad⟩ := hbad
          have hmem : g ∈ todo := by
            obtain rfl | hmem := List.mem_cons.mp hg
            · rw [hbare] at hbad
              exact absurd (hbad.resolve_left (by simp)) hvalue
            · exact hmem
          cases todo with
          | nil => cases hmem
          | cons z zs =>
            rw [List.map_cons, listed_cons] at hfuel h
            rw [List.length_append, List.length_cons, List.length_cons] at hfuel
            obtain ⟨t, hdenotes, hread⟩ := readPairs_pair hbare (hbegins f List.mem_cons_self)
              ((hreads f List.mem_cons_self).resolve_right hvalue) fuel (by omega)
              (',' :: ' ' :: (listed (pairChars z :: zs.map pairChars) [' ', '}'] ++ rest))
              (follows_cons rfl (by decide) _)
            rw [List.append_assoc] at h
            have h := hread.symm.trans h
            rw [Toml.skipBlank_cons rfl] at h
            obtain ⟨q, hq, heq⟩ := Option.map_eq_some_iff.mp h
            cases heq
            rw [Toml.skipBlank_space, ← List.map_cons] at hq
            exact .later hdenotes (ih (fun y hy => hstarts y (List.mem_cons_of_mem _ hy))
              (fun y hy => hbegins y (List.mem_cons_of_mem _ hy)) (fun y hy => hreads y (List.mem_cons_of_mem _ hy))
              ⟨g, hmem, hbad⟩ (by rw [List.map_cons]; omega) hq)

omit [Texts] in
theorem nodup_of_ascend {fields : List (String × Value)}
    (h : fields.Pairwise fun a b => cmpString a.1 b.1 = .lt) : (fields.map Prod.fst).Nodup := by
  rw [List.nodup_iff_pairwise_ne, List.pairwise_map]
  refine h.imp fun {a b} hlt heq => ?_
  have hself : cmpString b.1 b.1 = .eq := Std.ReflCmp.compare_self
  rw [heq, hself] at hlt
  cases hlt

theorem reads_object {fields : List (String × Value)} (hascend : fields.Pairwise fun a b => cmpString a.1 b.1 = .lt)
    (hbare : ∀ f ∈ fields, isBareKey f.1 = true) (hbegins : ∀ f ∈ fields, BeginsItem f.2)
    (hreads : ∀ f ∈ fields, ReadsToon f.2) : ReadsToon (.object fields) := by
  intro fuel rest hfuel hrest
  rw [toonChars_object] at hfuel ⊢
  cases fuel with
  | zero => simp at hfuel
  | succ fuel =>
    rw [List.cons_append, List.cons_append]
    cases fields with
    | nil =>
      have hempty : Denotes (.object []) (.table []) := ⟨fun _ hkey => absurd hkey (by simp), trivial⟩
      exact ⟨.table [], Toml.readValue_emptyObject rfl fuel, hempty⟩
    | cons f fields =>
      have hskip := skipBlank_listed (hbare f List.mem_cons_self) (fields.map pairChars) [' ', '}'] rest
        (List.cons_ne_nil _ _)
      obtain ⟨pairs, hpairs, hmatches⟩ := readPairs_listed (List.cons_ne_nil f fields) hbare hbegins hreads fuel rest
        (by simp only [List.length_cons] at hfuel; omega)
      have hdistinct := nodup_of_ascend hascend
      obtain ⟨entries, hentries, hholds⟩ := holds_of_matches hmatches .nil hdistinct
      rw [List.map_cons] at hpairs ⊢
      refine ⟨.table (Toml.tomlEntries entries), ?_, hholds.denotes hdistinct⟩
      have hinline : Toml.inlineTable pairs = some (Toml.tomlEntries entries) := congrArg (Option.map _) hentries
      rw [Toml.readValue_object, Toml.skipBlank_space, hskip.1, hpairs, Option.bind_some, hinline]
      · rfl
      · rw [Toml.skipBlank_space, hskip.1]
        exact hskip.2

theorem misreads_object {fields : List (String × Value)} (hascend : fields.Pairwise fun a b => cmpString a.1 b.1 = .lt)
    (hstarts : ∀ f ∈ fields, startsAsKey f.1 = true) (hbegins : ∀ f ∈ fields, BeginsItem f.2)
    (hreads : ∀ f ∈ fields, ReadsToon f.2 ∨ Misreads f.2)
    (hbad : ∃ f ∈ fields, isBareKey f.1 = false ∨ Misreads f.2) : Misreads (.object fields) := by
  intro fuel rest t rest' hfuel hread
  rw [toonChars_object] at hfuel hread
  cases fuel with
  | zero => simp at hfuel
  | succ fuel =>
    rw [List.cons_append, List.cons_append] at hread
    by_cases hclose : (Toml.skipBlank (' ' :: (listed (fields.map pairChars) [' ', '}'] ++ rest))).head? = some '}'
    · -- a key that begins with a brace ends the table
      obtain ⟨after, hafter⟩ := List.head?_eq_some_iff.mp hclose
      rw [Toml.readValue_emptyObject hafter] at hread
      cases hread
      rintro ⟨-, hfields⟩
      obtain ⟨f, hf, -⟩ := hbad
      obtain ⟨t, ht, -⟩ := fieldsDenote_iff.mp hfields f hf
      cases ht
    · rw [Toml.readValue_object hclose, Toml.skipBlank_space] at hread
      obtain ⟨⟨pairs, after⟩, hpairs, hread⟩ := Option.bind_eq_some_iff.mp hread
      obtain ⟨entries, hentries, heq⟩ := Option.map_eq_some_iff.mp hread
      cases heq
      obtain ⟨nodes, hnodes, rfl⟩ := Option.map_eq_some_iff.mp hentries
      have hstrays := strays_of_readPairs hstarts hbegins hreads hbad (by simp only [List.length_cons] at hfuel; omega)
        hpairs
      exact (off_of_strays hstrays .nil hascend hnodes).not_denotes

/-! ## All values -/

omit [Texts] in
/-- Induction on a value, with the statement for all items and all fields at hand. -/
theorem Value.nested {motive : Value → Prop} (array : ∀ xs, (∀ x ∈ xs, motive x) → motive (.array xs))
    (object : ∀ fields, (∀ f ∈ fields, motive f.2) → motive (.object fields))
    (leaf : ∀ v, (∀ xs, v ≠ .array xs) → (∀ fields, v ≠ .object fields) → motive v) (v : Value) : motive v := by
  refine @Value.rec motive (fun xs => ∀ x ∈ xs, motive x) (fun fields => ∀ f ∈ fields, motive f.2)
    (fun f => motive f.2) ?_ ?_ ?_ ?_ ?_ ?_ array object ?_ ?_ ?_ ?_ ?_ ?_ (fun _ _ h => h) v
  case refine_9 => exact fun x hx => absurd hx List.not_mem_nil
  case refine_10 => exact fun x xs hx hxs => List.forall_mem_cons.mpr ⟨hx, hxs⟩
  case refine_11 => exact fun f hf => absurd hf List.not_mem_nil
  case refine_12 => exact fun f fields hf hfields => List.forall_mem_cons.mpr ⟨hf, hfields⟩
  all_goals
    intros
    exact leaf _ (fun _ h => by cases h) fun _ h => by cases h

omit [Texts] in
theorem plainItems_iff {xs : List Value} : plainItems xs = true ↔ ∀ x ∈ xs, x.isPlain = true := by
  induction xs with
  | nil => simp [plainItems]
  | cons x xs ih => simp [plainItems, ih]

omit [Texts] in
theorem plainFields_iff {fields : List (String × Value)} :
    plainFields fields = true ↔ ∀ f ∈ fields, f.2.isPlain = true := by
  induction fields with
  | nil => simp [plainFields]
  | cons f fields ih =>
    obtain ⟨k, v⟩ := f
    rw [plainFields, Bool.and_eq_true, ih, List.forall_mem_cons]

omit [Texts] in
theorem itemsPass_iff {key string : String → Bool} {xs : List Value} :
    itemsPass key string xs = true ↔ ∀ x ∈ xs, x.passes key string = true := by
  induction xs with
  | nil => simp [itemsPass]
  | cons x xs ih => simp [itemsPass, ih]

omit [Texts] in
theorem fieldsPass_iff {key string : String → Bool} {fields : List (String × Value)} :
    fieldsPass key string fields = true ↔ ∀ f ∈ fields, key f.1 = true ∧ f.2.passes key string = true := by
  induction fields with
  | nil => simp [fieldsPass]
  | cons f fields ih =>
    obtain ⟨k, v⟩ := f
    rw [fieldsPass, Bool.and_eq_true, Bool.and_eq_true, ih, List.forall_mem_cons]

theorem reads_of_isReadable {v : Value} (hplain : v.isPlain = true) (hreadable : v.isReadable = true) : ReadsToon v := by
  induction v using Value.nested with
  | array xs ih =>
    rw [Value.isPlain, plainItems_iff] at hplain
    rw [Value.isReadable, Value.passes, itemsPass_iff] at hreadable
    exact reads_array (fun x hx => begins_of_isPlain (hplain x hx)) fun x hx => ih x hx (hplain x hx) (hreadable x hx)
  | object fields ih =>
    rw [Value.isPlain, Bool.and_eq_true, plainFields_iff, decide_eq_true_eq] at hplain
    rw [Value.isReadable, Value.passes, fieldsPass_iff] at hreadable
    exact reads_object hplain.1 (fun f hf => (hreadable f hf).1) (fun f hf => begins_of_isPlain (hplain.2 f hf))
      fun f hf => ih f hf (hplain.2 f hf) (hreadable f hf).2
  | leaf v harray hobject =>
    cases v with
    | none => exact reads_none
    | bool b => exact reads_bool b
    | int n => exact reads_int n
    | string s => exact reads_string hreadable
    | array xs => exact absurd rfl (harray xs)
    | object fields => exact absurd rfl (hobject fields)
    | _ => cases hplain

theorem misreads_of_not_isReadable {v : Value} (hplain : v.isPlain = true) (hstarts : v.startsKeys = true)
    (hreadable : v.isReadable = false) : Misreads v := by
  induction v using Value.nested with
  | array xs ih =>
    rw [Value.isPlain, plainItems_iff] at hplain
    rw [Value.startsKeys, Value.passes, itemsPass_iff] at hstarts
    rw [Value.isReadable, Value.passes, ← Bool.not_eq_true, itemsPass_iff] at hreadable
    have hreads : ∀ x ∈ xs, x.isReadable = true → ReadsToon x := fun x hx => reads_of_isReadable (hplain x hx)
    have hmisreads : ∀ x ∈ xs, x.isReadable = false → Misreads x := fun x hx => ih x hx (hplain x hx) (hstarts x hx)
    refine misreads_array (fun x hx => begins_of_isPlain (hplain x hx)) (fun x hx => ?_) ?_
    · cases hx' : x.isReadable with
      | true => exact .inl (hreads x hx hx')
      | false => exact .inr (hmisreads x hx hx')
    · push Not at hreadable
      obtain ⟨x, hx, hnot⟩ := hreadable
      exact ⟨x, hx, hmisreads x hx (Bool.not_eq_true _ ▸ hnot)⟩
  | object fields ih =>
    rw [Value.isPlain, Bool.and_eq_true, plainFields_iff, decide_eq_true_eq] at hplain
    rw [Value.startsKeys, Value.passes, fieldsPass_iff] at hstarts
    rw [Value.isReadable, Value.passes, ← Bool.not_eq_true, fieldsPass_iff] at hreadable
    have hreads : ∀ f ∈ fields, f.2.isReadable = true → ReadsToon f.2 := fun f hf => reads_of_isReadable (hplain.2 f hf)
    have hmisreads : ∀ f ∈ fields, f.2.isReadable = false → Misreads f.2 := fun f hf =>
      ih f hf (hplain.2 f hf) (hstarts f hf).2
    refine misreads_object hplain.1 (fun f hf => (hstarts f hf).1) (fun f hf => begins_of_isPlain (hplain.2 f hf))
      (fun f hf => ?_) ?_
    · cases hf' : f.2.isReadable with
      | true => exact .inl (hreads f hf hf')
      | false => exact .inr (hmisreads f hf hf')
    · push Not at hreadable
      obtain ⟨f, hf, hnot⟩ := hreadable
      cases hbare : isBareKey f.1 with
      | false => exact ⟨f, hf, .inl hbare⟩
      | true => exact ⟨f, hf, .inr (hmisreads f hf (Bool.not_eq_true _ ▸ hnot hbare))⟩
  | leaf v harray hobject =>
    cases v with
    | string s => exact misreads_string hreadable
    | array xs => exact absurd rfl (harray xs)
    | object fields => exact absurd rfl (hobject fields)
    | _ => cases hreadable

end

end Dllb
