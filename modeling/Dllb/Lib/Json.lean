import Mathlib.Data.List.TakeDrop
import Mathlib.Data.List.TakeWhile
import Mathlib.Tactic.Common

/-! # JSON

A parser for the texts of RFC 8259. The members of an object are kept in their
order, a number as it is written, and half of a surrogate pair is no character.
-/

namespace Dllb

set_option autoImplicit false

inductive Json where
  | null
  | bool (b : Bool)
  | number (literal : String)
  | string (s : String)
  | array (items : List Json)
  | object (members : List (String × Json))

namespace Json

def isSpace (c : Char) : Bool := c == ' ' || c == '\t' || c == '\n' || c == '\r'

def skip (cs : List Char) : List Char := cs.dropWhile isSpace

theorem skip_cons {c : Char} (hc : isSpace c = Bool.false) (cs : List Char) : skip (c :: cs) = c :: cs := by
  rw [skip, List.dropWhile_cons_of_neg (by simp [hc])]

/-! ## Strings -/

def hexDigit (c : Char) : Option Nat :=
  if c.isDigit then some (c.toNat - '0'.toNat)
  else if 'a' ≤ c ∧ c ≤ 'f' then some (c.toNat - 'a'.toNat + 10)
  else if 'A' ≤ c ∧ c ≤ 'F' then some (c.toNat - 'A'.toNat + 10)
  else none

/-- The code unit of four hexadecimal digits. -/
def codeUnit (a b c d : Char) : Option Nat := do
  let a ← hexDigit a
  let b ← hexDigit b
  let c ← hexDigit c
  let d ← hexDigit d
  return ((a * 16 + b) * 16 + c) * 16 + d

theorem hexDigit_of_codeUnit {a b c d : Char} {n : Nat} (h : codeUnit a b c d = some n) :
    ∀ x ∈ [a, b, c, d], hexDigit x ≠ none := by
  obtain ⟨i, ha, h⟩ := Option.bind_eq_some_iff.mp h
  obtain ⟨j, hb, h⟩ := Option.bind_eq_some_iff.mp h
  obtain ⟨k, hc, h⟩ := Option.bind_eq_some_iff.mp h
  obtain ⟨l, hd, -⟩ := Option.bind_eq_some_iff.mp h
  simp [ha, hb, hc, hd]

def isHighSurrogate (n : Nat) : Bool := 0xD800 ≤ n && n < 0xDC00

def isLowSurrogate (n : Nat) : Bool := 0xDC00 ≤ n && n < 0xE000

/-- What one character behind a backslash stands for. -/
def unescape : Char → Option Char
  | '"' => some '"'
  | '\\' => some '\\'
  | '/' => some '/'
  | 'b' => some '\x08'
  | 'f' => some '\x0c'
  | 'n' => some '\n'
  | 'r' => some '\r'
  | 't' => some '\t'
  | _ => none

/-- The rest of a string, up to its closing quote. -/
def readString : List Char → Option (List Char × List Char)
  | [] => none
  | '"' :: cs => some ([], cs)
  | '\\' :: 'u' :: a :: b :: c :: d :: cs => do
    let n ← codeUnit a b c d
    if isHighSurrogate n then
      match cs with
      | '\\' :: 'u' :: e :: f :: g :: h :: cs => do
        let m ← codeUnit e f g h
        if isLowSurrogate m then
          let (s, rest) ← readString cs
          return (Char.ofNat (0x10000 + (n - 0xD800) * 0x400 + (m - 0xDC00)) :: s, rest)
        else none
      | _ => none
    else if isLowSurrogate n then none
    else
      let (s, rest) ← readString cs
      return (Char.ofNat n :: s, rest)
  | '\\' :: c :: cs => do
    let d ← unescape c
    let (s, rest) ← readString cs
    return (d :: s, rest)
  | c :: cs =>
    if c.toNat < 0x20 then none
    else do
      let (s, rest) ← readString cs
      return (c :: s, rest)

@[simp] theorem readString_quote (cs : List Char) : readString ('"' :: cs) = some ([], cs) := by rw [readString]

theorem readString_char {c : Char} (hquote : c ≠ '"') (hbackslash : c ≠ '\\') (cs : List Char) :
    readString (c :: cs) = if c.toNat < 0x20 then none else (readString cs).map fun r => (c :: r.1, r.2) := by
  rw [readString]
  · congr 1
    cases readString cs <;> rfl
  · exact hquote
  · exact fun _ _ _ _ _ h => absurd h hbackslash
  · exact fun _ _ h => absurd h hbackslash

/-- What a backslash in a string starts: an escape, a code unit or a surrogate pair. -/
theorem readString_backslash {cs s rest : List Char} (h : readString ('\\' :: cs) = some (s, rest)) :
    (∃ c cs' d s', cs = c :: cs' ∧ unescape c = some d ∧ readString cs' = some (s', rest) ∧ s = d :: s') ∨
      (∃ a b c d cs' n x s', cs = 'u' :: a :: b :: c :: d :: cs' ∧ codeUnit a b c d = some n ∧
        readString cs' = some (s', rest) ∧ s = x :: s') ∨
      ∃ a b c d e f g h cs' n m x s',
        cs = 'u' :: a :: b :: c :: d :: '\\' :: 'u' :: e :: f :: g :: h :: cs' ∧ codeUnit a b c d = some n ∧
          codeUnit e f g h = some m ∧ readString cs' = some (s', rest) ∧ s = x :: s' := by
  unfold readString at h
  split at h
  · cases h
  · rename_i heq
    cases heq
  · rename_i a b c d cs' heq
    cases heq
    obtain ⟨n, hn, h⟩ := Option.bind_eq_some_iff.mp h
    split at h
    · split at h
      · rename_i e f g k cs'' _
        obtain ⟨m, hm, h⟩ := Option.bind_eq_some_iff.mp h
        split at h
        · obtain ⟨⟨s', rest'⟩, hs, heq⟩ := Option.bind_eq_some_iff.mp h
          cases heq
          exact .inr (.inr ⟨a, b, c, d, e, f, g, k, cs'', n, m, _, s', rfl, hn, hm, hs, rfl⟩)
        · cases h
      · cases h
    · split at h
      · cases h
      · obtain ⟨⟨s', rest'⟩, hs, heq⟩ := Option.bind_eq_some_iff.mp h
        cases heq
        exact .inr (.inl ⟨a, b, c, d, cs', n, _, s', rfl, hn, hs, rfl⟩)
  · rename_i c cs' _ heq
    cases heq
    obtain ⟨d, hd, h⟩ := Option.bind_eq_some_iff.mp h
    obtain ⟨⟨s', rest'⟩, hs, heq⟩ := Option.bind_eq_some_iff.mp h
    cases heq
    exact .inl ⟨c, cs', d, s', rfl, hd, hs, rfl⟩
  · rename_i c cs' _ _ hlone heq
    cases heq
    cases cs with
    | nil =>
      split at h
      · cases h
      · cases h
    | cons c cs => exact (hlone c cs rfl rfl).elim

/-! ## Numbers -/

def readInt : List Char → Option (List Char × List Char)
  | '0' :: cs => some (['0'], cs)
  | cs =>
    let (digits, rest) := cs.span Char.isDigit
    if digits = [] then none else some (digits, rest)

def readFraction : List Char → Option (List Char × List Char)
  | '.' :: cs =>
    let (digits, rest) := cs.span Char.isDigit
    if digits = [] then none else some ('.' :: digits, rest)
  | cs => some ([], cs)

def readExponent : List Char → Option (List Char × List Char)
  | c :: cs =>
    if c = 'e' ∨ c = 'E' then
      let (sign, cs) :=
        match cs with
        | '+' :: cs => (['+'], cs)
        | '-' :: cs => (['-'], cs)
        | cs => ([], cs)
      let (digits, rest) := cs.span Char.isDigit
      if digits = [] then none else some (c :: (sign ++ digits), rest)
    else some ([], c :: cs)
  | [] => some ([], [])

def readNumber (cs : List Char) : Option (List Char × List Char) := do
  let (sign, cs) :=
    match cs with
    | '-' :: cs => (['-'], cs)
    | cs => ([], cs)
  let (int, cs) ← readInt cs
  let (fraction, cs) ← readFraction cs
  let (exponent, cs) ← readExponent cs
  return (sign ++ int ++ fraction ++ exponent, cs)

/-! ## Values -/

mutual

/-- No more than `fuel` levels and members. -/
def readValue : Nat → List Char → Option (Json × List Char)
  | 0, _ => none
  | fuel + 1, cs =>
    match skip cs with
    | '{' :: cs =>
      match skip cs with
      | '}' :: cs => some (.object [], cs)
      | cs => do
        let (members, rest) ← readMembers fuel cs
        return (.object members, rest)
    | '[' :: cs =>
      match skip cs with
      | ']' :: cs => some (.array [], cs)
      | cs => do
        let (items, rest) ← readItems fuel cs
        return (.array items, rest)
    | '"' :: cs => do
      let (s, rest) ← readString cs
      return (.string (String.ofList s), rest)
    | 't' :: 'r' :: 'u' :: 'e' :: cs => some (.bool true, cs)
    | 'f' :: 'a' :: 'l' :: 's' :: 'e' :: cs => some (.bool false, cs)
    | 'n' :: 'u' :: 'l' :: 'l' :: cs => some (.null, cs)
    | cs => do
      let (literal, rest) ← readNumber cs
      return (.number (String.ofList literal), rest)

def readMembers : Nat → List Char → Option (List (String × Json) × List Char)
  | 0, _ => none
  | fuel + 1, cs =>
    match skip cs with
    | '"' :: cs => do
      let (key, cs) ← readString cs
      match skip cs with
      | ':' :: cs => do
        let (v, cs) ← readValue fuel cs
        match skip cs with
        | ',' :: cs => do
          let (members, rest) ← readMembers fuel cs
          return ((String.ofList key, v) :: members, rest)
        | '}' :: cs => return ([(String.ofList key, v)], cs)
        | _ => none
      | _ => none
    | _ => none

def readItems : Nat → List Char → Option (List Json × List Char)
  | 0, _ => none
  | fuel + 1, cs => do
    let (v, cs) ← readValue fuel cs
    match skip cs with
    | ',' :: cs => do
      let (items, rest) ← readItems fuel cs
      return (v :: items, rest)
    | ']' :: cs => return ([v], cs)
    | _ => none

end

theorem readValue_string (fuel : Nat) (cs : List Char) : readValue (fuel + 1) ('"' :: cs) =
    (readString cs).map fun r => (.string (String.ofList r.1), r.2) := by
  rw [readValue, skip_cons rfl]
  simp only [Option.bind_eq_bind, Option.pure_def]
  cases readString cs <;> rfl

theorem readValue_object (fuel : Nat) (cs : List Char) : readValue (fuel + 1) ('{' :: '"' :: cs) =
    (readMembers fuel ('"' :: cs)).map fun r => (.object r.1, r.2) := by
  rw [readValue, skip_cons rfl]
  simp only [skip_cons (show isSpace '"' = Bool.false from rfl), Option.bind_eq_bind, Option.pure_def]
  rw [Option.map_eq_bind]
  rfl

theorem readMembers_key {cs key rest : List Char} (hkey : readString cs = some (key, ':' :: rest)) (fuel : Nat) :
    readMembers (fuel + 1) ('"' :: cs) = (readValue fuel rest).bind fun v =>
      match skip v.2 with
      | ',' :: cs => (readMembers fuel cs).map fun members => ((String.ofList key, v.1) :: members.1, members.2)
      | '}' :: cs => some ([(String.ofList key, v.1)], cs)
      | _ => none := by
  rw [readMembers, skip_cons rfl]
  simp only [hkey, skip_cons (show isSpace ':' = Bool.false from rfl), Option.bind_eq_bind, Option.pure_def,
    Option.bind_some]
  refine congrArg (Option.bind _) (funext fun v => ?_)
  split
  · rw [Option.map_eq_bind]
    rfl
  · rfl
  · rfl

/-- A text is one value, with white space around it. -/
def parse (text : List Char) : Option Json := do
  let (v, rest) ← readValue (text.length + 1) text
  if skip rest = [] then return v else none

example : (parse "[1, -2.5e3, \"a\\u00e9\\ud83d\\ude00\", \x7b\"k\": [true, null, \x7b\x7d]\x7d]".toList).isSome = true := by
  decide +kernel

example : (parse "\"\\ud83d\"".toList).isNone = true := by decide +kernel

end Json

end Dllb
