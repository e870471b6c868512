import Mathlib
import Dllb.Core.Decimal

/-! # The tokenizer

The scanner goes over the characters of the input and decides by the next one or
two of them.
-/

namespace Dllb

set_option autoImplicit false

inductive Token where
  | create | select | delete | relate | from' | where' | set | and | on | conflict | update | limit | outcome
  | graph | communities | components | count | is | not
  | ident (s : String)
  | stringLit (s : String)
  | intLit (n : Int64)
  | floatLit (f : F64)
  | true | false | none
  | star | comma | semicolon | colon | eq | ne | gt | lt | gte | lte | arrow | backArrow | dot
  | lBracket | rBracket | lParen | rParen
  deriving DecidableEq

def queryError (text : String) : Error := .query [.text text]

/-! ## Characters -/

/-- The characters with the Unicode property `White_Space`. -/
def isWhitespace (c : Char) : Bool :=
  (9 ≤ c.toNat && c.toNat ≤ 13) || c.toNat = 0x20 || c.toNat = 0x85 || c.toNat = 0xA0 || c.toNat = 0x1680 ||
    (0x2000 ≤ c.toNat && c.toNat ≤ 0x200A) || c.toNat = 0x2028 || c.toNat = 0x2029 || c.toNat = 0x202F ||
    c.toNat = 0x205F || c.toNat = 0x3000

def isWordStart (c : Char) : Bool := c.isAlpha || c = '_'

def isWordChar (c : Char) : Bool := c.isAlphanum || c = '_'

/-! ## Words -/

/-- The keyword that a word is in any letter case, or the word itself. -/
def wordToken (word : List Char) : Token :=
  match String.ofList (word.map Char.toUpper) with
  | "CREATE" => .create
  | "SELECT" => .select
  | "DELETE" => .delete
  | "RELATE" => .relate
  | "FROM" => .from'
  | "WHERE" => .where'
  | "SET" => .set
  | "AND" => .and
  | "ON" => .on
  | "CONFLICT" => .conflict
  | "UPDATE" => .update
  | "LIMIT" => .limit
  | "OUTCOME" => .outcome
  | "GRAPH" => .graph
  | "COMMUNITIES" => .communities
  | "COMPONENTS" => .components
  | "COUNT" => .count
  | "IS" => .is
  | "NOT" => .not
  | "TRUE" => .true
  | "FALSE" => .false
  | "NONE" => .none
  | "NULL" => .none
  | _ => .ident (String.ofList word)

/-! ## Numbers -/

/-- The digits of a decimal number. -/
def digitsValue (digits : List Char) : Nat :=
  digits.foldl (fun n c => 10 * n + (c.toNat - '0'.toNat)) 0

/-- `parse` of an `i64`, for an optional sign and digits. -/
def parseI64 (negative : Bool) (digits : List Char) : Option Int64 :=
  let n : Int := if negative then -(digitsValue digits : Int) else digitsValue digits
  if -2 ^ 63 ≤ n ∧ n < 2 ^ 63 then some (Int64.ofInt n) else none

/-- The digits in front, and what follows. -/
def takeDigits (chars : List Char) : List Char × List Char := chars.span Char.isDigit

/-- A point and digits in front, and what follows. -/
def takeFraction : List Char → Option (List Char) × List Char
  | '.' :: rest =>
    let (digits, rest) := takeDigits rest
    (some digits, rest)
  | rest => (Option.none, rest)

/-- A well-formed exponent in front, as a number, and what follows it. -/
def takeExponent (chars : List Char) : Option (Int × List Char) :=
  match chars with
  | c :: rest =>
    if c = 'e' ∨ c = 'E' then
      let (negative, rest) :=
        match rest with
        | '+' :: rest => (Bool.false, rest)
        | '-' :: rest => (Bool.true, rest)
        | rest => (Bool.false, rest)
      let (digits, rest) := takeDigits rest
      if digits.isEmpty then none
      else some (if negative then -(digitsValue digits : Int) else digitsValue digits, rest)
    else none
  | [] => none

/-- A number behind its sign: an integer, or a float with a fraction, an exponent or both. -/
def scanNumber (negative : Bool) (chars : List Char) : Result (Token × List Char) :=
  let (whole, rest) := takeDigits chars
  let (fraction, rest) := takeFraction rest
  match fraction, takeExponent rest with
  | Option.none, Option.none =>
    match parseI64 negative whole with
    | some n => .ok (.intLit n, rest)
    | Option.none =>
      .error (queryError ("invalid integer: " ++ String.ofList ((if negative then ['-'] else []) ++ whole)))
  | fraction, exponent =>
    let digits := fraction.getD []
    let (e, rest) := exponent.getD (0, rest)
    .ok (.floatLit (F64.ofDecimal negative (digitsValue (whole ++ digits)) (e - digits.length)), rest)

/-! ## The scanner -/

def skipLine (chars : List Char) : List Char := chars.dropWhile (· ≠ '\n')

/-- The symbols of one character. -/
def symbolToken : Char → Option Token
  | '*' => some .star
  | ',' => some .comma
  | ';' => some .semicolon
  | ':' => some .colon
  | '=' => some .eq
  | '.' => some .dot
  | '>' => some .gt
  | '<' => some .lt
  | '[' => some .lBracket
  | ']' => some .rBracket
  | '(' => some .lParen
  | ')' => some .rParen
  | _ => Option.none

/-- What is neither white space nor a comment nor a symbol. -/
def scanWord (c : Char) (rest : List Char) : Result (Token × List Char) :=
  if c = '\'' ∨ c = '"' then
    match rest.span (· ≠ c) with
    | (s, _ :: rest) => .ok (.stringLit (String.ofList s), rest)
    | (_, []) => .error (queryError "unterminated string literal")
  else if c.isDigit then scanNumber Bool.false (c :: rest)
  else if c = '-' ∧ rest.head?.any Char.isDigit then scanNumber Bool.true rest
  else if isWordStart c then
    let (word, rest) := (c :: rest).span isWordChar
    .ok (wordToken word, rest)
  else .error (queryError ("unexpected character: '" ++ String.ofList [c] ++ "'"))

/-- One turn of the scanner: a token or something to skip, and what follows. -/
def scanOne (c : Char) (rest : List Char) : Result (Option Token × List Char) :=
  let next := rest.head?
  if isWhitespace c then .ok (Option.none, rest)
  else if c = '-' ∧ next = some '-' ∧ rest.tail.head? ≠ some '>' then .ok (Option.none, skipLine rest)
  -- the symbols of two characters come before those of one
  else if c = '<' ∧ next = some '-' then .ok (some .backArrow, rest.tail)
  else if c = '<' ∧ next = some '=' then .ok (some .lte, rest.tail)
  else if c = '>' ∧ next = some '=' then .ok (some .gte, rest.tail)
  else if c = '!' ∧ next = some '=' then .ok (some .ne, rest.tail)
  else if c = '-' ∧ next = some '>' then .ok (some .arrow, rest.tail)
  else
    match symbolToken c with
    | some token => .ok (some token, rest)
    | Option.none => do
      let (token, rest) ← scanWord c rest
      return (some token, rest)

/-- Every turn takes a character, so as many turns as there are characters are enough. -/
def scan : Nat → List Char → Result (List Token)
  | _, [] => .ok []
  | 0, _ :: _ => .ok []
  | n + 1, c :: rest => do
    let (token, rest) ← scanOne c rest
    let tokens ← scan n rest
    return token.toList ++ tokens

def tokenize (input : String) : Result (List Token) := scan input.toList.length input.toList

end Dllb
