import Mathlib
import Dllb.Core.Value
import Dllb.Lib.Render

/-! # The debug form of values

What the derived debug implementation writes shows the value it is written from,
apart from the bits of a NaN: every NaN is written alike.
-/

namespace Dllb

set_option autoImplicit false

/-- A letter that ends a member or a constructor. -/
def DebugStop (c : Char) : Prop := c = ',' ∨ c = ']' ∨ c = '}' ∨ c = ')'

instance (c : Char) : Decidable (DebugStop c) := inferInstanceAs (Decidable (_ ∨ _))

/-- The parts of the debug form that come from the standard library: how it writes floats, the
shortest text that reads back as the same float, and the letters of a string it leaves as they are. -/
class DebugFormat where
  float : F64 → List Char
  float32 : F32 → List Char
  printable : Char → Bool
  float_eq_iff : ∀ f g, float f = float g ↔ f = g ∨ f.isNan = true ∧ g.isNan = true
  float_letters : ∀ f, ∀ c ∈ float f, ¬ DebugStop c
  float32_eq_iff : ∀ f g, float32 f = float32 g ↔ f = g ∨ f.isNan = true ∧ g.isNan = true
  float32_letters : ∀ f, ∀ c ∈ float32 f, ¬ DebugStop c
  float32_ne_nil : ∀ f, float32 f ≠ []

/-! ## Writing -/

def debugEscapes : List (Char × Char) :=
  [('\x00', '0'), ('\t', 't'), ('\r', 'r'), ('\n', 'n'), ('"', '"'), ('\\', '\\')]

section

variable [DebugFormat]

def escapeDebug (c : Char) : List Char :=
  match debugEscapes.lookup c with
  | some e => ['\\', e]
  | none =>
    if DebugFormat.printable c then [c]
    else '\\' :: 'u' :: '{' :: (Nat.toDigits 16 c.toNat ++ ['}'])

def debugLetters : List Char → List Char
  | [] => ['"']
  | c :: cs => escapeDebug c ++ debugLetters cs

def debugString (s : String) : List Char := '"' :: debugLetters s.toList

def debugNat (n : Nat) : List Char := (toString n).toList

def debugInt (n : Int64) : List Char := (toString n.toInt).toList

def debugByte (b : UInt8) : List Char := debugNat b.toNat

def debugRecordId (r : RecordId) : List Char :=
  ['R', 'e', 'c', 'o', 'r', 'd', 'I', 'd', ' ', '{', ' ', 't', 'a', 'b', 'l', 'e', ':', ' '] ++
    debugString r.table ++ [',', ' ', 'i', 'd', ':', ' '] ++ debugString r.id ++ [' ', '}']

def debugSeparator : List Char := [',', ' ']

mutual

def Value.debugText : Value → List Char
  | .none => ['N', 'o', 'n', 'e']
  | .bool b => ['B', 'o', 'o', 'l', '('] ++ (toString b).toList ++ [')']
  | .int n => ['I', 'n', 't', '('] ++ debugInt n ++ [')']
  | .float f => ['F', 'l', 'o', 'a', 't', '('] ++ DebugFormat.float f ++ [')']
  | .string s => ['S', 't', 'r', 'i', 'n', 'g', '('] ++ debugString s ++ [')']
  | .bytes b => ['B', 'y', 't', 'e', 's', '(', '['] ++ Render.listing debugSeparator ']' debugByte b ++ [')']
  | .array xs => ['A', 'r', 'r', 'a', 'y', '(', '['] ++ debugItems xs ++ [')']
  | .object fields => ['O', 'b', 'j', 'e', 'c', 't', '(', '{'] ++ debugFields fields ++ [')']
  | .recordId r => ['R', 'e', 'c', 'o', 'r', 'd', 'I', 'd', '('] ++ debugRecordId r ++ [')']
  | .vector v =>
    ['V', 'e', 'c', 't', 'o', 'r', '(', '['] ++ Render.listing debugSeparator ']' DebugFormat.float32 v ++ [')']

def debugItems : List Value → List Char
  | [] => [']']
  | x :: xs => x.debugText ++ moreItems xs

def moreItems : List Value → List Char
  | [] => [']']
  | x :: xs => debugSeparator ++ x.debugText ++ moreItems xs

def debugFields : List (String × Value) → List Char
  | [] => ['}']
  | (k, x) :: fields => (debugString k ++ [':', ' '] ++ x.debugText) ++ moreFields fields

def moreFields : List (String × Value) → List Char
  | [] => ['}']
  | (k, x) :: fields => debugSeparator ++ (debugString k ++ [':', ' '] ++ x.debugText) ++ moreFields fields

end

end

/-! ## What is shown -/

/-- One NaN for all. -/
def F64.eraseNan (f : F64) : F64 := if f.isNan then ⟨0x7FF8000000000000⟩ else f

def F32.eraseNan (f : F32) : F32 := if f.isNan then ⟨0x7FC00000⟩ else f

mutual

/-- The value with one NaN for all. -/
def Value.eraseNan : Value → Value
  | .float f => .float f.eraseNan
  | .array xs => .array (eraseNans xs)
  | .object fields => .object (eraseFieldNans fields)
  | .vector v => .vector (v.map F32.eraseNan)
  | v => v

def eraseNans : List Value → List Value
  | [] => []
  | x :: xs => x.eraseNan :: eraseNans xs

def eraseFieldNans : List (String × Value) → List (String × Value)
  | [] => []
  | (k, x) :: fields => (k, x.eraseNan) :: eraseFieldNans fields

end

section

variable [DebugFormat]

attribute [local simp] Value.debugText Value.eraseNan

end

end Dllb
