import Mathlib

/-! # The tokenizer of source code

Words are cut at underscores and where camel case starts another word. Their
lower-case forms are the tokens, without keywords and single bytes.
-/

namespace Dllb

set_option autoImplicit false

/-- What the tables of Unicode say of characters, and of the lower-case form of a text. -/
class Unicode where
  isAlphanumeric : Char → Bool
  toLowercase : String → String
  space : isAlphanumeric ' ' = false
  underscore : isAlphanumeric '_' = false
  lower_lower (s : String) : toLowercase (toLowercase s) = toLowercase s
  not_upper_of_lower (s : String) : ∀ c ∈ (toLowercase s).toList, c.isUpper = false

namespace CodeTokenizer

def noiseKeywords : List String :=
  ["self", "this", "return", "def", "fn", "func", "function", "class", "let", "var", "const", "mut", "pub",
    "private", "protected", "static", "void", "new", "end", "do", "begin", "if", "else", "elsif", "elif", "then",
    "for", "while", "in", "of", "is", "as", "and", "or", "not", "true", "false", "nil", "null", "none", "import",
    "from", "require", "use", "module", "defmodule", "struct", "enum", "type", "trait", "impl", "interface",
    "abstract", "override", "super", "yield", "async", "await", "try", "catch", "raise", "throw", "finally",
    "rescue", "with", "match", "case", "when"]

def isNoise (token : String) : Bool := noiseKeywords.contains token

/-- The loop from `curr` on; the open part is `part` and then `prev`. Only ASCII letters make it cut,
which are single bytes, so that it never cuts inside of a character. -/
def splitLoop : List Char → Char → List Char → List (List Char)
  | part, prev, [] => [part ++ [prev]]
  | part, prev, curr :: rest =>
    if !prev.isUpper && curr.isUpper then (part ++ [prev]) :: splitLoop [] curr rest
    else if prev.isUpper && curr.isLower && !part.isEmpty then part :: splitLoop [prev] curr rest
    else splitLoop (part ++ [prev]) curr rest

def splitCamelCase : List Char → List (List Char)
  | [] => []
  | c :: rest => splitLoop [] c rest

section

variable [Unicode]

/-- What is pushed for a part between underscores; for an empty one it is nothing. -/
def partTokens (part : List Char) : List String :=
  (splitCamelCase part).filterMap fun sub =>
    let lower := Unicode.toLowercase (.ofList sub)
    if 1 < lower.utf8ByteSize ∧ isNoise lower = false then some lower else none

end

/-! ## Where words are cut -/

section

variable [Unicode]

/-- A token that is read as one word again. -/
structure Settled (t : String) : Prop where
  long : 1 < t.utf8ByteSize
  meant : isNoise t = false
  lower : Unicode.toLowercase t = t
  letters : ∀ c ∈ t.toList, Unicode.isAlphanumeric c ∧ c.isUpper = false

end

/-! ## ASCII -/

end CodeTokenizer

end Dllb
