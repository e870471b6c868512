import Mathlib
import Dllb.Query.Tokenizer

/-! # What the tokenizer reads back

A token that is written out, followed by something that cannot continue it, is
scanned in one turn. Tokens apart from each other by white space are therefore
read back one by one.
-/

namespace Dllb

set_option autoImplicit false

/-! ## Tokens written out -/

/-- The grammar's text for a keyword or a symbol. -/
def Token.grammarText : Token → Option String
  | .create => some "CREATE"
  | .select => some "SELECT"
  | .delete => some "DELETE"
  | .relate => some "RELATE"
  | .from' => some "FROM"
  | .where' => some "WHERE"
  | .set => some "SET"
  | .and => some "AND"
  | .on => some "ON"
  | .conflict => some "CONFLICT"
  | .update => some "UPDATE"
  | .limit => some "LIMIT"
  | .outcome => some "OUTCOME"
  | .graph => some "GRAPH"
  | .communities => some "COMMUNITIES"
  | .components => some "COMPONENTS"
  | .count => some "COUNT"
  | .is => some "IS"
  | .not => some "NOT"
  | .true => some "TRUE"
  | .false => some "FALSE"
  | .none => some "NONE"
  | .star => some "*"
  | .comma => some ","
  | .semicolon => some ";"
  | .colon => some ":"
  | .eq => some "="
  | .ne => some "!="
  | .gt => some ">"
  | .lt => some "<"
  | .gte => some ">="
  | .lte => some "<="
  | .arrow => some "->"
  | .backArrow => some "<-"
  | .dot => some "."
  | .lBracket => some "["
  | .rBracket => some "]"
  | .lParen => some "("
  | .rParen => some ")"
  | .ident _ | .stringLit _ | .intLit _ | .floatLit _ => Option.none

def keywords : List String :=
  ["CREATE", "SELECT", "DELETE", "RELATE", "FROM", "WHERE", "SET", "AND", "ON", "CONFLICT", "UPDATE", "LIMIT",
    "OUTCOME", "GRAPH", "COMMUNITIES", "COMPONENTS", "COUNT", "IS", "NOT", "TRUE", "FALSE", "NONE", "NULL"]

/-- Letters, digits and underscores, the first of them not a digit. -/
def IsWord (word : List Char) : Prop :=
  (∃ c ∈ word.head?, isWordStart c = Bool.true) ∧ ∀ c ∈ word, isWordChar c = Bool.true

instance (word : List Char) : Decidable (IsWord word) :=
  decidable_of_iff ((word.head?.any isWordStart && word.all isWordChar) = Bool.true)
    (by simp [IsWord, Option.any_eq_true])

/-- A word that is no keyword in any letter case. -/
def IsIdent (s : String) : Prop :=
  IsWord s.toList ∧ String.ofList (s.toList.map Char.toUpper) ∉ keywords

instance (s : String) : Decidable (IsIdent s) := inferInstanceAs (Decidable (_ ∧ _))

def IsQuote (c : Char) : Prop := c = '\'' ∨ c = '"'

def decimal (n : Int64) : List Char :=
  if n.toInt < 0 then '-' :: Nat.toDigits 10 n.toInt.natAbs else Nat.toDigits 10 n.toInt.natAbs

/-- The tokens that can be written so that they are read back. -/
def Token.Writable : Token → Prop
  | .ident s => IsIdent s
  | .stringLit s => ∃ q, IsQuote q ∧ q ∉ s.toList
  | .floatLit _ => False
  | _ => True

/-- `chars` is the token as the grammar writes it. -/
inductive Spelled : Token → List Char → Prop
  | grammar {token : Token} {s : String} (h : token.grammarText = some s) : Spelled token s.toList
  | ident {s : String} (h : IsIdent s) : Spelled (.ident s) s.toList
  | stringLit {s : String} {q : Char} (hQuote : IsQuote q) (h : q ∉ s.toList) :
    Spelled (.stringLit s) (q :: (s.toList ++ [q]))
  | intLit (n : Int64) : Spelled (.intLit n) (decimal n)

/-- The tokens in order, with white space between any two of them. -/
inductive Rendered : List Token → List Char → Prop
  | nil : Rendered [] []
  | single {token : Token} {chars : List Char} (h : Spelled token chars) : Rendered [token] chars
  | cons {token next : Token} {tokens : List Token} {chars gap rest : List Char} (h : Spelled token chars)
      (hGap : gap ≠ []) (hWhite : ∀ c ∈ gap, isWhitespace c = Bool.true) (hRest : Rendered (next :: tokens) rest) :
      Rendered (token :: next :: tokens) (chars ++ gap ++ rest)

theorem Token.writable_iff {token : Token} : token.Writable ↔ ∃ chars, Spelled token chars := by
  constructor
  · intro h
    cases token with
    | ident s => exact ⟨_, .ident h⟩
    | stringLit s =>
      obtain ⟨q, hQuote, hNot⟩ := h
      exact ⟨_, .stringLit hQuote hNot⟩
    | intLit n => exact ⟨_, .intLit n⟩
    | floatLit f => exact h.elim
    | _ => exact ⟨_, .grammar rfl⟩
  · rintro ⟨chars, h⟩
    cases h with
    | grammar h => cases token <;> trivial
    | ident h => exact h
    | stringLit hQuote h => exact ⟨_, hQuote, h⟩
    | intLit n => trivial

theorem Rendered.exists_of_writable {tokens : List Token} (h : ∀ token ∈ tokens, token.Writable) :
    ∃ chars, Rendered tokens chars := by
  induction tokens with
  | nil => exact ⟨[], .nil⟩
  | cons token tokens ih =>
    obtain ⟨chars, hChars⟩ := Token.writable_iff.mp (h token List.mem_cons_self)
    obtain ⟨rest, hRest⟩ := ih fun t ht => h t (List.mem_cons_of_mem _ ht)
    cases tokens with
    | nil => exact ⟨chars, .single hChars⟩
    | cons next tokens =>
      have hWhite : ∀ c ∈ [' '], isWhitespace c = Bool.true := List.forall_mem_singleton.mpr rfl
      exact ⟨_, .cons hChars (List.cons_ne_nil ' ' []) hWhite hRest⟩

/-! ## Characters -/

theorem isWordChar_iff_toNat {c : Char} : isWordChar c = Bool.true ↔
    48 ≤ c.toNat ∧ c.toNat ≤ 57 ∨ 65 ≤ c.toNat ∧ c.toNat ≤ 90 ∨ 97 ≤ c.toNat ∧ c.toNat ≤ 122 ∨ c.toNat = 95 := by
  have hEq : c = '_' ↔ c.toNat = 95 := by rw [← Char.toNat_inj]; rfl
  simp only [isWordChar, Char.isAlphanum, Char.isAlpha, Char.isUpper, Char.isLower, Char.isDigit,
    ge_iff_le, UInt32.le_iff_toNat_le, Bool.or_eq_true, Bool.and_eq_true, decide_eq_true_eq, hEq]
  change ((65 ≤ c.toNat ∧ c.toNat ≤ 90 ∨ 97 ≤ c.toNat ∧ c.toNat ≤ 122) ∨ 48 ≤ c.toNat ∧ c.toNat ≤ 57) ∨ _ ↔ _
  omega

theorem isWordStart_iff_toNat {c : Char} : isWordStart c = Bool.true ↔
    65 ≤ c.toNat ∧ c.toNat ≤ 90 ∨ 97 ≤ c.toNat ∧ c.toNat ≤ 122 ∨ c.toNat = 95 := by
  have hEq : c = '_' ↔ c.toNat = 95 := by rw [← Char.toNat_inj]; rfl
  simp only [isWordStart, Char.isAlpha, Char.isUpper, Char.isLower,
    ge_iff_le, UInt32.le_iff_toNat_le, Bool.or_eq_true, Bool.and_eq_true, decide_eq_true_eq, hEq]
  exact or_assoc

theorem isDigit_iff_toNat {c : Char} : c.isDigit = Bool.true ↔ 48 ≤ c.toNat ∧ c.toNat ≤ 57 :=
  Char.isDigit_iff_toNat

theorem isWordChar_of_isDigit {c : Char} (h : c.isDigit = Bool.true) : isWordChar c = Bool.true :=
  isWordChar_iff_toNat.mpr (.inl (isDigit_iff_toNat.mp h))

theorem isWhitespace_of_isWordChar {c : Char} (h : isWordChar c = Bool.true) : isWhitespace c = Bool.false := by
  rw [isWordChar_iff_toNat] at h
  rw [← Bool.not_eq_true]
  simp only [isWhitespace, Bool.or_eq_true, Bool.and_eq_true, decide_eq_true_eq]
  omega

theorem symbolToken_of_isWordChar {c : Char} (h : isWordChar c = Bool.true) : symbolToken c = Option.none := by
  unfold symbolToken
  split <;> first | rfl | exact absurd h (by decide)

/-! ## One turn of the scanner -/

/-- What follows does not continue a run of `p`. -/
def Stops (p : Char → Bool) (tail : List Char) : Prop := ∀ c ∈ tail.head?, p c = Bool.false

theorem span_append_of_stops {p : Char → Bool} {chars tail : List Char} (hAll : ∀ c ∈ chars, p c = Bool.true)
    (hTail : Stops p tail) : (chars ++ tail).span p = (chars, tail) := by
  rw [List.span_eq_takeWhile_dropWhile, List.takeWhile_append_of_pos hAll, List.dropWhile_append_of_pos hAll]
  cases tail with
  | nil => simp
  | cons c tail =>
    have hStop : p c = Bool.false := hTail c rfl
    simp [hStop]

/-- None of the symbols and of the white space begins with a character of a word. -/
theorem scanOne_of_isWordChar {c : Char} (rest : List Char) (h : isWordChar c = Bool.true) :
    scanOne c rest = (scanWord c rest).map fun (token, rest) => (some token, rest) := by
  have hNe : ∀ d : Char, isWordChar d = Bool.false → c ≠ d := by
    rintro d hd rfl
    rw [hd] at h
    exact Bool.false_ne_true h
  have hMinus := hNe '-' rfl
  have hLt := hNe '<' rfl
  have hGt := hNe '>' rfl
  have hBang := hNe '!' rfl
  simp only [scanOne, isWhitespace_of_isWordChar h, symbolToken_of_isWordChar h, hMinus, hLt, hGt, hBang,
    false_and, if_false, Bool.false_eq_true]
  cases scanWord c rest <;> rfl

theorem scanOne_word {c : Char} {word tail : List Char} (hWord : IsWord (c :: word)) (hTail : Stops isWordChar tail) :
    scanOne c (word ++ tail) = .ok (some (wordToken (c :: word)), tail) := by
  obtain ⟨⟨d, hd, hStart⟩, hAll⟩ := hWord
  cases hd
  have hWordChar := hAll c List.mem_cons_self
  have hNat := isWordStart_iff_toNat.mp hStart
  have hQuote : ¬(c = '\'' ∨ c = '"') := by
    rintro (rfl | rfl) <;> exact absurd hStart (by decide)
  have hDigit : ¬c.isDigit = Bool.true := by
    rw [isDigit_iff_toNat]
    omega
  have hMinus : c ≠ '-' := by
    rintro rfl
    exact absurd hStart (by decide)
  have hSpan := span_append_of_stops hAll hTail
  rw [List.cons_append] at hSpan
  rw [scanOne_of_isWordChar _ hWordChar]
  simp only [scanWord, hQuote, hDigit, hMinus, hStart, hSpan, if_false, if_true, false_and, Bool.false_eq_true]
  rfl

theorem scanOne_wordToken {s : String} {tail : List Char} (hWord : IsWord s.toList) (hTail : Stops isWordChar tail) :
    ∃ c word, s.toList = c :: word ∧ scanOne c (word ++ tail) = .ok (some (wordToken s.toList), tail) := by
  obtain ⟨c, hHead, -⟩ := hWord.1
  obtain ⟨word, hEq⟩ := List.head?_eq_some_iff.mp hHead
  rw [hEq] at hWord ⊢
  exact ⟨c, word, rfl, scanOne_word hWord hTail⟩

theorem wordToken_ident {s : String} (h : String.ofList (s.toList.map Char.toUpper) ∉ keywords) :
    wordToken s.toList = .ident s := by
  unfold wordToken
  split
  all_goals first
    | exact congrArg Token.ident String.ofList_toList
    | simp_all [keywords]

theorem scanOne_stringLit {q : Char} {s tail : List Char} (hQuote : IsQuote q) (h : q ∉ s) :
    scanOne q (s ++ q :: tail) = .ok (some (.stringLit (String.ofList s)), tail) := by
  have hAll : ∀ c ∈ s, decide (c ≠ q) = Bool.true := by
    rintro c hc
    exact decide_eq_true fun hEq => h (hEq ▸ hc)
  have hStop : Stops (fun c => decide (c ≠ q)) (q :: tail) := by
    rintro c hc
    cases hc
    simp
  have hSpan := span_append_of_stops hAll hStop
  have hScan : scanWord q (s ++ q :: tail) = .ok (.stringLit (String.ofList s), tail) := by
    have hFirst : q = '\'' ∨ q = '"' := hQuote
    rw [scanWord, if_pos hFirst, hSpan]
  have hWhite : isWhitespace q = Bool.false := by obtain rfl | rfl := hQuote <;> rfl
  have hSymbol : symbolToken q = Option.none := by obtain rfl | rfl := hQuote <;> rfl
  have hFirst : q ≠ '-' ∧ q ≠ '<' ∧ q ≠ '>' ∧ q ≠ '!' := by obtain rfl | rfl := hQuote <;> decide
  simp only [scanOne, hWhite, hSymbol, hFirst, hScan, false_and, if_false, Bool.false_eq_true]
  rfl

/-! ## Numbers -/

theorem digitsValue_toDigits (n : Nat) : digitsValue (Nat.toDigits 10 n) = n :=
  Nat.ofDigitChars_ten_toDigits

theorem toDigits_all (n : Nat) : ∀ c ∈ Nat.toDigits 10 n, c.isDigit = Bool.true :=
  fun _ hc => Nat.isDigit_of_mem_toDigits (by decide) (by decide) hc

theorem parseI64_toDigits (n : Int64) :
    parseI64 (decide (n.toInt < 0)) (Nat.toDigits 10 n.toInt.natAbs) = some n := by
  have hLow := n.le_toInt
  have hHigh := n.toInt_lt
  have hSign : (if decide (n.toInt < 0) = Bool.true then -(n.toInt.natAbs : Int) else n.toInt.natAbs) = n.toInt := by
    split
    next hNeg =>
      have hNeg := of_decide_eq_true hNeg
      omega
    next hNeg =>
      have hNeg := of_decide_eq_false (Bool.not_eq_true _ ▸ hNeg)
      omega
  rw [parseI64, digitsValue_toDigits]
  simp only [hSign]
  rw [if_pos ⟨hLow, hHigh⟩, Int64.ofInt_toInt]

/-- The characters that go on with an integer, or make a float of it. -/
def isNumberChar (c : Char) : Bool := c.isDigit || c = '.' || c = 'e' || c = 'E'

theorem scanNumber_digits {negative : Bool} {digits tail : List Char} {n : Int64}
    (hDigits : ∀ c ∈ digits, c.isDigit = Bool.true) (hTail : Stops isNumberChar tail)
    (hParse : parseI64 negative digits = some n) :
    scanNumber negative (digits ++ tail) = .ok (.intLit n, tail) := by
  have hStop : Stops Char.isDigit tail := by
    rintro c hc
    have h := hTail c hc
    simp only [isNumberChar, Bool.or_eq_false_iff] at h
    exact h.1.1.1
  have hFraction : takeFraction tail = (Option.none, tail) := by
    unfold takeFraction
    split
    next => exact absurd (hTail '.' rfl) (by decide)
    next => rfl
  have hExponent : takeExponent tail = Option.none := by
    cases tail with
    | nil => rfl
    | cons c tail =>
      have h := hTail c rfl
      simp only [isNumberChar, Bool.or_eq_false_iff, decide_eq_false_iff_not] at h
      simp only [takeExponent, h, or_false, if_false]
  simp only [scanNumber, takeDigits, span_append_of_stops hDigits hStop, hFraction, hExponent, hParse]

theorem scanOne_digits {c : Char} {digits tail : List Char} {n : Int64}
    (hDigits : ∀ d ∈ c :: digits, d.isDigit = Bool.true) (hTail : Stops isNumberChar tail)
    (hParse : parseI64 Bool.false (c :: digits) = some n) :
    scanOne c (digits ++ tail) = .ok (some (.intLit n), tail) := by
  have hDigit := hDigits c List.mem_cons_self
  have hQuote : ¬(c = '\'' ∨ c = '"') := by
    rintro (rfl | rfl) <;> exact absurd hDigit (by decide)
  have hNumber := scanNumber_digits hDigits hTail hParse
  rw [List.cons_append] at hNumber
  rw [scanOne_of_isWordChar _ (isWordChar_of_isDigit hDigit)]
  simp only [scanWord, hQuote, hDigit, if_false, if_true, hNumber]
  rfl

theorem scanOne_minus {digits tail : List Char} {n : Int64} (hNe : digits ≠ [])
    (hDigits : ∀ d ∈ digits, d.isDigit = Bool.true) (hTail : Stops isNumberChar tail)
    (hParse : parseI64 Bool.true digits = some n) :
    scanOne '-' (digits ++ tail) = .ok (some (.intLit n), tail) := by
  have hNumber := scanNumber_digits hDigits hTail hParse
  obtain ⟨d, digits, rfl⟩ := List.exists_cons_of_ne_nil hNe
  have hDigit := hDigits d List.mem_cons_self
  have hMinus : d ≠ '-' := by
    rintro rfl
    exact absurd hDigit (by decide)
  have hGt : d ≠ '>' := by
    rintro rfl
    exact absurd hDigit (by decide)
  rw [List.cons_append] at hNumber ⊢
  have hScan : scanWord '-' (d :: (digits ++ tail)) = .ok (.intLit n, tail) := by
    simp [scanWord, hDigit, ← hNumber]
  have hWhite : isWhitespace '-' = Bool.false := rfl
  have hSymbol : symbolToken '-' = Option.none := rfl
  simp [scanOne, hMinus, hGt, hWhite, hSymbol, hScan]

theorem scanOne_decimal {n : Int64} {tail : List Char} (hTail : Stops isNumberChar tail) :
    ∃ c word, decimal n = c :: word ∧ scanOne c (word ++ tail) = .ok (some (.intLit n), tail) := by
  have hParse := parseI64_toDigits n
  have hDigits := toDigits_all n.toInt.natAbs
  have hNe : Nat.toDigits 10 n.toInt.natAbs ≠ [] := Nat.toDigits_ne_nil
  unfold decimal
  split
  next hNeg =>
    rw [decide_eq_true hNeg] at hParse
    exact ⟨_, _, rfl, scanOne_minus hNe hDigits hTail hParse⟩
  next hNeg =>
    rw [decide_eq_false hNeg] at hParse
    obtain ⟨c, digits, hEq⟩ := List.exists_cons_of_ne_nil hNe
    rw [hEq] at hDigits hParse ⊢
    exact ⟨c, digits, rfl, scanOne_digits hDigits hTail hParse⟩

/-! ## A token and what follows it -/

/-- The characters that cannot follow the token directly. -/
def Token.continues : Token → Char → Bool
  | .stringLit _ | .floatLit _ => fun _ => Bool.false
  | .intLit _ => isNumberChar
  | .lt => fun c => c = '-' || c = '='
  | .gt => fun c => c = '='
  | .star | .comma | .semicolon | .colon | .eq | .ne | .gte | .lte | .arrow | .backArrow | .dot => fun _ => Bool.false
  | .lBracket | .rBracket | .lParen | .rParen => fun _ => Bool.false
  | _ => isWordChar

theorem Token.continues_of_isWhitespace {c : Char} (token : Token) (h : isWhitespace c = Bool.true) :
    token.continues c = Bool.false := by
  have hWord : isWordChar c = Bool.false := by
    by_contra hNot
    rw [isWhitespace_of_isWordChar (Bool.not_eq_false _ ▸ hNot)] at h
    exact Bool.false_ne_true h
  have hNe : ∀ d : Char, isWhitespace d = Bool.false → c ≠ d := by
    rintro d hd rfl
    rw [hd] at h
    exact Bool.false_ne_true h
  have hNumber : isNumberChar c = Bool.false := by
    have hDigit : c.isDigit = Bool.false := by
      by_contra hNot
      rw [isWordChar_of_isDigit (Bool.not_eq_false _ ▸ hNot)] at hWord
      exact Bool.false_ne_true hWord.symm
    simp [isNumberChar, hDigit, hNe '.' rfl, hNe 'e' rfl, hNe 'E' rfl]
  cases token with
  | intLit n => exact hNumber
  | lt =>
    change (decide (c = '-') || decide (c = '=')) = Bool.false
    simp [hNe '-' rfl, hNe '=' rfl]
  | gt => exact decide_eq_false (hNe '=' rfl)
  | _ => first | rfl | exact hWord

theorem scanOne_lt {tail : List Char} (hTail : Stops (Token.continues .lt) tail) :
    scanOne '<' tail = .ok (some .lt, tail) := by
  have hHead : tail.head? ≠ some '-' ∧ tail.head? ≠ some '=' :=
    ⟨fun h => absurd (hTail '-' h) (by decide), fun h => absurd (hTail '=' h) (by decide)⟩
  have hWhite : isWhitespace '<' = Bool.false := rfl
  have hSymbol : symbolToken '<' = some .lt := rfl
  simp [scanOne, hWhite, hHead, hSymbol]

theorem scanOne_gt {tail : List Char} (hTail : Stops (Token.continues .gt) tail) :
    scanOne '>' tail = .ok (some .gt, tail) := by
  have hHead : tail.head? ≠ some '=' := fun h => absurd (hTail '=' h) (by decide)
  have hWhite : isWhitespace '>' = Bool.false := rfl
  have hSymbol : symbolToken '>' = some .gt := rfl
  simp [scanOne, hWhite, hHead, hSymbol]

theorem scanOne_grammarText {token : Token} {s : String} {tail : List Char} (h : token.grammarText = some s)
    (hTail : Stops token.continues tail) :
    ∃ c word, s.toList = c :: word ∧ scanOne c (word ++ tail) = .ok (some token, tail) := by
  cases token with
  | lt =>
    cases h
    exact ⟨'<', [], rfl, scanOne_lt hTail⟩
  | gt =>
    cases h
    exact ⟨'>', [], rfl, scanOne_gt hTail⟩
  | ident | stringLit | intLit | floatLit => cases h
  | star | comma | semicolon | colon | eq | ne | gte | lte | arrow | backArrow | dot
  | lBracket | rBracket | lParen | rParen =>
    cases h
    exact ⟨_, _, rfl, rfl⟩
  | _ =>
    cases h
    exact scanOne_wordToken (by decide) hTail

/-- A token that is written out is scanned in one turn. -/
theorem Spelled.scanOne {token : Token} {chars tail : List Char} (h : Spelled token chars)
    (hTail : Stops token.continues tail) :
    ∃ c word, chars = c :: word ∧ Dllb.scanOne c (word ++ tail) = .ok (some token, tail) := by
  cases h with
  | ident h =>
    rw [← wordToken_ident h.2]
    exact scanOne_wordToken h.1 hTail
  | stringLit hQuote h =>
    rename_i s q
    have hScan : Dllb.scanOne q (s.toList ++ q :: tail) = .ok (some (.stringLit s), tail) := by
      rw [scanOne_stringLit hQuote h, String.ofList_toList]
    exact ⟨q, _, rfl, by simpa using hScan⟩
  | intLit n => exact scanOne_decimal hTail
  | grammar h => exact scanOne_grammarText h hTail

/-! ## A whole text -/

/-- The scanner reads these tokens, given enough turns. -/
def Scans (chars : List Char) (tokens : List Token) : Prop := ∀ n, chars.length ≤ n → scan n chars = .ok tokens

theorem Scans.nil : Scans [] [] := fun n _ => by cases n <;> rfl

theorem Scans.tokenize {chars : List Char} {tokens : List Token} (h : Scans chars tokens) :
    Dllb.tokenize (String.ofList chars) = .ok tokens := by
  rw [Dllb.tokenize, String.toList_ofList]
  exact h _ le_rfl

theorem Scans.turn {c : Char} {rest tail : List Char} {token : Option Token} {tokens : List Token}
    (hOne : scanOne c rest = .ok (token, tail)) (hLength : tail.length ≤ rest.length) (hTail : Scans tail tokens) :
    Scans (c :: rest) (token.toList ++ tokens) := by
  intro n hn
  obtain ⟨n, rfl⟩ := Nat.exists_eq_add_of_le' (Nat.lt_of_lt_of_le (Nat.succ_pos rest.length) hn)
  have hEnough : tail.length ≤ n := by
    simp only [List.length_cons] at hn
    omega
  simp only [scan, hOne]
  change (do let tokens ← scan n tail; return token.toList ++ tokens) = _
  rw [hTail n hEnough]
  rfl

theorem Scans.spelled {token : Token} {tokens : List Token} {chars tail : List Char} (h : Spelled token chars)
    (hStops : Stops token.continues tail) (hTail : Scans tail tokens) : Scans (chars ++ tail) (token :: tokens) := by
  obtain ⟨c, word, rfl, hOne⟩ := h.scanOne hStops
  exact Scans.turn hOne (by simp) hTail

theorem Scans.white {gap chars : List Char} {tokens : List Token} (hWhite : ∀ c ∈ gap, isWhitespace c = Bool.true)
    (h : Scans chars tokens) : Scans (gap ++ chars) tokens := by
  induction gap with
  | nil => exact h
  | cons c gap ih =>
    have hOne : scanOne c (gap ++ chars) = .ok (Option.none, gap ++ chars) := by
      rw [scanOne, if_pos (hWhite c List.mem_cons_self)]
    exact Scans.turn hOne le_rfl (ih fun d hd => hWhite d (List.mem_cons_of_mem c hd))

theorem Rendered.scans {tokens : List Token} {chars : List Char} (h : Rendered tokens chars) : Scans chars tokens := by
  induction h with
  | nil => exact Scans.nil
  | single h =>
    have hStops : ∀ token : Token, Stops token.continues [] := fun _ _ hc => nomatch hc
    simpa using Scans.spelled h (hStops _) Scans.nil
  | cons h hGap hWhite _ ih =>
    rename_i token _ _ chars gap rest _
    have hStops : Stops token.continues (gap ++ rest) := by
      obtain ⟨c, gap, rfl⟩ := List.exists_cons_of_ne_nil hGap
      rintro d hd
      cases hd
      exact token.continues_of_isWhitespace (hWhite c List.mem_cons_self)
    rw [List.append_assoc]
    exact Scans.spelled h hStops (Scans.white hWhite ih)

/-- Whatever white space stands between written tokens, they are read back in order. -/
theorem tokenizer_round_trip {tokens : List Token} (hTokens : ∀ token ∈ tokens, token.Writable) :
    (∃ chars, Rendered tokens chars) ∧
      ∀ chars, Rendered tokens chars → tokenize (String.ofList chars) = .ok tokens :=
  ⟨Rendered.exists_of_writable hTokens, fun _ h => h.scans.tokenize⟩

theorem tokenizer_round_trip_lookahead :
    let tokens : List Token :=
      [.lt, .intLit (-9223372036854775808), .arrow, .gt, .eq, .ident "_e5", .stringLit "-- it's\n"]
    (∃ chars, Rendered tokens chars) ∧
      ∀ chars, Rendered tokens chars → tokenize (String.ofList chars) = .ok tokens := by
  refine tokenizer_round_trip ?_
  have hIdent : IsIdent "_e5" := ⟨by decide, by decide⟩
  have hString : Token.Writable (.stringLit "-- it's\n") := ⟨'"', .inr rfl, by decide⟩
  simp only [List.forall_mem_cons]
  exact ⟨trivial, trivial, trivial, trivial, trivial, hIdent, hString, List.forall_mem_nil _⟩

end Dllb
