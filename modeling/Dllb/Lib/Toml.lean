import Mathlib.Data.List.TakeDrop
import Mathlib.Data.List.TakeWhile
import Mathlib.Tactic.Common

/-! # The text of TOML

A reader for the grammar of TOML 1.0. It gives the statements of a document in
their order; what they build is another matter. Floats, dates and times are
kept as they are written.
-/

namespace Dllb

set_option autoImplicit false

inductive Toml where
  | string (s : String)
  | integer (n : Int)
  | float (literal : String)
  | boolean (b : Bool)
  | dateTime (literal : String)
  | array (items : List Toml)
  | table (entries : List (String × Toml))

namespace Toml

/-! ## Scanning -/

/-- `p` fails where the rest begins. -/
def StopsAt (p : Char → Bool) (rest : List Char) : Prop := ∀ c ∈ rest.head?, p c = Bool.false

theorem takeWhile_append {p : Char → Bool} {letters rest : List Char} (h : ∀ c ∈ letters, p c = Bool.true)
    (hrest : StopsAt p rest) : (letters ++ rest).takeWhile p = letters := by
  rw [List.takeWhile_append_of_pos h]
  cases rest with
  | nil => simp
  | cons c rest => simp [hrest c rfl]

theorem dropWhile_append {p : Char → Bool} {letters rest : List Char} (h : ∀ c ∈ letters, p c = Bool.true)
    (hrest : StopsAt p rest) : (letters ++ rest).dropWhile p = rest := by
  rw [List.dropWhile_append_of_pos h]
  cases rest with
  | nil => simp
  | cons c rest => simp [hrest c rfl]

/-! ## White space and comments -/

def isBlank (c : Char) : Bool := c == ' ' || c == '\t'

/-- What may stand nowhere but at the end of a line. -/
def isControl (c : Char) : Bool := (c.toNat < 0x20 && c != '\t') || c.toNat == 0x7F

def skipBlank (cs : List Char) : List Char := cs.dropWhile isBlank

def readNewline : List Char → Option (List Char)
  | '\n' :: cs => some cs
  | '\r' :: '\n' :: cs => some cs
  | _ => none

def skipComment : List Char → List Char
  | '#' :: cs => cs.dropWhile fun c => !isControl c
  | cs => cs

/-- From the end of an expression to the next line. -/
def endOfLine (cs : List Char) : Option (List Char) :=
  match skipComment (skipBlank cs) with
  | [] => some []
  | cs => readNewline cs

/-- White space, lines and comments between the items of an array. -/
def skipFiller : Bool → List Char → Option (List Char)
  | _, [] => some []
  | true, c :: cs =>
    if c = '\n' then skipFiller Bool.false cs
    else if c = '\r' ∧ cs.head? = some '\n' then skipFiller Bool.false cs
    else if isControl c then none
    else skipFiller Bool.true cs
  | false, c :: cs =>
    if isBlank c ∨ c = '\n' then skipFiller Bool.false cs
    else if c = '\r' ∧ cs.head? = some '\n' then skipFiller Bool.false cs
    else if c = '#' then skipFiller Bool.true cs
    else some (c :: cs)

theorem skipBlank_cons {c : Char} (hc : isBlank c = Bool.false) (cs : List Char) : skipBlank (c :: cs) = c :: cs := by
  rw [skipBlank, List.dropWhile_cons_of_neg (by simp [hc])]

@[simp] theorem skipBlank_space (cs : List Char) : skipBlank (' ' :: cs) = skipBlank cs := rfl

/-- Letters that begin neither white space nor a comment. -/
def isSolid (c : Char) : Bool := !(isBlank c || c == '\n' || c == '\r' || c == '#')

theorem skipFiller_cons {c : Char} (hc : isSolid c = Bool.true) (cs : List Char) :
    skipFiller Bool.false (c :: cs) = some (c :: cs) := by
  simp only [isSolid, Bool.not_eq_true', Bool.or_eq_false_iff, beq_eq_false_iff_ne] at hc
  obtain ⟨⟨⟨hblank, hnewline⟩, hreturn⟩, hcomment⟩ := hc
  simp [skipFiller, hblank, hnewline, hreturn, hcomment]

/-! ## Strings -/

def hexDigit (c : Char) : Option Nat :=
  if c.isDigit then some (c.toNat - '0'.toNat)
  else if 'a' ≤ c ∧ c ≤ 'f' then some (c.toNat - 'a'.toNat + 10)
  else if 'A' ≤ c ∧ c ≤ 'F' then some (c.toNat - 'A'.toNat + 10)
  else none

def hexValue (digits : List Char) : Option Nat :=
  digits.foldlM (fun n c => (hexDigit c).map (n * 16 + ·)) 0

/-- A Unicode scalar value. -/
def hexChar (digits : List Char) : Option Char := do
  let n ← hexValue digits
  if n.isValidChar then return Char.ofNat n else none

def unescape : Char → Option Char
  | 'b' => some '\x08'
  | 't' => some '\t'
  | 'n' => some '\n'
  | 'f' => some '\x0c'
  | 'r' => some '\r'
  | '"' => some '"'
  | '\\' => some '\\'
  | _ => none

def prepend (c : Char) (r : List Char × List Char) : List Char × List Char := (c :: r.1, r.2)

/-- The rest of a basic string, up to its closing quote. -/
def readBasic : List Char → Option (List Char × List Char)
  | [] => none
  | '"' :: cs => some ([], cs)
  | '\\' :: 'u' :: a :: b :: c :: d :: cs => do
    let x ← hexChar [a, b, c, d]
    (readBasic cs).map (prepend x)
  | '\\' :: 'U' :: a :: b :: c :: d :: e :: f :: g :: h :: cs => do
    let x ← hexChar [a, b, c, d, e, f, g, h]
    (readBasic cs).map (prepend x)
  | '\\' :: c :: cs => do
    let x ← unescape c
    (readBasic cs).map (prepend x)
  | c :: cs => if isControl c then none else (readBasic cs).map (prepend c)

theorem readBasic_quote (cs : List Char) : readBasic ('"' :: cs) = some ([], cs) := by rw [readBasic]

theorem readBasic_char {c : Char} (hquote : c ≠ '"') (hbackslash : c ≠ '\\') (cs : List Char) :
    readBasic (c :: cs) = if isControl c then none else (readBasic cs).map (prepend c) := by
  rw [readBasic]
  · exact hquote
  · exact fun _ _ _ _ _ h => absurd h hbackslash
  · exact fun _ _ _ _ _ _ _ _ _ h => absurd h hbackslash
  · exact fun _ _ h => absurd h hbackslash

theorem readBasic_escape {c x : Char} (h : unescape c = some x) (cs : List Char) :
    readBasic ('\\' :: c :: cs) = (readBasic cs).map (prepend x) := by
  rw [readBasic, h]
  · rfl
  · rintro a b c d cs rfl
    cases h
  · rintro a b c d e f g h' cs rfl
    cases h

def readLiteral (cs : List Char) : Option (List Char × List Char) :=
  match cs.span fun c => c != '\'' && !isControl c with
  | (s, '\'' :: rest) => some (s, rest)
  | _ => none

/-- A new line directly behind the opening quotes is not part of the string. -/
def trimNewline (cs : List Char) : List Char := (readNewline cs).getD cs

def startsLine (cs : List Char) : Bool := (readNewline cs).isSome

/-- The rest of a basic string of several lines; white space is dropped behind a backslash that ends a line. -/
def readBasicLines : Bool → List Char → Option (List Char × List Char)
  | _, [] => none
  | _, '"' :: '"' :: '"' :: '"' :: '"' :: cs => some (['"', '"'], cs)
  | _, '"' :: '"' :: '"' :: '"' :: cs => some (['"'], cs)
  | _, '"' :: '"' :: '"' :: cs => some ([], cs)
  | _, '\\' :: 'u' :: a :: b :: c :: d :: cs => do
    let x ← hexChar [a, b, c, d]
    (readBasicLines Bool.false cs).map (prepend x)
  | _, '\\' :: 'U' :: a :: b :: c :: d :: e :: f :: g :: h :: cs => do
    let x ← hexChar [a, b, c, d, e, f, g, h]
    (readBasicLines Bool.false cs).map (prepend x)
  | _, '\\' :: c :: cs =>
    if startsLine (skipBlank (c :: cs)) then readBasicLines Bool.true cs
    else do
      let x ← unescape c
      (readBasicLines Bool.false cs).map (prepend x)
  | trim, c :: cs =>
    if trim && (isBlank c || startsLine (c :: cs)) then readBasicLines Bool.true cs
    else if isControl c && !startsLine (c :: cs) then none
    else (readBasicLines Bool.false cs).map (prepend c)

def readLiteralLines : List Char → Option (List Char × List Char)
  | [] => none
  | '\'' :: '\'' :: '\'' :: '\'' :: '\'' :: cs => some (['\'', '\''], cs)
  | '\'' :: '\'' :: '\'' :: '\'' :: cs => some (['\''], cs)
  | '\'' :: '\'' :: '\'' :: cs => some ([], cs)
  | c :: cs => if isControl c && !startsLine (c :: cs) then none else (readLiteralLines cs).map (prepend c)

def readString : List Char → Option (List Char × List Char)
  | '"' :: '"' :: '"' :: cs => readBasicLines Bool.false (trimNewline cs)
  | '"' :: cs => readBasic cs
  | '\'' :: '\'' :: '\'' :: cs => readLiteralLines (trimNewline cs)
  | '\'' :: cs => readLiteral cs
  | _ => none

/-! ## Numbers, truth values, dates and times -/

/-- Letters of a scalar that is no string. -/
def isWordChar (c : Char) : Bool := c.isAlphanum || c ∈ ['+', '-', '_', '.', ':']

/-- Digits with single underscores between them. -/
def digitRun (isDigit : Char → Bool) : List Char → Option (List Char)
  | [] => none
  | [c] => if isDigit c then some [c] else none
  | c :: '_' :: cs => if isDigit c then (digitRun isDigit cs).map (c :: ·) else none
  | c :: cs => if isDigit c then (digitRun isDigit cs).map (c :: ·) else none

def dropSign : List Char → List Char
  | '+' :: cs => cs
  | '-' :: cs => cs
  | cs => cs

/-- Without leading zeros. -/
def decimal (cs : List Char) : Option Nat := do
  let digits ← digitRun Char.isDigit cs
  if digits.head? = some '0' ∧ digits ≠ ['0'] then none else return Nat.ofDigitChars 10 digits 0

def readInteger : List Char → Option Int
  | '0' :: 'x' :: cs => do
    let digits ← digitRun (fun c => (hexDigit c).isSome) cs
    return (← hexValue digits : Nat)
  | '0' :: 'o' :: cs => do
    let digits ← digitRun (fun c => '0' ≤ c && c ≤ '7') cs
    return (Nat.ofDigitChars 8 digits 0 : Nat)
  | '0' :: 'b' :: cs => do
    let digits ← digitRun (fun c => c == '0' || c == '1') cs
    return (Nat.ofDigitChars 2 digits 0 : Nat)
  | '-' :: cs => (decimal cs).map fun n => -(n : Int)
  | cs => (decimal (dropSign cs)).map fun n => (n : Int)

def isExponent : List Char → Bool
  | c :: cs => (c == 'e' || c == 'E') && (digitRun Char.isDigit (dropSign cs)).isSome
  | [] => Bool.false

def isFloat (word : List Char) : Bool :=
  let body := dropSign word
  let isDigits := fun c : Char => c.isDigit || c == '_'
  let fraction := body.dropWhile isDigits
  body == ['i', 'n', 'f'] || body == ['n', 'a', 'n'] || (decimal (body.takeWhile isDigits)).isSome &&
    match fraction with
    | '.' :: cs =>
      (digitRun Char.isDigit (cs.takeWhile isDigits)).isSome &&
        (cs.dropWhile isDigits == [] || isExponent (cs.dropWhile isDigits))
    | cs => isExponent cs

def isNumberBetween (low high : Nat) (digits : List Char) : Bool :=
  digits.all Char.isDigit && low ≤ Nat.ofDigitChars 10 digits 0 && Nat.ofDigitChars 10 digits 0 ≤ high

def daysIn (year month : Nat) : Nat :=
  if month = 2 then if year % 4 = 0 ∧ (year % 100 ≠ 0 ∨ year % 400 = 0) then 29 else 28
  else if month ∈ [4, 6, 9, 11] then 30
  else 31

def isDate : List Char → Bool
  | [y₁, y₂, y₃, y₄, '-', m₁, m₂, '-', d₁, d₂] =>
    [y₁, y₂, y₃, y₄].all Char.isDigit && isNumberBetween 1 12 [m₁, m₂] &&
      isNumberBetween 1 (daysIn (Nat.ofDigitChars 10 [y₁, y₂, y₃, y₄] 0) (Nat.ofDigitChars 10 [m₁, m₂] 0)) [d₁, d₂]
  | _ => Bool.false

/-- What follows the seconds, with or without an offset. -/
def isTimeEnd (offset : Bool) (cs : List Char) : Bool :=
  match cs with
  | [] => Bool.true
  | [c] => offset && (c == 'Z' || c == 'z')
  | [sign, h₁, h₂, ':', m₁, m₂] =>
    offset && (sign == '+' || sign == '-') && isNumberBetween 0 23 [h₁, h₂] && isNumberBetween 0 59 [m₁, m₂]
  | _ => Bool.false

def isTime (offset : Bool) : List Char → Bool
  | h₁ :: h₂ :: ':' :: m₁ :: m₂ :: ':' :: s₁ :: s₂ :: cs =>
    isNumberBetween 0 23 [h₁, h₂] && isNumberBetween 0 59 [m₁, m₂] && isNumberBetween 0 60 [s₁, s₂] &&
      match cs with
      | '.' :: c :: cs => c.isDigit && isTimeEnd offset (cs.dropWhile Char.isDigit)
      | cs => isTimeEnd offset cs
  | _ => Bool.false

def isDateTime (word : List Char) : Bool :=
  isDate word || isTime Bool.false word || isDate (word.take 10) &&
    match word.drop 10 with
    | c :: cs => (c == 'T' || c == 't') && isTime Bool.true cs
    | [] => Bool.false

def ofWord (cs : List Char) : Option Toml :=
  if cs = ['t', 'r', 'u', 'e'] then some (.boolean Bool.true)
  else if cs = ['f', 'a', 'l', 's', 'e'] then some (.boolean Bool.false)
  else if let some n := readInteger cs then some (.integer n)
  else if isFloat cs then some (.float (String.ofList cs))
  else if isDateTime cs then some (.dateTime (String.ofList cs))
  else none

/-- A date and a time may have one space between them. -/
def readWord (cs : List Char) : Option (Toml × List Char) :=
  let (letters, rest) := cs.span isWordChar
  match rest with
  | ' ' :: rest' =>
    let (time, rest'') := rest'.span isWordChar
    if isDate letters && isTime Bool.true time then
      some (.dateTime (String.ofList (letters ++ ' ' :: time)), rest'')
    else (ofWord letters).map fun v => (v, rest)
  | _ => (ofWord letters).map fun v => (v, rest)

/-! ## Keys -/

def isBare (c : Char) : Bool := c.isAlphanum || c == '_' || c == '-'

def readSimpleKey (cs : List Char) : Option (String × List Char) :=
  match cs with
  | '"' :: cs => (readBasic cs).map fun r => (String.ofList r.1, r.2)
  | '\'' :: cs => (readLiteral cs).map fun r => (String.ofList r.1, r.2)
  | cs => if cs.takeWhile isBare = [] then none else some (String.ofList (cs.takeWhile isBare), cs.dropWhile isBare)

/-- A key and the white space behind it. -/
def readKey : Nat → List Char → Option (List String × List Char)
  | 0, _ => none
  | fuel + 1, cs => do
    let (key, cs) ← readSimpleKey cs
    match skipBlank cs with
    | '.' :: cs => (readKey fuel (skipBlank cs)).map fun r => (key :: r.1, r.2)
    | cs => some ([key], cs)

theorem readSimpleKey_cons {c : Char} (hquote : c ≠ '"') (happostrophe : c ≠ '\'') (cs : List Char) :
    readSimpleKey (c :: cs) =
      if isBare c then some (String.ofList ((c :: cs).takeWhile isBare), (c :: cs).dropWhile isBare) else none := by
  rw [readSimpleKey]
  · by_cases hc : isBare c
    · rw [if_neg (by simp [hc]), if_pos hc]
    · rw [if_pos (by simp [hc]), if_neg hc]
  · exact fun _ h => hquote (List.cons.inj h).1
  · exact fun _ h => happostrophe (List.cons.inj h).1

theorem readSimpleKey_bare {key rest : List Char} (hne : key ≠ []) (hbare : ∀ c ∈ key, isBare c = Bool.true)
    (hrest : StopsAt isBare rest) : readSimpleKey (key ++ rest) = some (String.ofList key, rest) := by
  cases key with
  | nil => exact absurd rfl hne
  | cons c key =>
    have hc := hbare c List.mem_cons_self
    have hquote : c ≠ '"' := by
      rintro rfl
      cases hc
    have happostrophe : c ≠ '\'' := by
      rintro rfl
      cases hc
    rw [List.cons_append, readSimpleKey_cons hquote happostrophe, if_pos hc, ← List.cons_append,
      takeWhile_append hbare hrest, dropWhile_append hbare hrest]

/-! ## Words -/

theorem mem_tail_of_isDate {cs : List Char} (h : isDate cs = Bool.true) : '-' ∈ cs.tail := by
  unfold isDate at h
  split at h
  · simp
  · cases h

theorem readWord_append {letters rest : List Char} (hword : ∀ c ∈ letters, isWordChar c = Bool.true)
    (hdate : '-' ∉ letters.tail) (hrest : StopsAt isWordChar rest) :
    readWord (letters ++ rest) = (ofWord letters).map fun v => (v, rest) := by
  have hnot : isDate letters = Bool.false := by
    cases h : isDate letters with
    | true => exact absurd (mem_tail_of_isDate h) hdate
    | false => rfl
  rw [readWord, List.span_eq_takeWhile_dropWhile, takeWhile_append hword hrest, dropWhile_append hword hrest]
  simp only [hnot, Bool.false_and, Bool.false_eq_true, if_false]
  split <;> rfl

theorem digitRun_of_digits {digits : List Char} (hne : digits ≠ []) (h : ∀ c ∈ digits, c.isDigit = Bool.true) :
    digitRun Char.isDigit digits = some digits := by
  induction digits with
  | nil => exact absurd rfl hne
  | cons c digits ih =>
    obtain ⟨hc, hdigits⟩ := List.forall_mem_cons.mp h
    cases digits with
    | nil => rw [digitRun, if_pos hc]
    | cons d digits =>
      have hunderscore : d ≠ '_' := by
        rintro rfl
        exact absurd (hdigits '_' List.mem_cons_self) (by decide)
      rw [digitRun, if_pos hc, ih (List.cons_ne_nil _ _) hdigits]
      · rfl
      · exact List.cons_ne_nil _ _
      · exact fun _ heq => hunderscore (List.cons.inj heq).1

theorem isDigit_toDigits (n : Nat) : ∀ c ∈ Nat.toDigits 10 n, c.isDigit = Bool.true :=
  fun _ hc => Nat.isDigit_of_mem_toDigits (by decide) (by decide) hc

theorem head_toDigits {n : Nat} (h : 0 < n) : (Nat.toDigits 10 n).head? ≠ some '0' := by
  induction n using Nat.strongRecOn with
  | ind n ih =>
    rw [Nat.toDigits_eq_if (by decide)]
    split
    · have hall : ∀ d : Fin 10, 0 < d.val → Nat.digitChar d ≠ '0' := by decide
      exact fun heq => hall ⟨n, ‹_›⟩ h (Option.some.inj heq)
    · obtain ⟨c, cs, hcs⟩ := List.exists_cons_of_ne_nil (Nat.toDigits_ne_nil (n := n / 10) (b := 10))
      have hhead := ih (n / 10) (Nat.div_lt_self h (by decide)) (by omega)
      rw [hcs] at hhead ⊢
      exact hhead

theorem decimal_toDigits (n : Nat) : decimal (Nat.toDigits 10 n) = some n := by
  have hlead : ¬ ((Nat.toDigits 10 n).head? = some '0' ∧ Nat.toDigits 10 n ≠ ['0']) := by
    rintro ⟨hhead, hne⟩
    cases n with
    | zero => exact hne rfl
    | succ n => exact head_toDigits n.succ_pos hhead
  rw [decimal, digitRun_of_digits Nat.toDigits_ne_nil (isDigit_toDigits n)]
  simp only [Option.bind_eq_bind, Option.bind_some]
  rw [if_neg hlead, Nat.ofDigitChars_ten_toDigits]
  rfl

theorem readInteger_toDigits (n : Nat) : readInteger (Nat.toDigits 10 n) = some (n : Int) := by
  have hdigit := isDigit_toDigits n
  have hdecimal := decimal_toDigits n
  have hne : ∀ c : Char, c.isDigit = Bool.false → c ∉ Nat.toDigits 10 n := by
    intro c hc hmem
    rw [hdigit c hmem] at hc
    cases hc
  unfold readInteger
  split
  · rename_i heq
    exact absurd (heq ▸ List.mem_cons_of_mem _ List.mem_cons_self) (hne 'x' rfl)
  · rename_i heq
    exact absurd (heq ▸ List.mem_cons_of_mem _ List.mem_cons_self) (hne 'o' rfl)
  · rename_i heq
    exact absurd (heq ▸ List.mem_cons_of_mem _ List.mem_cons_self) (hne 'b' rfl)
  · rename_i heq
    exact absurd (heq ▸ List.mem_cons_self) (hne '-' rfl)
  · have hsign : dropSign (Nat.toDigits 10 n) = Nat.toDigits 10 n := by
      unfold dropSign
      split
      · rename_i heq
        exact absurd (heq ▸ List.mem_cons_self) (hne '+' rfl)
      · rename_i heq
        exact absurd (heq ▸ List.mem_cons_self) (hne '-' rfl)
      · rfl
    rw [hsign, hdecimal]
    rfl

theorem readInteger_neg (n : Nat) : readInteger ('-' :: Nat.toDigits 10 n) = some (-(n : Int)) := by
  rw [readInteger, decimal_toDigits]
  rfl

theorem toList_toString_nat (n : Nat) : (toString n).toList = Nat.toDigits 10 n := by
  rw [Nat.toString_eq_repr, Nat.repr, String.toList_ofList]

theorem ofWord_of_readInteger {letters : List Char} {n : Int} (hn : readInteger letters = some n)
    (htrue : letters.head? ≠ some 't') (hfalse : letters.head? ≠ some 'f') : ofWord letters = some (.integer n) := by
  rw [ofWord, if_neg, if_neg]
  · simp only [hn]
  · rintro rfl
    exact hfalse rfl
  · rintro rfl
    exact htrue rfl

theorem isWordChar_of_isDigit {c : Char} (h : c.isDigit = Bool.true) : isWordChar c = Bool.true := by
  simp [isWordChar, Char.isAlphanum, h]

/-- The decimal digits of an integer are read as the integer. -/
theorem readWord_int (n : Int) {rest : List Char} (hrest : StopsAt isWordChar rest) :
    readWord ((toString n).toList ++ rest) = some (.integer n, rest) := by
  have hdigit := isDigit_toDigits
  have hword : ∀ m : Nat, ∀ c ∈ Nat.toDigits 10 m, isWordChar c = Bool.true := fun m c hc =>
    isWordChar_of_isDigit (hdigit m c hc)
  have hminus : ∀ m : Nat, '-' ∉ Nat.toDigits 10 m := fun m hc => absurd (hdigit m _ hc) (by decide)
  have hhead : ∀ (m : Nat) (c : Char), c.isDigit = Bool.false → (Nat.toDigits 10 m).head? ≠ some c := by
    intro m c hc h
    rw [hdigit m c (List.mem_of_mem_head? h)] at hc
    cases hc
  cases n with
  | ofNat n =>
    have htext : (toString (Int.ofNat n)).toList = Nat.toDigits 10 n := toList_toString_nat n
    rw [htext, readWord_append (hword n) (fun hc => hminus n (List.mem_of_mem_tail hc)) hrest,
      ofWord_of_readInteger (readInteger_toDigits n) (hhead n 't' rfl) (hhead n 'f' rfl)]
    rfl
  | negSucc n =>
    have htext : (toString (Int.negSucc n)).toList = '-' :: Nat.toDigits 10 (n + 1) := by
      rw [← toList_toString_nat]
      exact String.toList_append
    rw [htext, readWord_append (List.forall_mem_cons.mpr ⟨rfl, hword (n + 1)⟩) (hminus (n + 1)) hrest,
      ofWord_of_readInteger (readInteger_neg (n + 1)) (by simp) (by simp)]
    rfl

theorem readWord_bool (b : Bool) {rest : List Char} (hrest : StopsAt isWordChar rest) :
    readWord ((toString b).toList ++ rest) = some (.boolean b, rest) := by
  cases b with
  | true =>
    have htext : (toString Bool.true).toList = ['t', 'r', 'u', 'e'] := rfl
    rw [htext, readWord_append (List.all_eq_true.mp rfl) (by decide) hrest]
    rfl
  | false =>
    have htext : (toString Bool.false).toList = ['f', 'a', 'l', 's', 'e'] := rfl
    rw [htext, readWord_append (List.all_eq_true.mp rfl) (by decide) hrest]
    rfl

end Toml

end Dllb
