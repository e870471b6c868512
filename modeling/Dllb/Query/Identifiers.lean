import Mathlib
import Dllb.Query.ParserRoundTrip

/-! # Identifiers are words

An identifier among the tokens of a text is made of letters, digits and
underscores, whatever the text.
-/

namespace Dllb

set_option autoImplicit false

open Dllb.Parser

/-! ## Tokens -/

theorem wordToken_eq_ident {word : List Char} {s : String} (h : wordToken word = .ident s) :
    s = String.ofList word := by
  unfold wordToken at h
  split at h <;> cases h
  rfl

theorem symbolToken_ne_ident {c : Char} (s : String) : symbolToken c ≠ some (.ident s) := by
  unfold symbolToken
  split <;> simp

theorem scanNumber_ne_ident {negative : Bool} {chars rest : List Char} (s : String) :
    scanNumber negative chars ≠ .ok (.ident s, rest) := by
  unfold scanNumber
  dsimp only
  split
  · split <;> simp
  · simp

theorem scanWord_ident {c : Char} {rest tail : List Char} {s : String} (h : scanWord c rest = .ok (.ident s, tail)) :
    ∀ d ∈ s.toList, isWordChar d = Bool.true := by
  unfold scanWord at h
  split at h
  · split at h <;> cases h
  split at h
  · exact absurd h (scanNumber_ne_ident s)
  split at h
  · exact absurd h (scanNumber_ne_ident s)
  split at h
  · rw [List.span_eq_takeWhile_dropWhile] at h
    obtain ⟨hToken, -⟩ := Prod.mk.inj (Except.ok.inj h)
    rw [wordToken_eq_ident hToken, String.toList_ofList]
    exact fun d hd => List.mem_takeWhile_imp hd
  · cases h

theorem scanOne_ident {c : Char} {rest tail : List Char} {s : String}
    (h : scanOne c rest = .ok (some (.ident s), tail)) : ∀ d ∈ s.toList, isWordChar d = Bool.true := by
  unfold scanOne at h
  dsimp only at h
  iterate 7 (split at h; · cases h)
  split at h
  next token hSymbol =>
    cases h
    exact absurd hSymbol (symbolToken_ne_ident s)
  next =>
    cases hWord : scanWord c rest with
    | error e =>
      rw [hWord] at h
      cases h
    | ok r =>
      obtain ⟨token, rest'⟩ := r
      rw [hWord] at h
      cases h
      exact scanWord_ident hWord

theorem scan_cons_eq_ok {n : Nat} {c : Char} {rest : List Char} {tokens : List Token}
    (h : scan (n + 1) (c :: rest) = .ok tokens) :
    ∃ token tail tokens', scanOne c rest = .ok (token, tail) ∧ scan n tail = .ok tokens' ∧
      tokens = token.toList ++ tokens' := by
  rw [scan] at h
  cases hOne : scanOne c rest with
  | error e =>
    rw [hOne] at h
    cases h
  | ok r =>
    obtain ⟨token, tail⟩ := r
    rw [hOne] at h
    change (scan n tail >>= fun tokens => pure (token.toList ++ tokens)) = _ at h
    cases hScan : scan n tail with
    | error e =>
      rw [hScan] at h
      cases h
    | ok tokens' =>
      rw [hScan] at h
      cases h
      exact ⟨token, tail, tokens', rfl, hScan, rfl⟩

theorem scan_ident {n : Nat} {chars : List Char} {tokens : List Token} (h : scan n chars = .ok tokens) {s : String}
    (hs : .ident s ∈ tokens) : ∀ d ∈ s.toList, isWordChar d = Bool.true := by
  induction n generalizing chars tokens with
  | zero => cases chars <;> cases h <;> cases hs
  | succ n ih =>
    cases chars with
    | nil =>
      cases h
      cases hs
    | cons c rest =>
      obtain ⟨token, tail, tokens', hOne, hScan, rfl⟩ := scan_cons_eq_ok h
      obtain hs | hs := List.mem_append.mp hs
      · rw [Option.mem_toList] at hs
        cases hs
        exact scanOne_ident hOne
      · exact ih hScan hs

theorem tokenize_ident {input : String} {tokens : List Token} (h : tokenize input = .ok tokens) {s : String}
    (hs : .ident s ∈ tokens) : ∀ d ∈ s.toList, isWordChar d = Bool.true :=
  scan_ident h hs

/-! ## Words in front -/

/-- A token that is written out in front, with a blank behind it, is the first of the tokens. -/
theorem scan_spelled {token : Token} {word rest : List Char} {tokens : List Token} {n : Nat} (hWord : Spelled token word)
    (hLength : (word ++ ' ' :: rest).length ≤ n) (h : scan n (word ++ ' ' :: rest) = .ok tokens) :
    ∃ m ts, rest.length ≤ m ∧ scan m rest = .ok ts ∧ tokens = token :: ts := by
  have hStops : Stops token.continues (' ' :: rest) := by
    rintro c hc
    cases hc
    exact token.continues_of_isWhitespace rfl
  obtain ⟨c, w, rfl, hOne⟩ := hWord.scanOne hStops
  simp only [List.cons_append, List.length_cons, List.length_append] at hLength
  obtain ⟨m, rfl⟩ : ∃ m, n = m + 2 := ⟨n - 2, by omega⟩
  obtain ⟨_, _, tokens', hOne', hScan, rfl⟩ := scan_cons_eq_ok h
  change scanOne c (w ++ ' ' :: rest) = _ at hOne'
  cases hOne.symm.trans hOne'
  obtain ⟨_, _, ts, hBlank, hScan, rfl⟩ := scan_cons_eq_ok hScan
  cases hBlank
  exact ⟨m, ts, by omega, hScan, rfl⟩

theorem toList_append_blank (word text : String) :
    (word ++ " " ++ text).toList = word.toList ++ ' ' :: text.toList := by
  have hBlank : " ".toList = [' '] := by decide
  rw [String.toList_append, String.toList_append, hBlank, List.append_assoc, List.singleton_append]

theorem tokenize_keyword (token : Token) (word : String) {text : String} {tokens : List Token}
    (hWord : token.grammarText = some word) (h : tokenize (word ++ " " ++ text) = .ok tokens) :
    ∃ ts, tokens = token :: ts := by
  rw [tokenize, toList_append_blank] at h
  obtain ⟨_, ts, -, -, rfl⟩ := scan_spelled (.grammar hWord) le_rfl h
  exact ⟨ts, rfl⟩

/-! ## Parsers of identifiers -/

section

variable [Debug]

theorem expectIdent_eq_ok {ts rest : List Token} {s : String} (h : expectIdent ts = .ok (s, rest)) :
    ts = .ident s :: rest := by
  cases ts with
  | nil => cases h
  | cons t ts => cases t <;> cases h; rfl

theorem parseTokens_eq_ok {tokens : List Token} {q : Query} (h : parseTokens tokens = .ok q) :
    ∃ rest, parseQuery tokens = .ok (q, rest) := by
  cases hQuery : parseQuery tokens with
  | error e =>
    rw [parseTokens, hQuery] at h
    cases h
  | ok r =>
    obtain ⟨q', rest⟩ := r
    rw [parseTokens, hQuery] at h
    dsimp only [bind, Except.bind] at h
    split at h
    · cases h
    · cases h
      exact ⟨rest, rfl⟩

end

end Dllb
