import Mathlib
import Dllb.Lib.Json
import Dllb.Query.ParserRoundTrip
import Dllb.Query.Reads

/-! # Errors as JSON

The text of an error is put between quotes with its own quotes escaped. A
backslash or a control character in it is left as it is.
-/

namespace Dllb

set_option autoImplicit false

def escapeQuotes (msg : List Char) : List Char := msg.flatMap fun d => if d = '"' then ['\\', '"'] else [d]

/-- The end of an error: its closing quote and brace. -/
def errorTail : List Char := ['"', '}']

/-- Without what JSON wants escaped, quotes apart. -/
def Unescaped (msg : List Char) : Prop := ∀ c ∈ msg, c ≠ '\\' ∧ 0x20 ≤ c.toNat

@[simp] theorem escapeQuotes_nil : escapeQuotes [] = [] := rfl

@[simp] theorem escapeQuotes_quote (msg : List Char) :
    escapeQuotes ('"' :: msg) = '\\' :: '"' :: escapeQuotes msg := rfl

theorem escapeQuotes_char {c : Char} (hc : c ≠ '"') (msg : List Char) :
    escapeQuotes (c :: msg) = c :: escapeQuotes msg := by
  rw [escapeQuotes, List.flatMap_cons, if_neg hc]
  rfl

/-- A letter of the text that is no quote and no backslash is a letter of the message. -/
theorem eq_cons_of_escapeQuotes {msg cs : List Char} {c : Char} (hquote : c ≠ '"') (hbackslash : c ≠ '\\')
    (h : escapeQuotes msg ++ errorTail = c :: cs) :
    ∃ msg', msg = c :: msg' ∧ cs = escapeQuotes msg' ++ errorTail := by
  cases msg with
  | nil =>
    obtain ⟨hc, -⟩ := List.cons.inj h
    exact absurd hc.symm hquote
  | cons d msg =>
    by_cases hd : d = '"'
    · subst hd
      obtain ⟨hc, -⟩ := List.cons.inj h
      exact absurd hc.symm hbackslash
    · rw [escapeQuotes_char hd, List.cons_append] at h
      obtain ⟨rfl, rfl⟩ := List.cons.inj h
      exact ⟨msg, rfl, rfl⟩

/-- A backslash in front of something else than a quote is a backslash of the message. -/
theorem eq_cons_of_escapeQuotes_backslash {msg cs : List Char} {c : Char} (hquote : c ≠ '"')
    (h : escapeQuotes msg ++ errorTail = '\\' :: c :: cs) :
    ∃ msg', msg = '\\' :: msg' ∧ c :: cs = escapeQuotes msg' ++ errorTail := by
  cases msg with
  | nil => cases h
  | cons d msg =>
    by_cases hd : d = '"'
    · subst hd
      cases h
      exact absurd rfl hquote
    · rw [escapeQuotes_char hd, List.cons_append] at h
      obtain ⟨rfl, hcs⟩ := List.cons.inj h
      exact ⟨msg, rfl, hcs.symm⟩

theorem eq_cons_of_escapeQuotes_hexDigit {msg cs : List Char} {c : Char} (hc : Json.hexDigit c ≠ none)
    (h : escapeQuotes msg ++ errorTail = c :: cs) :
    ∃ msg', msg = c :: msg' ∧ cs = escapeQuotes msg' ++ errorTail := by
  refine eq_cons_of_escapeQuotes ?_ ?_ h
  · rintro rfl
    exact hc (by decide)
  · rintro rfl
    exact hc (by decide)

/-- The letters of a code unit are letters of the message. -/
theorem eq_append_of_escapeQuotes_codeUnit {msg cs : List Char} {a b c d : Char} {n : Nat}
    (hn : Json.codeUnit a b c d = some n) (h : escapeQuotes msg ++ errorTail = 'u' :: a :: b :: c :: d :: cs) :
    ∃ msg', msg = ['u', a, b, c, d] ++ msg' ∧ cs = escapeQuotes msg' ++ errorTail := by
  have hdigits := Json.hexDigit_of_codeUnit hn
  obtain ⟨m₁, rfl, h₁⟩ := eq_cons_of_escapeQuotes (by decide) (by decide) h
  obtain ⟨m₂, rfl, h₂⟩ := eq_cons_of_escapeQuotes_hexDigit (hdigits a (by simp)) h₁.symm
  obtain ⟨m₃, rfl, h₃⟩ := eq_cons_of_escapeQuotes_hexDigit (hdigits b (by simp)) h₂.symm
  obtain ⟨m₄, rfl, h₄⟩ := eq_cons_of_escapeQuotes_hexDigit (hdigits c (by simp)) h₃.symm
  obtain ⟨m₅, rfl, h₅⟩ := eq_cons_of_escapeQuotes_hexDigit (hdigits d (by simp)) h₄.symm
  exact ⟨m₅, rfl, h₅⟩

/-! ## Reading a message -/

theorem readString_escapedQuote (cs : List Char) :
    Json.readString ('\\' :: '"' :: cs) = (Json.readString cs).map fun r => ('"' :: r.1, r.2) := by
  rw [Json.readString]
  · cases Json.readString cs <;> rfl
  · exact fun _ _ _ _ _ h => absurd h (by decide)

theorem readString_escapeQuotes {msg : List Char} (h : Unescaped msg) (rest : List Char) :
    Json.readString (escapeQuotes msg ++ '"' :: rest) = some (msg, rest) := by
  induction msg with
  | nil => exact Json.readString_quote rest
  | cons c msg ih =>
    obtain ⟨⟨hbackslash, hcontrol⟩, hmsg⟩ := List.forall_mem_cons.mp h
    by_cases hc : c = '"'
    · subst hc
      rw [escapeQuotes_quote, List.cons_append, List.cons_append, readString_escapedQuote, ih hmsg]
      rfl
    · rw [escapeQuotes_char hc, List.cons_append, Json.readString_char hc hbackslash, if_neg (by omega), ih hmsg]
      rfl

/-- What a message can be read as: it is as long only if nothing in it wanted escaping, and after a quote that
closes too early the rest of it follows. -/
structure ReadAs (msg s rest : List Char) : Prop where
  length_le : s.length ≤ msg.length
  unescaped : s.length = msg.length → Unescaped msg
  ends : rest = ['}'] ∨ ∃ msg', rest = escapeQuotes msg' ++ errorTail

theorem ReadAs.cons {msg s rest : List Char} (h : ReadAs msg s rest) {c : Char} (hbackslash : c ≠ '\\')
    (hcontrol : 0x20 ≤ c.toNat) (d : Char) : ReadAs (c :: msg) (d :: s) rest := by
  refine ⟨Nat.succ_le_succ h.length_le, fun hlength => ?_, h.ends⟩
  exact List.forall_mem_cons.mpr ⟨⟨hbackslash, hcontrol⟩, h.unescaped (Nat.succ_injective hlength)⟩

/-- One letter is read from several. -/
theorem ReadAs.escape (letters : List Char) (hletters : 1 < letters.length) {msg s rest : List Char}
    (h : ReadAs msg s rest) (d : Char) : ReadAs (letters ++ msg) (d :: s) rest := by
  have hle := h.length_le
  refine ⟨?_, fun hlength => ?_, h.ends⟩
  · rw [List.length_cons, List.length_append]
    omega
  · rw [List.length_cons, List.length_append] at hlength
    omega

theorem readAs_backslash {msg s rest : List Char}
    (ih : ∀ msg' s rest, msg'.length ≤ msg.length →
      Json.readString (escapeQuotes msg' ++ errorTail) = some (s, rest) → ReadAs msg' s rest)
    (h : Json.readString ('\\' :: (escapeQuotes msg ++ errorTail)) = some (s, rest)) :
    ReadAs ('\\' :: msg) s rest := by
  rcases Json.readString_backslash h with
    ⟨c, cs, d, s', hcs, hd, hs, rfl⟩ | ⟨a, b, c, d, cs, n, x, s', hcs, hn, hs, rfl⟩ |
      ⟨a, b, c, d, e, f, g, k, cs, n, m, x, s', hcs, hn, hm, hs, rfl⟩
  · cases msg with
    | nil =>
      cases hcs
      cases hs
    | cons c' msg =>
      by_cases hquote : c' = '"'
      · -- the backslash of the message takes the one of the quote
        subst hquote
        cases hcs
        cases hs
        exact ⟨by simp, fun hlength => by simp at hlength, .inr ⟨msg, rfl⟩⟩
      · rw [escapeQuotes_char hquote, List.cons_append] at hcs
        obtain ⟨rfl, rfl⟩ := List.cons.inj hcs
        exact (ih msg s' rest (Nat.le_succ _) hs).escape ['\\', c'] (by simp) d
  · obtain ⟨msg', rfl, rfl⟩ := eq_append_of_escapeQuotes_codeUnit hn hcs
    exact (ih msg' s' rest (by simp; omega) hs).escape ['\\', 'u', a, b, c, d] (by simp) x
  · obtain ⟨msg', rfl, h₁⟩ := eq_append_of_escapeQuotes_codeUnit hn hcs
    obtain ⟨msg'', rfl, h₂⟩ := eq_cons_of_escapeQuotes_backslash (by decide) h₁.symm
    obtain ⟨msg', rfl, rfl⟩ := eq_append_of_escapeQuotes_codeUnit hm h₂.symm
    exact (ih msg' s' rest (by simp; omega) hs).escape ['\\', 'u', a, b, c, d, '\\', 'u', e, f, g, k] (by simp) x

theorem readAs_of_readString {msg s rest : List Char}
    (h : Json.readString (escapeQuotes msg ++ errorTail) = some (s, rest)) : ReadAs msg s rest := by
  induction hn : msg.length using Nat.strong_induction_on generalizing msg s rest with
  | _ n ih =>
    subst hn
    cases msg with
    | nil =>
      cases h
      exact ⟨le_rfl, fun _ => List.forall_mem_nil _, .inl rfl⟩
    | cons c msg =>
      by_cases hquote : c = '"'
      · subst hquote
        rw [escapeQuotes_quote, List.cons_append, List.cons_append, readString_escapedQuote] at h
        obtain ⟨⟨s', rest'⟩, hs, heq⟩ := Option.map_eq_some_iff.mp h
        cases heq
        exact (ih _ (Nat.lt_succ_self _) hs rfl).cons (by decide) (by decide) _
      rw [escapeQuotes_char hquote, List.cons_append] at h
      by_cases hbackslash : c = '\\'
      · subst hbackslash
        exact readAs_backslash (fun msg' s rest hle hs => ih _ (Nat.lt_succ_of_le hle) hs rfl) h
      · rw [Json.readString_char hquote hbackslash] at h
        split at h
        · cases h
        · rename_i hcontrol
          obtain ⟨⟨s', rest'⟩, hs, heq⟩ := Option.map_eq_some_iff.mp h
          cases heq
          exact (ih _ (Nat.lt_succ_self _) hs rfl).cons hbackslash (by omega) _

/-! ## Reading an error -/

section

variable [Texts]

/-- The text of an error is accepted and says the status and the message. -/
def ErrorDecodes (err : Error) : Prop :=
  ∃ members, Json.parse (formatErrorJson err).toList = some (.object members) ∧
    members.lookup "status" = some (.string "error") ∧ members.lookup "message" = some (.string err.display)

def errorMembers (s : List Char) : List (String × Json) :=
  [("status", .string "error"), ("message", .string (String.ofList s))]

/-- What stands in front of the message. -/
def errorHead : List Char :=
  ['{', '"', 's', 't', 'a', 't', 'u', 's', '"', ':', '"', 'e', 'r', 'r', 'o', 'r', '"', ',',
    '"', 'm', 'e', 's', 's', 'a', 'g', 'e', '"', ':', '"']

theorem toList_formatErrorJson (err : Error) :
    (formatErrorJson err).toList = errorHead ++ (escapeQuotes err.display.toList ++ errorTail) := by
  have hhead : "\x7b\"status\":\"error\",\"message\":\"".toList = errorHead := by decide
  have hquote : "\\\"".toList = ['\\', '"'] := by decide
  have htail : "\"\x7d".toList = errorTail := by decide
  unfold formatErrorJson
  simp only [String.toList_append, replaceChar, String.toList_ofList, List.append_assoc, hhead, hquote, htail,
    escapeQuotes]

omit [Texts] in
theorem parse_errorHead (text : List Char) : Json.parse (errorHead ++ text) =
    (Json.readString text).bind fun r =>
      match Json.skip r.2 with
      | ',' :: cs => (Json.readMembers (text.length + 27) cs).bind fun members =>
        if Json.skip members.2 = [] then
          some (.object (("status", .string "error") :: ("message", .string (String.ofList r.1)) :: members.1))
        else none
      | '}' :: cs => if Json.skip cs = [] then some (.object (errorMembers r.1)) else none
      | _ => none := by
  have hlength : (errorHead ++ text).length + 1 = text.length + 28 + 1 + 1 := by
    rw [List.length_append, Nat.add_comm errorHead.length]
    rfl
  have hstatus : Json.readString (errorHead.drop 2 ++ text) =
      some (['s', 't', 'a', 't', 'u', 's'], ':' :: (errorHead.drop 10 ++ text)) := rfl
  have herror : Json.readString (errorHead.drop 11 ++ text) =
      some (['e', 'r', 'r', 'o', 'r'], ',' :: (errorHead.drop 18 ++ text)) := rfl
  have hmessage : Json.readString (errorHead.drop 19 ++ text) =
      some (['m', 'e', 's', 's', 'a', 'g', 'e'], ':' :: '"' :: text) := rfl
  have hvalue : Json.readValue (text.length + 28) (errorHead.drop 10 ++ text) =
      some (.string "error", ',' :: (errorHead.drop 18 ++ text)) :=
    (Json.readValue_string _ _).trans (congrArg (Option.map _) herror)
  have hlast : Json.readMembers (text.length + 28) (errorHead.drop 18 ++ text) =
      (Json.readString text).bind fun r =>
        match Json.skip r.2 with
        | ',' :: cs => (Json.readMembers (text.length + 27) cs).map fun members =>
          (("message", .string (String.ofList r.1)) :: members.1, members.2)
        | '}' :: cs => some ([("message", .string (String.ofList r.1))], cs)
        | _ => none := by
    refine (Json.readMembers_key hmessage _).trans ?_
    rw [Json.readValue_string]
    cases Json.readString text <;> rfl
  have hfirst : Json.readMembers (text.length + 29) (errorHead.drop 1 ++ text) =
      (Json.readMembers (text.length + 28) (errorHead.drop 18 ++ text)).map fun members =>
        (("status", .string "error") :: members.1, members.2) := by
    refine (Json.readMembers_key hstatus _).trans ?_
    rw [hvalue]
    rfl
  have hobject : Json.readValue (text.length + 30) (errorHead ++ text) =
      (Json.readMembers (text.length + 29) (errorHead.drop 1 ++ text)).map fun members =>
        (.object members.1, members.2) :=
    Json.readValue_object _ _
  rw [Json.parse, hlength, hobject, hfirst, hlast]
  cases Json.readString text with
  | none => rfl
  | some r =>
    simp only [Option.bind_some]
    split
    · rename_i cs _
      cases Json.readMembers (text.length + 27) cs <;> rfl
    · rfl
    · rfl

omit [Texts] in
theorem skip_escapeQuotes (msg : List Char) :
    ∃ msg', Json.skip (escapeQuotes msg ++ errorTail) = escapeQuotes msg' ++ errorTail := by
  induction msg with
  | nil => exact ⟨[], rfl⟩
  | cons c msg ih =>
    by_cases hc : Json.isSpace c
    · have hquote : c ≠ '"' := by
        rintro rfl
        exact absurd hc (by decide)
      obtain ⟨msg', h⟩ := ih
      refine ⟨msg', ?_⟩
      rw [escapeQuotes_char hquote, List.cons_append, Json.skip, List.dropWhile_cons_of_pos hc]
      exact h
    · refine ⟨c :: msg, ?_⟩
      by_cases hquote : c = '"'
      · subst hquote
        rfl
      · rw [escapeQuotes_char hquote, List.cons_append]
        exact Json.skip_cons (by simpa using hc) _

omit [Texts] in
/-- No member starts in what is left of a message: its quotes have a backslash in front. -/
theorem readMembers_escapeQuotes (fuel : Nat) (msg : List Char) :
    Json.readMembers fuel (escapeQuotes msg ++ errorTail) = none := by
  cases fuel with
  | zero => rfl
  | succ fuel =>
    obtain ⟨msg', h⟩ := skip_escapeQuotes msg
    rw [Json.readMembers, h]
    cases msg' with
    | nil => rfl
    | cons c msg' =>
      by_cases hquote : c = '"'
      · subst hquote
        rfl
      · rw [escapeQuotes_char hquote, List.cons_append]
        split
        · rename_i heq
          exact absurd (List.cons.inj heq).1 hquote
        · rfl

/-- What an accepted text is read as: the message ends where the error does. -/
theorem readString_of_parse {err : Error} {v : Json} (h : Json.parse (formatErrorJson err).toList = some v) :
    ∃ s, Json.readString (escapeQuotes err.display.toList ++ errorTail) = some (s, ['}']) ∧
      v = .object (errorMembers s) := by
  rw [toList_formatErrorJson, parse_errorHead] at h
  obtain ⟨⟨s, rest⟩, hs, h⟩ := Option.bind_eq_some_iff.mp h
  rcases (readAs_of_readString hs).ends with rfl | ⟨msg, rfl⟩
  · exact ⟨s, hs, (Option.some.inj h).symm⟩
  · obtain ⟨msg', hmsg'⟩ := skip_escapeQuotes msg
    simp only [hmsg'] at h
    split at h
    · rename_i cs heq
      obtain ⟨msg'', -, rfl⟩ := eq_cons_of_escapeQuotes (by decide) (by decide) heq
      rw [readMembers_escapeQuotes] at h
      cases h
    · rename_i cs heq
      obtain ⟨msg'', -, rfl⟩ := eq_cons_of_escapeQuotes (by decide) (by decide) heq
      obtain ⟨last, hlast⟩ := skip_escapeQuotes msg''
      rw [hlast, if_neg (by simp [errorTail])] at h
      cases h
    · cases h

/-- An error is read back from its JSON exactly if nothing in its text wants escaping but quotes. -/
theorem errorJson_decodes_iff (err : Error) :
    ErrorDecodes err ↔ ∀ c ∈ err.display.toList, c ≠ '\\' ∧ 0x20 ≤ c.toNat := by
  constructor
  · rintro ⟨members, hparse, -, hmessage⟩
    obtain ⟨s, hs, heq⟩ := readString_of_parse hparse
    cases heq
    have hdisplay : String.ofList s = err.display := Json.string.inj (Option.some.inj hmessage)
    refine (readAs_of_readString hs).unescaped ?_
    rw [← hdisplay, String.toList_ofList]
  · intro h
    refine ⟨errorMembers err.display.toList, ?_, rfl, ?_⟩
    · rw [toList_formatErrorJson, parse_errorHead, errorTail, readString_escapeQuotes h]
      rfl
    · exact congrArg (fun s => some (Json.string s)) String.ofList_toList

end

open Concrete in
/-- The error about a backslash has the backslash in front of a closing mark. -/
theorem errorJson_of_backslash : ∃ err, parse "\\" = .error err ∧ ¬ ErrorDecodes err := by
  refine ⟨queryError "unexpected character: '\\'", rfl, ?_⟩
  have hnone : (Json.parse (formatErrorJson (queryError "unexpected character: '\\'")).toList).isNone = true := by
    decide +kernel
  rintro ⟨members, h, -⟩
  rw [h] at hnone
  cases hnone

end Dllb
