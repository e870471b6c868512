import Mathlib
import Dllb.Query.Format
import Dllb.Query.Identifiers

/-! # The ids that are generated

A record that is created without an id gets a random UUID in its hyphenated form.
A hyphen is in no identifier, so no query names such a record.
-/

namespace Dllb

set_option autoImplicit false

open Dllb.Parser

/-! ## UUIDs -/

/-- The 128 bits of an id. -/
abbrev Uuid := BitVec 128

namespace Uuid

/-- Random bits with the version and the variant put in their places. -/
def newV4 (random : BitVec 128) : Uuid :=
  (random &&& ~~~((0xF#128 <<< 76) ||| (0x3#128 <<< 62))) ||| ((0x4#128 <<< 76) ||| (0x2#128 <<< 62))

/-- The `i`-th hexadecimal digit, from the left. -/
def digit (u : Uuid) (i : Nat) : Char := Nat.digitChar (u.toNat >>> (4 * (31 - i)) % 16)

def digits (u : Uuid) (start count : Nat) : List Char := (List.range count).map fun i => u.digit (start + i)

/-- Groups of 8, 4, 4, 4 and 12 digits in lower case. -/
def toString (u : Uuid) : String :=
  String.ofList (u.digits 0 8 ++ '-' :: (u.digits 8 4 ++ '-' :: (u.digits 12 4 ++ '-' ::
    (u.digits 16 4 ++ '-' :: u.digits 20 12))))

end Uuid

namespace RecordId

/-- The record of the table that gets the random bits as its id. -/
def generate (random : BitVec 128) (table : String) : RecordId := ⟨table, (Uuid.newV4 random).toString⟩

/-- The queries that read, change, remove and relate the one record. -/
def queries (r : RecordId) : List String :=
  ["SELECT * FROM " ++ r.display, "UPDATE " ++ r.display ++ " SET f = 1", "DELETE " ++ r.display,
    "RELATE " ++ r.display ++ "->e->" ++ r.display]

end RecordId

/-- The statement is on exactly the record. -/
def Statement.IsOn (r : RecordId) : Statement → Prop
  | .select _ (.record r') _ _ _ => r' = ⟨r.table, r.id⟩
  | .update (.record r') _ _ => r' = ⟨r.table, r.id⟩
  | .delete table id => table = r.table ∧ id = r.id
  | .relate src _ dst _ => src = ⟨r.table, r.id⟩ ∧ dst = ⟨r.table, r.id⟩
  | _ => False

theorem hyphen_mem_toString (u : Uuid) : '-' ∈ u.toString.toList := by
  rw [Uuid.toString, String.toList_ofList]
  simp

section

variable [Debug]

/-- Every one of the queries is parsed as a statement on the record. -/
def Addressable (r : RecordId) : Prop := ∀ text ∈ r.queries, ∃ q, parse text = .ok q ∧ q.statement.IsOn r

/-! ## Records that are named -/

theorem parseFromTarget_record {ts rest : List Token} {r : RecordRef}
    (h : parseFromTarget ts = .ok (.record r, rest)) : .ident r.id ∈ ts := by
  obtain ⟨table, ts₁, hTable, hTarget⟩ := bind_eq_ok.mp h
  rw [expectIdent_eq_ok hTable]
  by_cases hColon : ts₁.head? = some .colon
  · obtain ⟨ts₂, rfl⟩ := List.head?_eq_some_iff.mp hColon
    rw [when_next, bind_ok (skip_apply _ _)] at hTarget
    obtain ⟨id, ts₃, hId, hTarget⟩ := bind_eq_ok.mp hTarget
    cases hTarget
    rw [expectIdent_eq_ok hId]
    simp
  · rw [unless_next hColon] at hTarget
    cases hTarget

theorem expect_eq_ok {t : Token} {ts rest : List Token} {u : Unit} (h : expect t ts = .ok (u, rest)) :
    ts = t :: rest := by
  cases ts with
  | nil => cases h
  | cons t' ts =>
    simp only [expect, bind_apply, peek_apply, List.head?_cons] at h
    split at h
    · rename_i ht
      cases h
      rw [ht]
      rfl
    · cases h

theorem parseRecordRef_id {ts rest : List Token} {r : RecordRef} (h : parseRecordRef ts = .ok (r, rest)) :
    .ident r.id ∈ ts := by
  obtain ⟨table, ts₁, hTable, h₁⟩ := bind_eq_ok.mp h
  obtain ⟨_, ts₂, hColon, h₂⟩ := bind_eq_ok.mp h₁
  obtain ⟨id, ts₃, hId, h₃⟩ := bind_eq_ok.mp h₂
  cases h₃
  rw [expectIdent_eq_ok hTable, expect_eq_ok hColon, expectIdent_eq_ok hId]
  simp

theorem parseSelect_id {ts rest : List Token} {statement : Statement} {r : RecordId} (hOn : statement.IsOn r)
    (h : parseSelect (.select :: .star :: .from' :: ts) = .ok (statement, rest)) : .ident r.id ∈ ts := by
  have hFields : parseSelectFields (.star :: .from' :: ts) = .ok (.all, .from' :: ts) := by
    simp [parseSelectFields]
  rw [parseSelect, bind_ok (expect_cons _ _), bind_ok hFields, bind_ok (expect_cons _ _)] at h
  obtain ⟨source, ts₁, hSource, h⟩ := bind_eq_ok.mp h
  obtain ⟨filter, ts₂, -, h⟩ := bind_eq_ok.mp h
  obtain ⟨orderBy, ts₃, -, h⟩ := bind_eq_ok.mp h
  obtain ⟨limit, ts₄, -, h⟩ := bind_eq_ok.mp h
  cases h
  cases source with
  | table => cases hOn
  | record r' =>
    obtain rfl : r' = ⟨r.table, r.id⟩ := hOn
    exact parseFromTarget_record hSource

theorem parseUpdate_id {ts rest : List Token} {statement : Statement} {r : RecordId} (hOn : statement.IsOn r)
    (h : parseUpdate (.update :: ts) = .ok (statement, rest)) : .ident r.id ∈ ts := by
  rw [parseUpdate, bind_ok (expect_cons _ _)] at h
  obtain ⟨target, ts₁, hTarget, h⟩ := bind_eq_ok.mp h
  obtain ⟨_, ts₂, -, h⟩ := bind_eq_ok.mp h
  obtain ⟨fields, ts₃, -, h⟩ := bind_eq_ok.mp h
  obtain ⟨filter, ts₄, -, h⟩ := bind_eq_ok.mp h
  cases h
  cases target with
  | table => cases hOn
  | record r' =>
    obtain rfl : r' = ⟨r.table, r.id⟩ := hOn
    exact parseFromTarget_record hTarget

theorem parseDelete_id {ts rest : List Token} {statement : Statement} {r : RecordId} (hOn : statement.IsOn r)
    (h : parseDelete (.delete :: ts) = .ok (statement, rest)) : .ident r.id ∈ ts := by
  rw [parseDelete, bind_ok (expect_cons _ _)] at h
  obtain ⟨table, ts₁, hTable, h⟩ := bind_eq_ok.mp h
  rw [expectIdent_eq_ok hTable]
  by_cases hColon : ts₁.head? = some .colon
  · obtain ⟨ts₂, rfl⟩ := List.head?_eq_some_iff.mp hColon
    rw [when_next, bind_ok (skip_apply _ _)] at h
    obtain ⟨id, ts₃, hId, h⟩ := bind_eq_ok.mp h
    cases h
    obtain ⟨-, rfl⟩ := hOn
    rw [expectIdent_eq_ok hId]
    simp
  · rw [unless_next hColon] at h
    obtain ⟨filter, ts₂, -, h⟩ := bind_eq_ok.mp h
    cases h
    cases hOn

theorem parseRelate_id {ts rest : List Token} {statement : Statement} {r : RecordId} (hOn : statement.IsOn r)
    (h : parseRelate (.relate :: ts) = .ok (statement, rest)) : .ident r.id ∈ ts := by
  rw [parseRelate, bind_ok (expect_cons _ _)] at h
  obtain ⟨src, ts₁, hSrc, h⟩ := bind_eq_ok.mp h
  obtain ⟨_, ts₂, -, h⟩ := bind_eq_ok.mp h
  obtain ⟨edgeType, ts₃, -, h⟩ := bind_eq_ok.mp h
  obtain ⟨_, ts₄, -, h⟩ := bind_eq_ok.mp h
  obtain ⟨dst, ts₅, -, h⟩ := bind_eq_ok.mp h
  have hStatement : ∃ fields, statement = .relate src edgeType dst fields := by
    by_cases hSet : ts₅.head? = some .set
    · obtain ⟨ts₆, rfl⟩ := List.head?_eq_some_iff.mp hSet
      rw [when_next, bind_ok (skip_apply _ _)] at h
      obtain ⟨fields, ts₇, -, h⟩ := bind_eq_ok.mp h
      cases h
      exact ⟨fields, rfl⟩
    · rw [unless_next hSet] at h
      cases h
      exact ⟨[], rfl⟩
  obtain ⟨fields, rfl⟩ := hStatement
  obtain ⟨rfl, -⟩ := hOn
  exact parseRecordRef_id hSrc

/-! ## Queries -/

theorem parse_eq_ok {text : String} {q : Query} (h : parse text = .ok q) :
    ∃ tokens rest, tokenize text = .ok tokens ∧ parseStatement tokens = .ok (q.statement, rest) := by
  rw [parse] at h
  cases hTokens : tokenize text with
  | error e =>
    rw [hTokens] at h
    cases h
  | ok tokens =>
    rw [hTokens] at h
    obtain ⟨rest, hQuery⟩ := parseTokens_eq_ok h
    obtain ⟨statement, ts, hStatement, hOutcome⟩ := bind_eq_ok.mp hQuery
    obtain ⟨outcome, ts', -, hOutcome⟩ := bind_eq_ok.mp hOutcome
    cases hOutcome
    exact ⟨tokens, ts, rfl, hStatement⟩

omit [Debug] in
theorem tokenize_select_all {text : String} {tokens : List Token} (h : tokenize ("SELECT * FROM " ++ text) = .ok tokens) :
    ∃ ts, tokens = .select :: .star :: .from' :: ts := by
  have hText : ("SELECT * FROM " ++ text).toList =
      "SELECT".toList ++ ' ' :: ("*".toList ++ ' ' :: ("FROM".toList ++ ' ' :: text.toList)) := by
    have hWords : "SELECT * FROM ".toList = "SELECT".toList ++ ' ' :: ("*".toList ++ ' ' :: ("FROM".toList ++ [' '])) := by
      decide
    simp only [String.toList_append, hWords, List.append_assoc, List.cons_append, List.nil_append]
  rw [tokenize, hText] at h
  have hSelect : Spelled .select "SELECT".toList := .grammar rfl
  have hStar : Spelled .star "*".toList := .grammar rfl
  have hFrom : Spelled Token.from' _ := .grammar rfl
  obtain ⟨m₁, ts₁, hm₁, hScan₁, rfl⟩ := scan_spelled hSelect le_rfl h
  obtain ⟨m₂, ts₂, hm₂, hScan₂, rfl⟩ := scan_spelled hStar hm₁ hScan₁
  obtain ⟨m₃, ts₃, hm₃, hScan₃, rfl⟩ := scan_spelled hFrom hm₂ hScan₂
  exact ⟨ts₃, rfl⟩

/-- The id of the record that such a query is on is a word. -/
theorem isWord_of_isOn {r : RecordId} {text : String} (hText : text ∈ r.queries) {q : Query} (h : parse text = .ok q)
    (hOn : q.statement.IsOn r) : ∀ c ∈ r.id.toList, isWordChar c = Bool.true := by
  obtain ⟨tokens, rest, hTokens, hStatement⟩ := parse_eq_ok h
  suffices hMem : .ident r.id ∈ tokens from tokenize_ident hTokens hMem
  simp only [RecordId.queries, List.mem_cons, List.not_mem_nil, or_false] at hText
  obtain rfl | rfl | rfl | rfl := hText
  · obtain ⟨ts, rfl⟩ := tokenize_select_all hTokens
    have hMem := parseSelect_id hOn hStatement
    simp [hMem]
  · have hWord : "UPDATE " ++ r.display ++ " SET f = 1" = "UPDATE" ++ " " ++ (r.display ++ " SET f = 1") :=
      String.append_assoc
    rw [hWord] at hTokens
    obtain ⟨ts, rfl⟩ := tokenize_keyword .update "UPDATE" rfl hTokens
    exact List.mem_cons_of_mem _ (parseUpdate_id hOn hStatement)
  · obtain ⟨ts, rfl⟩ := tokenize_keyword .delete "DELETE" rfl hTokens
    exact List.mem_cons_of_mem _ (parseDelete_id hOn hStatement)
  · have hWord : "RELATE " ++ r.display ++ "->e->" ++ r.display =
        "RELATE" ++ " " ++ (r.display ++ ("->e->" ++ r.display)) := by
      rw [String.append_assoc, String.append_assoc]
      rfl
    rw [hWord] at hTokens
    obtain ⟨ts, rfl⟩ := tokenize_keyword .relate "RELATE" rfl hTokens
    exact List.mem_cons_of_mem _ (parseRelate_id hOn hStatement)

theorem not_isOn_generated {random : BitVec 128} {table text : String}
    (hText : text ∈ (RecordId.generate random table).queries) {q : Query} (h : parse text = .ok q) :
    ¬ q.statement.IsOn (.generate random table) := by
  intro hOn
  exact absurd (isWord_of_isOn hText h hOn '-' (hyphen_mem_toString _)) (by decide)

/-- No query of the four names a record whose id was generated. -/
theorem generated_never_addressable (random : BitVec 128) (table : String) :
    (∀ text ∈ (RecordId.generate random table).queries, ∀ q, parse text = .ok q →
      ¬ q.statement.IsOn (.generate random table)) ∧ ¬ Addressable (.generate random table) := by
  refine ⟨fun text hText q h => not_isOn_generated hText h, fun h => ?_⟩
  obtain ⟨q, hParse, hOn⟩ := h _ List.mem_cons_self
  exact not_isOn_generated List.mem_cons_self hParse hOn

end

open Concrete in
theorem user_never_addressable :
    RecordId.generate 0 "user" = ⟨"user", "00000000-0000-4000-8000-000000000000"⟩ ∧
      ¬ Addressable ⟨"user", "00000000-0000-4000-8000-000000000000"⟩ := by
  have hId : RecordId.generate 0 "user" = ⟨"user", "00000000-0000-4000-8000-000000000000"⟩ := by decide +kernel
  refine ⟨hId, fun h => ?_⟩
  rw [← hId] at h
  obtain ⟨q, hParse, hOn⟩ := h _ List.mem_cons_self
  exact not_isOn_generated List.mem_cons_self hParse hOn

end Dllb
