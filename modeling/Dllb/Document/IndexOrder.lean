import Mathlib
import Dllb.Document.Index

/-! # The index encoding is order preserving and self-delimiting

Integers and floats are ranked by one integer each, which their eight bytes
spell with an offset of `2 ^ 63`. Escaping and terminating the raw bytes is an
ordered code, so the order passes to tuples and the record id is recovered.
-/

namespace Dllb

set_option autoImplicit false

/-- The place of a bit pattern in sign-magnitude order: negative patterns below the positive ones
and mirrored, so that `-0` comes directly before `0`. -/
def F64.rank (f : F64) : Int :=
  if f.isSignNegative then -(f.magnitude : Int) - 1 else f.magnitude

theorem F64.rank_injective : Function.Injective F64.rank := by
  rintro ⟨a⟩ ⟨b⟩ h
  have ha := a.toNat_lt
  have hb := b.toNat_lt
  have hab : a.toNat = b.toNat := by
    simp only [F64.rank, F64.isSignNegative, F64.magnitude, decide_eq_true_eq] at h
    split at h <;> split at h <;> omega
  rw [UInt64.toNat_inj.mp hab]

namespace Index

/-! ## Raw encodings -/

theorem xor_two_pow_of_lt {n x : Nat} (h : x < 2 ^ n) : x ^^^ 2 ^ n = 2 ^ n + x := by
  apply Nat.eq_of_testBit_eq
  intro i
  rw [Nat.testBit_xor]
  rcases lt_trichotomy i n with hi | rfl | hi
  · rw [Nat.testBit_two_pow_add_gt hi, Nat.testBit_two_pow_of_ne hi.ne']
    simp
  · rw [Nat.testBit_two_pow_add_eq, Nat.testBit_two_pow_self]
    simp
  · have hx : x < 2 ^ i := h.trans_le (Nat.pow_le_pow_right (by decide) hi.le)
    have hsum : 2 ^ n + x < 2 ^ i := by
      calc 2 ^ n + x < 2 ^ (n + 1) := by rw [pow_succ]; omega
        _ ≤ 2 ^ i := Nat.pow_le_pow_right (by decide) hi
    rw [Nat.testBit_two_pow_of_ne hi.ne, Nat.testBit_lt_two_pow hx, Nat.testBit_lt_two_pow hsum]
    rfl

theorem toNat_xor_signBit (x : UInt64) :
    (x ^^^ ((1 : UInt64) <<< 63)).toNat =
      if x.toNat < 2 ^ 63 then 2 ^ 63 + x.toNat else x.toNat - 2 ^ 63 := by
  have hx := x.toNat_lt
  rw [UInt64.toNat_xor, show ((1 : UInt64) <<< 63).toNat = 2 ^ 63 by decide]
  split
  · rename_i h
    exact xor_two_pow_of_lt h
  · obtain ⟨y, hy⟩ : ∃ y, x.toNat = 2 ^ 63 + y := ⟨x.toNat - 2 ^ 63, by omega⟩
    rw [hy, ← xor_two_pow_of_lt (by omega : y < 2 ^ 63), Nat.xor_xor_cancel_right,
      xor_two_pow_of_lt (by omega)]
    omega

theorem toInt_eq_toNat (n : Int64) :
    n.toInt = if n.toUInt64.toNat < 2 ^ 63 then (n.toUInt64.toNat : Int)
      else n.toUInt64.toNat - 2 ^ 64 := by
  rw [Int64.toInt, BitVec.toInt_eq_toNat_cond, Int64.toNat_toBitVec]
  split <;> split <;> omega

theorem encodeI64_eq (n : Int64) :
    ∃ u : UInt64, encodeI64 n = toBeBytes u ∧ (u.toNat : Int) = n.toInt + 2 ^ 63 := by
  refine ⟨_, rfl, ?_⟩
  have hn := n.toUInt64.toNat_lt
  rw [toNat_xor_signBit, toInt_eq_toNat]
  split <;> omega

theorem encodeF64_eq (f : F64) :
    ∃ u : UInt64, encodeF64 f = toBeBytes u ∧ (u.toNat : Int) = f.rank + 2 ^ 63 := by
  refine ⟨_, rfl, ?_⟩
  have hf := f.bits.toNat_lt
  cases hs : f.isSignNegative with
  | true =>
    have hneg : 2 ^ 63 ≤ f.bits.toNat := by simpa [F64.isSignNegative] using hs
    simp only [F64.rank, F64.magnitude, hs, ↓reduceIte]
    rw [UInt64.toNat_not]
    simp only [UInt64.size]
    omega
  | false =>
    have hpos : f.bits.toNat < 2 ^ 63 := by simpa [F64.isSignNegative] using hs
    simp only [F64.rank, F64.magnitude, hs, Bool.false_eq_true, ↓reduceIte]
    rw [toNat_xor_signBit, if_pos hpos]
    omega

/-- The raw bytes of a value that can be indexed. -/
def rawOf (v : Value) : Bytes := (encodeIndexValue v).toOption.getD []

def Indexable (v : Value) : Prop := (encodeIndexValue v).isOk = true

instance (v : Value) : Decidable (Indexable v) := inferInstanceAs (Decidable (_ = true))

theorem encodeIndexValue_of_indexable {v : Value} (h : Indexable v) :
    encodeIndexValue v = .ok (rawOf v) := by
  unfold Indexable at h
  unfold rawOf
  cases hv : encodeIndexValue v with
  | ok b => rfl
  | error e => rw [hv] at h; cases h

theorem indexable_of_encodeIndexValue {v : Value} {b : Bytes} (h : encodeIndexValue v = .ok b) :
    Indexable v ∧ rawOf v = b := by
  simp [Indexable, rawOf, h, Except.isOk, Except.toBool, Except.toOption]

/-- The integer that an Int or a Float value is ranked by. -/
def numericRank : Value → Option Int
  | .int n => some n.toInt
  | .float f => some f.rank
  | _ => none

theorem rawOf_of_numericRank {v : Value} {r : Int} (h : numericRank v = some r) :
    ∃ u : UInt64, rawOf v = toBeBytes u ∧ (u.toNat : Int) = r + 2 ^ 63 := by
  cases v with
  | int n =>
    cases h
    exact encodeI64_eq n
  | float f =>
    cases h
    exact encodeF64_eq f
  | _ => cases h

/-- Ints and Floats, also against one another, order in the index by rank. -/
theorem rawOf_lt_iff_rank {u v : Value} {r q : Int} (hu : numericRank u = some r)
    (hv : numericRank v = some q) : rawOf u < rawOf v ↔ r < q := by
  obtain ⟨x, hx, hxr⟩ := rawOf_of_numericRank hu
  obtain ⟨y, hy, hyq⟩ := rawOf_of_numericRank hv
  rw [hx, hy, toBeBytes_lt_iff]
  omega

theorem rawOf_eq_iff_rank {u v : Value} {r q : Int} (hu : numericRank u = some r)
    (hv : numericRank v = some q) : rawOf u = rawOf v ↔ r = q := by
  obtain ⟨x, hx, hxr⟩ := rawOf_of_numericRank hu
  obtain ⟨y, hy, hyq⟩ := rawOf_of_numericRank hv
  rw [hx, hy, toBeBytes_injective.eq_iff, ← UInt64.toNat_inj]
  omega

/-! ## The order of values of one type -/

/-- Both values can be indexed and have the same type. -/
inductive SameType : Value → Value → Prop
  | string (a b : String) : SameType (.string a) (.string b)
  | int (a b : Int64) : SameType (.int a) (.int b)
  | float (a b : F64) : SameType (.float a) (.float b)
  | bool (a b : Bool) : SameType (.bool a) (.bool b)

/-- Strings as UTF-8 bytes, integers as numbers, floats by sign-magnitude, `false` before `true`. -/
inductive ValueLt : Value → Value → Prop
  | string {a b : String} (h : asBytes a < asBytes b) : ValueLt (.string a) (.string b)
  | int {a b : Int64} (h : a < b) : ValueLt (.int a) (.int b)
  | float {a b : F64} (h : a.rank < b.rank) : ValueLt (.float a) (.float b)
  | bool {a b : Bool} (h : a < b) : ValueLt (.bool a) (.bool b)

theorem SameType.indexable {u v : Value} (h : SameType u v) : Indexable u ∧ Indexable v := by
  cases h <;> exact ⟨rfl, rfl⟩

theorem SameType.rawOf_lt_iff {u v : Value} (h : SameType u v) : rawOf u < rawOf v ↔ ValueLt u v := by
  cases h with
  | string a b =>
    constructor
    · exact .string
    · rintro (⟨h⟩)
      assumption
  | int a b =>
    rw [rawOf_lt_iff_rank rfl rfl, ← Int64.lt_iff_toInt_lt]
    constructor
    · exact .int
    · rintro (⟨h⟩)
      assumption
  | float a b =>
    rw [rawOf_lt_iff_rank rfl rfl]
    constructor
    · exact .float
    · rintro (⟨h⟩)
      assumption
  | bool a b =>
    have hraw : rawOf (.bool a) < rawOf (.bool b) ↔ a < b := by
      cases a <;> cases b <;> decide
    rw [hraw]
    constructor
    · exact .bool
    · rintro (⟨h⟩)
      assumption

theorem SameType.rawOf_eq_iff {u v : Value} (h : SameType u v) : rawOf u = rawOf v ↔ u = v := by
  cases h with
  | string a b =>
    change asBytes a = asBytes b ↔ _
    rw [asBytes_inj, Value.string.injEq]
  | int a b => rw [rawOf_eq_iff_rank rfl rfl, Int64.toInt_inj, Value.int.injEq]
  | float a b => rw [rawOf_eq_iff_rank rfl rfl, F64.rank_injective.eq_iff, Value.float.injEq]
  | bool a b =>
    have hraw : rawOf (.bool a) = rawOf (.bool b) ↔ a = b := by
      cases a <;> cases b <;> decide
    rw [hraw, Value.bool.injEq]

theorem map_rawOf_lt_iff {us vs : List Value} (h : List.Forall₂ SameType us vs) :
    us.map rawOf < vs.map rawOf ↔ List.Lex ValueLt us vs := by
  induction h with
  | nil => simp
  | cons huv _ ih =>
    rw [List.map_cons, List.map_cons, List.cons_lt_cons_iff, ih, huv.rawOf_lt_iff, huv.rawOf_eq_iff]
    constructor
    · rintro (h | ⟨rfl, h⟩)
      · exact .rel h
      · exact .cons h
    · rintro (_ | h | h)
      · exact .inl h
      · exact .inr ⟨rfl, h⟩

theorem map_rawOf_eq_iff {us vs : List Value} (h : List.Forall₂ SameType us vs) :
    us.map rawOf = vs.map rawOf ↔ us = vs := by
  induction h with
  | nil => simp
  | cons huv _ ih => simp only [List.map_cons, List.cons.injEq, ih, huv.rawOf_eq_iff]

/-! ## Key parts -/

/-- The key part of raw bytes: escaped and terminated. -/
def keyCode (raw : Bytes) : Bytes := escapeInto raw ++ term

theorem orderedCode_keyCode : Lex.OrderedCode keyCode :=
  Lex.orderedCode_terminated (fun _ => UInt8.zero_le) (by decide)

theorem encodeIndexValueEscaped_of_indexable {v : Value} (h : Indexable v) :
    encodeIndexValueEscaped v = .ok (escapeInto (rawOf v)) := by
  rw [encodeIndexValueEscaped, encodeIndexValue_of_indexable h]
  rfl

theorem encodeIndexKeyPart_of_indexable {v : Value} (h : Indexable v) :
    encodeIndexKeyPart v = .ok (keyCode (rawOf v)) := by
  rw [encodeIndexKeyPart, encodeIndexValueEscaped_of_indexable h]
  rfl

theorem indexable_of_encodeIndexKeyPart {v : Value} {b : Bytes} (h : encodeIndexKeyPart v = .ok b) :
    Indexable v := by
  rw [encodeIndexKeyPart, encodeIndexValueEscaped] at h
  cases hv : encodeIndexValue v with
  | ok raw => exact (indexable_of_encodeIndexValue hv).1
  | error e => rw [hv] at h; cases h

/-- The concatenated key parts of a tuple, from its raw encodings. -/
def tupleCode (values : List Value) : Bytes := (values.map rawOf).flatMap keyCode

theorem tupleCode_cons (v : Value) (vs : List Value) :
    tupleCode (v :: vs) = keyCode (rawOf v) ++ tupleCode vs := rfl

theorem tupleCode_append (us vs : List Value) : tupleCode (us ++ vs) = tupleCode us ++ tupleCode vs := by
  simp [tupleCode]

theorem encodeCompositeKeyPart_of_indexable {vs : List Value} (h : ∀ v ∈ vs, Indexable v) :
    encodeCompositeKeyPart vs = .ok (tupleCode vs) := by
  induction vs with
  | nil => rfl
  | cons v vs ih =>
    rw [List.forall_mem_cons] at h
    rw [encodeCompositeKeyPart, encodeIndexKeyPart_of_indexable h.1, ih h.2]
    rfl

theorem indexable_of_encodeCompositeKeyPart {vs : List Value} {b : Bytes}
    (h : encodeCompositeKeyPart vs = .ok b) : (∀ v ∈ vs, Indexable v) ∧ b = tupleCode vs := by
  have hall : ∀ v ∈ vs, Indexable v := by
    induction vs generalizing b with
    | nil => simp
    | cons v vs ih =>
      rw [encodeCompositeKeyPart] at h
      cases hv : encodeIndexKeyPart v with
      | error e => rw [hv] at h; cases h
      | ok part =>
        cases hvs : encodeCompositeKeyPart vs with
        | error e => rw [hv, hvs] at h; cases h
        | ok rest => exact List.forall_mem_cons.mpr ⟨indexable_of_encodeIndexKeyPart hv, ih hvs⟩
  rw [encodeCompositeKeyPart_of_indexable hall] at h
  exact ⟨hall, (Except.ok.inj h).symm⟩

/-- Tuples of one length, each followed by anything, order by raw encodings first. -/
theorem tupleCode_append_lt_iff {us vs : List Value} (hlen : us.length = vs.length) (s t : Bytes) :
    tupleCode us ++ s < tupleCode vs ++ t ↔
      us.map rawOf < vs.map rawOf ∨ us.map rawOf = vs.map rawOf ∧ s < t :=
  orderedCode_keyCode.flatMap_append_lt_iff _ _ (by simpa using hlen) s t

theorem tupleCode_append_eq_iff {us vs : List Value} (hlen : us.length = vs.length) (s t : Bytes) :
    tupleCode us ++ s = tupleCode vs ++ t ↔ us.map rawOf = vs.map rawOf ∧ s = t :=
  orderedCode_keyCode.flatMap_append_eq_iff _ _ (by simpa using hlen) s t

/-! ## Recovering the record id -/

theorem walkTerms_cons_of_ne {x : UInt8} (hx : x ≠ 0x00) {l : Bytes} (hl : l ≠ []) (n seen : Nat) :
    walkTerms n (x :: l) seen = walkTerms n l seen := by
  cases l with
  | nil => exact absurd rfl hl
  | cons b rest => rw [walkTerms, if_neg hx]

/-- One part of the walk: the escaped bytes are passed over and the terminator is counted. -/
theorem walkTerms_keyCode (n seen : Nat) (raw rest : Bytes) :
    walkTerms n (keyCode raw ++ rest) seen =
      if seen + 1 = n then fromUtf8 rest else walkTerms n rest (seen + 1) := by
  induction raw with
  | nil => rfl
  | cons x raw ih =>
    by_cases hx : x = 0x00
    · subst hx
      exact ih
    · have hcons : keyCode (x :: raw) ++ rest = x :: (keyCode raw ++ rest) := by
        simp [keyCode, escapeInto, Lex.escape_cons, hx]
      rw [hcons, walkTerms_cons_of_ne hx (by simp [keyCode, term]), ih]

theorem walkTerms_tupleCode (vs : List Value) (hvs : vs ≠ []) (seen : Nat) (rest : Bytes) :
    walkTerms (seen + vs.length) (tupleCode vs ++ rest) seen = fromUtf8 rest := by
  induction vs generalizing seen with
  | nil => exact absurd rfl hvs
  | cons v vs ih =>
    rw [tupleCode_cons, List.append_assoc, walkTerms_keyCode, List.length_cons]
    cases vs with
    | nil => simp [tupleCode]
    | cons w vs =>
      rw [if_neg (by simp), ← ih (by simp) (seen + 1)]
      congr 1
      omega

theorem idFromEntry_tupleCode (region : Bytes) {vs : List Value} (hvs : vs ≠ []) (rest : Bytes) :
    idFromEntry (region ++ tupleCode vs ++ rest) region.length vs.length = fromUtf8 rest := by
  rw [idFromEntry, List.append_assoc, List.drop_left]
  simpa using walkTerms_tupleCode vs hvs 0 rest

/-- With no field there is no terminator to count to. -/
theorem idFromEntry_zero (key : Bytes) (regionLen : Nat) : idFromEntry key regionLen 0 = none := by
  have hwalk : ∀ (m : Nat) (b : Bytes) (seen : Nat), b.length ≤ m → walkTerms 0 b seen = none := by
    intro m
    induction m with
    | zero =>
      intro b seen hb
      obtain rfl : b = [] := List.length_eq_zero_iff.mp (Nat.le_zero.mp hb)
      rfl
    | succ m ih =>
      intro b seen hb
      match b, hb with
      | [], _ => rfl
      | [_], _ => rfl
      | x :: y :: rest, hb =>
        simp only [List.length_cons] at hb
        rw [walkTerms, ih rest _ (by omega), ih (y :: rest) _ (by simp; omega), ih rest _ (by omega)]
        simp
  exact hwalk _ _ 0 le_rfl

/-! ## The encoding as a whole -/

/-- The encoding of tuples is strictly monotone both ways, injective and prefix free, and for
tuples of at least one value the record id behind it is recovered. -/
theorem encodeCompositeKeyPart_ordered_self_delimiting {us vs : List Value}
    (h : List.Forall₂ SameType us vs) :
    ∃ a b, encodeCompositeKeyPart us = .ok a ∧ encodeCompositeKeyPart vs = .ok b ∧
      (a < b ↔ List.Lex ValueLt us vs) ∧ (a = b ↔ us = vs) ∧ (a <+: b → a = b) ∧
      (us ≠ [] → ∀ (region : Bytes) (id : String),
        idFromEntry (region ++ a ++ asBytes id) region.length us.length = some id) := by
  have hlen : us.length = vs.length := h.length_eq
  have hindexable : (∀ u ∈ us, Indexable u) ∧ ∀ v ∈ vs, Indexable v := by
    clear hlen
    induction h with
    | nil => simp
    | cons huv _ ih =>
      exact ⟨List.forall_mem_cons.mpr ⟨huv.indexable.1, ih.1⟩,
        List.forall_mem_cons.mpr ⟨huv.indexable.2, ih.2⟩⟩
  refine ⟨tupleCode us, tupleCode vs, encodeCompositeKeyPart_of_indexable hindexable.1,
    encodeCompositeKeyPart_of_indexable hindexable.2, ?_, ?_, ?_, ?_⟩
  · simpa [map_rawOf_lt_iff h] using tupleCode_append_lt_iff hlen [] []
  · simpa [map_rawOf_eq_iff h] using tupleCode_append_eq_iff hlen [] []
  · rintro ⟨t, ht⟩
    have heq := (tupleCode_append_eq_iff hlen t []).mp (by simpa using ht)
    rw [heq.2, List.append_nil] at ht
    exact ht
  · intro hus region id
    rw [idFromEntry_tupleCode region hus, fromUtf8_asBytes]

theorem encodeCompositeKeyPart_ordered_self_delimiting_int_string :
    ∃ a b, encodeCompositeKeyPart [.int (-1), .string "a"] = .ok a ∧
      encodeCompositeKeyPart [.int (-1), .string "a\x00b"] = .ok b ∧
      (a < b ↔ List.Lex ValueLt [.int (-1), .string "a"] [.int (-1), .string "a\x00b"]) ∧
      (a = b ↔ [Value.int (-1), .string "a"] = [Value.int (-1), .string "a\x00b"]) ∧ (a <+: b → a = b) ∧
      ([Value.int (-1), .string "a"] ≠ [] → ∀ (region : Bytes) (id : String),
        idFromEntry (region ++ a ++ asBytes id) region.length 2 = some id) :=
  encodeCompositeKeyPart_ordered_self_delimiting
    (.cons (.int _ _) (.cons (.string _ _) .nil))

/-- The id behind the empty tuple is not recovered. -/
theorem idFromEntry_empty_tuple :
    ¬ ∀ us vs : List Value, List.Forall₂ SameType us vs →
      ∃ a b, encodeCompositeKeyPart us = .ok a ∧ encodeCompositeKeyPart vs = .ok b ∧
        (a < b ↔ List.Lex ValueLt us vs) ∧ (a = b ↔ us = vs) ∧ (a <+: b → a = b) ∧
        ∀ (region : Bytes) (id : String),
          idFromEntry (region ++ a ++ asBytes id) region.length us.length = some id := by
  intro h
  obtain ⟨a, _, _, _, _, _, _, hid⟩ := h [] [] .nil
  have hempty : some "x" = none := (hid [] "x").symm.trans (idFromEntry_zero _ _)
  cases hempty

end Index

end Dllb
