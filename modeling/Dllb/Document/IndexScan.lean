import Mathlib
import Dllb.Document.IndexOrder

/-! # Range scans of an index are exact

The bounds of the scan extend the equality part by escaped bytes, closed just
above the terminator where the bound must also pass every record of its value.
-/

namespace Dllb.Index

set_option autoImplicit false

/-! ## Entries -/

/-- A tuple of the index with the bytes that encode it, and the record it belongs to. -/
structure Entry (fieldCount : Nat) where
  values : List Value
  id : String
  part : Bytes
  length_values : values.length = fieldCount
  encoded : encodeCompositeKeyPart values = .ok part

namespace Entry

variable {fieldCount : Nat}

def key (region : Bytes) (e : Entry fieldCount) : Bytes := region ++ e.part ++ asBytes e.id

theorem indexable (e : Entry fieldCount) : ∀ v ∈ e.values, Indexable v :=
  (indexable_of_encodeCompositeKeyPart e.encoded).1

theorem part_eq (e : Entry fieldCount) : e.part = tupleCode e.values :=
  (indexable_of_encodeCompositeKeyPart e.encoded).2

theorem idFromEntry_key (e : Entry fieldCount) (h : 0 < fieldCount) (region : Bytes) :
    idFromEntry (e.key region) region.length fieldCount = some e.id := by
  have hne : e.values ≠ [] := by
    rintro hnil
    simp [← e.length_values, hnil] at h
  rw [key, e.part_eq, ← fromUtf8_asBytes e.id, ← idFromEntry_tupleCode region hne, e.length_values]

end Entry

/-! ## What a lookup asks for -/

def AboveLower (raw : Bytes) : Option RangeBound → Prop
  | none => True
  | some (v, inclusive) => if inclusive then rawOf v ≤ raw else rawOf v < raw

def BelowUpper (raw : Bytes) : Option RangeBound → Prop
  | none => True
  | some (v, inclusive) => if inclusive then raw ≤ rawOf v else raw < rawOf v

instance (raw : Bytes) : (bound : Option RangeBound) → Decidable (AboveLower raw bound)
  | none => inferInstanceAs (Decidable True)
  | some (v, inclusive) =>
    inferInstanceAs (Decidable (if inclusive = true then rawOf v ≤ raw else rawOf v < raw))

instance (raw : Bytes) : (bound : Option RangeBound) → Decidable (BelowUpper raw bound)
  | none => inferInstanceAs (Decidable True)
  | some (v, inclusive) =>
    inferInstanceAs (Decidable (if inclusive = true then raw ≤ rawOf v else raw < rawOf v))

/-- The leading raw encodings are those of `eq` and the next one lies within the bounds. -/
def Selects (eq : List Value) (lower upper : Option RangeBound) (values : List Value) : Prop :=
  (values.take eq.length).map rawOf = eq.map rawOf ∧
    ∀ next ∈ values[eq.length]?, AboveLower (rawOf next) lower ∧ BelowUpper (rawOf next) upper

instance (eq : List Value) (lower upper : Option RangeBound) (values : List Value) :
    Decidable (Selects eq lower upper values) :=
  inferInstanceAs (Decidable (_ ∧ ∀ next ∈ values[eq.length]?, _))

/-! ## The bounds of the scan -/

def BoundIndexable (bound : Option RangeBound) : Prop := ∀ b ∈ bound, Indexable b.1

theorem prefixEnd_append_term (a b : Bytes) : Key.prefixEnd (a ++ b ++ term) = a ++ (b ++ [0x00, 0x02]) := by
  rw [Key.prefixEnd_append (by decide), List.append_assoc]
  rfl

/-- What the lower bound adds to the equality part. -/
def lowerTail : Option RangeBound → Bytes
  | none => []
  | some (v, inclusive) => escapeInto (rawOf v) ++ if inclusive then [] else [0x00, 0x02]

def upperTail (v : Value) (inclusive : Bool) : Bytes :=
  escapeInto (rawOf v) ++ if inclusive then [0x00, 0x02] else []

/-- The exclusive end of the scan. -/
def upperEnd (base : Bytes) : Option RangeBound → Bytes
  | none => Key.prefixEnd base
  | some (v, inclusive) => base ++ upperTail v inclusive

theorem scanStart_eq (base : Bytes) {lower : Option RangeBound} (h : BoundIndexable lower) :
    scanStart base lower = .ok (base ++ lowerTail lower) := by
  match lower, h with
  | none, _ => simp [scanStart, lowerTail]
  | some (v, inclusive), h =>
    rw [scanStart, encodeIndexValueEscaped_of_indexable (h _ rfl)]
    cases inclusive with
    | true => exact congrArg Except.ok (by simp [lowerTail])
    | false => exact congrArg Except.ok (prefixEnd_append_term base _)

theorem scanStop_eq (base : Bytes) {upper : Option RangeBound} (h : BoundIndexable upper) :
    scanStop base upper = .ok (upperEnd base upper) := by
  match upper, h with
  | none, _ => rfl
  | some (v, inclusive), h =>
    rw [scanStop, encodeIndexValueEscaped_of_indexable (h _ rfl)]
    cases inclusive with
    | true => exact congrArg Except.ok (prefixEnd_append_term base _)
    | false => exact congrArg Except.ok (by simp [upperEnd, upperTail])

theorem le_append (a b : Bytes) : a ≤ a ++ b := by
  rcases b with _ | ⟨x, b⟩
  · simp
  · exact (Lex.lt_append_cons a x b).le

theorem lowerTail_le_iff (lower : Option RangeBound) (raw rest : Bytes) :
    lowerTail lower ≤ keyCode raw ++ rest ↔ AboveLower raw lower := by
  match lower with
  | none => simpa [AboveLower, lowerTail] using le_append [] (keyCode raw ++ rest)
  | some (v, true) =>
    have h := Lex.terminated_lt_escape_iff (z := (0x00 : UInt8)) (e := 0x01) (m := 0xFF)
      (fun _ => UInt8.zero_le) (by decide) raw (rawOf v) rest
    simpa [AboveLower, lowerTail, keyCode, term, escapeInto] using not_congr h
  | some (v, false) =>
    have h := Lex.terminated_lt_closed_iff (z := (0x00 : UInt8)) (e := 0x01) (f := 0x02) (m := 0xFF)
      (fun _ => UInt8.zero_le) (by decide) (by decide) raw (rawOf v) rest
    simpa [AboveLower, lowerTail, keyCode, term, escapeInto] using not_congr h

theorem lt_upperTail_iff (v : Value) (inclusive : Bool) (raw rest : Bytes) :
    keyCode raw ++ rest < upperTail v inclusive ↔ BelowUpper raw (some (v, inclusive)) := by
  cases inclusive with
  | true =>
    simpa [BelowUpper, upperTail, keyCode, term, escapeInto] using
      Lex.terminated_lt_closed_iff (z := (0x00 : UInt8)) (e := 0x01) (f := 0x02) (m := 0xFF)
        (fun _ => UInt8.zero_le) (by decide) (by decide) raw (rawOf v) rest
  | false =>
    simpa [BelowUpper, upperTail, keyCode, term, escapeInto] using
      Lex.terminated_lt_escape_iff (z := (0x00 : UInt8)) (e := 0x01) (m := 0xFF)
        (fun _ => UInt8.zero_le) (by decide) raw (rawOf v) rest

/-- The half-open range of the scan. -/
def InScan (base : Bytes) (lower upper : Option RangeBound) (k : Bytes) : Prop :=
  base ++ lowerTail lower ≤ k ∧ k < upperEnd base upper

instance (base : Bytes) (lower upper : Option RangeBound) (k : Bytes) :
    Decidable (InScan base lower upper k) :=
  inferInstanceAs (Decidable (_ ≤ _ ∧ _ < _))

/-- Whatever the bounds, the scan stays among the extensions of the equality part. -/
theorem prefix_of_inScan {base : Bytes} (hbase : Key.prefixEnd base ≠ []) {lower upper : Option RangeBound}
    {k : Bytes} (h : InScan base lower upper k) : base <+: k := by
  rw [← Key.mem_range_prefixEnd_iff hbase]
  refine ⟨(le_append base _).trans h.1, ?_⟩
  match upper, h.2 with
  | none, hlt => exact hlt
  | some (v, inclusive), hlt =>
    exact hlt.trans ((Key.mem_range_prefixEnd_iff hbase _).mpr (List.prefix_append base _)).2

theorem tupleCode_prefix_iff {eq values : List Value} (hlen : eq.length ≤ values.length) (rest : Bytes) :
    tupleCode eq <+: tupleCode values ++ rest ↔ (values.take eq.length).map rawOf = eq.map rawOf := by
  have hsplit : tupleCode values ++ rest =
      tupleCode (values.take eq.length) ++ (tupleCode (values.drop eq.length) ++ rest) := by
    rw [← List.append_assoc, ← tupleCode_append, List.take_append_drop]
  have htake : (values.take eq.length).length = eq.length := by simpa using hlen
  rw [hsplit]
  constructor
  · rintro ⟨t, ht⟩
    exact ((tupleCode_append_eq_iff htake _ _).mp ht.symm).1
  · intro h
    refine ⟨tupleCode (values.drop eq.length) ++ rest, ?_⟩
    exact ((tupleCode_append_eq_iff htake _ _).mpr ⟨h, rfl⟩).symm

/-- The scan meets an entry exactly when the lookup asks for it. -/
theorem inScan_key_iff {fieldCount : Nat} {region : Bytes}
    (hbase : ∀ r, Key.prefixEnd (region ++ r) ≠ []) {eq : List Value} (hlen : eq.length ≤ fieldCount)
    {lower upper : Option RangeBound} (hbounds : eq.length = fieldCount → lower = none ∧ upper = none)
    (e : Entry fieldCount) :
    InScan (region ++ tupleCode eq) lower upper (e.key region) ↔ Selects eq lower upper e.values := by
  have hle : eq.length ≤ e.values.length := hlen.trans_eq e.length_values.symm
  have hext : region ++ tupleCode eq <+: e.key region ↔
      (e.values.take eq.length).map rawOf = eq.map rawOf := by
    rw [Entry.key, e.part_eq, List.append_assoc, List.prefix_append_right_inj]
    exact tupleCode_prefix_iff hle _
  by_cases hmatch : (e.values.take eq.length).map rawOf = eq.map rawOf
  swap
  · refine iff_of_false (fun h => hmatch ?_) (fun h => hmatch h.1)
    exact hext.mp (prefix_of_inScan (hbase _) h)
  rcases hlen.lt_or_eq with hlt | hfull
  · -- The next field exists; what follows the equality part starts with its key code.
    have hnext : eq.length < e.values.length := hlt.trans_eq e.length_values.symm
    obtain ⟨rest, hrest⟩ : ∃ rest, e.key region =
        region ++ tupleCode eq ++ (keyCode (rawOf e.values[eq.length]) ++ rest) := by
      refine ⟨tupleCode (e.values.drop (eq.length + 1)) ++ asBytes e.id, ?_⟩
      have htake : tupleCode (e.values.take eq.length) = tupleCode eq := by
        rw [tupleCode, tupleCode, hmatch]
      rw [Entry.key, e.part_eq, ← htake, ← List.append_assoc (keyCode _), ← tupleCode_cons,
        ← List.drop_eq_getElem_cons hnext, List.append_assoc region, List.append_assoc region,
        ← List.append_assoc (tupleCode _), ← tupleCode_append, List.take_append_drop]
    have hstart : region ++ tupleCode eq ++ lowerTail lower ≤ e.key region ↔
        AboveLower (rawOf e.values[eq.length]) lower := by
      rw [hrest, Lex.append_le_append_left_iff, lowerTail_le_iff]
    simp only [Selects, hmatch, true_and, InScan, hstart, List.getElem?_eq_getElem hnext,
      Option.mem_def, Option.some.injEq, forall_eq']
    refine and_congr_right fun _ => ?_
    obtain _ | ⟨v, inclusive⟩ := upper
    · simp only [BelowUpper, iff_true]
      exact ((Key.mem_range_prefixEnd_iff (hbase _) _).mpr (hext.mpr hmatch)).2
    · rw [upperEnd, hrest, Lex.append_lt_append_left_iff, lt_upperTail_iff]
  · obtain ⟨rfl, rfl⟩ := hbounds hfull
    have hnone : e.values[eq.length]? = none := by
      rw [List.getElem?_eq_none]
      exact (e.length_values.trans hfull.symm).le
    simp only [Selects, hmatch, hnone, InScan, lowerTail, upperEnd, List.append_nil]
    simpa [Key.mem_range_prefixEnd_iff (hbase _)] using hext.mpr hmatch

/-! ## The lookup -/

theorem scan_eq_filter_prefixScan (s : Store) {region start stop : Bytes} (hregion : Key.prefixEnd region ≠ [])
    (h : ∀ k, start ≤ k → k < stop → region <+: k) :
    s.scan start stop =
      (s.prefixScan region).filter fun kv => decide (start ≤ kv.1) && decide (kv.1 < stop) := by
  rw [Store.prefixScan, Store.scan, Store.scan, List.filter_filter]
  apply List.filter_congr
  rintro ⟨k, v⟩ _
  by_cases hk : start ≤ k ∧ k < stop
  · obtain ⟨hlow, hhigh⟩ := (Key.mem_range_prefixEnd_iff hregion k).mpr (h k hk.1 hk.2)
    simp [hk, hlow, hhigh]
  · simp only [← Bool.decide_and, hk, decide_false, Bool.false_and]

theorem scan_eq_nil_of_le (s : Store) {start stop : Bytes} (h : stop ≤ start) : s.scan start stop = [] := by
  rw [Store.scan, List.filter_eq_nil_iff]
  rintro ⟨k, v⟩ _ hk
  simp only [Bool.and_eq_true, decide_eq_true_eq] at hk
  exact absurd (hk.1.trans_lt hk.2) h.not_gt

theorem prefixEnd_indexPrefix_append_ne_nil (ns db table indexName : String) (r : Bytes) :
    Key.prefixEnd (Key.indexPrefix ns db table indexName ++ r) ≠ [] := by
  rw [Key.indexPrefix_eq, List.append_assoc]
  exact Key.prefixEnd_tablePrefix_append_ne_nil ns db table Key.Tag.index _

theorem run_findIds (ns db table indexName : String) {eq : List Value} (heq : ∀ v ∈ eq, Indexable v)
    {lower upper : Option RangeBound} (hlower : BoundIndexable lower) (hupper : BoundIndexable upper)
    (fieldCount : Nat) (s : Store) :
    (findIds ns db table indexName eq lower upper fieldCount).run s =
      (.ok (((s.scanPrefixKeys (Key.indexPrefix ns db table indexName)).filter fun k =>
        decide (InScan (Key.indexPrefix ns db table indexName ++ tupleCode eq) lower upper k)).filterMap
          fun k => idFromEntry k (Key.indexPrefix ns db table indexName).length fieldCount), s) := by
  have hbase := prefixEnd_indexPrefix_append_ne_nil ns db table indexName
  generalize hregion : Key.indexPrefix ns db table indexName = region at hbase ⊢
  have hscan : s.scan (region ++ tupleCode eq ++ lowerTail lower) (upperEnd (region ++ tupleCode eq) upper) =
      (s.prefixScan region).filter fun kv =>
        decide (InScan (region ++ tupleCode eq) lower upper kv.1) := by
    rw [scan_eq_filter_prefixScan s (by simpa using hbase [])]
    · apply List.filter_congr
      intro kv _
      exact (Bool.decide_and ..).symm
    · intro k hlow hhigh
      have hin : InScan (region ++ tupleCode eq) lower upper k := ⟨hlow, hhigh⟩
      exact (List.prefix_append region _).trans (prefix_of_inScan (hbase _) hin)
  have hids : ((s.scan (region ++ tupleCode eq ++ lowerTail lower)
      (upperEnd (region ++ tupleCode eq) upper)).filterMap fun kv => idFromEntry kv.1 region.length fieldCount) =
      ((s.scanPrefixKeys region).filter fun k =>
        decide (InScan (region ++ tupleCode eq) lower upper k)).filterMap
          fun k => idFromEntry k region.length fieldCount := by
    rw [hscan, Store.scanPrefixKeys, List.filter_map, List.filterMap_map]
    rfl
  rw [findIds, encodeCompositeKeyPart_of_indexable heq]
  simp only [hregion, Prog.run_lift_ok_bind, scanStart_eq _ hlower, scanStop_eq _ hupper]
  split
  · rename_i hle
    rw [← hids, scan_eq_nil_of_le s hle]
    rfl
  · rw [← hids]
    rfl

/-- Among the keys of entries, those in the scan carry the ids of the selected entries. -/
theorem filterMap_idFromEntry_inScan {fieldCount : Nat} (hcount : 0 < fieldCount) {region : Bytes}
    (hbase : ∀ r, Key.prefixEnd (region ++ r) ≠ []) (es : List (Entry fieldCount)) {eq : List Value}
    (hlen : eq.length ≤ fieldCount) {lower upper : Option RangeBound}
    (hbounds : eq.length = fieldCount → lower = none ∧ upper = none) :
    (((es.map (Entry.key region)).filter fun k =>
      decide (InScan (region ++ tupleCode eq) lower upper k)).filterMap
        fun k => idFromEntry k region.length fieldCount) =
      (es.filter fun e => decide (Selects eq lower upper e.values)).map Entry.id := by
  rw [List.filter_map, List.filterMap_map]
  have hfilter : es.filter ((fun k => decide (InScan (region ++ tupleCode eq) lower upper k)) ∘
      Entry.key region) = es.filter fun e => decide (Selects eq lower upper e.values) := by
    apply List.filter_congr
    intro e _
    exact decide_eq_decide.mpr (inScan_key_iff hbase hlen hbounds e)
  rw [hfilter, ← List.filterMap_eq_map]
  apply List.filterMap_congr
  intro e _
  exact e.idFromEntry_key hcount _

/-- A lookup answers, in ascending key order and once per entry, the ids of the entries it selects,
whatever lies outside the region of the index. -/
theorem findIds_exact (ns db table indexName : String) {fieldCount : Nat} (hcount : 0 < fieldCount)
    {s : Store} (es : List (Entry fieldCount))
    (hregion : s.scanPrefixKeys (Key.indexPrefix ns db table indexName) =
      es.map (Entry.key (Key.indexPrefix ns db table indexName)))
    {eq : List Value} (heq : ∀ v ∈ eq, Indexable v) (hlen : eq.length ≤ fieldCount)
    {lower upper : Option RangeBound} (hlower : BoundIndexable lower) (hupper : BoundIndexable upper)
    (hbounds : eq.length = fieldCount → lower = none ∧ upper = none) :
    (findIds ns db table indexName eq lower upper fieldCount).run s =
      (.ok ((es.filter fun e => decide (Selects eq lower upper e.values)).map Entry.id), s) := by
  have hbase := prefixEnd_indexPrefix_append_ne_nil ns db table indexName
  rw [run_findIds ns db table indexName heq hlower hupper, hregion,
    filterMap_idFromEntry_inScan hcount hbase es hlen hbounds]

/-- The region of an index on one field with the records `a` at 1 and `b` at 5. -/
def twoEntries : Store := Store.putBatch ∅
  [(Key.indexPrefix "n" "d" "t" "i" ++ tupleCode [.int 1] ++ asBytes "a", []),
    (Key.indexPrefix "n" "d" "t" "i" ++ tupleCode [.int 5] ++ asBytes "b", [])]

theorem findIds_exact_twoEntries :
    (findIds "n" "d" "t" "i" [] (some (.int 3, true)) none 1).run twoEntries = (.ok ["b"], twoEntries) := by
  have h : (findIds "n" "d" "t" "i" [] (some (.int 3, true)) none 1).run twoEntries = _ :=
    findIds_exact "n" "d" "t" "i" (by decide)
      [⟨[.int 1], "a", _, rfl, rfl⟩, ⟨[.int 5], "b", _, rfl, rfl⟩] (by decide) (by simp) (by decide)
      (by rintro _ ⟨⟩; rfl) (by rintro _ ⟨⟩) (by simp)
  rw [h]
  rfl

/-- An entry of an index without fields is never answered. -/
theorem findIds_no_fields :
    ¬ ∀ (fieldCount : Nat) (s : Store) (es : List (Entry fieldCount)),
      s.scanPrefixKeys (Key.indexPrefix "n" "d" "t" "i") =
        es.map (Entry.key (Key.indexPrefix "n" "d" "t" "i")) →
      (findIds "n" "d" "t" "i" [] none none fieldCount).run s =
        (.ok ((es.filter fun e => decide (Selects [] none none e.values)).map Entry.id), s) := by
  intro h
  have hrun := h 0 (Store.putBatch ∅ [(Key.indexPrefix "n" "d" "t" "i" ++ asBytes "r", [])])
    [⟨[], "r", [], rfl, rfl⟩] (by decide)
  rw [run_findIds "n" "d" "t" "i" (by simp) (by rintro _ ⟨⟩) (by rintro _ ⟨⟩)] at hrun
  simp only [idFromEntry_zero, List.filterMap_none, Prod.mk.injEq, Except.ok.injEq] at hrun
  exact absurd hrun.1 (by decide)

end Dllb.Index
