import Mathlib
import Dllb.Lib.Comparator
import Dllb.Core.Rounding
import Dllb.Query.Encoded
import Dllb.Query.Reads

/-! # Sorted rows

`ORDER BY` takes values that do not compare for equal. The rows then fall into
ranks only if the values of a field are of one kind, or there is nothing to sort.
-/

namespace Dllb

set_option autoImplicit false

/-! ## The order of the values of a field -/

/-- Values that do not compare are tied. -/
def rankCmp (a b : Value) : Ordering := (cmpValues a b).getD .eq

def Value.isString : Value → Bool
  | .string _ => true
  | _ => false

/-- A NaN is none. -/
def Value.isNumber : Value → Bool
  | .int _ => true
  | .float f => !f.isNan
  | _ => false

def OnlyStrings (V : Value → Prop) : Prop := ∀ v, V v → v.isString = true

/-- Numbers only, and no two integers of one float that is among them. -/
structure OnlyNumbers (V : Value → Prop) : Prop where
  isNumber : ∀ v, V v → v.isNumber = true
  exact : ∀ m n f, V (.int m) → V (.int n) → V (.float f) →
    (F64.ofInt64 m).eq f = true → (F64.ofInt64 n).eq f = true → m = n

/-- One string at most and one number at most, beside values that compare with none. -/
structure Alike (V : Value → Prop) : Prop where
  strings : ∀ s t, V (.string s) → V (.string t) → s = t
  ints : ∀ m n, V (.int m) → V (.int n) → m = n
  floats : ∀ f g, V (.float f) → V (.float g) → f.isNan = false → g.isNan = false → f.eq g = true
  mixed : ∀ n f, V (.int n) → V (.float f) → f.isNan = false → (F64.ofInt64 n).eq f = true

/-- The values of a field that are set, which `ORDER BY` ranks. -/
def SetOf (V : Value → Prop) (v : Value) : Prop := V v ∧ v.isNone = false

def Sortable (V : Value → Prop) : Prop :=
  OnlyStrings (SetOf V) ∨ OnlyNumbers (SetOf V) ∨ Alike (SetOf V)

@[simp] theorem rankCmp_string (s t : String) : rankCmp (.string s) (.string t) = cmpString s t := rfl

@[simp] theorem rankCmp_int (m n : Int64) : rankCmp (.int m) (.int n) = compare m.toInt n.toInt := rfl

theorem partialCmp_of_numbers {f g : F64} (hf : f.isNan = false) (hg : g.isNan = false) :
    f.partialCmp g = some (compare f.signedMagnitude g.signedMagnitude) := by
  simp [F64.partialCmp, hf, hg]

theorem rankCmp_float {f g : F64} (hf : f.isNan = false) (hg : g.isNan = false) :
    rankCmp (.float f) (.float g) = compare f.signedMagnitude g.signedMagnitude := by
  rw [rankCmp, cmpValues, partialCmp_of_numbers hf hg]
  rfl

theorem rankCmp_int_float (n : Int64) {f : F64} (hf : f.isNan = false) :
    rankCmp (.int n) (.float f) = compare (F64.ofInt64 n).signedMagnitude f.signedMagnitude := by
  rw [rankCmp, cmpValues, partialCmp_of_numbers (F64.isNan_ofInt64 n) hf]
  rfl

theorem rankCmp_float_int (n : Int64) {f : F64} (hf : f.isNan = false) :
    rankCmp (.float f) (.int n) = compare f.signedMagnitude (F64.ofInt64 n).signedMagnitude := by
  rw [rankCmp, cmpValues, partialCmp_of_numbers hf (F64.isNan_ofInt64 n)]
  rfl

theorem rankCmp_nan_left {f : F64} (hf : f.isNan = true) (v : Value) : rankCmp (.float f) v = .eq := by
  cases v <;> simp [rankCmp, cmpValues, F64.partialCmp, hf]

theorem rankCmp_nan_right {f : F64} (hf : f.isNan = true) (v : Value) : rankCmp v (.float f) = .eq := by
  cases v <;> simp [rankCmp, cmpValues, F64.partialCmp, hf]

/-- Values of different kinds are tied. -/
theorem rankCmp_eq_of_kinds {v w : Value} (hstring : ¬ (v.isString = true ∧ w.isString = true))
    (hnumber : ¬ (v.isNumber = true ∧ w.isNumber = true)) : rankCmp v w = .eq := by
  cases v with
  | string s =>
    cases w with
    | string t => simp [Value.isString] at hstring
    | _ => rfl
  | int m =>
    cases w with
    | int n => simp [Value.isNumber] at hnumber
    | float f => exact rankCmp_nan_right (by simpa [Value.isNumber] using hnumber) _
    | _ => rfl
  | float f =>
    cases hf : f.isNan with
    | true => exact rankCmp_nan_left hf w
    | false =>
      cases w with
      | int n => simp [Value.isNumber, hf] at hnumber
      | float g => exact rankCmp_nan_right (by simpa [Value.isNumber, hf] using hnumber) _
      | _ => rfl
  | _ => rfl

/-! ## Values of one kind -/

theorem exists_of_isString {v : Value} (h : v.isString = true) : ∃ s, v = .string s := by
  cases v with
  | string s => exact ⟨s, rfl⟩
  | _ => cases h

theorem exists_of_isNumber {v : Value} (h : v.isNumber = true) :
    (∃ n, v = .int n) ∨ ∃ f, v = .float f ∧ f.isNan = false := by
  cases v with
  | int n => exact .inl ⟨n, rfl⟩
  | float f => exact .inr ⟨f, rfl, by simpa [Value.isNumber] using h⟩
  | _ => cases h

theorem OnlyStrings.ordersOn {V : Value → Prop} (h : OnlyStrings V) : OrdersOn rankCmp V := by
  have hstring : OrdersOn cmpString fun _ => True := .of_transCmp
  constructor
  · intro a b ha hb
    obtain ⟨s, rfl⟩ := exists_of_isString (h a ha)
    obtain ⟨t, rfl⟩ := exists_of_isString (h b hb)
    exact hstring.swap s t trivial trivial
  · intro a b c ha hb hc
    obtain ⟨s, rfl⟩ := exists_of_isString (h a ha)
    obtain ⟨t, rfl⟩ := exists_of_isString (h b hb)
    obtain ⟨u, rfl⟩ := exists_of_isString (h c hc)
    exact hstring.lt_trans s t u trivial trivial trivial
  · intro a b c ha hb hc
    obtain ⟨s, rfl⟩ := exists_of_isString (h a ha)
    obtain ⟨t, rfl⟩ := exists_of_isString (h b hb)
    obtain ⟨u, rfl⟩ := exists_of_isString (h c hc)
    exact hstring.eq_trans s t u trivial trivial trivial

/-- Integers in their order, with the floats they become. -/
theorem ofInt64_total (m n : Int64) :
    (m.toInt ≤ n.toInt ∧ (F64.ofInt64 m).signedMagnitude ≤ (F64.ofInt64 n).signedMagnitude) ∨
      n.toInt < m.toInt ∧ (F64.ofInt64 n).signedMagnitude ≤ (F64.ofInt64 m).signedMagnitude := by
  rcases le_or_gt m.toInt n.toInt with h | h
  · exact .inl ⟨h, F64.signedMagnitude_ofInt64_mono h⟩
  · exact .inr ⟨h, F64.signedMagnitude_ofInt64_mono h.le⟩

theorem OnlyNumbers.ordersOn {V : Value → Prop} (h : OnlyNumbers V) : OrdersOn rankCmp V where
  swap a b ha hb := by
    obtain ⟨m, rfl⟩ | ⟨f, rfl, hf⟩ := exists_of_isNumber (h.isNumber a ha) <;>
      obtain ⟨n, rfl⟩ | ⟨g, rfl, hg⟩ := exists_of_isNumber (h.isNumber b hb)
    · exact Std.OrientedOrd.eq_swap
    · rw [rankCmp_float_int m hg, rankCmp_int_float m hg]
      exact Std.OrientedOrd.eq_swap
    · rw [rankCmp_float_int n hf, rankCmp_int_float n hf]
      exact Std.OrientedOrd.eq_swap
    · rw [rankCmp_float hf hg, rankCmp_float hg hf]
      exact Std.OrientedOrd.eq_swap
  lt_trans a b c ha hb hc hab hbc := by
    -- an integer between two floats, or a float between two integers, is where the rounding enters
    obtain ⟨m, rfl⟩ | ⟨f, rfl, hf⟩ := exists_of_isNumber (h.isNumber a ha) <;>
      obtain ⟨n, rfl⟩ | ⟨g, rfl, hg⟩ := exists_of_isNumber (h.isNumber b hb) <;>
        obtain ⟨k, rfl⟩ | ⟨e, rfl, he⟩ := exists_of_isNumber (h.isNumber c hc) <;>
          simp only [rankCmp_int, rankCmp_int_float, rankCmp_float_int, rankCmp_float, *,
            compare_lt_iff_lt] at hab hbc ⊢
    · omega
    · have hmn := ofInt64_total m n
      omega
    · have hkm := ofInt64_total k m
      omega
    · omega
    · have hnk := ofInt64_total n k
      omega
    · omega
    · omega
    · omega
  eq_trans a b c ha hb hc hab hbc := by
    obtain ⟨m, rfl⟩ | ⟨f, rfl, hf⟩ := exists_of_isNumber (h.isNumber a ha) <;>
      obtain ⟨n, rfl⟩ | ⟨g, rfl, hg⟩ := exists_of_isNumber (h.isNumber b hb) <;>
        obtain ⟨k, rfl⟩ | ⟨e, rfl, he⟩ := exists_of_isNumber (h.isNumber c hc) <;>
          simp only [rankCmp_int, rankCmp_int_float, rankCmp_float_int, rankCmp_float, *,
            compare_eq_iff_eq, Int64.toInt_inj] at hab hbc ⊢
    · exact hab.trans hbc
    · rwa [hab]
    · exact h.exact m k g ha hc hb ((F64.eq_iff ..).mpr ⟨F64.isNan_ofInt64 m, hg, hab⟩)
        ((F64.eq_iff ..).mpr ⟨F64.isNan_ofInt64 k, hg, hbc.symm⟩)
    · exact hab.trans hbc
    · rwa [← hbc]
    · exact hab.trans hbc
    · exact hab.trans hbc
    · exact hab.trans hbc

theorem Alike.ties {V : Value → Prop} (h : Alike V) {v w : Value} (hv : V v) (hw : V w) :
    rankCmp v w = .eq := by
  by_cases hstring : v.isString = true ∧ w.isString = true
  · obtain ⟨s, rfl⟩ := exists_of_isString hstring.1
    obtain ⟨t, rfl⟩ := exists_of_isString hstring.2
    rw [h.strings s t hv hw, rankCmp_string]
    exact Std.ReflCmp.compare_self
  · by_cases hnumber : v.isNumber = true ∧ w.isNumber = true
    · obtain ⟨m, rfl⟩ | ⟨f, rfl, hf⟩ := exists_of_isNumber hnumber.1 <;>
        obtain ⟨n, rfl⟩ | ⟨g, rfl, hg⟩ := exists_of_isNumber hnumber.2
      · rw [h.ints m n hv hw, rankCmp_int, compare_eq_iff_eq]
      · rw [rankCmp_int_float m hg, compare_eq_iff_eq]
        exact ((F64.eq_iff ..).mp (h.mixed m g hv hw hg)).2.2
      · rw [rankCmp_float_int n hf, compare_eq_iff_eq]
        exact ((F64.eq_iff ..).mp (h.mixed n f hw hv hf)).2.2.symm
      · rw [rankCmp_float hf hg, compare_eq_iff_eq]
        exact ((F64.eq_iff ..).mp (h.floats f g hv hw hf hg)).2.2
    · exact rankCmp_eq_of_kinds hstring hnumber

theorem alike_of_ties {V : Value → Prop} (h : ∀ v w, V v → V w → rankCmp v w = .eq) : Alike V where
  strings s t hs ht := by
    have htie : cmpString s t = .eq := h _ _ hs ht
    exact Std.LawfulEqCmp.eq_of_compare htie
  ints m n hm hn := Int64.toInt_inj.mp (compare_eq_iff_eq.mp (h _ _ hm hn))
  floats f g hf hg hfn hgn := by
    have htie := h _ _ hf hg
    rw [rankCmp_float hfn hgn, compare_eq_iff_eq] at htie
    exact (F64.eq_iff ..).mpr ⟨hfn, hgn, htie⟩
  mixed n f hn hf hfn := by
    have htie := h _ _ hn hf
    rw [rankCmp_int_float n hfn, compare_eq_iff_eq] at htie
    exact (F64.eq_iff ..).mpr ⟨F64.isNan_ofInt64 n, hfn, htie⟩

/-- The values of a field fall into ranks exactly when they are of one kind or all tied. -/
theorem ordersOn_rankCmp_iff (V : Value → Prop) :
    OrdersOn rankCmp V ↔ OnlyStrings V ∨ OnlyNumbers V ∨ Alike V := by
  constructor
  · intro h
    by_cases hties : ∀ v w, V v → V w → rankCmp v w = .eq
    · exact .inr (.inr (alike_of_ties hties))
    push Not at hties
    obtain ⟨v, w, hv, hw, hne⟩ := hties
    -- a value of another kind would tie with both
    have hkind : ∀ u, V u → rankCmp v u = .eq → rankCmp u w = .eq → False :=
      fun u hu hvu huw => hne (h.eq_trans v u w hv hu hw hvu huw)
    by_cases hstring : v.isString = true ∧ w.isString = true
    · left
      intro u hu
      by_contra hno
      obtain ⟨s, rfl⟩ := exists_of_isString hstring.1
      obtain ⟨t, rfl⟩ := exists_of_isString hstring.2
      exact hkind u hu (rankCmp_eq_of_kinds (fun h => hno h.2) fun h => by cases h.1)
        (rankCmp_eq_of_kinds (fun h => hno h.1) fun h => by cases h.2)
    · have hnumber : v.isNumber = true ∧ w.isNumber = true := by
        by_contra hno
        exact hne (rankCmp_eq_of_kinds hstring hno)
      have hnot : ∀ u : Value, u.isNumber = true → u.isString = false := by
        intro u hu
        obtain ⟨n, rfl⟩ | ⟨f, rfl, -⟩ := exists_of_isNumber hu <;> rfl
      right
      left
      refine ⟨fun u hu => ?_, fun m n f hm hn hf hmf hnf => ?_⟩
      · by_contra hno
        exact hkind u hu
          (rankCmp_eq_of_kinds (fun h => by simp [hnot v hnumber.1] at h) fun h => hno h.2)
          (rankCmp_eq_of_kinds (fun h => by simp [hnot w hnumber.2] at h) fun h => hno h.1)
      · obtain ⟨-, hfn, hmf⟩ := (F64.eq_iff ..).mp hmf
        obtain ⟨-, -, hnf⟩ := (F64.eq_iff ..).mp hnf
        have htie : rankCmp (.int m) (.int n) = .eq := by
          refine h.eq_trans _ (.float f) _ hm hf hn ?_ ?_
          · rw [rankCmp_int_float m hfn, compare_eq_iff_eq, hmf]
          · rw [rankCmp_float_int n hfn, compare_eq_iff_eq, hnf]
        exact Int64.toInt_inj.mp (compare_eq_iff_eq.mp htie)
  · rintro (h | h | h)
    · exact h.ordersOn
    · exact h.ordersOn
    · exact .of_ties fun v w hv hw => h.ties hv hw

/-! ## Documents -/

/-- The fields of the document hold values of `V`. -/
def Within (V : String → Value → Prop) (doc : Document) : Prop :=
  ∀ field v, doc.fields[field]? = some v → V field v

theorem orderCmp_eq (a b : Option Value) :
    orderCmp a b = missingLast rankCmp (a.filter (!·.isNone)) (b.filter (!·.isNone)) := by
  unfold orderCmp missingLast
  cases a.filter (!·.isNone) <;> cases b.filter (!·.isNone) <;> rfl

theorem ordersOn_orderCmp {V : Value → Prop} (h : OrdersOn rankCmp (SetOf V)) :
    OrdersOn orderCmp fun o => ∀ v, o = some v → V v := by
  refine ((h.missingLast.comap fun o : Option Value => o.filter (!·.isNone)).mono ?_).congr
    fun a b _ _ => orderCmp_eq a b
  intro o ho v hv
  obtain ⟨ho', hset⟩ := Option.filter_eq_some_iff.mp hv
  exact ⟨ho v ho', by simpa using hset⟩

theorem ite_eq_then (o o' : Ordering) : (if o = .eq then o' else o) = o.then o' := by
  cases o <;> rfl

/-- One key after the other. -/
theorem ordersOn_compareBy {V : String → Value → Prop} {keys : List OrderKey}
    (h : ∀ key ∈ keys, OrdersOn rankCmp (SetOf (V key.field))) :
    OrdersOn (fun a b => compareBy a b keys) (Within V) := by
  induction keys with
  | nil => exact .of_ties fun _ _ _ _ => rfl
  | cons key keys ih =>
    obtain ⟨hkey, hkeys⟩ := List.forall_mem_cons.mp h
    have hone : OrdersOn (fun a b : Document => orderCmp a.fields[key.field]? b.fields[key.field]?)
        (Within V) :=
      ((ordersOn_orderCmp hkey).comap fun doc : Document => doc.fields[key.field]?).mono
        fun doc hdoc v hv => hdoc key.field v hv
    have hturned : OrdersOn (fun a b : Document =>
        if key.descending then (orderCmp a.fields[key.field]? b.fields[key.field]?).swap
        else orderCmp a.fields[key.field]? b.fields[key.field]?) (Within V) := by
      cases key.descending with
      | true => exact hone.reverse
      | false => exact hone
    exact (hturned.then (ih hkeys)).congr fun a b _ _ => ite_eq_then _ _

/-- A document with one field. -/
def holding (field : String) (v : Value) : Document := ⟨⟨"", ""⟩, (∅ : Fields).insert field v⟩

theorem getElem?_holding (field : String) (v : Value) (k : String) :
    (holding field v).fields[k]? = if field = k then some v else none := by
  rw [holding, getElem?_insert_string]
  simp

theorem within_holding {V : String → Value → Prop} {field : String} {v : Value} (hv : V field v) :
    Within V (holding field v) := by
  intro k w hw
  rw [getElem?_holding] at hw
  obtain ⟨rfl, hvw⟩ := Option.ite_none_right_eq_some.mp hw
  cases hvw
  exact hv

theorem orderCmp_holding (field : String) {v w : Value} (hv : v.isNone = false) (hw : w.isNone = false)
    (k : String) :
    orderCmp (holding field v).fields[k]? (holding field w).fields[k]? =
      if field = k then rankCmp v w else .eq := by
  have hkept : ∀ {u : Value}, u.isNone = false → Option.filter (!·.isNone) (some u) = some u := by
    intro u hu
    rw [Option.filter_some, if_pos (by simp [hu])]
  rw [getElem?_holding, getElem?_holding]
  split
  · rw [orderCmp_eq, hkept hv, hkept hw]
    rfl
  · rfl

/-- Documents with one field are ordered by the first key that names it. -/
theorem compareBy_holding {field : String} {keys : List OrderKey} (h : ∃ key ∈ keys, key.field = field) :
    ∃ descending : Bool, ∀ v w : Value, v.isNone = false → w.isNone = false →
      compareBy (holding field v) (holding field w) keys =
        if descending then (rankCmp v w).swap else rankCmp v w := by
  induction keys with
  | nil =>
    obtain ⟨_, hkey, -⟩ := h
    cases hkey
  | cons key keys ih =>
    by_cases hfield : field = key.field
    · refine ⟨key.descending, fun v w hv hw => ?_⟩
      have htail : ∀ keys : List OrderKey, rankCmp v w = .eq →
          compareBy (holding field v) (holding field w) keys = .eq := by
        intro keys heq
        induction keys with
        | nil => rfl
        | cons key keys ih =>
          have hone : orderCmp (holding field v).fields[key.field]? (holding field w).fields[key.field]? = .eq := by
            rw [orderCmp_holding field hv hw, heq, ite_self]
          simp [compareBy, hone, ih]
      rw [compareBy, orderCmp_holding field hv hw, if_pos hfield]
      by_cases htie : rankCmp v w = .eq
      · cases key.descending <;> simp [htie, htail keys htie]
      · cases key.descending <;> simp [htie]
    · obtain ⟨descending, hrest⟩ := ih (by
        obtain ⟨k, hk, hname⟩ := h
        rcases List.mem_cons.mp hk with rfl | hk
        · exact absurd hname.symm hfield
        · exact ⟨k, hk, hname⟩)
      refine ⟨descending, fun v w hv hw => ?_⟩
      have hone : orderCmp (holding field v).fields[key.field]? (holding field w).fields[key.field]? = .eq := by
        rw [orderCmp_holding field hv hw, if_neg hfield]
      rw [← hrest v w hv hw]
      simp [compareBy, hone]

/-- The documents whose fields hold values of `V` fall into ranks exactly when the values of each key
do. -/
theorem ordersOn_compareBy_iff (V : String → Value → Prop) (keys : List OrderKey) :
    OrdersOn (fun a b => compareBy a b keys) (Within V) ↔ ∀ key ∈ keys, Sortable (V key.field) := by
  constructor
  · intro h key hkey
    obtain ⟨descending, hcmp⟩ := compareBy_holding ⟨key, hkey, rfl⟩
    have hheld : OrdersOn (fun v w => compareBy (holding key.field v) (holding key.field w) keys)
        (SetOf (V key.field)) := (h.comap (holding key.field)).mono fun v hv => within_holding hv.1
    refine (ordersOn_rankCmp_iff _).mp ?_
    cases descending with
    | true =>
      refine hheld.reverse.congr fun v w hv hw => ?_
      rw [hcmp v w hv.2 hw.2]
      simp
    | false => exact hheld.congr fun v w hv hw => (hcmp v w hv.2 hw.2).symm
  · intro h
    exact ordersOn_compareBy fun key hkey => (ordersOn_rankCmp_iff _).mpr (h key hkey)

/-! ## Selections -/

theorem sortDocuments_perm (docs : List Document) (keys : List OrderKey) :
    (sortDocuments docs keys).Perm docs := List.perm_insertionSort _ docs

/-- The rows of a selection come from the documents that meet the condition, and no later one is
before an earlier one. -/
def SelectsInOrder [Rmp] [CodeIntel] [Texts] (ex : QueryExecutor) (s : Store) (source : FromTarget)
    (filter : Option WhereClause) (keys : List OrderKey) (table : String) (docs : List Document) : Prop :=
  ∃ sorted : List Document, sorted.Perm (docs.filter fun doc => filter.all (matchesWhere doc)) ∧
    sorted.Pairwise (fun a b => compareBy b a keys ≠ .lt) ∧
    ∀ items limit, (ex.execDocumentSelect items source filter keys limit).run s =
      (.ok (.rows ((limited sorted limit).map (QueryExecutor.projectRow table items))), s)

/-- The comparison of `ORDER BY` orders the documents with fields in `V` exactly when the values that
`V` has for each key are sortable, and then a selection of such documents comes out sorted. -/
theorem order_by_consistent_iff [Rmp] [CodeIntel] [Texts] (V : String → Value → Prop) (keys : List OrderKey) :
    (OrdersOn (fun a b => compareBy a b keys) (Within V) ↔ ∀ key ∈ keys, Sortable (V key.field)) ∧
    ((∀ key ∈ keys, Sortable (V key.field)) → keys ≠ [] →
      ∀ (ex : QueryExecutor) (s : Store) (source : FromTarget) (filter : Option WhereClause)
        (table : String) (docs : List Document), (ex.selectDocs source filter).run s = (.ok (table, docs), s) →
          (∀ doc ∈ docs, Within V doc) → SelectsInOrder ex s source filter keys table docs) := by
  refine ⟨ordersOn_compareBy_iff V keys, fun hsortable hkeys => ?_⟩
  intro ex s source filter table docs hrun hwithin
  have horders := (ordersOn_compareBy_iff V keys).mpr hsortable
  refine ⟨sortDocuments (docs.filter fun doc => filter.all (matchesWhere doc)) keys,
    sortDocuments_perm _ _, ?_, fun items limit => ?_⟩
  · exact horders.pairwise_insertionSort fun doc hdoc => hwithin doc (List.mem_of_mem_filter hdoc)
  · rw [QueryExecutor.execDocumentSelect, Prog.run_bind_ok hrun]
    cases keys with
    | nil => exact absurd rfl hkeys
    | cons key keys => rfl

/-- An integer, a string and a greater integer: the string ties with both. -/
theorem order_by_inconsistent :
    ¬ ∀ keys : List OrderKey, OrdersOn (fun a b => compareBy a b keys) fun _ => True := by
  intro h
  have htie := (h [⟨"n", false⟩]).eq_trans (holding "n" (.int 1)) (holding "n" (.string "a"))
    (holding "n" (.int 2)) trivial trivial trivial rfl rfl
  cases htie

end Dllb
