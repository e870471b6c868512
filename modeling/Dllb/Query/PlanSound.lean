import Mathlib
import Dllb.Query.Plan

/-! # What an index plan says about a document

A plan consumes some conjuncts of the clause: those conjuncts hold of a
document exactly when the plan's equalities and bounds do.
-/

namespace Dllb

set_option autoImplicit false

variable [CodeIntel]

/-! ## Atoms -/

def AtomHolds (doc : Document) (field : String) : AtomKind → Prop
  | .eq v => ∃ x ∈ doc.fields[field]?, cmpHolds .eq x v = true
  | .lower v inclusive => ∃ x ∈ doc.fields[field]?, cmpHolds (if inclusive then .gte else .gt) x v = true
  | .upper v inclusive => ∃ x ∈ doc.fields[field]?, cmpHolds (if inclusive then .lte else .lt) x v = true

def AtomKind.value : AtomKind → Value
  | eq v => v
  | lower v _ => v
  | upper v _ => v

theorem matchesWhere_field_iff (doc : Document) (field : String) (op : CmpOp) (value : Literal) :
    matchesWhere doc (.cmp (.field field) op value) = true ↔
      ∃ x ∈ doc.fields[field]?, cmpHolds op x value.toValue = true := by
  rw [matchesWhere, evalSelectItem]
  cases doc.fields[field]? <;> simp

/-- An atom names the field, the operator and a literal that can be indexed. -/
theorem atomOf_spec {c : WhereClause} {field : String} {kind : AtomKind}
    (h : atomOf c = some (field, kind)) :
    Index.Indexable kind.value ∧ ∀ doc, matchesWhere doc c = true ↔ AtomHolds doc field kind := by
  cases c with
  | and left right => cases h
  | isNull f negated => cases h
  | cmp item op lit =>
    cases item with
    | literal l => cases h
    | functionCall name args => cases h
    | field f =>
      -- A scalar literal with one of the five indexable operators is the only case left.
      cases lit <;> cases op <;>
        first
        | (cases h; exact ⟨rfl, fun doc => matchesWhere_field_iff doc _ _ _⟩)
        | cases h

theorem matchesWhere_iff_conjuncts (doc : Document) (clause : WhereClause) :
    matchesWhere doc clause = true ↔ ∀ c ∈ collectConjuncts clause, matchesWhere doc c = true := by
  induction clause with
  | cmp field op value => simp [collectConjuncts]
  | isNull field negated => simp [collectConjuncts]
  | and left right ihl ihr =>
    rw [matchesWhere, Bool.and_eq_true, ihl, ihr, collectConjuncts, List.forall_mem_append]

/-! ## Consuming conjuncts -/

def RangeHolds (doc : Document) (field : String) (lower upper : Option Index.RangeBound) : Prop :=
  (∀ b ∈ lower, AtomHolds doc field (.lower b.1 b.2)) ∧ ∀ b ∈ upper, AtomHolds doc field (.upper b.1 b.2)

omit [CodeIntel] in
theorem takeEq_spec {field : String} {cs rest : List WhereClause} {v : Value}
    (h : takeEq field cs = some (v, rest)) :
    ∃ c, atomOf c = some (field, .eq v) ∧ cs.Perm (c :: rest) := by
  induction cs generalizing rest with
  | nil => cases h
  | cons c cs ih =>
    have hskip : (takeEq field cs).map (fun found => (found.1, c :: found.2)) = some (v, rest) →
        ∃ c', atomOf c' = some (field, .eq v) ∧ (c :: cs).Perm (c' :: rest) := by
      intro h
      obtain ⟨⟨w, ds⟩, htake, heq⟩ := Option.map_eq_some_iff.mp h
      cases heq
      obtain ⟨c', hc', hperm⟩ := ih htake
      exact ⟨c', hc', (hperm.cons c).trans (.swap c' c ds)⟩
    rw [takeEq] at h
    split at h
    · rename_i f w hatom
      split at h
      · rename_i hf
        cases h
        exact ⟨c, hf ▸ hatom, List.Perm.refl _⟩
      · exact hskip h
    · exact hskip h

/-- Two bounds on a field as atoms. -/
def boundAtoms (field : String) (lower upper : Option Index.RangeBound) : List (String × AtomKind) :=
  lower.toList.map (fun b => (field, .lower b.1 b.2)) ++ upper.toList.map fun b => (field, .upper b.1 b.2)

omit [CodeIntel] in
/-- The conjuncts that `takeRange` consumes are the bounds it adds. -/
theorem takeRange_spec (field : String) (cs : List WhereClause) (acc : RangeAtoms) :
    ∃ used rest, cs.Perm (used ++ rest) ∧
      (takeRange field cs acc).consumed = acc.consumed + used.length ∧
      ((boundAtoms field (takeRange field cs acc).lower (takeRange field cs acc).upper).map some).Perm
        ((boundAtoms field acc.lower acc.upper).map some ++ used.map atomOf) := by
  induction cs generalizing acc with
  | nil => exact ⟨[], [], .refl _, rfl, by simp [takeRange]⟩
  | cons c cs ih =>
    have hskip : ∃ used rest, (c :: cs).Perm (used ++ rest) ∧
        (takeRange field cs acc).consumed = acc.consumed + used.length ∧
        ((boundAtoms field (takeRange field cs acc).lower (takeRange field cs acc).upper).map some).Perm
          ((boundAtoms field acc.lower acc.upper).map some ++ used.map atomOf) := by
      obtain ⟨used, rest, hperm, hspec⟩ := ih acc
      exact ⟨used, c :: rest, (hperm.cons c).trans List.perm_middle.symm, hspec⟩
    -- A bound that is taken is one atom more.
    have htake : ∀ acc', acc'.consumed = acc.consumed + 1 →
        ((boundAtoms field acc'.lower acc'.upper).map some).Perm
          ((boundAtoms field acc.lower acc.upper).map some ++ [atomOf c]) →
        ∃ used rest, (c :: cs).Perm (used ++ rest) ∧
          (takeRange field cs acc').consumed = acc.consumed + used.length ∧
          ((boundAtoms field (takeRange field cs acc').lower (takeRange field cs acc').upper).map some).Perm
            ((boundAtoms field acc.lower acc.upper).map some ++ used.map atomOf) := by
      intro acc' hconsumed hatoms
      obtain ⟨used, rest, hperm, hcount, hbounds⟩ := ih acc'
      refine ⟨c :: used, rest, hperm.cons c, ?_, ?_⟩
      · rw [hcount, List.length_cons]
        omega
      · refine hbounds.trans ((hatoms.append_right _).trans ?_)
        rw [List.append_assoc]
        rfl
    rw [takeRange]
    split
    · rename_i f v inclusive hatom
      split
      · rename_i hf
        obtain ⟨rfl, hnone⟩ := hf
        have hacc : acc.lower = none := by simpa using hnone
        refine htake { acc with lower := some (v, inclusive), consumed := acc.consumed + 1 } rfl ?_
        simp only [boundAtoms, hacc, hatom, Option.toList_some, Option.toList_none, List.map_cons, List.map_nil,
          List.nil_append, List.cons_append]
        exact (List.perm_append_singleton _ _).symm
      · exact hskip
    · rename_i f v inclusive hatom
      split
      · rename_i hf
        obtain ⟨rfl, hnone⟩ := hf
        have hacc : acc.upper = none := by simpa using hnone
        refine htake { acc with upper := some (v, inclusive), consumed := acc.consumed + 1 } rfl ?_
        simp only [boundAtoms, hacc, hatom, Option.toList_some, Option.toList_none, List.map_cons, List.map_nil,
          List.append_nil, List.map_append]
        exact .refl _
      · exact hskip
    · exact hskip

/-! ## Plans -/

/-- The leading fields have the plan's equalities and the next one lies within its bounds. -/
def PlanHolds (doc : Document) (fields : List String) (eq : List Value)
    (lower upper : Option Index.RangeBound) : Prop :=
  List.Forall₂ (fun field v => AtomHolds doc field (.eq v)) (fields.take eq.length) eq ∧
    ∀ field ∈ fields[eq.length]?, RangeHolds doc field lower upper

/-- The shape of a plan for an index. -/
structure PlanFits (idx : IndexDefinition) (plan : IndexPlan) : Prop where
  name : plan.indexName = idx.name
  fieldCount : plan.fieldCount = idx.fields.length
  eq_indexable : ∀ v ∈ plan.eq, Index.Indexable v
  eq_length : plan.eq.length ≤ idx.fields.length
  lower_indexable : Index.BoundIndexable plan.lower
  upper_indexable : Index.BoundIndexable plan.upper
  full : plan.eq.length = idx.fields.length → plan.lower = none ∧ plan.upper = none
  fields : idx.fields ≠ []

/-- What a plan says, atom by atom: one equality for each of the leading fields, and the bounds on
the field after them. -/
def planAtoms : List String → List Value → Option Index.RangeBound → Option Index.RangeBound →
    List (String × AtomKind)
  | field :: fields, v :: eq, lower, upper => (field, .eq v) :: planAtoms fields eq lower upper
  | field :: _, [], lower, upper => boundAtoms field lower upper
  | [], _, _, _ => []

omit [CodeIntel] in
theorem rangeHolds_iff_atoms {doc : Document} {field : String} {lower upper : Option Index.RangeBound} :
    RangeHolds doc field lower upper ↔ ∀ a ∈ boundAtoms field lower upper, AtomHolds doc a.1 a.2 := by
  simp [RangeHolds, boundAtoms, or_imp, forall_and]

omit [CodeIntel] in
theorem planHolds_iff_atoms {doc : Document} {fields : List String} {eq : List Value}
    {lower upper : Option Index.RangeBound} (hlen : eq.length ≤ fields.length) :
    PlanHolds doc fields eq lower upper ↔
      ∀ a ∈ planAtoms fields eq lower upper, AtomHolds doc a.1 a.2 := by
  induction fields generalizing eq with
  | nil =>
    obtain rfl : eq = [] := List.length_eq_zero_iff.mp (Nat.le_zero.mp hlen)
    simp [PlanHolds, planAtoms]
  | cons field fields ih =>
    cases eq with
    | nil => simp [PlanHolds, planAtoms, rangeHolds_iff_atoms]
    | cons v eq =>
      have hrest := ih (Nat.le_of_succ_le_succ hlen)
      simp only [PlanHolds, planAtoms, List.length_cons, List.take_succ_cons, List.forall₂_cons,
        List.getElem?_cons_succ, List.forall_mem_cons] at hrest ⊢
      rw [and_assoc, hrest]

omit [CodeIntel] in
theorem planAtoms_eq_mem {fields : List String} {eq : List Value} {lower upper : Option Index.RangeBound}
    (hlen : eq.length ≤ fields.length) {v : Value} (hv : v ∈ eq) :
    ∃ field, (field, .eq v) ∈ planAtoms fields eq lower upper := by
  induction fields generalizing eq with
  | nil =>
    obtain rfl : eq = [] := List.length_eq_zero_iff.mp (Nat.le_zero.mp hlen)
    cases hv
  | cons field fields ih =>
    cases eq with
    | nil => cases hv
    | cons w eq =>
      rcases List.mem_cons.mp hv with rfl | hv
      · exact ⟨field, List.mem_cons_self⟩
      · exact (ih (Nat.le_of_succ_le_succ hlen) hv).imp fun _ h => List.mem_cons_of_mem _ h

omit [CodeIntel] in
theorem planAtoms_bound_mem {fields : List String} {eq : List Value}
    {lower upper : Option Index.RangeBound} (hlen : eq.length ≤ fields.length)
    (hfull : eq.length = fields.length → lower = none ∧ upper = none) :
    (∀ b ∈ lower, ∃ field, (field, .lower b.1 b.2) ∈ planAtoms fields eq lower upper) ∧
      ∀ b ∈ upper, ∃ field, (field, .upper b.1 b.2) ∈ planAtoms fields eq lower upper := by
  induction fields generalizing eq with
  | nil =>
    obtain ⟨rfl, rfl⟩ := hfull (Nat.le_zero.mp hlen)
    simp
  | cons field fields ih =>
    cases eq with
    | nil =>
      constructor
      · rintro b rfl
        exact ⟨field, by simp [planAtoms, boundAtoms]⟩
      · rintro b rfl
        exact ⟨field, by simp [planAtoms, boundAtoms]⟩
    | cons w eq =>
      obtain ⟨hlower, hupper⟩ := ih (Nat.le_of_succ_le_succ hlen) (by simpa using hfull)
      exact ⟨fun b hb => (hlower b hb).imp fun _ h => List.mem_cons_of_mem _ h,
        fun b hb => (hupper b hb).imp fun _ h => List.mem_cons_of_mem _ h⟩

omit [CodeIntel] in
/-- What the loop over the fields returns: a plan that extends the equalities found so far, and the
conjuncts that are its new atoms. -/
theorem planFields_spec {idx : IndexDefinition} {fields : List String} {unused : List WhereClause}
    {eq : List Value} {consumed : Nat} {plan : IndexPlan} {n : Nat}
    (h : planFields idx fields unused eq consumed = some (plan, n)) :
    ∃ used rest more, unused.Perm (used ++ rest) ∧ n = consumed + used.length ∧
      plan = makePlan idx (eq ++ more) plan.lower plan.upper ∧ (eq ++ more ≠ [] ∨ fields ≠ []) ∧
      more.length ≤ fields.length ∧
      (more.length = fields.length → plan.lower = none ∧ plan.upper = none) ∧
      (used.map atomOf).Perm ((planAtoms fields more plan.lower plan.upper).map some) := by
  induction fields generalizing unused eq consumed with
  | nil =>
    rw [planFields] at h
    split at h
    · cases h
    · rename_i hne
      cases h
      have hne : eq ≠ [] := by simpa using hne
      exact ⟨[], unused, [], .refl _, rfl, by simp [makePlan], by simp [hne], le_rfl,
        fun _ => ⟨rfl, rfl⟩, .refl _⟩
  | cons field fields ih =>
    rw [planFields] at h
    split at h
    · -- An equality on the field: it leads what the remaining fields add.
      rename_i v unused' htake
      obtain ⟨c, hatom, hperm⟩ := takeEq_spec htake
      obtain ⟨used, rest, more, hperm', hn, hplan, _, hlen, hfull, hatoms⟩ := ih h
      refine ⟨c :: used, rest, v :: more, hperm.trans (hperm'.cons c), ?_, ?_, by simp, ?_, ?_, ?_⟩
      · rw [hn, List.length_cons]
        omega
      · simpa using hplan
      · simpa using hlen
      · simpa using hfull
      · rw [List.map_cons, hatom]
        exact hatoms.cons _
    · dsimp only at h
      obtain ⟨used, rest, hperm, hcount, hatoms⟩ := takeRange_spec field unused ⟨none, none, 0⟩
      split at h
      · cases h
        refine ⟨used, rest, [], hperm, by rw [hcount]; simp, by simp [makePlan], by simp, by simp,
          by simp, hatoms.symm⟩
      · split at h
        · cases h
        · rename_i hne
          cases h
          refine ⟨[], unused, [], .refl _, rfl, by simp [makePlan], by simp, by simp, by simp, .refl _⟩

theorem planForIndex_spec {idx : IndexDefinition} {conjuncts : List WhereClause} {plan : IndexPlan}
    {n : Nat} (h : planForIndex idx conjuncts = some (plan, n)) :
    PlanFits idx plan ∧ ∃ used rest, conjuncts.Perm (used ++ rest) ∧ n = used.length ∧
      (used.map atomOf).Perm ((planAtoms idx.fields plan.eq plan.lower plan.upper).map some) ∧
      ∀ doc, (∀ c ∈ used, matchesWhere doc c = true) ↔
        PlanHolds doc idx.fields plan.eq plan.lower plan.upper := by
  obtain ⟨used, rest, more, hperm, hn, hplan, hne, hlen, hfull, hatoms⟩ := planFields_spec h
  rw [List.nil_append] at hplan hne
  have heq : plan.eq = more := by rw [hplan]; rfl
  rw [← heq] at hlen hfull hatoms hne
  have hused : ∀ c ∈ used, ∃ a ∈ planAtoms idx.fields plan.eq plan.lower plan.upper, atomOf c = some a := by
    intro c hc
    obtain ⟨a, ha, hac⟩ := List.mem_map.mp (hatoms.mem_iff.mp (List.mem_map_of_mem hc))
    exact ⟨a, ha, hac.symm⟩
  have hatom : ∀ a ∈ planAtoms idx.fields plan.eq plan.lower plan.upper, ∃ c ∈ used, atomOf c = some a := by
    intro a ha
    exact List.mem_map.mp (hatoms.mem_iff.mpr (List.mem_map_of_mem ha))
  have hindexable : ∀ a ∈ planAtoms idx.fields plan.eq plan.lower plan.upper, Index.Indexable a.2.value := by
    intro a ha
    obtain ⟨c, _, hc⟩ := hatom a ha
    exact (atomOf_spec hc).1
  refine ⟨⟨by rw [hplan]; rfl, by rw [hplan]; rfl, ?_, hlen, ?_, ?_, hfull, ?_⟩, used, rest, hperm,
    by simpa using hn, hatoms, fun doc => ?_⟩
  · exact fun v hv => (planAtoms_eq_mem hlen hv).elim fun field h => hindexable _ h
  · intro b hb
    exact (planAtoms_bound_mem hlen hfull).1 b hb |>.elim fun field h => hindexable _ h
  · intro b hb
    exact (planAtoms_bound_mem hlen hfull).2 b hb |>.elim fun field h => hindexable _ h
  · rcases hne with hne | hne
    · intro hempty
      rw [hempty, List.length_nil] at hlen
      exact hne (List.length_eq_zero_iff.mp (Nat.le_zero.mp hlen))
    · exact hne
  · rw [planHolds_iff_atoms hlen]
    constructor
    · intro h a ha
      obtain ⟨c, hc, hca⟩ := hatom a ha
      exact ((atomOf_spec hca).2 doc).mp (h c hc)
    · intro h c hc
      obtain ⟨a, ha, hca⟩ := hused c hc
      exact ((atomOf_spec hca).2 doc).mpr (h a ha)

omit [CodeIntel] in
theorem bestPlan_mem {conjuncts : List WhereClause} {indexes : List IndexDefinition}
    {best : Option (IndexPlan × Nat)} {plan : IndexPlan} {n : Nat}
    (h : bestPlan conjuncts indexes best = some (plan, n)) :
    best = some (plan, n) ∨
      ∃ idx ∈ indexes, idx.isBtree = true ∧ planForIndex idx conjuncts = some (plan, n) := by
  induction indexes generalizing best with
  | nil => exact .inl h
  | cons idx indexes ih =>
    rw [bestPlan] at h
    split at h
    · exact (ih h).imp id fun ⟨i, hi, hplan⟩ => ⟨i, List.mem_cons_of_mem _ hi, hplan⟩
    · rename_i hbtree
      have hbtree : idx.isBtree = true := by simpa using hbtree
      split at h
      · rename_i p k hplan
        rcases ih h with hbest | ⟨i, hi, hplan'⟩
        · split at hbest
          · cases hbest
            exact .inr ⟨idx, List.mem_cons_self, hbtree, hplan⟩
          · exact .inl hbest
        · exact .inr ⟨i, List.mem_cons_of_mem _ hi, hplan'⟩
      · exact (ih h).imp id fun ⟨i, hi, hplan⟩ => ⟨i, List.mem_cons_of_mem _ hi, hplan⟩

omit [CodeIntel] in
theorem planIndexLookup_cases {indexes : List IndexDefinition} {clause : WhereClause} {plan : IndexPlan}
    (h : planIndexLookup indexes clause = some plan) :
    ∃ idx ∈ indexes, idx.isBtree = true ∧ ∃ plan₀ n,
      planForIndex idx (collectConjuncts clause) = some (plan₀, n) ∧
      plan = { plan₀ with covers := n == (collectConjuncts clause).length } := by
  unfold planIndexLookup at h
  split at h
  · cases h
  · obtain ⟨⟨plan₀, n⟩, hbest, rfl⟩ := Option.map_eq_some_iff.mp h
    rcases bestPlan_mem hbest with hnone | ⟨idx, hidx, hbtree, hplan⟩
    · cases hnone
    · exact ⟨idx, hidx, hbtree, plan₀, n, hplan, rfl⟩

/-- A plan for a clause belongs to one of the indexes, and its atoms are conjuncts of the clause; the
clause implies what the plan says, and a covering plan says all of the clause. -/
theorem planIndexLookup_spec {indexes : List IndexDefinition} {clause : WhereClause} {plan : IndexPlan}
    (h : planIndexLookup indexes clause = some plan) :
    ∃ idx ∈ indexes, idx.isBtree = true ∧ PlanFits idx plan ∧
      (∃ used rest, (collectConjuncts clause).Perm (used ++ rest) ∧
        (used.map atomOf).Perm ((planAtoms idx.fields plan.eq plan.lower plan.upper).map some)) ∧
      (∀ doc, matchesWhere doc clause = true →
        PlanHolds doc idx.fields plan.eq plan.lower plan.upper) ∧
      (plan.covers = true → ∀ doc, PlanHolds doc idx.fields plan.eq plan.lower plan.upper →
        matchesWhere doc clause = true) := by
  obtain ⟨idx, hidx, hbtree, plan₀, n, hplan, rfl⟩ := planIndexLookup_cases h
  obtain ⟨hfits, used, rest, hperm, hn, hatoms, hdoc⟩ := planForIndex_spec hplan
  have hmem : ∀ c, c ∈ collectConjuncts clause ↔ c ∈ used ∨ c ∈ rest := by
    intro c
    rw [hperm.mem_iff, List.mem_append]
  refine ⟨idx, hidx, hbtree, ?_, ⟨used, rest, hperm, hatoms⟩, ?_, ?_⟩
  · exact ⟨hfits.name, hfits.fieldCount, hfits.eq_indexable, hfits.eq_length, hfits.lower_indexable,
      hfits.upper_indexable, hfits.full, hfits.fields⟩
  · intro doc hmatch
    rw [matchesWhere_iff_conjuncts] at hmatch
    exact (hdoc doc).mp fun c hc => hmatch c ((hmem c).mpr (.inl hc))
  · intro hcovers doc hholds
    have hlen : used.length = (collectConjuncts clause).length := by
      rw [← hn]
      simpa using hcovers
    have hrest : rest = [] := by
      have htotal := hperm.length_eq
      rw [List.length_append] at htotal
      exact List.length_eq_zero_iff.mp (by omega)
    rw [matchesWhere_iff_conjuncts]
    intro c hc
    rcases (hmem c).mp hc with hc | hc
    · exact (hdoc doc).mpr hholds c hc
    · simp [hrest] at hc

/-- A plan takes its atoms one for one from conjuncts of the clause, a range only on a field that is
left after the equalities. The clause implies the atoms, and the atoms of a plan that covers the
clause imply it. -/
theorem planner_decomposes {indexes : List IndexDefinition} {clause : WhereClause} {plan : IndexPlan}
    (h : planIndexLookup indexes clause = some plan) :
    ∃ idx ∈ indexes, plan.indexName = idx.name ∧ plan.eq.length ≤ idx.fields.length ∧
      (plan.lower.isSome ∨ plan.upper.isSome → plan.eq.length < idx.fields.length) ∧
      (∃ used rest, (collectConjuncts clause).Perm (used ++ rest) ∧
        (used.map atomOf).Perm ((planAtoms idx.fields plan.eq plan.lower plan.upper).map some)) ∧
      (∀ doc, matchesWhere doc clause = true → PlanHolds doc idx.fields plan.eq plan.lower plan.upper) ∧
      (plan.covers = true → ∀ doc, PlanHolds doc idx.fields plan.eq plan.lower plan.upper →
        matchesWhere doc clause = true) := by
  obtain ⟨idx, hidx, _, hfits, hused, hsound, hcovers⟩ := planIndexLookup_spec h
  refine ⟨idx, hidx, hfits.name, hfits.eq_length, fun hbound => ?_, hused, hsound, hcovers⟩
  refine lt_of_le_of_ne hfits.eq_length fun hfull => ?_
  obtain ⟨hlower, hupper⟩ := hfits.full hfull
  simp [hlower, hupper] at hbound

section Run

/-- `a = 1 AND b < 5 AND b != 2`, over an index on `a` and `b`. -/
def clauseAB : WhereClause :=
  .and (.cmp (.field "a") .eq (.int 1)) (.and (.cmp (.field "b") .lt (.int 5)) (.cmp (.field "b") .ne (.int 2)))

def planAB : IndexPlan :=
  { indexName := "ab", eq := [.int 1], lower := none, upper := some (.int 5, false), fieldCount := 2,
    covers := false }

omit [CodeIntel] in
theorem planner_decomposes_ab : ∃ idx ∈ [IndexDefinition.btree "ab" ["a", "b"] false],
    planAB.eq.length < idx.fields.length := by
  have hplan : planIndexLookup [.btree "ab" ["a", "b"] false] clauseAB = some planAB := rfl
  obtain ⟨idx, hidx, _, _, hbound, _⟩ := @planner_decomposes ⟨fun _ _ => none⟩ _ _ _ hplan
  exact ⟨idx, hidx, hbound (.inr rfl)⟩

end Run

end Dllb
