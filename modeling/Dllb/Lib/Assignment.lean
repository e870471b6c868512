import Mathlib

/-! # Greedy assignment

Each item of a list in turn takes a best of what is left on the other side, if
anything left has a positive score. Where the pairs of top score can be exchanged,
this finds a complete assignment of top scores if there is one. An assignment is
rated by a weighted mean of its scores.
-/

namespace Dllb

set_option autoImplicit false

section

variable {α β γ : Type} [LinearOrder γ] [Zero γ]

/-- The items of a list take from a pool: the pairs made, the items that found nothing, and what is left. -/
inductive Assigns (score : α → β → γ) : List α → Multiset β → List (α × β) → List α → Multiset β → Prop
  | nil (pool : Multiset β) : Assigns score [] pool [] [] pool
  | pair {a : α} {b : β} {as : List α} {pool : Multiset β} {pairs : List (α × β)} {unpaired : List α}
      {left : Multiset β} (hpos : 0 < score a b) (hbest : ∀ b' ∈ pool, score a b' ≤ score a b)
      (rest : Assigns score as pool pairs unpaired left) :
      Assigns score (a :: as) (b ::ₘ pool) ((a, b) :: pairs) unpaired left
  | skip {a : α} {as : List α} {pool : Multiset β} {pairs : List (α × β)} {unpaired : List α} {left : Multiset β}
      (hnone : ∀ b ∈ pool, score a b ≤ 0) (rest : Assigns score as pool pairs unpaired left) :
      Assigns score (a :: as) pool pairs (a :: unpaired) left

namespace Assigns

variable {score : α → β → γ} {as : List α} {pool : Multiset β} {pairs : List (α × β)} {unpaired : List α}
  {left : Multiset β}

theorem sources (h : Assigns score as pool pairs unpaired left) : as.Perm (pairs.map Prod.fst ++ unpaired) := by
  induction h with
  | nil => exact List.Perm.refl _
  | pair _ _ _ ih => exact ih.cons _
  | skip _ _ ih => exact (ih.cons _).trans List.perm_middle.symm

theorem targets (h : Assigns score as pool pairs unpaired left) :
    pool = (pairs.map Prod.snd : Multiset β) + left := by
  induction h with
  | nil pool => exact (zero_add pool).symm
  | pair _ _ _ ih => rw [ih, List.map_cons, ← Multiset.cons_coe, Multiset.cons_add]
  | skip _ _ ih => exact ih

theorem pos (h : Assigns score as pool pairs unpaired left) : ∀ p ∈ pairs, 0 < score p.1 p.2 := by
  induction h with
  | nil => exact List.forall_mem_nil _
  | pair hpos _ _ ih => exact List.forall_mem_cons.mpr ⟨hpos, ih⟩
  | skip _ _ ih => exact ih

theorem fst_mem (h : Assigns score as pool pairs unpaired left) {p : α × β} (hp : p ∈ pairs) : p.1 ∈ as :=
  h.sources.mem_iff.mpr (List.mem_append_left _ (List.mem_map_of_mem hp))

theorem snd_mem (h : Assigns score as pool pairs unpaired left) {p : α × β} (hp : p ∈ pairs) : p.2 ∈ pool := by
  rw [h.targets, Multiset.mem_add, Multiset.mem_coe]
  exact Or.inl (List.mem_map_of_mem hp)

/-- Nothing is paired only if nothing has a positive score. -/
theorem pairs_eq_nil_iff (h : Assigns score as pool pairs unpaired left) :
    pairs = [] ↔ ∀ a ∈ as, ∀ b ∈ pool, score a b ≤ 0 := by
  induction h with
  | nil => simp
  | @pair a b as pool pairs unpaired left hpos _ _ _ =>
    refine ⟨fun hnil => absurd hnil (List.cons_ne_nil _ _), fun hall => ?_⟩
    exact absurd (hall a List.mem_cons_self b (Multiset.mem_cons_self b pool)) hpos.not_ge
  | skip hnone _ ih => rw [ih, List.forall_mem_cons, and_iff_right hnone]

theorem rel_of_complete (h : Assigns score as pool pairs [] 0) {R : α → β → Prop}
    (hR : ∀ p ∈ pairs, R p.1 p.2) : Multiset.Rel R (as : Multiset α) pool := by
  rw [h.targets, add_zero, Multiset.coe_eq_coe.mpr h.sources, List.append_nil, ← Multiset.map_coe,
    ← Multiset.map_coe, Multiset.rel_map]
  exact Multiset.rel_refl_of_refl_on hR

end Assigns

theorem rel_trans_on {r : α → α → Prop} {s t u : Multiset α} (hst : Multiset.Rel r s t) (htu : Multiset.Rel r t u)
    (h : ∀ a ∈ s, ∀ b c, r a b → r b c → r a c) : Multiset.Rel r s u := by
  induction hst generalizing u with
  | zero => exact htu
  | @cons a b s t hab _ ih =>
    obtain ⟨c, rest, hbc, hrest, rfl⟩ := Multiset.rel_cons_left.mp htu
    exact Multiset.Rel.cons (h a (Multiset.mem_cons_self a s) b c hab hbc)
      (ih hrest fun a ha => h a (Multiset.mem_cons_of_mem ha))

/-- In a complete assignment a pair can be exchanged for any other of the relation. -/
theorem rel_of_rel_cons_cons {R : α → β → Prop}
    (hexchange : ∀ a b a' b', R a b → R a b' → R a' b' → R a' b) {a : α} {b : β} {as : Multiset α}
    {pool : Multiset β} (hab : R a b) (h : Multiset.Rel R (a ::ₘ as) (b ::ₘ pool)) : Multiset.Rel R as pool := by
  obtain ⟨b', pool', hb', hrest, heq⟩ := Multiset.rel_cons_left.mp h
  obtain ⟨-, rfl⟩ | ⟨-, rest, rfl, rfl⟩ := Multiset.cons_eq_cons.mp heq
  · exact hrest
  · obtain ⟨a', as', ha', hothers, rfl⟩ := Multiset.rel_cons_right.mp hrest
    exact Multiset.Rel.cons (hexchange a b' a' b hb' hab ha') hothers

namespace Assigns

variable {score : α → β → γ} {as : List α} {pool : Multiset β} {pairs : List (α × β)} {unpaired : List α}
  {left : Multiset β}

/-- Greed makes top pairs of everything wherever that can be done. -/
theorem complete_iff (h : Assigns score as pool pairs unpaired left) {top : γ} (htop : 0 < top)
    (hle : ∀ a ∈ as, ∀ b ∈ pool, score a b ≤ top) {R : α → β → Prop}
    (hR : ∀ a ∈ as, ∀ b ∈ pool, score a b = top ↔ R a b)
    (hexchange : ∀ a b a' b', R a b → R a b' → R a' b' → R a' b) :
    (unpaired = [] ∧ left = 0 ∧ ∀ p ∈ pairs, score p.1 p.2 = top) ↔ Multiset.Rel R (as : Multiset α) pool := by
  constructor
  · rintro ⟨rfl, rfl, hpairs⟩
    exact h.rel_of_complete fun p hp => (hR _ (h.fst_mem hp) _ (h.snd_mem hp)).mp (hpairs p hp)
  · intro hrel
    induction h with
    | nil pool => exact ⟨rfl, Multiset.rel_zero_left.mp hrel, List.forall_mem_nil _⟩
    | @pair a b as pool pairs unpaired left _ hbest _ ih =>
      have hab : score a b = top := by
        obtain ⟨b', hb', hab'⟩ := Multiset.exists_mem_of_rel_of_mem hrel (Multiset.mem_coe.mpr List.mem_cons_self)
        have heq := (hR a List.mem_cons_self b' hb').mpr hab'
        refine le_antisymm (hle a List.mem_cons_self b (Multiset.mem_cons_self b pool)) (heq ▸ ?_)
        obtain rfl | hb' := Multiset.mem_cons.mp hb'
        · exact le_rfl
        · exact hbest b' hb'
      have hR' := (hR a List.mem_cons_self b (Multiset.mem_cons_self b pool)).mp hab
      obtain ⟨hunpaired, hleft, hpairs⟩ := ih
        (fun a' ha' b' hb' => hle a' (List.mem_cons_of_mem _ ha') b' (Multiset.mem_cons_of_mem hb'))
        (fun a' ha' b' hb' => hR a' (List.mem_cons_of_mem _ ha') b' (Multiset.mem_cons_of_mem hb'))
        (rel_of_rel_cons_cons hexchange hR' hrel)
      exact ⟨hunpaired, hleft, List.forall_mem_cons.mpr ⟨hab, hpairs⟩⟩
    | @skip a as pool pairs unpaired left hnone _ ih =>
      obtain ⟨b, hb, hab⟩ := Multiset.exists_mem_of_rel_of_mem hrel (Multiset.mem_coe.mpr List.mem_cons_self)
      have heq := (hR a List.mem_cons_self b hb).mpr hab
      exact absurd (heq ▸ hnone b hb) htop.not_ge

end Assigns

end

/-! ## Weighted means -/

section

variable {K : Type} [Field K] [LinearOrder K] [IsStrictOrderedRing K]

/-- The mean of values, each with its weight. -/
def weightedMean (items : List (K × K)) : K := (items.map fun i => i.1 * i.2).sum / (items.map Prod.snd).sum

/-- Values from zero to one with positive weights. -/
def Rated (items : List (K × K)) : Prop := ∀ i ∈ items, 0 ≤ i.1 ∧ i.1 ≤ 1 ∧ 0 < i.2

variable {items : List (K × K)}

theorem Rated.weight_pos (h : Rated items) (hne : items ≠ []) : 0 < (items.map Prod.snd).sum := by
  refine List.sum_pos _ (fun w hw => ?_) (by simpa using hne)
  obtain ⟨i, hi, rfl⟩ := List.mem_map.mp hw
  exact (h i hi).2.2

theorem Rated.sum_eq_zero_iff (h : Rated items) :
    (items.map fun i => i.1 * i.2).sum = 0 ↔ ∀ i ∈ items, i.1 = 0 := by
  have hnonneg : ∀ x ∈ items.map fun i => i.1 * i.2, 0 ≤ x := by
    intro x hx
    obtain ⟨i, hi, rfl⟩ := List.mem_map.mp hx
    exact mul_nonneg (h i hi).1 (h i hi).2.2.le
  constructor
  · intro hzero i hi
    have hprod := List.all_zero_of_le_zero_le_of_sum_eq_zero hnonneg hzero (List.mem_map_of_mem hi)
    exact (mul_eq_zero.mp hprod).resolve_right (h i hi).2.2.ne'
  · intro hall
    refine List.sum_eq_zero fun x hx => ?_
    obtain ⟨i, hi, rfl⟩ := List.mem_map.mp hx
    rw [hall i hi, zero_mul]

theorem Rated.weightedMean_eq_zero_iff (h : Rated items) : weightedMean items = 0 ↔ ∀ i ∈ items, i.1 = 0 := by
  obtain rfl | hne := eq_or_ne items []
  · simp [weightedMean]
  · rw [weightedMean, div_eq_zero_iff, or_iff_left (h.weight_pos hne).ne', h.sum_eq_zero_iff]

theorem Rated.weightedMean_nonneg (h : Rated items) : 0 ≤ weightedMean items := by
  have hsum : ∀ f : K × K → K, (∀ i ∈ items, 0 ≤ f i) → 0 ≤ (items.map f).sum := by
    intro f hf
    refine List.sum_nonneg fun x hx => ?_
    obtain ⟨i, hi, rfl⟩ := List.mem_map.mp hx
    exact hf i hi
  exact div_nonneg (hsum _ fun i hi => mul_nonneg (h i hi).1 (h i hi).2.2.le) (hsum _ fun i hi => (h i hi).2.2.le)

/-- What the values lack of one has the mean that their mean lacks. -/
theorem Rated.weightedMean_lack (h : Rated items) (hne : items ≠ []) :
    weightedMean (items.map fun i => (1 - i.1, i.2)) = 1 - weightedMean items := by
  have hweights : ((items.map fun i => (1 - i.1, i.2)).map Prod.snd) = items.map Prod.snd := by
    rw [List.map_map]
    rfl
  have hvalues : (((items.map fun i => (1 - i.1, i.2)).map fun i => i.1 * i.2)).sum =
      (items.map Prod.snd).sum - (items.map fun i => i.1 * i.2).sum := by
    rw [List.map_map, eq_sub_iff_add_eq, ← List.sum_map_add]
    refine congrArg List.sum (List.map_congr_left fun i _ => ?_)
    rw [Function.comp_apply]
    ring
  rw [weightedMean, weightedMean, hweights, hvalues, sub_div, div_self (h.weight_pos hne).ne']

theorem Rated.lack (h : Rated items) : Rated (items.map fun i => (1 - i.1, i.2)) := by
  intro j hj
  obtain ⟨i, hi, rfl⟩ := List.mem_map.mp hj
  exact ⟨sub_nonneg.mpr (h i hi).2.1, sub_le_self 1 (h i hi).1, (h i hi).2.2⟩

theorem Rated.weightedMean_le_one (h : Rated items) : weightedMean items ≤ 1 := by
  obtain rfl | hne := eq_or_ne items []
  · simp [weightedMean]
  · exact sub_nonneg.mp (h.weightedMean_lack hne ▸ h.lack.weightedMean_nonneg)

theorem Rated.weightedMean_eq_one_iff (h : Rated items) (hne : items ≠ []) :
    weightedMean items = 1 ↔ ∀ i ∈ items, i.1 = 1 := by
  rw [← sub_eq_zero.trans eq_comm, ← h.weightedMean_lack hne, h.lack.weightedMean_eq_zero_iff, List.forall_mem_map]
  exact forall₂_congr fun i _ => sub_eq_zero.trans eq_comm

end

end Dllb
