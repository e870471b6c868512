import Mathlib
import Dllb.Core.Nearest
import Dllb.Graph.PageRank

/-! # Ranked by a float

A sort by falling score ranks the elements when no score is a NaN. Equal scores
are ranked by name.
-/

namespace Dllb

set_option autoImplicit false

/-- A higher score, or the lesser name of two with one score. -/
def RankedBefore (a b : String × F64) : Prop :=
  b.2.value < a.2.value ∨ b.2.value = a.2.value ∧ cmpString a.1 b.1 = .lt

theorem partialCmp_finite {a b : F64} (ha : a.Finite) (hb : b.Finite) :
    a.partialCmp b = some (compare a.value b.value) := by
  rw [F64.partialCmp, ha.isNan, hb.isNan, Bool.or_self, if_neg Bool.false_ne_true]
  congr 1
  rcases lt_trichotomy a.value b.value with h | h | h
  · rw [compare_lt_iff_lt.mpr h, compare_lt_iff_lt.mpr ((F64.value_lt_iff ha hb).mp h)]
  · rw [compare_eq_iff_eq.mpr h, compare_eq_iff_eq.mpr
      (le_antisymm ((F64.value_le_iff ha hb).mp h.le) ((F64.value_le_iff hb ha).mp h.ge))]
  · rw [compare_gt_iff_gt.mpr h, compare_gt_iff_gt.mpr ((F64.value_lt_iff hb ha).mp h)]

theorem byScore_finite {a b : String × F64} (ha : a.2.Finite) (hb : b.2.Finite) :
    PageRank.byScore a b = (compare b.2.value a.2.value).then (cmpString a.1 b.1) := by
  rw [PageRank.byScore, show Arith.partialCmp b.2 a.2 = b.2.partialCmp a.2 from rfl, partialCmp_finite hb ha,
    Option.getD_some]

theorem ordersOn_byScore_finite : OrdersOn (PageRank.byScore (R := F64)) fun a => a.2.Finite := by
  have hscore : OrdersOn (fun a b : String × F64 => (compare a.2.value b.2.value).swap) fun _ => True :=
    (OrdersOn.of_transCmp (P := fun _ => True)).comap (fun a : String × F64 => a.2.value) |>.reverse
  have hname : OrdersOn (fun a b : String × F64 => cmpString a.1 b.1) fun _ => True :=
    (OrdersOn.of_transCmp (P := fun _ => True)).comap Prod.fst
  refine ((hscore.then hname).mono fun _ _ => trivial).congr fun a b ha hb => ?_
  rw [byScore_finite ha hb, ← Std.OrientedCmp.eq_swap]

theorem rankedBefore_of_byScore {a b : String × F64} (ha : a.2.Finite) (hb : b.2.Finite)
    (h : PageRank.byScore b a ≠ .lt) (hne : a.1 ≠ b.1) : RankedBefore a b := by
  rw [ordersOn_byScore_finite.swap a b ha hb, Ne, Ordering.swap_eq_lt, byScore_finite ha hb] at h
  cases hscore : compare b.2.value a.2.value with
  | lt => exact .inl (compare_lt_iff_lt.mp hscore)
  | gt => exact absurd (by rw [hscore]; rfl) h
  | eq =>
    refine .inr ⟨compare_eq_iff_eq.mp hscore, ?_⟩
    rw [hscore, Ordering.eq_then] at h
    cases hname : cmpString a.1 b.1 with
    | lt => rfl
    | eq => exact absurd (Std.LawfulEqCmp.eq_of_compare hname) hne
    | gt => exact absurd hname h

/-- A sort by score and name ranks what has different names. -/
theorem pairwise_rankedBefore {α : Type} {cmp : α → α → Ordering} (f : α → String × F64)
    (hcmp : ∀ a b, cmp a b = PageRank.byScore (f a) (f b)) {l : List α} (hfinite : ∀ a ∈ l, (f a).2.Finite)
    (hnodup : (l.map fun a => (f a).1).Nodup) :
    (l.insertionSort fun a b => (cmp a b != .gt) = true).Pairwise fun a b => RankedBefore (f a) (f b) := by
  have horders : OrdersOn cmp fun a => (f a).2.Finite := (ordersOn_byScore_finite.comap f).congr fun a b _ _ => hcmp a b
  have hsorted := horders.pairwise_insertionSort hfinite
  have hperm := List.perm_insertionSort (fun a b => (cmp a b != .gt) = true) l
  have hnames := (hperm.map fun a => (f a).1).nodup_iff.mpr hnodup
  rw [List.nodup_iff_pairwise_ne, List.pairwise_map] at hnames
  refine (hsorted.and hnames).imp_of_mem fun {a b} ha hb h => ?_
  obtain ⟨hle, hne⟩ := h
  rw [hcmp] at hle
  exact rankedBefore_of_byScore (hfinite a (hperm.mem_iff.mp ha)) (hfinite b (hperm.mem_iff.mp hb)) hle hne

end Dllb
