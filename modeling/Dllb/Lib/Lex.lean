import Mathlib

/-! # Words in lexicographic order and self-delimiting ordered codes

`Before a b` says that two words part at a letter, so that the order between
them survives any continuation of either. A code with this property is
order preserving and self-delimiting at once, and both pass to tuples.
-/

namespace Dllb.Lex

set_option autoImplicit false

universe u v

variable {α : Type u} [LinearOrder α]

/-- The words share a stretch and then `a` has the smaller letter. -/
inductive Before : List α → List α → Prop
  | head {x y : α} (h : x < y) (s t : List α) : Before (x :: s) (y :: t)
  | tail (x : α) {s t : List α} (h : Before s t) : Before (x :: s) (x :: t)

theorem Before.append {a b : List α} (h : Before a b) (s t : List α) : Before (a ++ s) (b ++ t) := by
  induction h with
  | head h a b => exact .head h (a ++ s) (b ++ t)
  | tail x _ ih => exact .tail x ih

theorem Before.append_left {a b : List α} (p : List α) (h : Before a b) : Before (p ++ a) (p ++ b) := by
  induction p with
  | nil => exact h
  | cons x p ih => exact .tail x ih

theorem Before.lt {a b : List α} (h : Before a b) : a < b := by
  induction h with
  | head h s t => exact List.cons_lt_cons_iff.mpr (.inl h)
  | tail x _ ih => exact List.cons_lt_cons_iff.mpr (.inr ⟨rfl, ih⟩)

theorem lt_append_cons (a : List α) (x : α) (s : List α) : a < a ++ x :: s := by
  induction a with
  | nil => exact List.nil_lt_cons x s
  | cons y a ih => exact List.cons_lt_cons_iff.mpr (.inr ⟨rfl, ih⟩)

/-- A smaller word parts from the larger one or is a proper prefix of it. -/
theorem lt_iff_before_or_extends {a b : List α} :
    a < b ↔ Before a b ∨ ∃ x s, b = a ++ x :: s := by
  constructor
  · intro h
    induction a generalizing b with
    | nil =>
      cases b with
      | nil => exact absurd h (List.not_lt_nil [])
      | cons y b => exact .inr ⟨y, b, rfl⟩
    | cons x a ih =>
      cases b with
      | nil => exact absurd h (List.not_lt_nil _)
      | cons y b =>
        rcases List.cons_lt_cons_iff.mp h with hxy | ⟨rfl, hab⟩
        · exact .inl (.head hxy a b)
        · rcases ih hab with hb | ⟨z, s, rfl⟩
          · exact .inl (.tail x hb)
          · exact .inr ⟨z, s, rfl⟩
  · rintro (h | ⟨x, s, rfl⟩)
    · exact h.lt
    · exact lt_append_cons a x s

@[simp] theorem append_lt_append_left_iff (p a b : List α) : p ++ a < p ++ b ↔ a < b := by
  induction p with
  | nil => exact Iff.rfl
  | cons x p ih => simpa [List.cons_lt_cons_iff] using ih

@[simp] theorem append_le_append_left_iff (p a b : List α) : p ++ a ≤ p ++ b ↔ a ≤ b := by
  rw [← not_lt, ← not_lt, append_lt_append_left_iff]

/-! ## Ordered codes -/

/-- Smaller sources have code words that part from those of larger sources. -/
structure OrderedCode {ι : Type v} [LinearOrder ι] (f : ι → List α) : Prop where
  before : ∀ {x y}, x < y → Before (f x) (f y)

namespace OrderedCode

variable {ι : Type v} [LinearOrder ι] {f : ι → List α}

theorem append_lt_append_iff (hf : OrderedCode f) (x y : ι) (s t : List α) :
    f x ++ s < f y ++ t ↔ x < y ∨ x = y ∧ s < t := by
  rcases lt_trichotomy x y with h | rfl | h
  · simp only [h, true_or, iff_true]
    exact ((hf.before h).append s t).lt
  · simp
  · have hgt : f y ++ t < f x ++ s := ((hf.before h).append t s).lt
    simp only [h.not_gt, h.ne', false_and, or_false, iff_false]
    exact hgt.not_gt

theorem append_eq_append_iff (hf : OrderedCode f) (x y : ι) (s t : List α) :
    f x ++ s = f y ++ t ↔ x = y ∧ s = t := by
  constructor
  · intro h
    rcases lt_trichotomy x y with hxy | rfl | hxy
    · exact absurd h ((hf.before hxy).append s t).lt.ne
    · exact ⟨rfl, List.append_cancel_left h⟩
    · exact absurd h ((hf.before hxy).append t s).lt.ne'
  · rintro ⟨rfl, rfl⟩
    rfl

theorem injective (hf : OrderedCode f) : Function.Injective f := by
  intro x y h
  exact ((hf.append_eq_append_iff x y [] []).mp (by simpa using h)).1

/-- A tuple of code words, read as one word, orders by the tuple first and by the tail second. -/
theorem flatMap_append_lt_iff (hf : OrderedCode f) (xs ys : List ι) (hlen : xs.length = ys.length)
    (s t : List α) :
    xs.flatMap f ++ s < ys.flatMap f ++ t ↔ xs < ys ∨ xs = ys ∧ s < t := by
  induction xs generalizing ys with
  | nil =>
    obtain rfl : ys = [] := List.length_eq_zero_iff.mp hlen.symm
    simp
  | cons x xs ih =>
    cases ys with
    | nil => cases hlen
    | cons y ys =>
      simp only [List.flatMap_cons, List.append_assoc, hf.append_lt_append_iff,
        ih ys (Nat.succ.inj hlen), List.cons_lt_cons_iff, List.cons.injEq]
      tauto

theorem flatMap_append_eq_iff (hf : OrderedCode f) (xs ys : List ι) (hlen : xs.length = ys.length)
    (s t : List α) :
    xs.flatMap f ++ s = ys.flatMap f ++ t ↔ xs = ys ∧ s = t := by
  induction xs generalizing ys with
  | nil =>
    obtain rfl : ys = [] := List.length_eq_zero_iff.mp hlen.symm
    simp
  | cons x xs ih =>
    cases ys with
    | nil => cases hlen
    | cons y ys =>
      simp only [List.flatMap_cons, List.append_assoc, hf.append_eq_append_iff,
        ih ys (Nat.succ.inj hlen), List.cons.injEq]
      tauto

end OrderedCode

/-! ## Escaping the least letter -/

section Escape

variable (z m : α)

/-- Every letter `z` is followed by the marker `m`. -/
def escape (w : List α) : List α :=
  w.flatMap fun x => if x = z then [z, m] else [x]

@[simp] theorem escape_nil : escape z m [] = [] := rfl

theorem escape_cons (x : α) (w : List α) :
    escape z m (x :: w) = (if x = z then [z, m] else [x]) ++ escape z m w := rfl

theorem escape_append (v w : List α) : escape z m (v ++ w) = escape z m v ++ escape z m w :=
  List.flatMap_append

variable {z m}

/-- An escaped word whose source goes on past `v` lies beyond `v` closed by `z, e`. -/
theorem before_escape_cons {e : α} (hz : ∀ x, z ≤ x) (hem : e < m) (x : α) (w s t : List α) :
    Before (z :: e :: s) (escape z m (x :: w) ++ t) := by
  rw [escape_cons]
  split
  · exact .tail z (.head hem _ _)
  · rename_i hx
    exact .head (lt_of_le_of_ne (hz x) (Ne.symm hx)) _ _

theorem Before.escape (hz : ∀ x, z ≤ x) {v w : List α} (h : Before v w) :
    Before (escape z m v) (escape z m w) := by
  induction h with
  | @head x y h s t =>
    have hy : y ≠ z := fun hy => absurd (hz x) (not_le.mpr (hy ▸ h))
    rw [escape_cons, escape_cons, if_neg hy]
    split
    · rename_i hx
      exact .head (hx ▸ h) _ _
    · exact .head h _ _
  | tail x _ ih =>
    rw [escape_cons, escape_cons]
    exact ih.append_left _

/-- Escaping followed by the terminator `z, e` is an ordered code of words. -/
theorem orderedCode_terminated {e : α} (hz : ∀ x, z ≤ x) (hem : e < m) :
    OrderedCode fun w : List α => Lex.escape z m w ++ [z, e] where
  before := by
    intro v w h
    rcases lt_iff_before_or_extends.mp h with h | ⟨x, s, rfl⟩
    · exact (h.escape hz).append _ _
    · rw [escape_append, List.append_assoc]
      exact (before_escape_cons hz hem x s [] _).append_left _

/-- Comparison of a terminated word with an unterminated bound. -/
theorem terminated_lt_escape_iff {e : α} (hz : ∀ x, z ≤ x) (hem : e < m) (w v s : List α) :
    escape z m w ++ z :: e :: s < escape z m v ↔ w < v := by
  rcases lt_trichotomy w v with h | rfl | h
  · simp only [h, iff_true]
    rcases lt_iff_before_or_extends.mp h with hb | ⟨x, t, rfl⟩
    · simpa using ((hb.escape (m := m) hz).append (z :: e :: s) []).lt
    · rw [escape_append, append_lt_append_left_iff]
      simpa using (before_escape_cons (m := m) hz hem x t s []).lt
  · simp only [lt_self_iff_false, iff_false]
    exact (lt_append_cons _ z (e :: s)).not_gt
  · simp only [h.not_gt, iff_false]
    refine not_lt.mpr (le_of_lt ?_)
    rcases lt_iff_before_or_extends.mp h with hb | ⟨x, t, rfl⟩
    · simpa using ((hb.escape (m := m) hz).append [] (z :: e :: s)).lt
    · rw [escape_append, List.append_assoc]
      cases hx : escape z m (x :: t) ++ z :: e :: s with
      | nil => simp at hx
      | cons y r => exact lt_append_cons _ y r

/-- Comparison of a terminated word with a bound closed just above the terminator. -/
theorem terminated_lt_closed_iff {e f : α} (hz : ∀ x, z ≤ x) (hee : e < f) (hem : f < m)
    (w v s : List α) :
    escape z m w ++ z :: e :: s < escape z m v ++ [z, f] ↔ w ≤ v := by
  rcases lt_trichotomy w v with h | rfl | h
  · simp only [h.le, iff_true]
    rcases lt_iff_before_or_extends.mp h with hb | ⟨x, t, rfl⟩
    · exact ((hb.escape (m := m) hz).append _ _).lt
    · rw [escape_append, List.append_assoc, append_lt_append_left_iff]
      exact (before_escape_cons hz (hee.trans hem) x t s _).lt
  · simp only [le_refl, iff_true, append_lt_append_left_iff]
    exact (Before.tail z (.head hee s [])).lt
  · simp only [h.not_ge, iff_false]
    refine not_lt.mpr (le_of_lt ?_)
    rcases lt_iff_before_or_extends.mp h with hb | ⟨x, t, rfl⟩
    · exact ((hb.escape (m := m) hz).append _ _).lt
    · rw [escape_append, List.append_assoc, append_lt_append_left_iff]
      exact (before_escape_cons hz hem x t [] _).lt

end Escape

end Dllb.Lex
