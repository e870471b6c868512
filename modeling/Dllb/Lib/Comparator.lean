import Mathlib

/-! # Comparisons that order a set

A comparison orders the elements of a set when it is antisymmetric there and both
what comes before what and what ties with what are transitive: the elements fall
into ranks. A sort by such a comparison puts no element behind a greater one.
-/

namespace Dllb

set_option autoImplicit false

structure OrdersOn {α : Type} (cmp : α → α → Ordering) (P : α → Prop) : Prop where
  swap : ∀ a b, P a → P b → cmp b a = (cmp a b).swap
  lt_trans : ∀ a b c, P a → P b → P c → cmp a b = .lt → cmp b c = .lt → cmp a c = .lt
  eq_trans : ∀ a b c, P a → P b → P c → cmp a b = .eq → cmp b c = .eq → cmp a c = .eq

namespace OrdersOn

variable {α β : Type} {cmp cmp' : α → α → Ordering} {P Q : α → Prop}

theorem mono (h : OrdersOn cmp P) (hQ : ∀ a, Q a → P a) : OrdersOn cmp Q where
  swap a b ha hb := h.swap a b (hQ a ha) (hQ b hb)
  lt_trans a b c ha hb hc := h.lt_trans a b c (hQ a ha) (hQ b hb) (hQ c hc)
  eq_trans a b c ha hb hc := h.eq_trans a b c (hQ a ha) (hQ b hb) (hQ c hc)

theorem congr (h : OrdersOn cmp P) (heq : ∀ a b, P a → P b → cmp' a b = cmp a b) : OrdersOn cmp' P where
  swap a b ha hb := by
    rw [heq a b ha hb, heq b a hb ha]
    exact h.swap a b ha hb
  lt_trans a b c ha hb hc := by
    rw [heq a b ha hb, heq b c hb hc, heq a c ha hc]
    exact h.lt_trans a b c ha hb hc
  eq_trans a b c ha hb hc := by
    rw [heq a b ha hb, heq b c hb hc, heq a c ha hc]
    exact h.eq_trans a b c ha hb hc

theorem of_transCmp [Std.TransCmp cmp] : OrdersOn cmp P where
  swap _ _ _ _ := Std.OrientedCmp.eq_swap
  lt_trans _ _ _ _ _ _ := Std.TransCmp.lt_trans
  eq_trans _ _ _ _ _ _ := Std.TransCmp.eq_trans

/-- Where all elements tie. -/
theorem of_ties (h : ∀ a b, P a → P b → cmp a b = .eq) : OrdersOn cmp P where
  swap a b ha hb := by
    rw [h a b ha hb, h b a hb ha]
    rfl
  lt_trans a b _ ha hb _ hab _ := by
    rw [h a b ha hb] at hab
    cases hab
  eq_trans a _ c ha _ hc _ _ := h a c ha hc

theorem lt_of_lt_of_eq (h : OrdersOn cmp P) {a b c : α} (ha : P a) (hb : P b) (hc : P c)
    (hab : cmp a b = .lt) (hbc : cmp b c = .eq) : cmp a c = .lt := by
  cases hac : cmp a c with
  | lt => rfl
  | eq =>
    have hcb : cmp c b = .eq := by
      rw [h.swap b c hb hc, hbc]
      rfl
    rw [h.eq_trans a c b ha hc hb hac hcb] at hab
    cases hab
  | gt =>
    have hca : cmp c a = .lt := by
      rw [h.swap a c ha hc, hac]
      rfl
    have hcb := h.lt_trans c a b hc ha hb hca hab
    rw [h.swap b c hb hc, hbc] at hcb
    cases hcb

theorem lt_of_eq_of_lt (h : OrdersOn cmp P) {a b c : α} (ha : P a) (hb : P b) (hc : P c)
    (hab : cmp a b = .eq) (hbc : cmp b c = .lt) : cmp a c = .lt := by
  cases hac : cmp a c with
  | lt => rfl
  | eq =>
    have hba : cmp b a = .eq := by
      rw [h.swap a b ha hb, hab]
      rfl
    rw [h.eq_trans b a c hb ha hc hba hac] at hbc
    cases hbc
  | gt =>
    have hca : cmp c a = .lt := by
      rw [h.swap a c ha hc, hac]
      rfl
    have hba := h.lt_trans b c a hb hc ha hbc hca
    rw [h.swap a b ha hb, hab] at hba
    cases hba

/-! ## Comparisons made of others -/

theorem comap {cmp : β → β → Ordering} {P : β → Prop} (h : OrdersOn cmp P) (f : α → β) :
    OrdersOn (fun a b => cmp (f a) (f b)) fun a => P (f a) where
  swap a b := h.swap (f a) (f b)
  lt_trans a b c := h.lt_trans (f a) (f b) (f c)
  eq_trans a b c := h.eq_trans (f a) (f b) (f c)

theorem reverse (h : OrdersOn cmp P) : OrdersOn (fun a b => (cmp a b).swap) P where
  swap a b ha hb := congrArg Ordering.swap (h.swap a b ha hb)
  lt_trans a b c ha hb hc hab hbc := by
    rw [← h.swap a b ha hb] at hab
    rw [← h.swap b c hb hc] at hbc
    rw [← h.swap a c ha hc]
    exact h.lt_trans c b a hc hb ha hbc hab
  eq_trans a b c ha hb hc hab hbc := by
    rw [Ordering.swap_eq_eq] at hab hbc ⊢
    exact h.eq_trans a b c ha hb hc hab hbc

theorem «then» (h : OrdersOn cmp P) (h' : OrdersOn cmp' P) :
    OrdersOn (fun a b => (cmp a b).then (cmp' a b)) P where
  swap a b ha hb := by
    rw [h.swap a b ha hb, h'.swap a b ha hb, Ordering.swap_then]
  lt_trans a b c ha hb hc hab hbc := by
    rw [Ordering.then_eq_lt] at hab hbc ⊢
    rcases hab with hab | ⟨hab, hab'⟩ <;> rcases hbc with hbc | ⟨hbc, hbc'⟩
    · exact .inl (h.lt_trans a b c ha hb hc hab hbc)
    · exact .inl (h.lt_of_lt_of_eq ha hb hc hab hbc)
    · exact .inl (h.lt_of_eq_of_lt ha hb hc hab hbc)
    · exact .inr ⟨h.eq_trans a b c ha hb hc hab hbc, h'.lt_trans a b c ha hb hc hab' hbc'⟩
  eq_trans a b c ha hb hc hab hbc := by
    rw [Ordering.then_eq_eq] at hab hbc ⊢
    exact ⟨h.eq_trans a b c ha hb hc hab.1 hbc.1, h'.eq_trans a b c ha hb hc hab.2 hbc.2⟩

end OrdersOn

/-- What is missing comes last. -/
def missingLast {α : Type} (cmp : α → α → Ordering) : Option α → Option α → Ordering
  | none, none => .eq
  | none, some _ => .gt
  | some _, none => .lt
  | some a, some b => cmp a b

theorem OrdersOn.missingLast {α : Type} {cmp : α → α → Ordering} {P : α → Prop} (h : OrdersOn cmp P) :
    OrdersOn (missingLast cmp) fun a => ∀ x, a = some x → P x where
  swap a b ha hb := by
    cases a with
    | none => cases b <;> rfl
    | some a =>
      cases b with
      | none => rfl
      | some b => exact h.swap a b (ha a rfl) (hb b rfl)
  lt_trans a b c ha hb hc hab hbc := by
    cases a with
    | none => cases b <;> cases hab
    | some a =>
      cases b with
      | none => cases c <;> cases hbc
      | some b =>
        cases c with
        | none => rfl
        | some c => exact h.lt_trans a b c (ha a rfl) (hb b rfl) (hc c rfl) hab hbc
  eq_trans a b c ha hb hc hab hbc := by
    cases a with
    | none =>
      cases b with
      | none => exact hbc
      | some b => cases hab
    | some a =>
      cases b with
      | none => cases hab
      | some b =>
        cases c with
        | none => cases hbc
        | some c => exact h.eq_trans a b c (ha a rfl) (hb b rfl) (hc c rfl) hab hbc

/-! ## Sorting -/

theorem OrdersOn.pairwise_orderedInsert {α : Type} {cmp : α → α → Ordering} {P : α → Prop}
    (h : OrdersOn cmp P) {a : α} (ha : P a) {l : List α} (hl : ∀ b ∈ l, P b)
    (hpair : l.Pairwise fun a b => cmp b a ≠ .lt) :
    (l.orderedInsert (fun a b => (cmp a b != .gt) = true) a).Pairwise fun a b => cmp b a ≠ .lt := by
  induction l with
  | nil => exact List.pairwise_singleton _ _
  | cons b l ih =>
    obtain ⟨hb, hl⟩ := List.forall_mem_cons.mp hl
    obtain ⟨hfirst, hpair⟩ := List.pairwise_cons.mp hpair
    rw [List.orderedInsert_cons]
    split
    · rename_i hle
      refine List.pairwise_cons.mpr ⟨?_, List.pairwise_cons.mpr ⟨hfirst, hpair⟩⟩
      intro x hx hlt
      rcases List.mem_cons.mp hx with rfl | hx
      · rw [h.swap a x ha hb] at hlt
        cases hab : cmp a x <;> simp [hab] at hle hlt
      · cases hab : cmp a b with
        | lt => exact hfirst x hx (h.lt_trans x a b (hl x hx) ha hb hlt hab)
        | eq => exact hfirst x hx (h.lt_of_lt_of_eq (hl x hx) ha hb hlt hab)
        | gt => simp [hab] at hle
    · rename_i hgt
      refine List.pairwise_cons.mpr ⟨?_, ih hl hpair⟩
      intro x hx hlt
      rcases (List.mem_orderedInsert _).mp hx with rfl | hx
      · simp [hlt] at hgt
      · exact hfirst x hx hlt

/-- A sort by a comparison that orders the elements leaves none behind a greater one. -/
theorem OrdersOn.pairwise_insertionSort {α : Type} {cmp : α → α → Ordering} {P : α → Prop}
    (h : OrdersOn cmp P) {l : List α} (hl : ∀ a ∈ l, P a) :
    (l.insertionSort fun a b => (cmp a b != .gt) = true).Pairwise fun a b => cmp b a ≠ .lt := by
  induction l with
  | nil => exact .nil
  | cons a l ih =>
    obtain ⟨ha, hl⟩ := List.forall_mem_cons.mp hl
    have hsorted : ∀ b ∈ l.insertionSort fun a b => (cmp a b != .gt) = true, P b :=
      fun b hb => hl b ((List.mem_insertionSort _).mp hb)
    exact h.pairwise_orderedInsert ha hsorted (ih hl)

end Dllb
