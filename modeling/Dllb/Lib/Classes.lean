import Mathlib

/-! # Classes as lists

Lists of the elements of the classes of a relation, by which the classes and
their elements are counted.
-/

namespace Dllb

set_option autoImplicit false

variable {α : Type} {r : α → α → Prop} {V : Set α} {groups : List (List α)}

/-- The classes of the elements of a set. -/
def classesOf (r : α → α → Prop) (V : Set α) : Set (Set α) := {c | ∃ v ∈ V, c = {u | r v u}}

/-- The lists are the classes of the elements, each class and each of its elements once. -/
structure ListsClasses (r : α → α → Prop) (V : Set α) (groups : List (List α)) : Prop where
  nodup : groups.flatten.Nodup
  mem_iff : ∀ v, v ∈ groups.flatten ↔ v ∈ V
  ne_nil : ∀ l ∈ groups, l ≠ []
  class_iff : ∀ l ∈ groups, ∀ v ∈ l, ∀ u, r v u ↔ u ∈ l

theorem ncard_setOf_mem {l : List α} (h : l.Nodup) : {a | a ∈ l}.ncard = l.length := by
  classical
  rw [← List.toFinset_card_of_nodup h, ← Set.ncard_coe_finset]
  congr 1
  ext a
  simp

namespace ListsClasses

theorem class_eq (h : ListsClasses r V groups) {l : List α} (hl : l ∈ groups) {v : α} (hv : v ∈ l) :
    {u | r v u} = {u | u ∈ l} := by
  ext u
  exact h.class_iff l hl v hv u

theorem ncard_elements (h : ListsClasses r V groups) : V.ncard = (groups.map List.length).sum := by
  rw [← List.length_flatten, ← ncard_setOf_mem h.nodup]
  congr 1
  ext v
  exact (h.mem_iff v).symm

theorem classesOf_eq (h : ListsClasses r V groups) : classesOf r V = {c | c ∈ groups.map fun l => {u | u ∈ l}} := by
  ext c
  rw [Set.mem_ofPred_eq, List.mem_map]
  constructor
  · rintro ⟨v, hv, rfl⟩
    obtain ⟨l, hl, hvl⟩ := List.mem_flatten.mp ((h.mem_iff v).mpr hv)
    exact ⟨l, hl, (h.class_eq hl hvl).symm⟩
  · rintro ⟨l, hl, rfl⟩
    obtain ⟨v, hv⟩ := List.exists_mem_of_ne_nil l (h.ne_nil l hl)
    exact ⟨v, (h.mem_iff v).mp (List.mem_flatten.mpr ⟨l, hl, hv⟩), (h.class_eq hl hv).symm⟩

theorem ncard_classes (h : ListsClasses r V groups) : (classesOf r V).ncard = groups.length := by
  rw [h.classesOf_eq, ncard_setOf_mem, List.length_map]
  -- Two lists with the same elements would share one.
  refine List.pairwise_map.mpr ((List.nodup_flatten.mp h.nodup).2.imp_of_mem fun {l l'} hl hl' hdisjoint heq => ?_)
  obtain ⟨v, hv⟩ := List.exists_mem_of_ne_nil l (h.ne_nil l hl)
  exact hdisjoint hv ((Set.ext_iff.mp heq v).mp hv)

theorem mem_sizes_iff (h : ListsClasses r V groups) (n : Nat) :
    n ∈ groups.map List.length ↔ ∃ c ∈ classesOf r V, c.ncard = n := by
  rw [h.classesOf_eq, List.mem_map]
  constructor
  · rintro ⟨l, hl, rfl⟩
    refine ⟨_, List.mem_map.mpr ⟨l, hl, rfl⟩, ncard_setOf_mem ((List.nodup_flatten.mp h.nodup).1 l hl)⟩
  · rintro ⟨c, hc, rfl⟩
    obtain ⟨l, hl, rfl⟩ := List.mem_map.mp hc
    exact ⟨l, hl, (ncard_setOf_mem ((List.nodup_flatten.mp h.nodup).1 l hl)).symm⟩

end ListsClasses

end Dllb
