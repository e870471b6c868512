import Mathlib.Data.List.Basic
import Mathlib.Order.Basic

/-! # Priority queues by what they hand out

A queue is known by the elements it holds. Which of several greatest elements
is handed out first is left to the implementation.
-/

namespace Dllb

set_option autoImplicit false

structure BinaryHeap {α : Type} (le : α → α → Prop) where
  Heap : Type
  empty : Heap
  push : Heap → α → Heap
  pop : Heap → Option (α × Heap)
  toList : Heap → List α
  toList_empty : toList empty = []
  push_perm : ∀ h a, (toList (push h a)).Perm (a :: toList h)
  pop_none : ∀ {h}, pop h = none → toList h = []
  pop_perm : ∀ {h a h'}, pop h = some (a, h') → (toList h).Perm (a :: toList h')
  pop_greatest : ∀ {h a h'}, pop h = some (a, h') → ∀ b ∈ toList h, le b a

namespace BinaryHeap

variable {α : Type} {le : α → α → Prop} (q : BinaryHeap le)

def peek (h : q.Heap) : Option α := (q.pop h).map Prod.fst

def len (h : q.Heap) : Nat := (q.toList h).length

theorem mem_push {h : q.Heap} {a b : α} : b ∈ q.toList (q.push h a) ↔ b = a ∨ b ∈ q.toList h := by
  rw [(q.push_perm h a).mem_iff, List.mem_cons]

theorem len_push (h : q.Heap) (a : α) : q.len (q.push h a) = q.len h + 1 :=
  (q.push_perm h a).length_eq

theorem len_pop {h h' : q.Heap} {a : α} (hpop : q.pop h = some (a, h')) : q.len h = q.len h' + 1 :=
  (q.pop_perm hpop).length_eq

theorem mem_of_pop {h h' : q.Heap} {a b : α} (hpop : q.pop h = some (a, h')) (hb : b ∈ q.toList h') :
    b ∈ q.toList h :=
  (q.pop_perm hpop).mem_iff.mpr (List.mem_cons_of_mem a hb)

theorem exists_pop {h : q.Heap} (hne : q.len h ≠ 0) : ∃ a h', q.pop h = some (a, h') := by
  cases hpop : q.pop h with
  | none =>
    have hnil := q.pop_none hpop
    rw [len, hnil] at hne
    exact absurd rfl hne
  | some r => exact ⟨r.1, r.2, rfl⟩

end BinaryHeap

/-! ## A queue that searches its elements -/

namespace ListHeap

variable {α : Type} (le : α → α → Prop) [DecidableRel le]

/-- An element of `a :: l` that no other exceeds, and the others. -/
def takeGreatest (a : α) : List α → α × List α
  | [] => (a, [])
  | b :: l =>
    if le b a then
      let r := takeGreatest a l
      (r.1, b :: r.2)
    else
      let r := takeGreatest b l
      (r.1, a :: r.2)

theorem takeGreatest_perm (a : α) (l : List α) :
    (a :: l).Perm ((takeGreatest le a l).1 :: (takeGreatest le a l).2) := by
  induction l generalizing a with
  | nil => exact .refl _
  | cons b l ih =>
    rw [takeGreatest]
    split
    · exact (List.Perm.swap b a l).trans (((ih a).cons b).trans (.swap _ _ _))
    · exact ((ih b).cons a).trans (.swap _ _ _)

theorem le_takeGreatest [Std.Refl le] [IsTrans α le] [Std.Total le] (a : α) (l : List α) :
    ∀ b ∈ a :: l, le b (takeGreatest le a l).1 := by
  induction l generalizing a with
  | nil =>
    intro b hb
    rw [List.mem_singleton.mp hb]
    exact refl_of le a
  | cons c l ih =>
    rw [takeGreatest]
    split
    · rename_i hca
      intro b hb
      have ha := ih a a List.mem_cons_self
      rcases List.mem_cons.mp hb with rfl | hb
      · exact ha
      · rcases List.mem_cons.mp hb with rfl | hb
        · exact trans_of le hca ha
        · exact ih a b (List.mem_cons_of_mem a hb)
    · rename_i hca
      have hac : le a c := (total_of le a c).resolve_right hca
      intro b hb
      rcases List.mem_cons.mp hb with rfl | hb
      · exact trans_of le hac (ih c c List.mem_cons_self)
      · exact ih c b hb

def pop : List α → Option (α × List α)
  | [] => none
  | a :: l => some (takeGreatest le a l)

def heap [Std.Refl le] [IsTrans α le] [Std.Total le] : BinaryHeap le where
  Heap := List α
  empty := []
  push h a := a :: h
  pop := pop le
  toList := id
  toList_empty := rfl
  push_perm _ _ := .refl _
  pop_none {h} hpop := by
    cases h with
    | nil => rfl
    | cons a l => cases hpop
  pop_perm {h a h'} hpop := by
    cases h with
    | nil => cases hpop
    | cons b l =>
      have hr : takeGreatest le b l = (a, h') := Option.some.inj hpop
      have hperm := takeGreatest_perm le b l
      rw [hr] at hperm
      exact hperm
  pop_greatest {h a h'} hpop := by
    cases h with
    | nil => cases hpop
    | cons b l =>
      have hr : takeGreatest le b l = (a, h') := Option.some.inj hpop
      have hle := le_takeGreatest le b l
      rw [hr] at hle
      exact hle

end ListHeap

end Dllb
