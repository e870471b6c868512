import Mathlib
import Dllb.CodeIntel.Symmetry

/-! # Clones

Pairs of trees are compared in full only if their fingerprints agree: the hashes of
the roots, or more than half of the hashes of the tree with fewer nodes. The hash
function is a parameter.
-/

namespace Dllb

set_option autoImplicit false

structure ClonePair where
  indexA : Nat
  indexB : Nat
  similarity : ℚ

section

variable (hash : NodeType → Nat → List UInt64 → UInt64)

mutual

/-- The hash of a node is made of its type, the number of its children and their hashes. -/
def nodeStructuralHash : MetaNode → UInt64
  | .mk nodeType _ children => childrenHash nodeType children

def childrenHash : NodeType → NodeChildren → UInt64
  | nodeType, .value _ => hash nodeType 0 []
  | nodeType, .nodes ns => hash nodeType ns.length (hashes ns)

def hashes : List MetaNode → List UInt64
  | [] => []
  | n :: ns => nodeStructuralHash n :: hashes ns

end

def treeFingerprint (node : MetaNode) : List UInt64 := (walk node).map (nodeStructuralHash hash)

def subtreeHash (node : MetaNode) : UInt64 := nodeStructuralHash hash node

/-- The part of the shorter fingerprint that is in the longer one, of two equally long ones of the first. -/
def overlapRatio (fpA fpB : List UInt64) : ℚ :=
  let (smaller, larger) := if fpA.length ≤ fpB.length then (fpA, fpB) else (fpB, fpA)
  ((smaller.filter fun h => larger.contains h).length : ℚ) / smaller.length

end

/-- The full comparison of two trees. -/
def fullCheck (threshold : ℚ) (i j : Nat) (a b : MetaNode) : Option ClonePair :=
  if threshold ≤ structuralSimilarity a b then some ⟨i, j, structuralSimilarity a b⟩ else none

section

variable (hash : NodeType → Nat → List UInt64 → UInt64)

/-- The comparison of two trees behind the filter. -/
def checkPair (threshold : ℚ) (i j : Nat) (a b : MetaNode) : Option ClonePair :=
  let fpA := treeFingerprint hash a
  let fpB := treeFingerprint hash b
  if fpA.head? = fpB.head? then fullCheck threshold i j a b
  else if (if fpA.length ≤ fpB.length then fpA else fpB).isEmpty then none
  else if 1 / 2 < overlapRatio fpA fpB then fullCheck threshold i j a b
  else none

/-- All pairs of numbers below `n`, the smaller one first. -/
def indexPairs (n : Nat) : List (Nat × Nat) :=
  (List.range n).flatMap fun i => (List.range' (i + 1) (n - (i + 1))).map fun j => (i, j)

/-- What a check finds among all pairs of trees. -/
def pairsFound (check : Nat → Nat → MetaNode → MetaNode → Option ClonePair) (nodes : List MetaNode) :
    List ClonePair :=
  (indexPairs nodes.length).filterMap fun ij =>
    match nodes[ij.1]?, nodes[ij.2]? with
    | some a, some b => check ij.1 ij.2 a b
    | _, _ => none

/-- The sort keeps the order of pairs that are equally similar. -/
def bySimilarity (pairs : List ClonePair) : List ClonePair :=
  pairs.mergeSort fun p q => q.similarity ≤ p.similarity

def findClones (nodes : List MetaNode) (threshold : ℚ) : List ClonePair :=
  bySimilarity (pairsFound (checkPair hash threshold) nodes)

/-- What comparing all pairs finds. -/
def allClones (nodes : List MetaNode) (threshold : ℚ) : List ClonePair :=
  bySimilarity (pairsFound (fullCheck threshold) nodes)

/-- The fingerprints of two trees let them be compared. -/
def Compared (a b : MetaNode) : Prop :=
  subtreeHash hash a = subtreeHash hash b ∨ 1 / 2 < overlapRatio (treeFingerprint hash a) (treeFingerprint hash b)

/-! ## The filter -/

theorem head_treeFingerprint (node : MetaNode) :
    (treeFingerprint hash node).head? = some (subtreeHash hash node) := by
  cases node
  rw [treeFingerprint, walk]
  rfl

theorem treeFingerprint_ne_nil (node : MetaNode) : treeFingerprint hash node ≠ [] := by
  intro hnil
  have hhead := head_treeFingerprint hash node
  rw [hnil] at hhead
  cases hhead

theorem checkPair_of_compared {a b : MetaNode} (h : Compared hash a b) (threshold : ℚ) (i j : Nat) :
    checkPair hash threshold i j a b = fullCheck threshold i j a b := by
  have hempty : (if (treeFingerprint hash a).length ≤ (treeFingerprint hash b).length then treeFingerprint hash a
      else treeFingerprint hash b).isEmpty = false := by
    split <;> simpa using treeFingerprint_ne_nil hash _
  simp only [checkPair, hempty, head_treeFingerprint, Option.some.injEq]
  obtain hroot | hoverlap := h
  · rw [if_pos hroot]
  · rw [if_pos hoverlap, if_neg Bool.false_ne_true, ite_self]

theorem checkPair_of_not_compared {a b : MetaNode} (h : ¬ Compared hash a b) (threshold : ℚ) (i j : Nat) :
    checkPair hash threshold i j a b = none := by
  obtain ⟨hroot, hoverlap⟩ := not_or.mp h
  simp only [checkPair, head_treeFingerprint, Option.some.injEq]
  rw [if_neg hroot, if_neg hoverlap, ite_self]

theorem fullCheck_eq_some_iff {threshold : ℚ} {i j : Nat} {a b : MetaNode} {p : ClonePair} :
    fullCheck threshold i j a b = some p ↔
      threshold ≤ structuralSimilarity a b ∧ p = ⟨i, j, structuralSimilarity a b⟩ := by
  rw [fullCheck]
  split
  next hle => rw [Option.some.injEq, and_iff_right hle, eq_comm]
  next hle => exact iff_of_false (fun h => nomatch h) fun h => hle h.1

theorem checkPair_eq_some_iff {threshold : ℚ} {i j : Nat} {a b : MetaNode} {p : ClonePair} :
    checkPair hash threshold i j a b = some p ↔
      Compared hash a b ∧ threshold ≤ structuralSimilarity a b ∧ p = ⟨i, j, structuralSimilarity a b⟩ := by
  by_cases hcompared : Compared hash a b
  · rw [checkPair_of_compared hash hcompared, fullCheck_eq_some_iff, and_iff_right hcompared]
  · rw [checkPair_of_not_compared hash hcompared]
    exact iff_of_false (fun h => nomatch h) fun h => hcompared h.1

/-! ## All pairs once -/

theorem mem_indexPairs {n i j : Nat} : (i, j) ∈ indexPairs n ↔ i < j ∧ j < n := by
  simp only [indexPairs, List.mem_flatMap, List.mem_range, List.mem_map, List.mem_range'_1, Prod.mk.injEq]
  constructor
  · rintro ⟨i', hi', j', ⟨hlo, hhi⟩, rfl, rfl⟩
    omega
  · rintro ⟨hij, hjn⟩
    exact ⟨i, by omega, j, by omega, rfl, rfl⟩

theorem nodup_indexPairs (n : Nat) : (indexPairs n).Nodup := by
  refine List.nodup_flatMap.mpr ⟨fun i _ => ?_, ?_⟩
  · exact List.Nodup.map (fun j j' h => (Prod.mk.inj h).2) List.nodup_range'
  · refine List.nodup_range.imp fun {i i'} hne => ?_
    rw [Function.onFun, List.disjoint_left]
    intro ij hi hi'
    obtain ⟨j, -, rfl⟩ := List.mem_map.mp hi
    obtain ⟨j', -, heq⟩ := List.mem_map.mp hi'
    exact hne (Prod.mk.inj heq).1.symm

theorem map_filterMap_sublist {α β : Type} {f : α → Option β} {g : β → α} (h : ∀ x y, f x = some y → g y = x)
    (l : List α) : ((l.filterMap f).map g).Sublist l := by
  induction l with
  | nil => exact List.Sublist.refl _
  | cons x l ih =>
    cases hfx : f x with
    | none =>
      rw [List.filterMap_cons_none hfx]
      exact ih.cons x
    | some y =>
      rw [List.filterMap_cons_some hfx, List.map_cons, h x y hfx]
      exact ih.cons_cons x

variable {check : Nat → Nat → MetaNode → MetaNode → Option ClonePair} {nodes : List MetaNode}

theorem mem_pairsFound {p : ClonePair} : p ∈ pairsFound check nodes ↔
    ∃ (i j : Nat) (a b : MetaNode), i < j ∧ nodes[i]? = some a ∧ nodes[j]? = some b ∧ check i j a b = some p := by
  rw [pairsFound, List.mem_filterMap]
  constructor
  · rintro ⟨⟨i, j⟩, hij, hp⟩
    split at hp
    next a b ha hb => exact ⟨i, j, a, b, (mem_indexPairs.mp hij).1, ha, hb, hp⟩
    next => cases hp
  · rintro ⟨i, j, a, b, hij, ha, hb, hp⟩
    refine ⟨(i, j), mem_indexPairs.mpr ⟨hij, (List.getElem?_eq_some_iff.mp hb).1⟩, ?_⟩
    simp only [ha, hb, hp]

theorem nodup_pairsFound (hindex : ∀ i j a b p, check i j a b = some p → (p.indexA, p.indexB) = (i, j)) :
    ((pairsFound check nodes).map fun p => (p.indexA, p.indexB)).Nodup := by
  refine List.Nodup.sublist (map_filterMap_sublist (fun ij p hp => ?_) _) (nodup_indexPairs nodes.length)
  split at hp
  next a b _ _ => exact hindex _ _ a b p hp
  next => cases hp

theorem mem_bySimilarity {pairs : List ClonePair} {p : ClonePair} : p ∈ bySimilarity pairs ↔ p ∈ pairs :=
  List.mem_mergeSort

theorem pairwise_bySimilarity (pairs : List ClonePair) :
    (bySimilarity pairs).Pairwise fun p q => q.similarity ≤ p.similarity := by
  refine (List.pairwise_mergeSort (fun p q r hpq hqr => ?_) (fun p q => ?_) pairs).imp fun h => of_decide_eq_true h
  · exact decide_eq_true ((of_decide_eq_true hqr).trans (of_decide_eq_true hpq))
  · rw [Bool.or_eq_true, decide_eq_true_eq, decide_eq_true_eq]
    exact le_total _ _

end

/-- The clones found are one pair for each two trees that are similar enough and pass the filter, and so they are all
there are just where no similar trees are held back by the filter. -/
theorem find_clones_exact (hash : NodeType → Nat → List UInt64 → UInt64) (nodes : List MetaNode) (threshold : ℚ) :
    (findClones hash nodes threshold).Pairwise (fun p q => q.similarity ≤ p.similarity) ∧
      ((findClones hash nodes threshold).map fun p => (p.indexA, p.indexB)).Nodup ∧
      (∀ p, p ∈ findClones hash nodes threshold ↔
        ∃ (i j : Nat) (a b : MetaNode), i < j ∧ nodes[i]? = some a ∧ nodes[j]? = some b ∧
          Compared hash a b ∧ threshold ≤ structuralSimilarity a b ∧ p = ⟨i, j, structuralSimilarity a b⟩) ∧
      (findClones hash nodes threshold = allClones nodes threshold ↔
        ∀ (i j : Nat) (a b : MetaNode), i < j → nodes[i]? = some a → nodes[j]? = some b →
          threshold ≤ structuralSimilarity a b → Compared hash a b) := by
  have hmem : ∀ p, p ∈ findClones hash nodes threshold ↔
      ∃ (i j : Nat) (a b : MetaNode), i < j ∧ nodes[i]? = some a ∧ nodes[j]? = some b ∧
        Compared hash a b ∧ threshold ≤ structuralSimilarity a b ∧ p = ⟨i, j, structuralSimilarity a b⟩ := by
    intro p
    simp only [findClones, mem_bySimilarity, mem_pairsFound, checkPair_eq_some_iff]
  refine ⟨pairwise_bySimilarity _, ?_, hmem, ?_⟩
  · refine ((List.mergeSort_perm _ _).map _).nodup_iff.mpr (nodup_pairsFound fun i j a b p hp => ?_)
    obtain ⟨-, -, rfl⟩ := (checkPair_eq_some_iff hash).mp hp
    rfl
  · constructor
    · intro heq i j a b hij ha hb hle
      have hall : ⟨i, j, structuralSimilarity a b⟩ ∈ allClones nodes threshold := by
        rw [allClones, mem_bySimilarity, mem_pairsFound]
        exact ⟨i, j, a, b, hij, ha, hb, fullCheck_eq_some_iff.mpr ⟨hle, rfl⟩⟩
      rw [← heq, hmem] at hall
      obtain ⟨i', j', a', b', -, ha', hb', hcompared, -, hp⟩ := hall
      obtain ⟨rfl, rfl, -⟩ := ClonePair.mk.inj hp
      rw [ha] at ha'
      rw [hb] at hb'
      obtain rfl := Option.some.inj ha'
      obtain rfl := Option.some.inj hb'
      exact hcompared
    · intro hall
      rw [findClones, allClones]
      refine congrArg bySimilarity (List.filterMap_congr fun ij hij => ?_)
      split
      next a b ha hb =>
        by_cases hle : threshold ≤ structuralSimilarity a b
        · exact checkPair_of_compared hash (hall ij.1 ij.2 a b (mem_indexPairs.mp hij).1 ha hb hle) threshold _ _
        · have hnone : fullCheck threshold ij.1 ij.2 a b = none := by rw [fullCheck, if_neg hle]
          by_cases hcompared : Compared hash a b
          · exact checkPair_of_compared hash hcompared threshold _ _
          · rw [checkPair_of_not_compared hash hcompared, hnone]
      next => rfl

/-- A hash that depends on the order of the children. -/
def positionalHash (nodeType : NodeType) (children : Nat) (childHashes : List UInt64) : UInt64 :=
  childHashes.foldl (fun acc h => 31 * acc + h) (UInt64.ofNat (nodeType.ctorIdx + 64 * children))

def sumBlock (operands : List MetaNode) : MetaNode := .mk .block [] (.nodes [.mk .binaryOp [] (.nodes operands)])

/-- With the operands the other way round only half of the hashes are the same. -/
theorem swapped_operands_missed :
    let a := sumBlock [leaf .literal, leaf .variable']
    let b := sumBlock [leaf .variable', leaf .literal]
    structuralSimilarity a b = 1 ∧ findClones positionalHash [a, b] 1 = [] := by
  intro a b
  have hfound : (pairsFound (checkPair positionalHash 1) [a, b]).length = 0 := by decide +kernel
  refine ⟨by decide +kernel, ?_⟩
  rw [findClones, List.eq_nil_of_length_eq_zero hfound, bySimilarity, List.mergeSort_nil]

end Dllb
