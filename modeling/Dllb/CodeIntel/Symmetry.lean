import Mathlib
import Dllb.CodeIntel.SameShape

/-! # Similarity in the other order

Lists of different lengths are compared the same way in either order. Of two lists of
one length the first takes its matches from the second, so that the order can change
the pairs, and a child without a match weighs half on one side and all on the other.
-/

namespace Dllb

set_option autoImplicit false

section

variable (sim : MetaNode → MetaNode → ℚ)

def pairedSim (pairs : List (MetaNode × MetaNode)) : ℚ :=
  (pairs.map fun p => sim p.1 p.2 * ((subtreeSize p.1 + subtreeSize p.2 : ℚ) / 2)).sum

def pairedWeight (pairs : List (MetaNode × MetaNode)) : ℚ :=
  (pairs.map fun p => (subtreeSize p.1 + subtreeSize p.2 : ℚ) / 2).sum

/-- The size of the trees that found no partner. -/
def unpairedSize (nodes paired : List MetaNode) : Nat := totalSize nodes - totalSize paired

theorem totalSize_append (ns ns' : List MetaNode) : totalSize (ns ++ ns') = totalSize ns + totalSize ns' := by
  simp only [totalSize_eq, List.map_append, List.sum_append]

theorem totalSize_perm {ns ns' : List MetaNode} (h : ns.Perm ns') : totalSize ns = totalSize ns' := by
  rw [totalSize_eq, totalSize_eq]
  exact (h.map subtreeSize).sum_eq

/-- The similarity of the children in terms of the pairs alone. -/
theorem matchSmaller_eq_div (smaller larger : List MetaNode) : matchSmaller sim smaller larger =
    pairedSim sim (pairsOf sim smaller larger) /
      (pairedWeight (pairsOf sim smaller larger) +
        (unpairedSize smaller ((pairsOf sim smaller larger).map Prod.fst) : ℚ) / 2 +
        unpairedSize larger ((pairsOf sim smaller larger).map Prod.snd)) := by
  obtain ⟨unpaired, left, hassigns, heq⟩ := matchSmaller_eq sim smaller larger
  have hsources : unpairedSize smaller ((pairsOf sim smaller larger).map Prod.fst) = totalSize unpaired := by
    rw [unpairedSize, totalSize_perm hassigns.sources, totalSize_append, Nat.add_sub_cancel_left]
  have htargets : unpairedSize larger ((pairsOf sim smaller larger).map Prod.snd) = totalSize left := by
    have hperm : larger.Perm ((pairsOf sim smaller larger).map Prod.snd ++ left) :=
      Multiset.coe_eq_coe.mp hassigns.targets
    rw [unpairedSize, totalSize_perm hperm, totalSize_append, Nat.add_sub_cancel_left]
  have hhalf : (unpaired.map fun s => (subtreeSize s : ℚ) / 2).sum = (totalSize unpaired : ℚ) / 2 := by
    simp only [totalSize_eq, Nat.cast_list_sum, List.map_map, div_eq_mul_inv, List.sum_map_mul_right]
    rfl
  have hall : (left.map fun l => (subtreeSize l : ℚ)).sum = totalSize left := by
    rw [totalSize_eq, Nat.cast_list_sum, List.map_map]
    rfl
  rw [heq, hsources, htargets, ← hhalf, ← hall]
  simp [weightedMean, ratings, pairedSim, pairedWeight, Function.comp_def, add_assoc]

theorem greedyChildrenSimilarity_comm_of_length_ne {as bs : List MetaNode} (h : as.length ≠ bs.length) :
    greedyChildrenSimilarity sim as bs = greedyChildrenSimilarity sim bs as := by
  obtain rfl | has := eq_or_ne as []
  · have hbs : bs ≠ [] := fun hbs => h (by rw [hbs])
    rw [greedyChildrenSimilarity_nil_left hbs, greedyChildrenSimilarity_nil_right hbs]
  obtain rfl | hbs := eq_or_ne bs []
  · rw [greedyChildrenSimilarity_nil_left has, greedyChildrenSimilarity_nil_right has]
  rw [greedyChildrenSimilarity_cons has hbs, greedyChildrenSimilarity_cons hbs has]
  obtain hlt | hgt := Nat.lt_or_gt_of_ne h
  · rw [if_pos hlt.le, if_neg hlt.not_ge]
  · rw [if_neg hgt.not_ge, if_pos hgt.le]

/-- Both lists make the same pairs when they take their matches, and nothing is paired or as much is left on both
sides. -/
structure PairedAlike (as bs : List MetaNode) : Prop where
  pairs : (pairsOf sim as bs).Perm ((pairsOf sim bs as).map Prod.swap)
  sizes : pairsOf sim as bs = [] ∨
    unpairedSize as ((pairsOf sim as bs).map Prod.fst) = unpairedSize bs ((pairsOf sim as bs).map Prod.snd)

variable {sim}

theorem matchSmaller_comm {as bs : List MetaNode} (h : PairedAlike sim as bs)
    (hsim : ∀ p ∈ pairsOf sim as bs, sim p.1 p.2 = sim p.2 p.1) :
    matchSmaller sim as bs = matchSmaller sim bs as := by
  have hsimilarity : pairedSim sim (pairsOf sim as bs) = pairedSim sim (pairsOf sim bs as) := by
    rw [pairedSim, pairedSim, (h.pairs.map _).sum_eq, List.map_map]
    refine congrArg List.sum (List.map_congr_left fun p hp => ?_)
    have hp' := hsim p.swap (h.pairs.mem_iff.mpr (List.mem_map_of_mem hp))
    simp only [Function.comp_apply, Prod.fst_swap, Prod.snd_swap] at hp' ⊢
    rw [hp', add_comm]
  have hweight : pairedWeight (pairsOf sim as bs) = pairedWeight (pairsOf sim bs as) := by
    rw [pairedWeight, pairedWeight, (h.pairs.map _).sum_eq, List.map_map]
    refine congrArg List.sum (List.map_congr_left fun p _ => ?_)
    simp only [Function.comp_apply, Prod.fst_swap, Prod.snd_swap]
    rw [add_comm]
  have hfst : unpairedSize as ((pairsOf sim as bs).map Prod.fst) =
      unpairedSize as ((pairsOf sim bs as).map Prod.snd) := by
    rw [unpairedSize, unpairedSize, totalSize_perm (h.pairs.map Prod.fst), List.map_map]
    rfl
  have hsnd : unpairedSize bs ((pairsOf sim as bs).map Prod.snd) =
      unpairedSize bs ((pairsOf sim bs as).map Prod.fst) := by
    rw [unpairedSize, unpairedSize, totalSize_perm (h.pairs.map Prod.snd), List.map_map]
    rfl
  rw [matchSmaller_eq_div, matchSmaller_eq_div, ← hsimilarity, ← hweight, ← hfst, ← hsnd]
  obtain hnil | hsizes := h.sizes
  · rw [hnil, pairedSim, List.map_nil, List.sum_nil, zero_div, zero_div]
  · rw [hsizes]

theorem greedyChildrenSimilarity_comm {as bs : List MetaNode} (h : as.length = bs.length → PairedAlike sim as bs)
    (hsim : as.length = bs.length → ∀ p ∈ pairsOf sim as bs, sim p.1 p.2 = sim p.2 p.1) :
    greedyChildrenSimilarity sim as bs = greedyChildrenSimilarity sim bs as := by
  by_cases hlength : as.length = bs.length
  · obtain rfl | has := eq_or_ne as []
    · rw [List.eq_nil_of_length_eq_zero hlength.symm]
    · have hbs : bs ≠ [] := by
        rintro rfl
        exact has (List.eq_nil_of_length_eq_zero hlength)
      rw [greedyChildrenSimilarity_cons has hbs, greedyChildrenSimilarity_cons hbs has, if_pos hlength.le,
        if_pos hlength.ge, matchSmaller_comm (h hlength) (hsim hlength)]
  · exact greedyChildrenSimilarity_comm_of_length_ne sim hlength

theorem rootWeight_comm (a b : MetaNode) : rootWeight a b = rootWeight b a := by
  rw [rootWeight, rootWeight, add_comm]

theorem similarityBy_comm {a b : MetaNode} (h : ∀ as bs, a.children = .nodes as → b.children = .nodes bs →
    greedyChildrenSimilarity sim as bs = greedyChildrenSimilarity sim bs as) :
    similarityBy sim a b = similarityBy sim b a := by
  have htype : (a.nodeType = b.nodeType) = (b.nodeType = a.nodeType) := propext eq_comm
  cases ha : a.children with
  | value v =>
    cases hb : b.children with
    | value w => simp only [similarityBy_values sim ha hb, similarityBy_values sim hb ha, htype]
    | nodes bs => simp only [similarityBy_value_nodes sim ha hb, similarityBy_nodes_value sim hb ha, htype]
  | nodes as =>
    cases hb : b.children with
    | value w => simp only [similarityBy_nodes_value sim ha hb, similarityBy_value_nodes sim hb ha, htype]
    | nodes bs =>
      by_cases hnone : as = [] ∧ bs = []
      · obtain ⟨rfl, rfl⟩ := hnone
        simp only [similarityBy_nil sim ha hb, similarityBy_nil sim hb ha, htype]
      · have hsome : as ≠ [] ∨ bs ≠ [] := not_and_or.mp hnone
        simp only [similarityBy_nodes sim ha hb hsome, similarityBy_nodes sim hb ha hsome.symm, htype,
          rootWeight_comm a b, h as bs ha hb]

end

/-- Wherever nodes with equally many children are compared, down to the pairs of children that are made, both lists
of children make them alike. -/
inductive Balanced : MetaNode → MetaNode → Prop
  | mk {a b : MetaNode}
      (alike : ∀ as bs, a.children = .nodes as → b.children = .nodes bs → as.length = bs.length →
        PairedAlike structuralSimilarity as bs)
      (below : ∀ as bs, a.children = .nodes as → b.children = .nodes bs → as.length = bs.length →
        ∀ p ∈ pairsOf structuralSimilarity as bs, Balanced p.1 p.2) : Balanced a b

theorem Balanced.comm {a b : MetaNode} (h : Balanced a b) : structuralSimilarity a b = structuralSimilarity b a := by
  induction h with
  | @mk a b alike _ ih =>
    rw [structuralSimilarity_eq, structuralSimilarity_eq b a]
    exact similarityBy_comm fun as bs ha hb => greedyChildrenSimilarity_comm (alike as bs ha hb) (ih as bs ha hb)

theorem balanced_of_length_ne {a b : MetaNode} (h : a.childNodes.length ≠ b.childNodes.length) : Balanced a b := by
  have hne : ∀ as bs, a.children = .nodes as → b.children = .nodes bs → as.length ≠ bs.length := by
    intro as bs ha hb
    rwa [MetaNode.childNodes_eq ha, MetaNode.childNodes_eq hb] at h
  exact ⟨fun as bs ha hb hlength => absurd hlength (hne as bs ha hb),
    fun as bs ha hb hlength => absurd hlength (hne as bs ha hb)⟩

/-! ## Zero and one in either order -/

section

variable {sim : MetaNode → MetaNode → ℚ} {as bs : List MetaNode}

theorem greedyChildrenSimilarity_eq_zero_iff (hsome : as ≠ [] ∨ bs ≠ [])
    (hsim : ∀ a ∈ as, ∀ b ∈ bs, 0 ≤ sim a b ∧ sim a b ≤ 1)
    (hsim' : ∀ b ∈ bs, ∀ a ∈ as, 0 ≤ sim b a ∧ sim b a ≤ 1)
    (hcomm : ∀ a ∈ as, ∀ b ∈ bs, sim a b = 0 ↔ sim b a = 0) :
    greedyChildrenSimilarity sim as bs = 0 ↔ ∀ a ∈ as, ∀ b ∈ bs, sim a b = 0 := by
  obtain rfl | has := eq_or_ne as []
  · rw [greedyChildrenSimilarity_nil_left (hsome.resolve_left (not_not.mpr rfl))]
    exact iff_of_true rfl (List.forall_mem_nil _)
  obtain rfl | hbs := eq_or_ne bs []
  · rw [greedyChildrenSimilarity_nil_right has]
    exact iff_of_true rfl fun _ _ => List.forall_mem_nil _
  rw [greedyChildrenSimilarity_cons has hbs]
  split
  · exact matchSmaller_eq_zero_iff hsim
  · rw [matchSmaller_eq_zero_iff hsim']
    exact ⟨fun h a ha b hb => (hcomm a ha b hb).mpr (h b hb a ha),
      fun h b hb a ha => (hcomm a ha b hb).mp (h a ha b hb)⟩

/-- Trees are not similar at all in one order just where their roots differ in type and no children are similar. -/
theorem similarityBy_eq_zero_iff {a b : MetaNode} (ha : a.children = .nodes as) (hb : b.children = .nodes bs)
    (hsome : as ≠ [] ∨ bs ≠ []) (hsim : ∀ a ∈ as, ∀ b ∈ bs, 0 ≤ sim a b ∧ sim a b ≤ 1)
    (hsim' : ∀ b ∈ bs, ∀ a ∈ as, 0 ≤ sim b a ∧ sim b a ≤ 1)
    (hcomm : ∀ a ∈ as, ∀ b ∈ bs, sim a b = 0 ↔ sim b a = 0) :
    similarityBy sim a b = 0 ↔ a.nodeType ≠ b.nodeType ∧ ∀ a ∈ as, ∀ b ∈ bs, sim a b = 0 := by
  obtain ⟨hpos, hlt⟩ := rootWeight_mem ha hb hsome
  have hrest : 0 < 1 - rootWeight a b := sub_pos.mpr hlt
  rw [similarityBy_nodes sim ha hb hsome, ← greedyChildrenSimilarity_eq_zero_iff hsome hsim hsim' hcomm]
  split
  next htype =>
    have hnonneg := mul_nonneg hrest.le (greedyChildrenSimilarity_mem hsim hsim').1
    exact iff_of_false (add_pos_of_pos_of_nonneg hpos hnonneg).ne' fun h => h.1 htype
  next htype =>
    rw [and_iff_right htype, mul_eq_zero, mul_eq_zero, or_iff_left one_half_pos.ne', or_iff_right hrest.ne']

theorem similarityBy_zero_comm {a b : MetaNode}
    (hsim : ∀ c ∈ a.childNodes, ∀ d ∈ b.childNodes, 0 ≤ sim c d ∧ sim c d ≤ 1)
    (hsim' : ∀ d ∈ b.childNodes, ∀ c ∈ a.childNodes, 0 ≤ sim d c ∧ sim d c ≤ 1)
    (hcomm : ∀ c ∈ a.childNodes, ∀ d ∈ b.childNodes, sim c d = 0 ↔ sim d c = 0) :
    similarityBy sim a b = 0 ↔ similarityBy sim b a = 0 := by
  by_cases hgreedy : ∃ as bs, a.children = .nodes as ∧ b.children = .nodes bs ∧ (as ≠ [] ∨ bs ≠ [])
  · obtain ⟨as, bs, ha, hb, hsome⟩ := hgreedy
    rw [MetaNode.childNodes_eq ha, MetaNode.childNodes_eq hb] at hsim hsim' hcomm
    rw [similarityBy_eq_zero_iff ha hb hsome hsim hsim' hcomm,
      similarityBy_eq_zero_iff hb ha hsome.symm hsim' hsim fun d hd c hc => (hcomm c hc d hd).symm]
    refine and_congr ne_comm ⟨fun h d hd c hc => (hcomm c hc d hd).mp (h c hc d hd), fun h c hc d hd => ?_⟩
    exact (hcomm c hc d hd).mpr (h d hd c hc)
  · rw [similarityBy_comm fun as bs ha hb => ?_]
    have hnone : ¬ (as ≠ [] ∨ bs ≠ []) := fun hsome => hgreedy ⟨as, bs, ha, hb, hsome⟩
    rw [not_or, not_not, not_not] at hnone
    rw [hnone.1, hnone.2]

end

theorem structuralSimilarity_zero_comm (n : Nat) : ∀ {a b : MetaNode}, subtreeSize a + subtreeSize b ≤ n →
    (structuralSimilarity a b = 0 ↔ structuralSimilarity b a = 0) := by
  induction n with
  | zero =>
    intro a b hn
    exact absurd (subtreeSize_pos a) (by omega)
  | succ n ih =>
    intro a b hn
    have hmem : ∀ a b, 0 ≤ structuralSimilarity a b ∧ structuralSimilarity a b ≤ 1 := by
      intro a b
      have hmeasures : MeasuresShape structuralSimilarity a b := measuresShape_structuralSimilarity _ le_rfl
      exact ⟨hmeasures.1, hmeasures.2.1⟩
    rw [structuralSimilarity_eq, structuralSimilarity_eq b a]
    refine similarityBy_zero_comm (fun c _ d _ => hmem c d) (fun d _ c _ => hmem d c) fun c hc d hd => ih ?_
    have hc := subtreeSize_lt_of_mem hc
    have hd := subtreeSize_lt_of_mem hd
    omega

theorem structuralSimilarity_one_comm (a b : MetaNode) :
    structuralSimilarity a b = 1 ↔ structuralSimilarity b a = 1 := by
  have h : MeasuresShape structuralSimilarity a b := measuresShape_structuralSimilarity _ le_rfl
  have h' : MeasuresShape structuralSimilarity b a := measuresShape_structuralSimilarity _ le_rfl
  rw [h.2.2, h'.2.2]
  exact ⟨sameShape_equivalence.symm, sameShape_equivalence.symm⟩

/-- The order matters only between zero and one, and only where lists of one length are not paired alike. -/
theorem similarity_comm (a b : MetaNode) :
    (Balanced a b → structuralSimilarity a b = structuralSimilarity b a) ∧
      (a.childNodes.length ≠ b.childNodes.length → structuralSimilarity a b = structuralSimilarity b a) ∧
      (structuralSimilarity a b = 0 ↔ structuralSimilarity b a = 0) ∧
      (structuralSimilarity a b = 1 ↔ structuralSimilarity b a = 1) :=
  ⟨Balanced.comm, fun h => (balanced_of_length_ne h).comm, structuralSimilarity_zero_comm _ le_rfl,
    structuralSimilarity_one_comm a b⟩

def leaf (nodeType : NodeType) : MetaNode := .mk nodeType [] (.value .null)

/-- A block of a literal and a variable. -/
def literalVariable : MetaNode := .mk .block [] (.nodes [leaf .literal, leaf .variable'])

/-- Two blocks with nothing in common but a literal, and with as much beside it. -/
theorem similarity_comm_literal :
    let b : MetaNode := .mk .block [] (.nodes [leaf .comment, leaf .literal])
    structuralSimilarity literalVariable b = structuralSimilarity b literalVariable := by
  intro b
  have hpairs : pairsOf structuralSimilarity [leaf .literal, leaf .variable'] [leaf .comment, leaf .literal] =
      [(leaf .literal, leaf .literal)] := rfl
  refine (similarity_comm literalVariable b).1 ⟨?_, ?_⟩
  · rintro as bs ⟨⟩ ⟨⟩ -
    exact ⟨List.Perm.of_eq rfl, Or.inr rfl⟩
  · rintro as bs ⟨⟩ ⟨⟩ - p hp
    obtain rfl := List.mem_singleton.mp (hpairs ▸ hp)
    exact ⟨fun _ _ h => (nomatch h), fun _ _ h => (nomatch h)⟩

/-- Beside the literal one block has a variable and the other a tuple with a variable. -/
theorem similarity_not_comm :
    let b : MetaNode := .mk .block [] (.nodes [leaf .literal, .mk .tuple [] (.nodes [leaf .variable'])])
    structuralSimilarity literalVariable b ≠ structuralSimilarity b literalVariable := by
  decide +kernel

end Dllb
