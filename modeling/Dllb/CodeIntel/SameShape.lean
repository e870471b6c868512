import Mathlib
import Dllb.CodeIntel.Similarity

/-! # Similarity one

Trees are fully similar just if they have the same shape up to the order of children:
whenever the children can be paired with equal shapes, the greedy pairing does so.
-/

namespace Dllb

set_option autoImplicit false

/-! ## Shapes -/

mutual

/-- The same node types, leaves for leaves, and children of the same shapes in any order. -/
def SameShape : MetaNode → MetaNode → Prop
  | .mk nodeType _ children, b => nodeType = b.nodeType ∧ SameChildren children b.children

def SameChildren : NodeChildren → NodeChildren → Prop
  | .value _, .value _ => True
  | .nodes as, .nodes bs => SameAll as bs
  | _, _ => False

def SameAll : List MetaNode → List MetaNode → Prop
  | [], bs => bs = []
  | a :: as, bs => ∃ b rest, bs.Perm (b :: rest) ∧ SameShape a b ∧ SameAll as rest

end

theorem sameAll_iff (as bs : List MetaNode) :
    SameAll as bs ↔ Multiset.Rel SameShape (as : Multiset MetaNode) (bs : Multiset MetaNode) := by
  induction as generalizing bs with
  | nil =>
    rw [SameAll, Multiset.coe_nil, Multiset.rel_zero_left, Multiset.coe_eq_zero]
  | cons a as ih =>
    rw [SameAll, ← Multiset.cons_coe, Multiset.rel_cons_left]
    constructor
    · rintro ⟨b, rest, hperm, hab, hrest⟩
      exact ⟨b, rest, hab, (ih rest).mp hrest, Multiset.coe_eq_coe.mpr hperm⟩
    · rintro ⟨b, rest, hab, hrest, heq⟩
      obtain ⟨rest, rfl⟩ := Quot.exists_rep rest
      exact ⟨b, rest, Multiset.coe_eq_coe.mp heq, hab, (ih rest).mpr hrest⟩

theorem sameShape_nodes_iff {a b : MetaNode} {as bs : List MetaNode} (ha : a.children = .nodes as)
    (hb : b.children = .nodes bs) : SameShape a b ↔
      a.nodeType = b.nodeType ∧ Multiset.Rel SameShape (as : Multiset MetaNode) (bs : Multiset MetaNode) := by
  obtain ⟨nodeType, metadata, children⟩ := a
  obtain rfl : children = .nodes as := ha
  rw [SameShape, hb, SameChildren, sameAll_iff]
  rfl

theorem sameShape_value_iff {a b : MetaNode} {v w : MetaValue} (ha : a.children = .value v)
    (hb : b.children = .value w) : SameShape a b ↔ a.nodeType = b.nodeType := by
  obtain ⟨nodeType, metadata, children⟩ := a
  obtain rfl : children = .value v := ha
  rw [SameShape, hb, SameChildren, and_true]
  rfl

theorem SameChildren.cases : ∀ {c d : NodeChildren}, SameChildren c d →
    (∃ v w, c = .value v ∧ d = .value w) ∨ ∃ as bs, c = .nodes as ∧ d = .nodes bs
  | .value v, .value w, _ => Or.inl ⟨v, w, rfl, rfl⟩
  | .nodes as, .nodes bs, _ => Or.inr ⟨as, bs, rfl, rfl⟩
  | .value _, .nodes _, h => False.elim h
  | .nodes _, .value _, h => False.elim h

theorem SameShape.children_cases {a b : MetaNode} (h : SameShape a b) :
    (∃ v w, a.children = .value v ∧ b.children = .value w) ∨
      ∃ as bs, a.children = .nodes as ∧ b.children = .nodes bs := by
  obtain ⟨nodeType, metadata, children⟩ := a
  rw [SameShape] at h
  exact h.2.cases

theorem SameShape.refl (n : Nat) : ∀ {a : MetaNode}, subtreeSize a ≤ n → SameShape a a := by
  induction n with
  | zero =>
    intro a ha
    exact absurd (subtreeSize_pos a) (by omega)
  | succ n ih =>
    intro a ha
    cases hchildren : a.children with
    | value v => exact (sameShape_value_iff hchildren hchildren).mpr rfl
    | nodes as =>
      refine (sameShape_nodes_iff hchildren hchildren).mpr ⟨rfl, Multiset.rel_refl_of_refl_on fun c hc => ih ?_⟩
      have := subtreeSize_lt hchildren hc
      omega

theorem SameShape.symm (n : Nat) : ∀ {a b : MetaNode}, subtreeSize a ≤ n → SameShape a b → SameShape b a := by
  induction n with
  | zero =>
    intro a b ha
    exact absurd (subtreeSize_pos a) (by omega)
  | succ n ih =>
    intro a b ha hab
    obtain ⟨v, w, hva, hvb⟩ | ⟨as, bs, has, hbs⟩ := hab.children_cases
    · exact (sameShape_value_iff hvb hva).mpr ((sameShape_value_iff hva hvb).mp hab).symm
    · obtain ⟨htype, hrel⟩ := (sameShape_nodes_iff has hbs).mp hab
      refine (sameShape_nodes_iff hbs has).mpr ⟨htype.symm, ?_⟩
      refine Multiset.rel_flip.mp (hrel.mono fun c hc d _ hcd => ih ?_ hcd)
      have := subtreeSize_lt has hc
      omega

theorem SameShape.trans (n : Nat) : ∀ {a b c : MetaNode}, subtreeSize a ≤ n →
    SameShape a b → SameShape b c → SameShape a c := by
  induction n with
  | zero =>
    intro a b c ha
    exact absurd (subtreeSize_pos a) (by omega)
  | succ n ih =>
    intro a b c ha hab hbc
    obtain ⟨v, w, hva, hvb⟩ | ⟨as, bs, has, hbs⟩ := hab.children_cases
    · obtain ⟨v', w', hvb', hvc⟩ | ⟨bs, cs, hbs, -⟩ := hbc.children_cases
      · exact (sameShape_value_iff hva hvc).mpr
          (((sameShape_value_iff hva hvb).mp hab).trans ((sameShape_value_iff hvb' hvc).mp hbc))
      · rw [hvb] at hbs
        cases hbs
    · obtain ⟨v', w', hvb', -⟩ | ⟨bs', cs, hbs', hcs⟩ := hbc.children_cases
      · rw [hbs] at hvb'
        cases hvb'
      · obtain rfl : bs = bs' := NodeChildren.nodes.inj (hbs.symm.trans hbs')
        obtain ⟨htype, hrel⟩ := (sameShape_nodes_iff has hbs).mp hab
        obtain ⟨htype', hrel'⟩ := (sameShape_nodes_iff hbs hcs).mp hbc
        refine (sameShape_nodes_iff has hcs).mpr ⟨htype.trans htype', ?_⟩
        refine rel_trans_on hrel hrel' fun x hx y z hxy hyz => ?_
        have := subtreeSize_lt has hx
        exact ih (by omega) hxy hyz

/-- Same shapes form an equivalence. -/
theorem sameShape_equivalence : Equivalence SameShape where
  refl a := SameShape.refl (subtreeSize a) le_rfl
  symm := SameShape.symm _ le_rfl
  trans := SameShape.trans _ le_rfl

theorem sameShape_exchange {a b a' b' : MetaNode} (hab : SameShape a b) (hab' : SameShape a b')
    (hcross : SameShape a' b') : SameShape a' b :=
  sameShape_equivalence.trans hcross (sameShape_equivalence.trans (sameShape_equivalence.symm hab') hab)

/-! ## Ratings of an assignment -/

section

variable {sim : MetaNode → MetaNode → ℚ} {smaller larger : List MetaNode}

theorem forall_ratings {pairs : List (MetaNode × MetaNode)} {unpaired left : List MetaNode}
    {P : ℚ × ℚ → Prop} :
    (∀ i ∈ ratings sim pairs unpaired left, P i) ↔
      (∀ p ∈ pairs, P (sim p.1 p.2, (subtreeSize p.1 + subtreeSize p.2 : ℚ) / 2)) ∧
      (∀ s ∈ unpaired, P (0, (subtreeSize s : ℚ) / 2)) ∧ ∀ l ∈ left, P (0, (subtreeSize l : ℚ)) := by
  simp only [ratings, List.forall_mem_append, List.forall_mem_map, and_assoc]

theorem rated_ratings {pairs : List (MetaNode × MetaNode)} {unpaired left : List MetaNode}
    (h : Assigns sim smaller (larger : Multiset MetaNode) pairs unpaired (left : Multiset MetaNode))
    (hsim : ∀ s ∈ smaller, ∀ l ∈ larger, 0 ≤ sim s l ∧ sim s l ≤ 1) :
    Rated (ratings sim pairs unpaired left) := by
  have hsize : ∀ node, 0 < (subtreeSize node : ℚ) := fun node => Nat.cast_pos.mpr (subtreeSize_pos node)
  refine forall_ratings.mpr ⟨fun p hp => ?_, fun s _ => ?_, fun l _ => ?_⟩
  · obtain ⟨hnonneg, hle⟩ := hsim _ (h.fst_mem hp) _ (Multiset.mem_coe.mp (h.snd_mem hp))
    exact ⟨hnonneg, hle, half_pos (add_pos (hsize _) (hsize _))⟩
  · exact ⟨le_rfl, zero_le_one, half_pos (hsize s)⟩
  · exact ⟨le_rfl, zero_le_one, hsize l⟩

theorem matchSmaller_mem (hsim : ∀ s ∈ smaller, ∀ l ∈ larger, 0 ≤ sim s l ∧ sim s l ≤ 1) :
    0 ≤ matchSmaller sim smaller larger ∧ matchSmaller sim smaller larger ≤ 1 := by
  obtain ⟨unpaired, left, hassigns, heq⟩ := matchSmaller_eq sim smaller larger
  have hrated := rated_ratings hassigns hsim
  rw [heq]
  exact ⟨hrated.weightedMean_nonneg, hrated.weightedMean_le_one⟩

theorem ratings_ne_nil {pairs : List (MetaNode × MetaNode)} {unpaired left : List MetaNode}
    (h : Assigns sim smaller (larger : Multiset MetaNode) pairs unpaired (left : Multiset MetaNode))
    (hne : smaller ≠ []) : ratings sim pairs unpaired left ≠ [] := by
  intro hnil
  simp only [ratings, List.append_eq_nil_iff, List.map_eq_nil_iff] at hnil
  obtain ⟨⟨rfl, rfl⟩, -⟩ := hnil
  exact hne (List.perm_nil.mp h.sources)

/-- Nothing is similar just where no pair of children is. -/
theorem matchSmaller_eq_zero_iff (hsim : ∀ s ∈ smaller, ∀ l ∈ larger, 0 ≤ sim s l ∧ sim s l ≤ 1) :
    matchSmaller sim smaller larger = 0 ↔ ∀ s ∈ smaller, ∀ l ∈ larger, sim s l = 0 := by
  obtain ⟨unpaired, left, hassigns, heq⟩ := matchSmaller_eq sim smaller larger
  have hpairs : (∀ p ∈ pairsOf sim smaller larger, sim p.1 p.2 = 0) ↔ pairsOf sim smaller larger = [] := by
    refine ⟨fun hzero => List.eq_nil_iff_forall_not_mem.mpr fun p hp => ?_, fun hnil => by simp [hnil]⟩
    exact absurd (hzero p hp) (hassigns.pos p hp).ne'
  rw [heq, (rated_ratings hassigns hsim).weightedMean_eq_zero_iff, forall_ratings, and_iff_left (by simp), hpairs,
    hassigns.pairs_eq_nil_iff]
  refine forall₂_congr fun s hs => forall₂_congr fun l hl => ?_
  exact ⟨fun hle => le_antisymm hle (hsim s hs l hl).1, le_of_eq⟩

/-- The greedy pairing is perfect just where a perfect pairing exists. -/
theorem matchSmaller_eq_one_iff (hne : smaller ≠ [])
    (hsim : ∀ s ∈ smaller, ∀ l ∈ larger, 0 ≤ sim s l ∧ sim s l ≤ 1)
    (hone : ∀ s ∈ smaller, ∀ l ∈ larger, sim s l = 1 ↔ SameShape s l) :
    matchSmaller sim smaller larger = 1 ↔
      Multiset.Rel SameShape (smaller : Multiset MetaNode) (larger : Multiset MetaNode) := by
  obtain ⟨unpaired, left, hassigns, heq⟩ := matchSmaller_eq sim smaller larger
  rw [heq, (rated_ratings hassigns hsim).weightedMean_eq_one_iff (ratings_ne_nil hassigns hne), forall_ratings,
    ← hassigns.complete_iff zero_lt_one (fun s hs l hl => (hsim s hs l hl).2) (fun s hs l hl => hone s hs l hl)
      fun _ _ _ _ => sameShape_exchange]
  have hnone : ∀ nodes : List MetaNode, (∀ node ∈ nodes, (0 : ℚ) = 1) ↔ nodes = [] := by
    intro nodes
    rw [List.eq_nil_iff_forall_not_mem]
    exact forall₂_congr fun _ _ => iff_of_false zero_ne_one not_false
  rw [hnone, hnone, Multiset.coe_eq_zero, and_rotate]

end

/-! ## The similarity of trees -/

section

variable {sim : MetaNode → MetaNode → ℚ} {as bs : List MetaNode}

theorem greedyChildrenSimilarity_nil_left (hbs : bs ≠ []) : greedyChildrenSimilarity sim [] bs = 0 := by
  simp [greedyChildrenSimilarity, hbs]

theorem greedyChildrenSimilarity_nil_right (has : as ≠ []) : greedyChildrenSimilarity sim as [] = 0 := by
  simp [greedyChildrenSimilarity, has]

/-- Where both lists have children, the shorter takes its matches from the other, the first list if they are equal. -/
theorem greedyChildrenSimilarity_cons (has : as ≠ []) (hbs : bs ≠ []) : greedyChildrenSimilarity sim as bs =
    if as.length ≤ bs.length then matchSmaller sim as bs else matchSmaller sim bs as := by
  simp [greedyChildrenSimilarity, has, hbs]

theorem greedyChildrenSimilarity_mem (hsim : ∀ a ∈ as, ∀ b ∈ bs, 0 ≤ sim a b ∧ sim a b ≤ 1)
    (hsim' : ∀ b ∈ bs, ∀ a ∈ as, 0 ≤ sim b a ∧ sim b a ≤ 1) :
    0 ≤ greedyChildrenSimilarity sim as bs ∧ greedyChildrenSimilarity sim as bs ≤ 1 := by
  rw [greedyChildrenSimilarity]
  split
  · exact ⟨zero_le_one, le_rfl⟩
  · split
    · exact ⟨le_rfl, zero_le_one⟩
    · split
      · exact matchSmaller_mem hsim
      · exact matchSmaller_mem hsim'

theorem greedyChildrenSimilarity_eq_one_iff (hsome : as ≠ [] ∨ bs ≠ [])
    (hsim : ∀ a ∈ as, ∀ b ∈ bs, 0 ≤ sim a b ∧ sim a b ≤ 1)
    (hsim' : ∀ b ∈ bs, ∀ a ∈ as, 0 ≤ sim b a ∧ sim b a ≤ 1)
    (hone : ∀ a ∈ as, ∀ b ∈ bs, sim a b = 1 ↔ SameShape a b)
    (hone' : ∀ b ∈ bs, ∀ a ∈ as, sim b a = 1 ↔ SameShape b a) :
    greedyChildrenSimilarity sim as bs = 1 ↔
      Multiset.Rel SameShape (as : Multiset MetaNode) (bs : Multiset MetaNode) := by
  obtain rfl | has := eq_or_ne as []
  · have hbs := hsome.resolve_left (not_not.mpr rfl)
    rw [greedyChildrenSimilarity_nil_left hbs, Multiset.coe_nil, Multiset.rel_zero_left, Multiset.coe_eq_zero]
    exact iff_of_false zero_ne_one hbs
  obtain rfl | hbs := eq_or_ne bs []
  · rw [greedyChildrenSimilarity_nil_right has, Multiset.coe_nil, Multiset.rel_zero_right, Multiset.coe_eq_zero]
    exact iff_of_false zero_ne_one has
  rw [greedyChildrenSimilarity_cons has hbs]
  split
  · exact matchSmaller_eq_one_iff has hsim hone
  · rw [matchSmaller_eq_one_iff hbs hsim' hone', ← Multiset.rel_flip]
    exact ⟨fun h => h.mono fun _ _ _ _ => sameShape_equivalence.symm,
      fun h => h.mono fun _ _ _ _ => sameShape_equivalence.symm⟩

end

/-- The weight of a root with children is between none and all. -/
theorem rootWeight_mem {a b : MetaNode} {as bs : List MetaNode} (ha : a.children = .nodes as)
    (hb : b.children = .nodes bs) (hsome : as ≠ [] ∨ bs ≠ []) :
    0 < rootWeight a b ∧ rootWeight a b < 1 := by
  have htwo : ∀ {node : MetaNode} {ns : List MetaNode}, node.children = .nodes ns → ns ≠ [] →
      2 ≤ subtreeSize node := by
    intro node ns hchildren hne
    obtain ⟨c, hc⟩ := List.exists_mem_of_ne_nil ns hne
    have hlt := subtreeSize_lt hchildren hc
    have hpos := subtreeSize_pos c
    omega
  have hsum : 3 ≤ subtreeSize a + subtreeSize b := by
    have ha' := subtreeSize_pos a
    have hb' := subtreeSize_pos b
    obtain hne | hne := hsome
    · have := htwo ha hne
      omega
    · have := htwo hb hne
      omega
  have htotal : (1 : ℚ) < (subtreeSize a + subtreeSize b : ℚ) / 2 := by
    have : (3 : ℚ) ≤ subtreeSize a + subtreeSize b := by exact_mod_cast hsum
    linarith
  exact ⟨one_div_pos.mpr (zero_lt_one.trans htotal), (div_lt_one (zero_lt_one.trans htotal)).mpr htotal⟩

theorem blend_mem {w c : ℚ} (hw : 0 < w) (hw' : w < 1) (hc : 0 ≤ c ∧ c ≤ 1) :
    0 ≤ w + (1 - w) * c ∧ w + (1 - w) * c ≤ 1 ∧ (w + (1 - w) * c = 1 ↔ c = 1) := by
  have hrest : 0 < 1 - w := sub_pos.mpr hw'
  have hle : (1 - w) * c ≤ 1 - w := mul_le_of_le_one_right hrest.le hc.2
  refine ⟨add_nonneg hw.le (mul_nonneg hrest.le hc.1), by linarith, ?_⟩
  rw [← eq_sub_iff_add_eq', mul_eq_left₀ hrest.ne']

theorem half_mem {w c : ℚ} (hw : 0 < w) (hw' : w < 1) (hc : 0 ≤ c ∧ c ≤ 1) :
    0 ≤ (1 - w) * c * (1 / 2) ∧ (1 - w) * c * (1 / 2) < 1 := by
  have hrest : 0 ≤ 1 - w := (sub_pos.mpr hw').le
  have hle : (1 - w) * c ≤ 1 - w := mul_le_of_le_one_right hrest hc.2
  exact ⟨mul_nonneg (mul_nonneg hrest hc.1) one_half_pos.le, by linarith⟩

/-- A measure from zero to one that is one just for trees of the same shape. -/
def MeasuresShape (sim : MetaNode → MetaNode → ℚ) (a b : MetaNode) : Prop :=
  0 ≤ sim a b ∧ sim a b ≤ 1 ∧ (sim a b = 1 ↔ SameShape a b)

/-- A comparison of children that means the same shapes makes one of their parents that does so too. -/
theorem measuresShape_similarityBy {sim : MetaNode → MetaNode → ℚ} {a b : MetaNode}
    (h : ∀ c ∈ a.childNodes, ∀ d ∈ b.childNodes, MeasuresShape sim c d)
    (h' : ∀ d ∈ b.childNodes, ∀ c ∈ a.childNodes, MeasuresShape sim d c) : MeasuresShape (similarityBy sim) a b := by
  rw [MeasuresShape]
  cases ha : a.children with
  | value v =>
    cases hb : b.children with
    | value w =>
      rw [similarityBy_values sim ha hb, sameShape_value_iff ha hb]
      split
      next htype => simp [htype]
      next htype => simp [htype]
    | nodes bs =>
      have hshape : ¬ SameShape a b := by
        intro hshape
        obtain ⟨_, _, -, hb'⟩ | ⟨_, _, ha', -⟩ := hshape.children_cases
        · cases hb.symm.trans hb'
        · cases ha.symm.trans ha'
      rw [similarityBy_value_nodes sim ha hb, iff_false_right hshape]
      split <;> norm_num
  | nodes as =>
    cases hb : b.children with
    | value w =>
      have hshape : ¬ SameShape a b := by
        intro hshape
        obtain ⟨_, _, ha', -⟩ | ⟨_, _, -, hb'⟩ := hshape.children_cases
        · cases ha.symm.trans ha'
        · cases hb.symm.trans hb'
      rw [similarityBy_nodes_value sim ha hb, iff_false_right hshape]
      split <;> norm_num
    | nodes bs =>
      rw [sameShape_nodes_iff ha hb]
      by_cases hnone : as = [] ∧ bs = []
      · obtain ⟨rfl, rfl⟩ := hnone
        have hrel : Multiset.Rel SameShape ([] : List MetaNode) ([] : List MetaNode) := Multiset.Rel.zero
        rw [similarityBy_nil sim ha hb, and_iff_left hrel]
        split
        next htype => simp [htype]
        next htype => simp [htype]
      · have hsome : as ≠ [] ∨ bs ≠ [] := not_and_or.mp hnone
        rw [MetaNode.childNodes_eq ha, MetaNode.childNodes_eq hb] at h h'
        have hmem := greedyChildrenSimilarity_mem (fun c hc d hd => ⟨(h c hc d hd).1, (h c hc d hd).2.1⟩)
          fun d hd c hc => ⟨(h' d hd c hc).1, (h' d hd c hc).2.1⟩
        have hone := greedyChildrenSimilarity_eq_one_iff hsome
          (fun c hc d hd => ⟨(h c hc d hd).1, (h c hc d hd).2.1⟩)
          (fun d hd c hc => ⟨(h' d hd c hc).1, (h' d hd c hc).2.1⟩)
          (fun c hc d hd => (h c hc d hd).2.2) fun d hd c hc => (h' d hd c hc).2.2
        obtain ⟨hpos, hlt⟩ := rootWeight_mem ha hb hsome
        rw [similarityBy_nodes sim ha hb hsome, ← hone]
        split
        next htype =>
          rw [and_iff_right htype]
          exact blend_mem hpos hlt hmem
        next htype =>
          obtain ⟨hnonneg, hhalf⟩ := half_mem hpos hlt hmem
          exact ⟨hnonneg, hhalf.le, iff_of_false hhalf.ne fun hand => htype hand.1⟩

theorem measuresShape_structuralSimilarity (n : Nat) : ∀ {a b : MetaNode}, subtreeSize a + subtreeSize b ≤ n →
    MeasuresShape structuralSimilarity a b := by
  induction n with
  | zero =>
    intro a b hn
    exact absurd (subtreeSize_pos a) (by omega)
  | succ n ih =>
    intro a b hn
    have hlt : ∀ c ∈ a.childNodes, ∀ d ∈ b.childNodes, subtreeSize c + subtreeSize d ≤ n := by
      intro c hc d hd
      have hc := subtreeSize_lt_of_mem hc
      have hd := subtreeSize_lt_of_mem hd
      omega
    have hstep : MeasuresShape (similarityBy structuralSimilarity) a b :=
      measuresShape_similarityBy (fun c hc d hd => ih (hlt c hc d hd)) fun d hd c hc =>
        ih (Nat.add_comm _ _ ▸ hlt c hc d hd)
    rwa [MeasuresShape, ← structuralSimilarity_eq] at hstep

/-- The similarity of two trees is from zero to one, and one just for trees of the same shape. -/
theorem similarity_one_iff (a b : MetaNode) :
    0 ≤ structuralSimilarity a b ∧ structuralSimilarity a b ≤ 1 ∧
      (structuralSimilarity a b = 1 ↔ SameShape a b) :=
  measuresShape_structuralSimilarity _ le_rfl

end Dllb
