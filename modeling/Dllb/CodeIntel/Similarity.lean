import Mathlib
import Dllb.Lib.Assignment
import Dllb.CodeIntel.MetaAst

/-! # Structural similarity

Trees are compared by their node types and their children, weighted by size. The
children of the node with fewer of them take their best matches among the others in
turn; scores are rational numbers here.
-/

namespace Dllb

set_option autoImplicit false

namespace MetaNode

def children : MetaNode → NodeChildren
  | mk _ _ children => children

def childNodes (node : MetaNode) : List MetaNode :=
  match node.children with
  | .nodes ns => ns
  | .value _ => []

theorem childNodes_eq {node : MetaNode} {ns : List MetaNode} (h : node.children = .nodes ns) :
    node.childNodes = ns := by
  rw [childNodes, h]

end MetaNode

mutual

/-- The number of nodes of a tree. -/
def subtreeSize : MetaNode → Nat
  | .mk _ _ children => 1 + childrenSize children

def childrenSize : NodeChildren → Nat
  | .value _ => 0
  | .nodes ns => totalSize ns

def totalSize : List MetaNode → Nat
  | [] => 0
  | n :: ns => subtreeSize n + totalSize ns

end

/-! ## Matching children -/

section

variable (sim : MetaNode → MetaNode → ℚ)

/-- The first of the most similar children that are not used yet, if any is similar at all, after its similarity. -/
def bestMatch (s : MetaNode) (larger : List MetaNode) (used : List Bool) : ℚ × Option Nat :=
  (larger.zip used).zipIdx.foldl (fun best c =>
    if c.1.2 then best
    else if best.1 < sim s c.1.1 then (sim s c.1.1, some c.2)
    else best) (0, none)

structure Matching where
  used : List Bool
  totalWeightedSim : ℚ
  totalWeight : ℚ

def sizeAt (larger : List MetaNode) (j : Nat) : Nat := (larger[j]?.map subtreeSize).getD 0

/-- What one child of the smaller list adds, which takes its best match. -/
def matchChild (larger : List MetaNode) (acc : Matching) (s : MetaNode) : Matching :=
  let best := bestMatch sim s larger acc.used
  let weight : ℚ := (subtreeSize s + best.2.elim 0 (sizeAt larger)) / 2
  { used := best.2.elim acc.used fun j => acc.used.set j true
    totalWeightedSim := acc.totalWeightedSim + best.1 * weight
    totalWeight := acc.totalWeight + weight }

/-- The children that are not used. -/
def unused (larger : List MetaNode) (used : List Bool) : List MetaNode :=
  ((larger.zip used).filter fun c => !c.2).map Prod.fst

/-- The similarity of the matches weighted by size, where each child without a match counts as nothing similar. -/
def matchSmaller (smaller larger : List MetaNode) : ℚ :=
  let acc := smaller.foldl (matchChild sim larger) ⟨List.replicate larger.length false, 0, 0⟩
  let totalWeight := acc.totalWeight + ((unused larger acc.used).map fun l => (subtreeSize l : ℚ)).sum
  if totalWeight = 0 then 0 else acc.totalWeightedSim / totalWeight

def greedyChildrenSimilarity (as bs : List MetaNode) : ℚ :=
  if as.isEmpty && bs.isEmpty then 1
  else if as.isEmpty || bs.isEmpty then 0
  else if as.length ≤ bs.length then matchSmaller sim as bs
  else matchSmaller sim bs as

/-- The similarity of two trees, given how similar their children are. -/
def similarityBy (a b : MetaNode) : ℚ :=
  match a.children, b.children with
  | .value _, .value _ => if a.nodeType = b.nodeType then 1 else 0
  | .nodes as, .nodes bs =>
    if as.isEmpty && bs.isEmpty then if a.nodeType = b.nodeType then 1 else 0
    else
      let childrenSim := greedyChildrenSimilarity sim as bs
      let totalSize : ℚ := (subtreeSize a + subtreeSize b) / 2
      let rootWeight := 1 / totalSize
      let childrenWeight := 1 - rootWeight
      if a.nodeType = b.nodeType then rootWeight * 1 + childrenWeight * childrenSim
      else childrenWeight * childrenSim * (1 / 2)
  | _, _ => if a.nodeType = b.nodeType then 3 / 10 else 0

end

/-- The similarity of trees, compared down to a depth. -/
def similarityWithin : Nat → MetaNode → MetaNode → ℚ
  | 0, _, _ => 0
  | n + 1, a, b => similarityBy (similarityWithin n) a b

/-- No two trees go deeper than they have nodes. -/
def structuralSimilarity (a b : MetaNode) : ℚ := similarityWithin (subtreeSize a + subtreeSize b) a b

/-! ## The recursion of the comparison -/

theorem subtreeSize_pos (node : MetaNode) : 0 < subtreeSize node := by
  cases node
  rw [subtreeSize]
  omega

theorem totalSize_eq (ns : List MetaNode) : totalSize ns = (ns.map subtreeSize).sum := by
  induction ns with
  | nil => rfl
  | cons n ns ih => rw [totalSize, ih, List.map_cons, List.sum_cons]

theorem subtreeSize_lt {node c : MetaNode} {ns : List MetaNode} (hchildren : node.children = .nodes ns)
    (hc : c ∈ ns) : subtreeSize c < subtreeSize node := by
  obtain ⟨nodeType, metadata, children⟩ := node
  obtain rfl : children = .nodes ns := hchildren
  have hle := List.single_le_sum (fun _ _ => Nat.zero_le _) _ (List.mem_map_of_mem (f := subtreeSize) hc)
  rw [subtreeSize, childrenSize, totalSize_eq]
  omega

theorem mem_unused {larger : List MetaNode} {used : List Bool} {l : MetaNode} :
    l ∈ unused larger used ↔ ∃ j : Nat, larger[j]? = some l ∧ used[j]? = some false := by
  simp only [unused, List.mem_map, List.mem_filter, Bool.not_eq_true']
  constructor
  · rintro ⟨⟨l, u⟩, ⟨hmem, rfl⟩, rfl⟩
    obtain ⟨j, hj⟩ := List.mem_iff_getElem?.mp hmem
    exact ⟨j, List.getElem?_zip_eq_some.mp hj⟩
  · rintro ⟨j, hl, hu⟩
    exact ⟨(l, false), ⟨List.mem_iff_getElem?.mpr ⟨j, List.getElem?_zip_eq_some.mpr ⟨hl, hu⟩⟩, rfl⟩, rfl⟩

section

variable {sim sim' : MetaNode → MetaNode → ℚ}

theorem bestMatch_congr {s : MetaNode} {larger : List MetaNode} (used : List Bool)
    (h : ∀ l ∈ larger, sim s l = sim' s l) : bestMatch sim s larger used = bestMatch sim' s larger used := by
  refine List.foldl_ext _ _ _ fun best c hc => ?_
  have hmem : c.1.1 ∈ larger := (List.of_mem_zip (List.mem_of_getElem? (List.mem_zipIdx_iff_getElem?.mp hc))).1
  rw [h _ hmem]

theorem matchSmaller_congr {smaller larger : List MetaNode}
    (h : ∀ s ∈ smaller, ∀ l ∈ larger, sim s l = sim' s l) :
    matchSmaller sim smaller larger = matchSmaller sim' smaller larger := by
  have hfold : ∀ acc, smaller.foldl (matchChild sim larger) acc = smaller.foldl (matchChild sim' larger) acc := by
    intro acc
    refine List.foldl_ext _ _ _ fun acc s hs => ?_
    rw [matchChild, matchChild, bestMatch_congr acc.used (h s hs)]
  rw [matchSmaller, matchSmaller, hfold]

theorem greedyChildrenSimilarity_congr {as bs : List MetaNode} (h : ∀ a ∈ as, ∀ b ∈ bs, sim a b = sim' a b)
    (h' : ∀ b ∈ bs, ∀ a ∈ as, sim b a = sim' b a) :
    greedyChildrenSimilarity sim as bs = greedyChildrenSimilarity sim' as bs := by
  rw [greedyChildrenSimilarity, greedyChildrenSimilarity, matchSmaller_congr h, matchSmaller_congr h']

theorem similarityBy_congr {a b : MetaNode} (h : ∀ c ∈ a.childNodes, ∀ d ∈ b.childNodes, sim c d = sim' c d)
    (h' : ∀ d ∈ b.childNodes, ∀ c ∈ a.childNodes, sim d c = sim' d c) :
    similarityBy sim a b = similarityBy sim' a b := by
  obtain ⟨nodeType, metadata, children⟩ := a
  obtain ⟨nodeType', metadata', children'⟩ := b
  cases children with
  | value => cases children' <;> rfl
  | nodes as =>
    cases children' with
    | value => rfl
    | nodes bs =>
      have hgreedy : greedyChildrenSimilarity sim as bs = greedyChildrenSimilarity sim' as bs :=
        greedyChildrenSimilarity_congr h h'
      simp only [similarityBy, MetaNode.children, hgreedy]

end

theorem subtreeSize_lt_of_mem {node c : MetaNode} (hc : c ∈ node.childNodes) : subtreeSize c < subtreeSize node := by
  obtain ⟨nodeType, metadata, children⟩ := node
  cases children with
  | value => cases hc
  | nodes ns => exact subtreeSize_lt rfl hc

/-- Once both trees fit, going deeper changes nothing. -/
theorem similarityWithin_eq (n : Nat) : ∀ {m : Nat} {a b : MetaNode}, subtreeSize a + subtreeSize b ≤ n →
    subtreeSize a + subtreeSize b ≤ m → similarityWithin n a b = similarityWithin m a b := by
  induction n with
  | zero =>
    intro m a b hn _
    have := subtreeSize_pos a
    omega
  | succ n ih =>
    intro m a b hn hm
    have ha := subtreeSize_pos a
    obtain _ | m := m
    · omega
    · rw [similarityWithin, similarityWithin]
      have hlt : ∀ c ∈ a.childNodes, ∀ d ∈ b.childNodes,
          subtreeSize c + subtreeSize d ≤ n ∧ subtreeSize c + subtreeSize d ≤ m := by
        intro c hc d hd
        have hc := subtreeSize_lt_of_mem hc
        have hd := subtreeSize_lt_of_mem hd
        omega
      refine similarityBy_congr (fun c hc d hd => ih (hlt c hc d hd).1 (hlt c hc d hd).2) fun d hd c hc => ?_
      exact ih (by have := (hlt c hc d hd).1; omega) (by have := (hlt c hc d hd).2; omega)

/-- The recursion that the similarity is computed by. -/
theorem structuralSimilarity_eq (a b : MetaNode) :
    structuralSimilarity a b = similarityBy structuralSimilarity a b := by
  have ha := subtreeSize_pos a
  obtain ⟨n, hn⟩ : ∃ n, subtreeSize a + subtreeSize b = n + 1 := ⟨subtreeSize a + subtreeSize b - 1, by omega⟩
  have hle : ∀ c ∈ a.childNodes, ∀ d ∈ b.childNodes, subtreeSize c + subtreeSize d ≤ n := by
    intro c hc d hd
    have hc := subtreeSize_lt_of_mem hc
    have hd := subtreeSize_lt_of_mem hd
    omega
  rw [structuralSimilarity, hn, similarityWithin]
  refine similarityBy_congr (fun c hc d hd => similarityWithin_eq n (hle c hc d hd) le_rfl) fun d hd c hc => ?_
  exact similarityWithin_eq n (by have := hle c hc d hd; omega) le_rfl

/-- How much the root counts in a comparison. -/
def rootWeight (a b : MetaNode) : ℚ := 1 / ((subtreeSize a + subtreeSize b : ℚ) / 2)

section

variable (sim : MetaNode → MetaNode → ℚ) {a b : MetaNode} {as bs : List MetaNode} {v w : MetaValue}

theorem similarityBy_values (ha : a.children = .value v) (hb : b.children = .value w) :
    similarityBy sim a b = if a.nodeType = b.nodeType then 1 else 0 := by
  rw [similarityBy, ha, hb]

theorem similarityBy_value_nodes (ha : a.children = .value v) (hb : b.children = .nodes bs) :
    similarityBy sim a b = if a.nodeType = b.nodeType then 3 / 10 else 0 := by
  rw [similarityBy, ha, hb]

theorem similarityBy_nodes_value (ha : a.children = .nodes as) (hb : b.children = .value w) :
    similarityBy sim a b = if a.nodeType = b.nodeType then 3 / 10 else 0 := by
  rw [similarityBy, ha, hb]

theorem similarityBy_nil (ha : a.children = .nodes []) (hb : b.children = .nodes []) :
    similarityBy sim a b = if a.nodeType = b.nodeType then 1 else 0 := by
  rw [similarityBy, ha, hb]
  rfl

theorem similarityBy_nodes (ha : a.children = .nodes as) (hb : b.children = .nodes bs)
    (hsome : as ≠ [] ∨ bs ≠ []) : similarityBy sim a b = if a.nodeType = b.nodeType
      then rootWeight a b + (1 - rootWeight a b) * greedyChildrenSimilarity sim as bs
      else (1 - rootWeight a b) * greedyChildrenSimilarity sim as bs * (1 / 2) := by
  have hempty : (as.isEmpty && bs.isEmpty) = false := by
    rw [Bool.and_eq_false_iff]
    simpa only [List.isEmpty_eq_false_iff] using hsome
  rw [similarityBy, ha, hb]
  simp only [hempty, rootWeight, mul_one]
  rfl

end

/-! ## The matching is greedy -/

section

variable (sim : MetaNode → MetaNode → ℚ)

/-- The pairs that the children of the smaller list make. -/
def matchedPairs (larger : List MetaNode) : List MetaNode → List Bool → List (MetaNode × MetaNode)
  | [], _ => []
  | s :: ss, used =>
    match (bestMatch sim s larger used).2 with
    | none => matchedPairs larger ss used
    | some j => (larger[j]?.map fun l => (s, l)).toList ++ matchedPairs larger ss (used.set j true)

/-- The pairs that two lists of children make, the first list taking its matches from the second. -/
def pairsOf (smaller larger : List MetaNode) : List (MetaNode × MetaNode) :=
  matchedPairs sim larger smaller (List.replicate larger.length false)

/-- A pair weighs the mean of its sizes, a child that finds no match half its size, one that is not taken all its
size. -/
def ratings (pairs : List (MetaNode × MetaNode)) (unpaired left : List MetaNode) : List (ℚ × ℚ) :=
  pairs.map (fun p => (sim p.1 p.2, ((subtreeSize p.1 + subtreeSize p.2 : ℚ)) / 2)) ++
    unpaired.map (fun s => (0, (subtreeSize s : ℚ) / 2)) ++ left.map fun l => (0, (subtreeSize l : ℚ))

/-- A scan keeps the first value that is larger than all before it. -/
theorem foldl_best (s : MetaNode) (cs : List ((MetaNode × Bool) × Nat)) : ∀ best : ℚ × Option Nat,
    let r := cs.foldl (fun best c =>
      if c.1.2 then best
      else if best.1 < sim s c.1.1 then (sim s c.1.1, some c.2)
      else best) best
    best.1 ≤ r.1 ∧ (∀ c ∈ cs, c.1.2 = false → sim s c.1.1 ≤ r.1) ∧
      (r = best ∨ ∃ c ∈ cs, c.1.2 = false ∧ best.1 < sim s c.1.1 ∧ r = (sim s c.1.1, some c.2)) := by
  induction cs with
  | nil => exact fun best => ⟨le_rfl, List.forall_mem_nil _, Or.inl rfl⟩
  | cons c cs ih =>
    intro best
    rw [List.foldl_cons]
    by_cases hused : c.1.2 = true
    · rw [if_pos hused]
      obtain ⟨hbest, hall, hr⟩ := ih best
      refine ⟨hbest, List.forall_mem_cons.mpr ⟨fun hfree => absurd hused (by simp [hfree]), hall⟩, ?_⟩
      obtain hr | ⟨c', hc', hr⟩ := hr
      · exact Or.inl hr
      · exact Or.inr ⟨c', List.mem_cons_of_mem _ hc', hr⟩
    · rw [if_neg hused]
      have hfree : c.1.2 = false := by simpa using hused
      by_cases hbetter : best.1 < sim s c.1.1
      · rw [if_pos hbetter]
        obtain ⟨hbest, hall, hr⟩ := ih (sim s c.1.1, some c.2)
        refine ⟨hbetter.le.trans hbest, List.forall_mem_cons.mpr ⟨fun _ => hbest, hall⟩, Or.inr ?_⟩
        obtain hr | ⟨c', hc', hfree', hbetter', hr⟩ := hr
        · exact ⟨c, List.mem_cons_self, hfree, hbetter, hr⟩
        · exact ⟨c', List.mem_cons_of_mem _ hc', hfree', hbetter.trans hbetter', hr⟩
      · rw [if_neg hbetter]
        obtain ⟨hbest, hall, hr⟩ := ih best
        refine ⟨hbest, List.forall_mem_cons.mpr ⟨fun _ => (not_lt.mp hbetter).trans hbest, hall⟩, ?_⟩
        obtain hr | ⟨c', hc', hr⟩ := hr
        · exact Or.inl hr
        · exact Or.inr ⟨c', List.mem_cons_of_mem _ hc', hr⟩

/-- What a child finds: nothing where nothing unused is similar, and a most similar of the unused children else. -/
theorem bestMatch_cases (s : MetaNode) (larger : List MetaNode) (used : List Bool) :
    (bestMatch sim s larger used = (0, none) ∧ ∀ l ∈ unused larger used, sim s l ≤ 0) ∨
    ∃ j l, bestMatch sim s larger used = (sim s l, some j) ∧ larger[j]? = some l ∧ used[j]? = some false ∧
      0 < sim s l ∧ ∀ l' ∈ unused larger used, sim s l' ≤ sim s l := by
  obtain ⟨-, hall, hr⟩ := foldl_best sim s (larger.zip used).zipIdx (0, none)
  have hunused : ∀ l ∈ unused larger used, sim s l ≤ (bestMatch sim s larger used).1 := by
    intro l hl
    obtain ⟨j, hlarger, hused⟩ := mem_unused.mp hl
    exact hall ((l, false), j)
      (List.mem_zipIdx_iff_getElem?.mpr (List.getElem?_zip_eq_some.mpr ⟨hlarger, hused⟩)) rfl
  obtain hr | ⟨⟨⟨l, u⟩, j⟩, hc, hfree, hpos, hr⟩ := hr
  · have hbest : bestMatch sim s larger used = (0, none) := hr
    rw [hbest] at hunused
    exact Or.inl ⟨hbest, hunused⟩
  · have hbest : bestMatch sim s larger used = (sim s l, some j) := hr
    obtain rfl : u = false := hfree
    obtain ⟨hlarger, hused⟩ := List.getElem?_zip_eq_some.mp (List.mem_zipIdx_iff_getElem?.mp hc)
    rw [hbest] at hunused
    exact Or.inr ⟨j, l, hbest, hlarger, hused, hpos, hunused⟩

theorem unused_cons (l : MetaNode) (larger : List MetaNode) (u : Bool) (used : List Bool) :
    unused (l :: larger) (u :: used) = if u then unused larger used else l :: unused larger used := by
  cases u <;> simp [unused]

theorem unused_replicate (larger : List MetaNode) : unused larger (List.replicate larger.length false) = larger := by
  induction larger with
  | nil => rfl
  | cons l larger ih => rw [List.length_cons, List.replicate_succ, unused_cons, ih, if_neg Bool.false_ne_true]

theorem unused_set {larger : List MetaNode} {used : List Bool} {j : Nat} {l : MetaNode} (hl : larger[j]? = some l)
    (hu : used[j]? = some false) : (unused larger used).Perm (l :: unused larger (used.set j true)) := by
  induction larger generalizing used j with
  | nil => simp at hl
  | cons l' larger ih =>
    obtain _ | ⟨u, used⟩ := used
    · simp at hu
    obtain _ | j := j
    · obtain rfl : l' = l := by simpa using hl
      obtain rfl : u = false := by simpa using hu
      rw [List.set_cons_zero, unused_cons, unused_cons, if_pos rfl, if_neg Bool.false_ne_true]
    · rw [List.getElem?_cons_succ] at hl hu
      rw [List.set_cons_succ, unused_cons, unused_cons]
      cases u with
      | true => exact ih hl hu
      | false => exact ((ih hl hu).cons l').trans (List.Perm.swap l l' _)

/-- What the ratings of the pairs and of the children without a match add to. -/
structure Matched (larger ss : List MetaNode) (acc acc' : Matching) (unpaired : List MetaNode) : Prop where
  assigns : Assigns sim ss (unused larger acc.used : Multiset MetaNode) (matchedPairs sim larger ss acc.used) unpaired
    (unused larger acc'.used : Multiset MetaNode)
  weightedSim : acc'.totalWeightedSim = acc.totalWeightedSim +
    ((ratings sim (matchedPairs sim larger ss acc.used) unpaired []).map fun i => i.1 * i.2).sum
  weight : acc'.totalWeight = acc.totalWeight +
    ((ratings sim (matchedPairs sim larger ss acc.used) unpaired []).map Prod.snd).sum

theorem matched (larger : List MetaNode) (ss : List MetaNode) : ∀ acc : Matching,
    ∃ unpaired, Matched sim larger ss acc (ss.foldl (matchChild sim larger) acc) unpaired := by
  induction ss with
  | nil =>
    intro acc
    exact ⟨[], Assigns.nil _, by simp [ratings, matchedPairs], by simp [ratings, matchedPairs]⟩
  | cons s ss ih =>
    intro acc
    obtain ⟨unpaired, h⟩ := ih (matchChild sim larger acc s)
    obtain ⟨hbest, hnone⟩ | ⟨j, l, hbest, hl, hu, hpos, hmost⟩ := bestMatch_cases sim s larger acc.used
    · have hstep : matchChild sim larger acc s =
          ⟨acc.used, acc.totalWeightedSim, acc.totalWeight + (subtreeSize s : ℚ) / 2⟩ := by
        simp [matchChild, hbest]
      have hpairs : matchedPairs sim larger (s :: ss) acc.used = matchedPairs sim larger ss acc.used := by
        rw [matchedPairs, hbest]
      rw [hstep] at h
      refine ⟨s :: unpaired, ?_, ?_, ?_⟩
      · rw [hpairs, List.foldl_cons, hstep]
        exact Assigns.skip hnone h.assigns
      · rw [hpairs, List.foldl_cons, hstep, h.weightedSim]
        simp [ratings]
      · rw [hpairs, List.foldl_cons, hstep, h.weight]
        simp [ratings]
        ring
    · have hstep : matchChild sim larger acc s =
          ⟨acc.used.set j true, acc.totalWeightedSim + sim s l * ((subtreeSize s + subtreeSize l : ℚ) / 2),
            acc.totalWeight + (subtreeSize s + subtreeSize l : ℚ) / 2⟩ := by
        simp [matchChild, hbest, sizeAt, hl]
      have hpairs : matchedPairs sim larger (s :: ss) acc.used =
          (s, l) :: matchedPairs sim larger ss (acc.used.set j true) := by
        rw [matchedPairs, hbest]
        simp only [hl, Option.map_some, Option.toList_some, List.singleton_append]
      have hperm := unused_set hl hu
      rw [hstep] at h
      refine ⟨unpaired, ?_, ?_, ?_⟩
      · rw [hpairs, List.foldl_cons, hstep, Multiset.coe_eq_coe.mpr hperm, ← Multiset.cons_coe]
        exact Assigns.pair hpos (fun l' hl' => hmost l' (hperm.mem_iff.mpr (List.mem_cons_of_mem _ hl'))) h.assigns
      · rw [hpairs, List.foldl_cons, hstep, h.weightedSim]
        simp [ratings, add_assoc]
      · rw [hpairs, List.foldl_cons, hstep, h.weight]
        simp [ratings, add_assoc]

/-- The similarity of the children is the mean rating of a greedy assignment. -/
theorem matchSmaller_eq (smaller larger : List MetaNode) : ∃ unpaired left : List MetaNode,
    Assigns sim smaller (larger : Multiset MetaNode) (pairsOf sim smaller larger) unpaired
      (left : Multiset MetaNode) ∧
      matchSmaller sim smaller larger = weightedMean (ratings sim (pairsOf sim smaller larger) unpaired left) := by
  obtain ⟨unpaired, h⟩ := matched sim larger smaller ⟨List.replicate larger.length false, 0, 0⟩
  have hassigns := h.assigns
  rw [unused_replicate] at hassigns
  refine ⟨unpaired, _, hassigns, ?_⟩
  rw [matchSmaller, h.weightedSim, h.weight, zero_add, zero_add]
  generalize unused larger _ = left
  have hratings : ratings sim (pairsOf sim smaller larger) unpaired left =
      ratings sim (pairsOf sim smaller larger) unpaired [] ++ left.map fun l => (0, (subtreeSize l : ℚ)) := by
    simp [ratings]
  have hzero : ((left.map fun l => ((0 : ℚ), (subtreeSize l : ℚ))).map fun i => i.1 * i.2).sum = 0 := by
    refine List.sum_eq_zero fun x hx => ?_
    obtain ⟨i, hi, rfl⟩ := List.mem_map.mp hx
    obtain ⟨l, -, rfl⟩ := List.mem_map.mp hi
    exact zero_mul _
  rw [weightedMean, hratings, List.map_append, List.sum_append, hzero, add_zero, List.map_append, List.sum_append,
    List.map_map]
  split
  next hweight => exact (div_eq_zero_iff.mpr (Or.inr hweight)).symm
  next => rfl

end

end Dllb
