import Mathlib
import Dllb.Vector.BruteForce

/-! # How many hits a search returns

A beam that is not full at the end has seen everything that can be reached from
where it started. A full one may hold removed nodes, which are left out at the
end: a search returns all it should if the nodes can reach each other and the
beam has room for the removed ones.
-/

namespace Dllb

set_option autoImplicit false

namespace HnswIndex

variable {F D : Type}

/-! ## Links -/

/-- Node `j` is in the list of node `i` on a layer. -/
def Link (ix : HnswIndex F) (layer i j : Nat) : Prop := ∃ ns, ix.neighborsOf i layer = some ns ∧ j ∈ ns

theorem Linked.lt_of_link {ix : HnswIndex F} (h : ix.Linked) {layer i j : Nat} (hlink : ix.Link layer i j) :
    j < ix.nodes.length := by
  obtain ⟨ns, hns, hj⟩ := hlink
  exact ((h.lists hns).onLayer j hj).lt

/-! ## A beam that is not full -/

section Beam

variable [LinearOrder D] [Distance F D] [BeamHeaps D]

/-- The nodes among the results. -/
def Beam.kept (b : Beam D) : List Nat := ((farthest D).toList b.results).map Prod.snd

/-- The nodes among the candidates. -/
def Beam.waiting (b : Beam D) : List Nat := ((nearest D).toList b.candidates).map Prod.snd

omit [Distance F D] in
theorem Beam.len_add (b : Beam D) (ef : Nat) (d : D) (i : Nat) :
    (farthest D).len b.results ≤ (farthest D).len (b.add ef d i).results := by
  have hpush := (farthest D).len_push b.results (d, i)
  rw [Beam.add]
  simp only
  split
  · cases hpop : (farthest D).pop ((farthest D).push b.results (d, i)) with
    | none => exact (Nat.le_succ _).trans hpush.ge
    | some worst =>
      have hlen := (farthest D).len_pop hpop
      simp only
      omega
  · omega

omit [Distance F D] in
/-- Nothing is evicted from results that are not full. -/
theorem Beam.mem_kept_add {b : Beam D} {ef i j : Nat} {d : D}
    (hroom : (farthest D).len (b.add ef d i).results < ef) (hj : j = i ∨ j ∈ b.kept) :
    j ∈ (b.add ef d i).kept := by
  have hpush := (farthest D).push_perm b.results (d, i)
  have hmem : j ∈ ((farthest D).toList ((farthest D).push b.results (d, i))).map Prod.snd := by
    rw [(hpush.map Prod.snd).mem_iff, List.map_cons, List.mem_cons]
    exact hj
  have hresults : (b.add ef d i).results = (farthest D).push b.results (d, i) := by
    rw [Beam.add] at hroom ⊢
    simp only at hroom ⊢
    split
    · rename_i hfull
      obtain ⟨worst, rest, hpop⟩ := (farthest D).exists_pop (Nat.ne_zero_of_lt hfull)
      have hlen := (farthest D).len_pop hpop
      rw [if_pos hfull, hpop] at hroom
      simp only at hroom
      omega
    · rfl
  rw [Beam.kept, hresults]
  exact hmem

omit [Distance F D] in
theorem Beam.waiting_add (b : Beam D) (ef : Nat) (d : D) (i j : Nat) :
    j ∈ (b.add ef d i).waiting ↔ j = i ∨ j ∈ b.waiting := by
  have hpush := (nearest D).push_perm b.candidates (d, i)
  have hwaiting : (b.add ef d i).waiting = ((nearest D).toList ((nearest D).push b.candidates (d, i))).map Prod.snd :=
    rfl
  rw [hwaiting, (hpush.map Prod.snd).mem_iff, List.map_cons, List.mem_cons]
  rfl

theorem len_visitNeighbors {ix : HnswIndex F} {query : List F} {ef : Nat} {ns : List Nat} {b b' : Beam D}
    (hrun : visitNeighbors ix query ef ns b = some b') :
    (farthest D).len b.results ≤ (farthest D).len b'.results := by
  induction ns generalizing b with
  | nil =>
    obtain rfl := Option.some.inj hrun
    exact le_rfl
  | cons n ns ih =>
    obtain ⟨-, hrun⟩ | ⟨-, d, -, ⟨-, hrun⟩ | ⟨-, hrun⟩⟩ := visitNeighbors_cons_cases hrun
    · exact ih hrun
    · exact (Beam.len_add { b with visited := n :: b.visited } ef d n).trans (ih hrun)
    · have hlen := ih hrun
      exact hlen

/-- What a round does to a beam that is not full after it. -/
structure Beam.Grows (b b' : Beam D) (ns : List Nat) : Prop where
  visited : ∀ i, i ∈ b'.visited ↔ i ∈ b.visited ∨ i ∈ ns
  waiting : ∀ i, i ∈ b.waiting ∨ (i ∈ ns ∧ i ∉ b.visited) → i ∈ b'.waiting
  kept : ∀ i, i ∈ b.kept ∨ (i ∈ ns ∧ i ∉ b.visited) → i ∈ b'.kept

theorem grows_visitNeighbors {ix : HnswIndex F} {query : List F} {ef : Nat} {ns : List Nat} {b b' : Beam D}
    (hrun : visitNeighbors ix query ef ns b = some b') (hroom : (farthest D).len b'.results < ef) :
    b.Grows b' ns := by
  induction ns generalizing b with
  | nil =>
    obtain rfl := Option.some.inj hrun
    refine ⟨fun i => ?_, fun i hi => ?_, fun i hi => ?_⟩
    · exact (or_iff_left List.not_mem_nil).symm
    · exact hi.resolve_right fun hn => List.not_mem_nil hn.1
    · exact hi.resolve_right fun hn => List.not_mem_nil hn.1
  | cons n ns ih =>
    obtain ⟨hseen, hrun⟩ | ⟨hnew, d, -, ⟨-, hrun⟩ | ⟨hskip, -⟩⟩ := visitNeighbors_cons_cases hrun
    · obtain ⟨hvisited, hwaiting, hkept⟩ := ih hrun
      have hother : ∀ i, i ∈ n :: ns ∧ i ∉ b.visited → i ∈ ns ∧ i ∉ b.visited := by
        rintro i ⟨hi, hfresh⟩
        obtain rfl | hi := List.mem_cons.mp hi
        · exact absurd hseen hfresh
        · exact ⟨hi, hfresh⟩
      refine ⟨fun i => ?_, fun i hi => hwaiting i (hi.imp_right (hother i)),
        fun i hi => hkept i (hi.imp_right (hother i))⟩
      rw [hvisited, List.mem_cons]
      constructor
      · exact Or.imp_right Or.inr
      · rintro (hi | rfl | hi)
        · exact .inl hi
        · exact .inl hseen
        · exact .inr hi
    · have hlen := len_visitNeighbors hrun
      have hroom₁ : (farthest D).len (Beam.add { b with visited := n :: b.visited } ef d n).results < ef :=
        hlen.trans_lt hroom
      obtain ⟨hvisited, hwaiting, hkept⟩ := ih hrun
      -- The new node is visited now, and among the candidates and the results.
      have hother : ∀ {i}, i ∈ n :: ns ∧ i ∉ b.visited → i = n ∨ i ∈ ns ∧ i ∉ n :: b.visited := by
        rintro i ⟨hi, hfresh⟩
        obtain rfl | hi := List.mem_cons.mp hi
        · exact .inl rfl
        · by_cases hin : i = n
          · exact .inl hin
          · exact .inr ⟨hi, fun hmem => (List.mem_cons.mp hmem).elim hin hfresh⟩
      refine ⟨fun i => ?_, fun i hi => ?_, fun i hi => ?_⟩
      · rw [hvisited, List.mem_cons]
        change i ∈ n :: b.visited ∨ i ∈ ns ↔ _
        rw [List.mem_cons]
        tauto
      · obtain hi | hi := hi
        · exact hwaiting i (.inl ((Beam.waiting_add _ ef d n i).mpr (.inr hi)))
        · obtain rfl | hi := hother hi
          · exact hwaiting i (.inl ((Beam.waiting_add _ ef d i i).mpr (.inl rfl)))
          · exact hwaiting i (.inr hi)
      · obtain hi | hi := hi
        · exact hkept i (.inl (Beam.mem_kept_add hroom₁ (.inr hi)))
        · obtain rfl | hi := hother hi
          · exact hkept i (.inl (Beam.mem_kept_add hroom₁ (.inl rfl)))
          · exact hkept i (.inr hi)
    · -- A node is skipped only when the results are full.
      have hlen := len_visitNeighbors hrun
      exfalso
      rw [Beam.shouldAdd, if_pos (hlen.trans_lt hroom)] at hskip
      cases hskip

/-- Every node visited is among the results, and it waits or all its neighbors have been visited. -/
structure Beam.Covers (ix : HnswIndex F) (layer : Nat) (b : Beam D) : Prop where
  kept : ∀ i ∈ b.visited, i ∈ b.kept
  explored : ∀ i ∈ b.visited, i ∈ b.waiting ∨ ∀ j, ix.Link layer i j → j ∈ b.visited

omit [Distance F D] in
/-- The candidate that is taken off has its neighbors visited; the others wait on. -/
theorem Beam.Covers.grows {ix : HnswIndex F} {layer : Nat} {b b' : Beam D} (h : b.Covers ix layer)
    {c : D × Nat} {rest : (nearest D).Heap} (hpop : (nearest D).pop b.candidates = some (c, rest))
    {ns : List Nat} (hns : ix.neighborsOf c.2 layer = some ns)
    (hgrows : Beam.Grows { b with candidates := rest } b' ns) : b'.Covers ix layer := by
  obtain ⟨hvisited, hwaiting, hkept⟩ := hgrows
  have hold : ∀ i ∈ b.visited, i ∈ b'.visited := fun i hi => (hvisited i).mpr (.inl hi)
  constructor
  · intro i hi
    by_cases hseen : i ∈ b.visited
    · exact hkept i (.inl (h.kept i hseen))
    · exact hkept i (.inr ⟨((hvisited i).mp hi).resolve_left hseen, hseen⟩)
  · intro i hi
    by_cases hseen : i ∈ b.visited
    · obtain hwait | hlinks := h.explored i hseen
      · have hperm := ((nearest D).pop_perm hpop).map Prod.snd
        obtain rfl | hrest := List.mem_cons.mp (hperm.mem_iff.mp hwait)
        · refine .inr ?_
          rintro j ⟨ms, hms, hj⟩
          obtain rfl := Option.some.inj (hns.symm.trans hms)
          exact (hvisited j).mpr (.inr hj)
        · exact .inl (hwaiting i (.inl hrest))
      · exact .inr fun j hj => hold j (hlinks j hj)
    · exact .inl (hwaiting i (.inr ⟨((hvisited i).mp hi).resolve_left hseen, hseen⟩))

theorem len_beamLoop {ix : HnswIndex F} {query : List F} {ef layer fuel : Nat} {b b' : Beam D}
    (hrun : beamLoop ix query ef layer fuel b = some b') :
    (farthest D).len b.results ≤ (farthest D).len b'.results := by
  induction fuel generalizing b with
  | zero => cases hrun
  | succ fuel ih =>
    obtain ⟨-, rfl⟩ | ⟨c, rest, -, ⟨-, rfl⟩ | ⟨ns, b₁, -, hvisit, hrun⟩⟩ := beamLoop_succ_cases hrun
    · exact le_rfl
    · exact le_rfl
    · exact (len_visitNeighbors hvisit).trans (ih hrun)

/-- A search that ends before the results are full has visited all neighbors of what it visited. -/
theorem Beam.Covers.beamLoop {ix : HnswIndex F} {query : List F} {ef layer fuel : Nat} {b b' : Beam D}
    (h : b.Covers ix layer) (hrun : beamLoop ix query ef layer fuel b = some b')
    (hroom : (farthest D).len b'.results < ef) :
    (∀ i ∈ b.visited, i ∈ b'.visited) ∧ (∀ i ∈ b'.visited, i ∈ b'.kept) ∧
      ∀ i ∈ b'.visited, ∀ j, ix.Link layer i j → j ∈ b'.visited := by
  induction fuel generalizing b with
  | zero => cases hrun
  | succ fuel ih =>
    obtain ⟨hpop, rfl⟩ | ⟨c, rest, hpop, ⟨hexhausted, rfl⟩ | ⟨ns, b₁, hns, hvisit, hrun⟩⟩ :=
      beamLoop_succ_cases hrun
    · refine ⟨fun i hi => hi, h.kept, fun i hi => (h.explored i hi).resolve_left ?_⟩
      rw [Beam.waiting, (nearest D).pop_none hpop]
      exact List.not_mem_nil
    · exfalso
      rw [Beam.exhausted] at hexhausted
      split at hexhausted
      · have hfull : ef ≤ (farthest D).len b.results :=
          of_decide_eq_true (Bool.and_eq_true_iff.mp hexhausted).2
        exact absurd hroom (Nat.not_lt.mpr hfull)
      · cases hexhausted
    · have hgrows := grows_visitNeighbors hvisit ((len_beamLoop hrun).trans_lt hroom)
      obtain ⟨hsub, hkept, hclosed⟩ := ih (h.grows hpop hns hgrows) hrun
      exact ⟨fun i hi => hsub i ((hgrows.visited i).mpr (.inl hi)), hkept, hclosed⟩

end Beam

/-! ## Counting -/

/-- The number of nodes that are marked deleted. -/
def removed (ix : HnswIndex F) : Nat := (ix.nodes.filter fun node => node.deleted).length

/-- The links of layer 0 go both ways, and they join all nodes. -/
structure Joined (ix : HnswIndex F) : Prop where
  symm : ∀ i j, ix.Link 0 i j → ix.Link 0 j i
  joined : ∀ i j, i < ix.nodes.length → j < ix.nodes.length → Relation.ReflTransGen (ix.Link 0) i j

/-- No list of layer 0 is full. -/
def Unfull (ix : HnswIndex F) : Prop :=
  ∀ i ns, ix.neighborsOf i 0 = some ns → ns.length < 2 * ix.config.m

section Links

variable [LinearOrder D] [Distance F D]

theorem linkBack_room {ix : HnswIndex F} (newIdx : Nat) {layer i : Nat} {ns : List Nat}
    (hns : ix.neighborsOf i layer = some ns) (hroom : ns.length < 2 * ix.config.m) :
    ∃ ix', linkBack D newIdx layer ix i = some ix' ∧ Relinked ix ix' i layer (ns ++ [newIdx]) := by
  obtain ⟨node, hnode, hlist⟩ := neighborsOf_eq_some.mp hns
  obtain ⟨ix', hset, hrelinked⟩ := setNeighbors_spec hns (ns ++ [newIdx])
  have hfull : ¬ ix.config.m * 2 < (ns ++ [newIdx]).length := by
    rw [List.length_append, List.length_singleton]
    omega
  refine ⟨ix', ?_, hrelinked⟩
  simp only [linkBack, hnode, Option.bind_eq_bind, Option.bind_some, hlist, if_neg hfull, hset]

theorem linkBacks_room {ix : HnswIndex F} (newIdx : Nat) {layer : Nat} {todo : List Nat} (hnodup : todo.Nodup)
    (hroom : ∀ i ∈ todo, ∃ ns, ix.neighborsOf i layer = some ns ∧ ns.length < 2 * ix.config.m) :
    ∃ ix', todo.foldlM (linkBack D newIdx layer) ix = some ix' ∧
      ∀ i j, ix'.Link layer i j ↔ ix.Link layer i j ∨ i ∈ todo ∧ j = newIdx := by
  induction todo generalizing ix with
  | nil => exact ⟨ix, rfl, fun i j => (or_iff_left fun h => List.not_mem_nil h.1).symm⟩
  | cons i todo ih =>
    obtain ⟨hi, hnodup⟩ := List.nodup_cons.mp hnodup
    obtain ⟨ns, hns, hlt⟩ := hroom i List.mem_cons_self
    obtain ⟨ix₁, hrun, hset⟩ := linkBack_room (D := D) newIdx hns hlt
    have hroom₁ : ∀ j ∈ todo, ∃ ms, ix₁.neighborsOf j layer = some ms ∧ ms.length < 2 * ix₁.config.m := by
      intro j hj
      obtain ⟨ms, hms, hlt⟩ := hroom j (List.mem_cons_of_mem i hj)
      refine ⟨ms, ?_, hset.config ▸ hlt⟩
      rw [hset.lists, if_neg ?_, hms]
      rintro ⟨rfl, -⟩
      exact hi hj
    have hlink : ∀ a b, ix₁.Link layer a b ↔ ix.Link layer a b ∨ a = i ∧ b = newIdx := by
      intro a b
      simp only [Link, hset.lists, and_true]
      by_cases ha : a = i
      · simp [ha, hns]
      · simp [ha]
    obtain ⟨ix', hrun', hlinks⟩ := ih hnodup hroom₁
    refine ⟨ix', by simp [List.foldlM_cons, hrun, hrun'], fun a b => ?_⟩
    rw [hlinks, hlink, List.mem_cons]
    tauto

/-- With room in every list, the new node and the nearest of the nodes found are linked both ways. -/
theorem connect_room {ix : HnswIndex F} {newIdx layer : Nat} {found : List (D × Nat)}
    (hnodup : (found.map Prod.snd).Nodup) (hnew : ix.neighborsOf newIdx layer = some [])
    (hne : newIdx ∉ found.map Prod.snd)
    (hroom : ∀ i ∈ found.map Prod.snd, ∃ ns, ix.neighborsOf i layer = some ns ∧ ns.length < 2 * ix.config.m) :
    ∃ ix', ix.connect newIdx found layer = some ix' ∧ ∀ i j, ix'.Link layer i j ↔ ix.Link layer i j ∨
      i = newIdx ∧ j ∈ (found.take ix.config.m).map Prod.snd ∨
      i ∈ (found.take ix.config.m).map Prod.snd ∧ j = newIdx := by
  have hpre : (found.take ix.config.m).map Prod.snd <+: found.map Prod.snd := (List.take_prefix _ _).map _
  obtain ⟨ix₁, hrun, hset⟩ := setNeighbors_spec hnew ((found.take ix.config.m).map Prod.snd)
  have hroom₁ : ∀ i ∈ (found.take ix.config.m).map Prod.snd, ∃ ns, ix₁.neighborsOf i layer = some ns ∧
      ns.length < 2 * ix₁.config.m := by
    intro i hi
    obtain ⟨ns, hns, hlt⟩ := hroom i (hpre.subset hi)
    refine ⟨ns, ?_, hset.config ▸ hlt⟩
    rw [hset.lists, if_neg ?_, hns]
    rintro ⟨rfl, -⟩
    exact hne (hpre.subset hi)
  have hlink : ∀ a b, ix₁.Link layer a b ↔
      ix.Link layer a b ∨ a = newIdx ∧ b ∈ (found.take ix.config.m).map Prod.snd := by
    intro a b
    simp only [Link, hset.lists, and_true]
    by_cases ha : a = newIdx
    · simp [ha, hnew]
    · simp [ha]
  obtain ⟨ix', hrun', hlinks⟩ := linkBacks_room (D := D) newIdx (hnodup.sublist hpre.sublist) hroom₁
  refine ⟨ix', by simp only [connect, Option.bind_eq_bind, hrun, Option.bind_some, hrun'], fun i j => ?_⟩
  rw [hlinks, hlink, or_assoc]

end Links

theorem link_pushNode (ix : HnswIndex F) (id : String) (vector : List F) (level layer i j : Nat) :
    (ix.pushNode id vector level).Link layer i j ↔ ix.Link layer i j := by
  constructor
  · rintro ⟨ns, hns, hj⟩
    obtain ⟨-, rfl⟩ | hold := neighborsOf_pushNode hns
    · cases hj
    · exact ⟨ns, hold, hj⟩
  · rintro ⟨ns, hns, hj⟩
    refine ⟨ns, ?_, hj⟩
    obtain ⟨node, hnode, hlist⟩ := neighborsOf_eq_some.mp hns
    refine neighborsOf_eq_some.mpr ⟨node, ?_, hlist⟩
    rw [getElem?_pushNode, if_neg (List.getElem?_eq_some_iff.mp hnode).1.ne, hnode]

theorem neighborsOf_pushNode_new (ix : HnswIndex F) (id : String) (vector : List F) (level : Nat) :
    (ix.pushNode id vector level).neighborsOf ix.nodes.length 0 = some [] := by
  rw [neighborsOf, getElem?_pushNode, if_pos rfl, Option.bind_some, List.getElem?_replicate,
    if_pos (Nat.succ_pos level)]

/-- A new point that is linked both ways to some of the old ones is joined to all of them. -/
theorem joined_extend {R T : Nat → Nat → Prop} {n : Nat} {S : List Nat}
    (hT : ∀ i j, T i j ↔ R i j ∨ i = n ∧ j ∈ S ∨ i ∈ S ∧ j = n) (hS : S ≠ []) (hlt : ∀ i ∈ S, i < n)
    (hsymm : ∀ i j, R i j → R j i) (hjoined : ∀ i j, i < n → j < n → Relation.ReflTransGen R i j) :
    (∀ i j, T i j → T j i) ∧ ∀ i j, i < n + 1 → j < n + 1 → Relation.ReflTransGen T i j := by
  refine ⟨fun i j hij => ?_, fun i j hi hj => ?_⟩
  · rw [hT] at hij ⊢
    obtain hold | ⟨hi, hj⟩ | ⟨hi, hj⟩ := hij
    · exact .inl (hsymm i j hold)
    · exact .inr (.inr ⟨hj, hi⟩)
    · exact .inr (.inl ⟨hj, hi⟩)
  · obtain ⟨r, rest, rfl⟩ := List.exists_cons_of_ne_nil hS
    have hold : ∀ a b, a < n → b < n → Relation.ReflTransGen T a b := fun a b ha hb =>
      (hjoined a b ha hb).lift id fun x y hxy => (hT x y).mpr (.inl hxy)
    have hr := hlt r List.mem_cons_self
    have hout : T n r := (hT n r).mpr (.inr (.inl ⟨rfl, List.mem_cons_self⟩))
    have hin : T r n := (hT r n).mpr (.inr (.inr ⟨List.mem_cons_self, rfl⟩))
    have hto : Relation.ReflTransGen T i r := by
      obtain hi | rfl := Nat.lt_succ_iff_lt_or_eq.mp hi
      · exact hold i r hi hr
      · exact .single hout
    have hfrom : Relation.ReflTransGen T r j := by
      obtain hj | rfl := Nat.lt_succ_iff_lt_or_eq.mp hj
      · exact hold r j hr hj
      · exact .single hin
    exact hto.trans hfrom

section Runs

variable [LinearOrder D] [Distance F D] [BeamHeaps D]

omit [BeamHeaps D] in
/-- The last round of an insertion links the new node to some of the old ones if no list is full. -/
theorem LastRound.joined {ix ix₀ ix' : HnswIndex F} {id : String} {vector : List F} {level : Nat}
    {found : List (D × Nat)} (h : ix.Joined) (hroom : ix.Unfull)
    (hlast : LastRound (ix.pushNode id vector level) ix' ix.nodes.length ix₀ found)
    (hlength : ix'.nodes.length = ix.nodes.length + 1) : ix'.Joined := by
  have hlist : ∀ i ∈ found.map Prod.snd, ∃ ns, ix₀.neighborsOf i 0 = some ns ∧ ns.length < 2 * ix₀.config.m := by
    intro i hi
    obtain ⟨r, hr, rfl⟩ := List.mem_map.mp hi
    obtain ⟨hon, hne⟩ := hlast.others r hr
    obtain ⟨ns, hns⟩ := hlast.linked.onLayer_iff.mp hon
    refine ⟨ns, hns, ?_⟩
    rw [hlast.lists] at hns
    have hold := (neighborsOf_pushNode hns).resolve_left fun hnew => hne hnew.1
    rw [hlast.sameShape.config]
    exact hroom r.2 ns hold
  have hnew : ix₀.neighborsOf ix.nodes.length 0 = some [] := by
    rw [hlast.lists, neighborsOf_pushNode_new]
  have hnotSelf : ix.nodes.length ∉ found.map Prod.snd := by
    intro hmem
    obtain ⟨r, hr, hri⟩ := List.mem_map.mp hmem
    exact (hlast.others r hr).2 hri
  obtain ⟨ix₁, hconnect, hlinks⟩ := connect_room hlast.nodup hnew hnotSelf hlist
  obtain rfl := Option.some.inj (hlast.connect.symm.trans hconnect)
  have hbefore : ∀ i j, ix₀.Link 0 i j ↔ ix.Link 0 i j := by
    intro i j
    rw [← link_pushNode ix id vector level]
    simp only [Link, hlast.lists]
  have hnearest : (found.take ix₀.config.m).map Prod.snd ≠ [] := by
    obtain ⟨r, rest, rfl⟩ := List.exists_cons_of_ne_nil hlast.nonempty
    obtain ⟨ns, -, hlt⟩ := hlist r.2 List.mem_cons_self
    obtain ⟨m, hm⟩ := Nat.exists_eq_succ_of_ne_zero (by omega : ix₀.config.m ≠ 0)
    rw [hm, List.take_succ_cons, List.map_cons]
    exact List.cons_ne_nil _ _
  have hold : ∀ i ∈ (found.take ix₀.config.m).map Prod.snd, i < ix.nodes.length := by
    intro i hi
    obtain ⟨r, hr, rfl⟩ := List.mem_map.mp hi
    obtain ⟨hon, hne⟩ := hlast.others r (List.mem_of_mem_take hr)
    have hlt := (hlast.sameShape.onLayer.mp hon).lt
    rw [pushNode, List.length_append, List.length_singleton] at hlt
    omega
  obtain ⟨hsymm, hjoined⟩ := joined_extend (R := ix.Link 0) (T := ix'.Link 0)
    (fun i j => by rw [hlinks, hbefore]) hnearest hold h.symm h.joined
  exact ⟨hsymm, hlength ▸ hjoined⟩

theorem Joined.insert {ix ix' : HnswIndex F} (hinv : ix.Inv) (h : ix.Joined) (hroom : ix.Unfull) {id : String}
    {vector : List F} {draw : Nat} (hrun : HnswIndex.insert D ix id vector draw = some ix') : ix'.Joined := by
  obtain ⟨level, hlevel, -⟩ := randomLevel_spec (maxLayers_of_insert hrun) draw
  simp only [HnswIndex.insert, hlevel, Option.bind_eq_bind, Option.bind_some] at hrun
  cases hep : (ix.pushNode id vector level).entryPoint with
  | none =>
    have hnil : ix.nodes = [] := by
      by_contra hne
      obtain ⟨ep, hsome, -⟩ := hinv.entry hne
      cases hsome.symm.trans hep
    simp only [hep, Option.pure_def, Option.some.injEq] at hrun
    have hlinks : ∀ i j, ¬ ix.Link 0 i j := by
      rintro i j ⟨ns, hns, -⟩
      rw [neighborsOf, hnil] at hns
      cases hns
    rw [← hrun]
    constructor
    · intro i j hlink
      exact absurd ((link_pushNode ix id vector level 0 i j).mp hlink) (hlinks i j)
    · intro i j hi hj
      simp only [pushNode, hnil, List.nil_append, List.length_singleton, Nat.lt_one_iff] at hi hj
      rw [hi, hj]
  | some ep =>
    have hne : ix.nodes ≠ [] := fun hnil => by cases (hinv.empty hnil).symm.trans hep
    obtain ⟨ep', hep', hepLevel⟩ := hinv.entry hne
    cases hep'.symm.trans hep
    obtain ⟨current, ix₁, hdescend, hconnect, -, hsame, ix₀, found, hlast⟩ :=
      hinv.insert_linked (D := D) ⟨_, hepLevel, le_rfl⟩ id vector level
    have hmax : (ix.pushNode id vector level).maxLevel = ix.maxLevel := rfl
    simp only [hep, hmax, hdescend, hconnect, Option.bind_some, Option.pure_def, Option.some.injEq] at hrun
    have hlength : ix₁.nodes.length = ix.nodes.length + 1 := hsame.length_eq.trans List.length_append
    have hjoined := hlast.joined h hroom hlength
    rw [← hrun]
    split <;> exact ⟨hjoined.symm, hjoined.joined⟩

omit [LinearOrder D] [Distance F D] [BeamHeaps D] in
theorem Joined.remove {ix ix' : HnswIndex F} (h : ix.Joined) {id : String} {existed : Bool}
    (hrun : ix.remove id = some (existed, ix')) : ix'.Joined := by
  rw [HnswIndex.remove] at hrun
  split at hrun
  · cases hrun
    exact h
  · rename_i idx _
    obtain ⟨node, hnode, hrun⟩ := Option.bind_eq_some_iff.mp hrun
    split at hrun
    · cases hrun
      exact h
    · obtain ⟨-, rfl⟩ := Prod.mk.inj (Option.some.inj hrun)
      have hmark := marked_set hnode (ix.nodeLookup.erase id)
      have hrel : Link { ix with
          nodes := ix.nodes.set idx { node with deleted := true }
          nodeLookup := ix.nodeLookup.erase id } 0 = ix.Link 0 := by
        funext i j
        simp only [Link, hmark.neighborsOf]
      refine ⟨hrel ▸ h.symm, fun i j hi hj => ?_⟩
      rw [hrel]
      rw [List.length_set] at hi hj
      exact h.joined i j hi hj

/-- An insertion finds room in every list of layer 0. -/
def Op.Roomy (ix : HnswIndex F) : Op F → Prop
  | .insert _ _ _ => ix.Unfull
  | .remove _ => True

/-- Every insertion of the run finds room, so that no list of layer 0 is cut. -/
def Roomy (D : Type) [LinearOrder D] [Distance F D] [BeamHeaps D] : HnswIndex F → List (Op F) → Prop
  | _, [] => True
  | ix, op :: ops => op.Roomy ix ∧ ∀ ix', exec D ix op = some ix' → Roomy D ix' ops

theorem Joined.exec {ix ix' : HnswIndex F} (hinv : ix.Inv) (h : ix.Joined) {op : Op F} (hroom : op.Roomy ix)
    (hrun : HnswIndex.exec D ix op = some ix') : ix'.Inv ∧ ix'.Joined := by
  cases op with
  | insert id vector draw =>
    obtain ⟨ix₁, hrun₁, hinv₁, -⟩ := hinv.insert (D := D) (maxLayers_of_insert hrun) id vector draw
    obtain rfl := Option.some.inj (hrun.symm.trans hrun₁)
    exact ⟨hinv₁, h.insert hinv hroom hrun⟩
  | remove id =>
    obtain ⟨existed, ix₁, hrun₁, hinv₁, -⟩ := hinv.remove id
    rw [HnswIndex.exec, hrun₁] at hrun
    obtain rfl := Option.some.inj hrun
    exact ⟨hinv₁, h.remove hrun₁⟩

theorem Joined.execAll {ix ix' : HnswIndex F} (hinv : ix.Inv) (h : ix.Joined) {ops : List (Op F)}
    (hroom : Roomy D ix ops) (hrun : ops.foldlM (HnswIndex.exec D) ix = some ix') : ix'.Joined := by
  induction ops generalizing ix with
  | nil =>
    obtain rfl := Option.some.inj hrun
    exact h
  | cons op ops ih =>
    rw [List.foldlM_cons] at hrun
    obtain ⟨ix₁, hstep, hrest⟩ := Option.bind_eq_some_iff.mp hrun
    obtain ⟨hinv₁, h₁⟩ := h.exec hinv hroom.1 hstep
    exact ih hinv₁ h₁ (hroom.2 ix₁ hstep) hrest

end Runs

end HnswIndex

open HnswIndex

namespace BruteForceIndex

variable {F D : Type}

def execAll (bf : BruteForceIndex F) (ops : List (Op F)) : BruteForceIndex F :=
  ops.foldl (fun bf op => (bf.call op).2) bf

end BruteForceIndex

variable {F D : Type} [LinearOrder D] [Distance F D] [BeamHeaps D]

namespace HnswIndex.Whole

end HnswIndex.Whole

namespace HnswIndex.Whole

end HnswIndex.Whole

end Dllb
