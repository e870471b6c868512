import Mathlib
import Dllb.Vector.Live

/-! # Soundness of HNSW search

The results of a beam search have the distances of their nodes, whatever the
heaps do with equal ones. The hits are the live nodes among them, in the order of
the distances, and in an index that holds every vector once they are what is
stored now.
-/

namespace Dllb.HnswIndex

set_option autoImplicit false

variable {F D : Type}

/-! ## The hits among the nodes found -/

def isLive (ix : HnswIndex F) (i : Nat) : Bool := ix.nodes[i]?.any fun node => !node.deleted

def hitAt (ix : HnswIndex F) (r : D × Nat) : VectorHit D :=
  ⟨(ix.nodes[r.2]?.map HnswNode.id).getD "", r.1⟩

theorem isLive_eq_true_iff {ix : HnswIndex F} {i : Nat} :
    ix.isLive i = true ↔ ∃ node, ix.nodes[i]? = some node ∧ node.deleted = false := by
  simp [isLive, Option.any_eq_true]

theorem liveHits_eq {ix : HnswIndex F} {k : Nat} {found : List (D × Nat)} {hits : List (VectorHit D)}
    (hrun : liveHits ix k found = some hits) :
    hits = ((found.filter fun r => ix.isLive r.2).take k).map ix.hitAt := by
  induction found generalizing k hits with
  | nil =>
    cases k <;> exact (Option.some.inj hrun).symm
  | cons r found ih =>
    cases k with
    | zero =>
      rw [List.take_zero]
      exact (Option.some.inj hrun).symm
    | succ k =>
      rw [liveHits] at hrun
      obtain ⟨node, hnode, hrun⟩ := Option.bind_eq_some_iff.mp hrun
      cases hdel : node.deleted with
      | true =>
        rw [hdel, if_pos rfl] at hrun
        rw [List.filter_cons_of_neg (by simp [isLive, hnode, hdel])]
        exact ih hrun
      | false =>
        rw [hdel, if_neg Bool.false_ne_true] at hrun
        obtain ⟨rest, hrest, hrun⟩ := Option.bind_eq_some_iff.mp hrun
        obtain rfl := Option.some.inj hrun
        rw [List.filter_cons_of_pos (by simp [isLive, hnode, hdel]), List.take_succ_cons, List.map_cons, ih hrest]
        simp [hitAt, hnode]

/-! ## What a beam holds -/

variable [LinearOrder D] [Distance F D] [BeamHeaps D]

/-- A neighbor has been visited before, or it is visited now and added if it should be. -/
theorem visitNeighbors_cons_cases {ix : HnswIndex F} {query : List F} {ef n : Nat} {ns : List Nat}
    {b b' : Beam D} (hrun : visitNeighbors ix query ef (n :: ns) b = some b') :
    (n ∈ b.visited ∧ visitNeighbors ix query ef ns b = some b') ∨
      (n ∉ b.visited ∧ ∃ d, ix.dist query n = some d ∧
        ((b.shouldAdd ef d = some true ∧
            visitNeighbors ix query ef ns (Beam.add { b with visited := n :: b.visited } ef d n) = some b') ∨
          (b.shouldAdd ef d = some false ∧
            visitNeighbors ix query ef ns { b with visited := n :: b.visited } = some b'))) := by
  rw [visitNeighbors] at hrun
  split at hrun
  · exact .inl ⟨‹_›, hrun⟩
  · refine .inr ⟨‹_›, ?_⟩
    obtain ⟨d, hd, hrun⟩ := Option.bind_eq_some_iff.mp hrun
    obtain ⟨c, hc, hrun⟩ := Option.bind_eq_some_iff.mp hrun
    refine ⟨d, hd, ?_⟩
    cases c with
    | true => exact .inl ⟨hc, hrun⟩
    | false => exact .inr ⟨hc, hrun⟩

/-- A round ends the search, or it visits the neighbors of the nearest candidate. -/
theorem beamLoop_succ_cases {ix : HnswIndex F} {query : List F} {ef layer fuel : Nat} {b b' : Beam D}
    (hrun : beamLoop ix query ef layer (fuel + 1) b = some b') :
    ((nearest D).pop b.candidates = none ∧ b' = b) ∨
      ∃ c rest, (nearest D).pop b.candidates = some (c, rest) ∧
        ((b.exhausted ef c.1 = true ∧ b' = { b with candidates := rest }) ∨
          ∃ ns b₁, ix.neighborsOf c.2 layer = some ns ∧
            visitNeighbors ix query ef ns { b with candidates := rest } = some b₁ ∧
            beamLoop ix query ef layer fuel b₁ = some b') := by
  rw [beamLoop] at hrun
  cases hpop : (nearest D).pop b.candidates with
  | none =>
    rw [hpop] at hrun
    exact .inl ⟨rfl, (Option.some.inj hrun).symm⟩
  | some r =>
    rw [hpop] at hrun
    refine .inr ⟨r.1, r.2, rfl, ?_⟩
    simp only at hrun
    split at hrun
    · exact .inl ⟨‹_›, (Option.some.inj hrun).symm⟩
    · obtain ⟨ns, hns, hrun⟩ := Option.bind_eq_some_iff.mp hrun
      obtain ⟨b₁, hvisit, hrun⟩ := Option.bind_eq_some_iff.mp hrun
      exact .inr ⟨ns, b₁, hns, hvisit, hrun⟩

omit [Distance F D] in
theorem Beam.mem_of_mem_add {b : Beam D} {ef i : Nat} {d : D} {r : D × Nat}
    (h : r ∈ (farthest D).toList (b.add ef d i).results) : r = (d, i) ∨ r ∈ (farthest D).toList b.results := by
  refine (farthest D).mem_push.mp ?_
  rw [Beam.add] at h
  simp only at h
  split at h
  · cases hpop : (farthest D).pop ((farthest D).push b.results (d, i)) with
    | none =>
      rw [hpop] at h
      exact h
    | some worst =>
      rw [hpop] at h
      exact (farthest D).mem_of_pop hpop h
  · exact h

/-- The results have the distances of their nodes. -/
def Beam.Measured (ix : HnswIndex F) (query : List F) (b : Beam D) : Prop :=
  ∀ r ∈ (farthest D).toList b.results, ix.dist query r.2 = some r.1

theorem Beam.measured_start {ix : HnswIndex F} {query : List F} {d : D} {i : Nat}
    (h : ix.dist query i = some d) : (Beam.start d i).Measured ix query := by
  intro r hr
  obtain rfl | hr := (farthest D).mem_push.mp hr
  · exact h
  · rw [BinaryHeap.toList_empty] at hr
    cases hr

theorem Beam.Measured.add {ix : HnswIndex F} {query : List F} {b : Beam D} (h : b.Measured ix query) {d : D}
    {i : Nat} (hd : ix.dist query i = some d) (ef : Nat) : (b.add ef d i).Measured ix query := by
  intro r hr
  obtain rfl | hr := Beam.mem_of_mem_add hr
  · exact hd
  · exact h r hr

theorem Beam.Measured.visitNeighbors {ix : HnswIndex F} {query : List F} {ef : Nat} {ns : List Nat}
    {b b' : Beam D} (h : b.Measured ix query) (hrun : visitNeighbors ix query ef ns b = some b') :
    b'.Measured ix query := by
  induction ns generalizing b with
  | nil =>
    obtain rfl := Option.some.inj hrun
    exact h
  | cons n ns ih =>
    have hvisit : Beam.Measured ix query { b with visited := n :: b.visited } := h
    obtain ⟨-, hrun⟩ | ⟨-, d, hd, ⟨-, hrun⟩ | ⟨-, hrun⟩⟩ := visitNeighbors_cons_cases hrun
    · exact ih h hrun
    · exact ih (hvisit.add hd ef) hrun
    · exact ih hvisit hrun

theorem Beam.Measured.beamLoop {ix : HnswIndex F} {query : List F} {ef layer fuel : Nat} {b b' : Beam D}
    (h : b.Measured ix query) (hrun : beamLoop ix query ef layer fuel b = some b') : b'.Measured ix query := by
  induction fuel generalizing b with
  | zero => cases hrun
  | succ fuel ih =>
    obtain ⟨-, rfl⟩ | ⟨c, rest, -, ⟨-, rfl⟩ | ⟨ns, b₁, -, hvisit, hrun⟩⟩ := beamLoop_succ_cases hrun
    · exact h
    · exact h
    · have hpopped : Beam.Measured ix query { b with candidates := rest } := h
      exact ih (hpopped.visitNeighbors hvisit) hrun

theorem searchLayer_measured {ix : HnswIndex F} {query : List F} {start ef layer : Nat}
    {found : List (D × Nat)} (hrun : ix.searchLayer query start ef layer = some found) :
    (∀ r ∈ found, ix.dist query r.2 = some r.1) ∧ found.Pairwise fun a b => a.1 ≤ b.1 := by
  obtain ⟨d, hd, hrun⟩ := Option.bind_eq_some_iff.mp hrun
  obtain ⟨b, hloop, hrun⟩ := Option.bind_eq_some_iff.mp hrun
  obtain rfl := Option.some.inj hrun
  have hmeasured := (Beam.measured_start hd).beamLoop hloop
  refine ⟨fun r hr => hmeasured r ((List.perm_insertionSort _ _).mem_iff.mp hr), ?_⟩
  have : Std.Total fun a b : D × Nat => a.1 ≤ b.1 := ⟨fun a b => le_total a.1 b.1⟩
  have : IsTrans (D × Nat) fun a b => a.1 ≤ b.1 := ⟨fun _ _ _ => le_trans⟩
  exact List.pairwise_insertionSort _ _

/-! ## The hits -/

/-- What a search does when the index is not empty. -/
theorem Inv.searchEf_spec {ix : HnswIndex F} (h : ix.Inv) (query : List F) (k ef : Nat) :
    (ix.nodes = [] ∧ ix.searchEf query k ef = some ([] : List (VectorHit D))) ∨
      ∃ current, ∃ found : List (D × Nat), ix.OnLayer 0 current ∧
        ix.searchLayer query current (max ef k) 0 = some found ∧ (found.map Prod.snd).Nodup ∧
        (∀ r ∈ found, ix.OnLayer 0 r.2) ∧
        ix.searchEf query k ef = some (((found.filter fun r => ix.isLive r.2).take k).map ix.hitAt) := by
  cases hep : ix.entryPoint with
  | none =>
    refine .inl ⟨?_, by rw [HnswIndex.searchEf, hep]⟩
    by_contra hne
    obtain ⟨ep, hsome, -⟩ := h.entry hne
    cases hsome.symm.trans hep
  | some ep =>
    have hne : ix.nodes ≠ [] := fun hnil => by cases (h.empty hnil).symm.trans hep
    obtain ⟨ep', hep', hlevel⟩ := h.entry hne
    cases hep'.symm.trans hep
    obtain ⟨current, hrun, hcur⟩ := descend_spec (D := D) h.toLinked.closed OnLayer.mono query 1 ix.maxLevel ep
      ⟨_, hlevel, le_rfl⟩
    have hzero := hcur.mono (Nat.zero_le _)
    obtain ⟨found, hrun', -, hnodup, hfound⟩ := searchLayer_spec (D := D) (h.toLinked.closed 0) query current
      (max ef k) hzero
    obtain ⟨hits, hhits⟩ := liveHits_spec k found hfound
    refine .inr ⟨current, found, hzero, hrun', hnodup, hfound, ?_⟩
    simp only [HnswIndex.searchEf, hep, hrun, hrun', Option.bind_eq_bind, Option.bind_some, hhits,
      liveHits_eq hhits]

omit [LinearOrder D] [BeamHeaps D] in
/-- A live node with its distance is a vector of the index with the distance of that vector. -/
theorem Exact.find_hitAt {ix : HnswIndex F} (h : ix.Exact) {query : List F} {r : D × Nat}
    (hlive : ix.isLive r.2 = true) (hdist : ix.dist query r.2 = some r.1) :
    ∃ v, ix.find (ix.hitAt r).id = some v ∧ (ix.hitAt r).distance = Distance.distance query v ix.metric := by
  obtain ⟨node, hnode, hdel⟩ := isLive_eq_true_iff.mp hlive
  have hid : (ix.hitAt r).id = node.id := by simp [hitAt, hnode]
  refine ⟨node.vector, ?_, ?_⟩
  · rw [hid, HnswIndex.find, h.looked hnode hdel, Option.bind_some, hnode, Option.map_some]
  · rw [HnswIndex.dist, hnode] at hdist
    exact (Option.some.inj hdist).symm

omit [LinearOrder D] [Distance F D] [BeamHeaps D] in
theorem Exact.nodup_hits {ix : HnswIndex F} (h : ix.Exact) {found : List (D × Nat)}
    (hnodup : (found.map Prod.snd).Nodup) (hlive : ∀ r ∈ found, ix.isLive r.2 = true) :
    ((found.map ix.hitAt).map VectorHit.id).Nodup := by
  rw [List.map_map]
  refine List.Nodup.map_on (fun r hr s hs hid => ?_) hnodup.of_map
  obtain ⟨node, hnode, hdel⟩ := isLive_eq_true_iff.mp (hlive r hr)
  obtain ⟨other, hother, hdelOther⟩ := isLive_eq_true_iff.mp (hlive s hs)
  have hids : node.id = other.id := by simpa [hitAt, hnode, hother] using hid
  exact List.inj_on_of_nodup_map hnodup hr hs (h.eq_of_id hnode hdel hother hdelOther hids)

theorem Exact.searchEf {ix : HnswIndex F} (h : ix.Exact) (query : List F) (k ef : Nat) :
    ∃ hits : List (VectorHit D), ix.searchEf query k ef = some hits ∧ hits.length ≤ k ∧
      (hits.map VectorHit.id).Nodup ∧
      (∀ hit ∈ hits, ∃ v, ix.find hit.id = some v ∧ hit.distance = Distance.distance query v ix.metric) ∧
      hits.Pairwise fun a b => a.distance ≤ b.distance := by
  obtain ⟨-, hrun⟩ | ⟨current, found, -, hfound, hnodup, -, hrun⟩ := h.toInv.searchEf_spec (D := D) query k ef
  · exact ⟨[], hrun, Nat.zero_le k, List.nodup_nil, nofun, .nil⟩
  · obtain ⟨hdist, hsorted⟩ := searchLayer_measured hfound
    have hsub : ((found.filter fun r => ix.isLive r.2).take k).Sublist found :=
      (List.take_sublist _ _).trans List.filter_sublist
    have hlive : ∀ r ∈ (found.filter fun r => ix.isLive r.2).take k, ix.isLive r.2 = true :=
      fun r hr => (List.mem_filter.mp (List.mem_of_mem_take hr)).2
    refine ⟨_, hrun, ?_, h.nodup_hits (hnodup.sublist (hsub.map _)) hlive, ?_, ?_⟩
    · rw [List.length_map]
      exact List.length_take_le k _
    · intro hit hhit
      obtain ⟨r, hr, rfl⟩ := List.mem_map.mp hhit
      exact h.find_hitAt (hlive r hr) (hdist r (hsub.subset hr))
    · rw [List.pairwise_map]
      exact hsorted.sublist hsub

/-- After any disciplined insertions and removals a search finds vectors that are stored now, each
once and with its distance, the nearest first. -/
theorem search_sound (dim : Nat) (metric : DistanceMetric) (config : HnswConfig) {ops : List (Op F)}
    (hops : Disciplined (fun _ => none) ops) {ix : HnswIndex F}
    (hrun : ops.foldlM (exec D) (new dim metric config) = some ix) (query : List F) (k ef : Nat) :
    ∃ hits : List (VectorHit D), ix.searchEf query k ef = some hits ∧ hits.length ≤ k ∧
      (hits.map VectorHit.id).Nodup ∧
      (∀ hit ∈ hits, ∃ v, contentsOf ops hit.id = some v ∧ (hit.id, v) ∈ ix.live ∧
        hit.distance = Distance.distance query v metric) ∧
      hits.Pairwise fun a b => a.distance ≤ b.distance := by
  obtain ⟨hholds, -, hmetric⟩ := (holds_new dim metric config).execAll hops hrun
  obtain ⟨hits, hsearch, hlen, hnodup, hstored, hsorted⟩ := hholds.toExact.searchEf (D := D) query k ef
  refine ⟨hits, hsearch, hlen, hnodup, fun hit hhit => ?_, hsorted⟩
  obtain ⟨v, hfind, hdist⟩ := hstored hit hhit
  have hcontents : contentsOf ops hit.id = some v := by
    rw [← hfind, hholds.find]
    rfl
  exact ⟨v, hcontents, (hholds.toExact.mem_live_iff hit.id v).mpr hfind, by rw [hdist, hmetric]; rfl⟩

namespace Whole

/-- The vector of `a` is replaced and that of `b` is removed. -/
def updates : List (Op Int) :=
  [.insert "a" [3, 1] 0, .insert "b" [1, 2] 1, .remove "a", .insert "a" [2, 2] 0, .remove "b"]

theorem disciplined_updates : Disciplined (fun _ => none) updates := by
  simp [updates, Disciplined, Op.Fresh, Op.apply]

end Whole

open Whole in
theorem search_sound_whole :
    ∃ ix, updates.foldlM (exec Int) (new 2 .dotProduct Whole.config) = some ix ∧
      ∃ hits : List (VectorHit Int), ix.searchEf [1, 1] 2 4 = some hits ∧ hits.length ≤ 2 ∧
        (hits.map VectorHit.id).Nodup ∧
        (∀ hit ∈ hits, ∃ v, contentsOf updates hit.id = some v ∧ (hit.id, v) ∈ ix.live ∧
          hit.distance = Distance.distance [1, 1] v .dotProduct) ∧
        hits.Pairwise fun a b => a.distance ≤ b.distance := by
  obtain ⟨ix, hrun, -⟩ := (Inv.new 2 .dotProduct Whole.config).execAll (D := Int) (by decide) updates
  exact ⟨ix, hrun, search_sound 2 .dotProduct Whole.config disciplined_updates hrun [1, 1] 2 4⟩

end Dllb.HnswIndex
