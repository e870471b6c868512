import Mathlib
import Dllb.Graph.Community

/-! # Louvain with exact numbers

Over the rationals the maps that Louvain keeps are sums over the edges, and a
node is moved to a community that it gains the most with.
-/

namespace Dllb

set_option autoImplicit false

namespace Community

open Components (endpoints)

/-! ## Degrees -/

/-- The weight of all the edges that are no loops. -/
def edgeWeight (edges : List (Edge ℚ)) : ℚ := (edges.map fun e => if e.1 = e.2.1 then 0 else e.2.2).sum

def degreeOf (edges : List (Edge ℚ)) (v : String) : ℚ :=
  (edges.map fun e =>
    if e.1 = e.2.1 then 0 else (if e.1 = v then e.2.2 else 0) + if e.2.1 = v then e.2.2 else 0).sum

theorem getD_addTo (m : StringMap ℚ) (key k : String) (w : ℚ) :
    (addTo m key w)[k]?.getD 0 = m[k]?.getD 0 + if key = k then w else 0 := by
  rw [addTo, getElem?_insert_string]
  by_cases hk : key = k
  · simp [hk]
  · simp [hk]

theorem mem_addTo {m : StringMap ℚ} {key k : String} {w : ℚ} : k ∈ addTo m key w ↔ key = k ∨ k ∈ m :=
  mem_insert_string

theorem getD_degrees (edges : List (Edge ℚ)) (v : String) : (degrees edges)[v]?.getD 0 = degreeOf edges v := by
  have hgo : ∀ m : StringMap ℚ, (edges.foldl addDegrees m)[v]?.getD 0 = m[v]?.getD 0 + degreeOf edges v := by
    induction edges with
    | nil => exact fun m => (add_zero _).symm
    | cons e edges ih =>
      intro m
      rw [List.foldl_cons, ih, degreeOf, degreeOf, List.map_cons, List.sum_cons]
      simp only [addDegrees]
      split
      · rw [zero_add]
      · rw [getD_addTo, getD_addTo]
        ring
  rw [degrees, hgo]
  simp

theorem mem_degrees {edges : List (Edge ℚ)} {v : String} (h : v ∈ degrees edges) : v ∈ endpoints (ends edges) := by
  have hgo : ∀ m : StringMap ℚ, v ∈ edges.foldl addDegrees m → v ∈ m ∨ v ∈ endpoints (ends edges) := by
    clear h
    induction edges with
    | nil => exact fun m h => .inl h
    | cons e edges ih =>
      intro m h
      have hcons : v ∈ endpoints (ends (e :: edges)) ↔ (v = e.1 ∨ v = e.2.1) ∨ v ∈ endpoints (ends edges) := by
        simp [endpoints, ends, or_assoc]
      obtain h | h := ih _ h
      · simp only [addDegrees] at h
        split at h
        · exact .inl h
        · rw [mem_addTo, mem_addTo] at h
          rw [hcons]
          tauto
      · exact .inr (hcons.mpr (.inr h))
  exact (hgo ∅ h).resolve_left Std.ExtTreeMap.not_mem_empty

/-- Every edge counts at both of its ends. -/
theorem sum_degreeOf {edges : List (Edge ℚ)} (nodes : Finset String)
    (h : ∀ v ∈ endpoints (ends edges), v ∈ nodes) : ∑ v ∈ nodes, degreeOf edges v = 2 * edgeWeight edges := by
  induction edges with
  | nil => simp [degreeOf, edgeWeight]
  | cons e edges ih =>
    have hsrc : e.1 ∈ nodes := h e.1 (by simp [endpoints, ends])
    have hdst : e.2.1 ∈ nodes := h e.2.1 (by simp [endpoints, ends])
    have hrest := ih fun v hv => h v (by simp only [endpoints, ends, List.map_cons, List.flatMap_cons] at hv ⊢; simp [hv])
    simp only [degreeOf, edgeWeight, List.map_cons, List.sum_cons, Finset.sum_add_distrib] at hrest ⊢
    rw [hrest]
    split
    · rw [Finset.sum_const_zero]
      ring
    · rw [Finset.sum_add_distrib, Finset.sum_ite_eq, Finset.sum_ite_eq, if_pos hsrc, if_pos hdst]
      ring

theorem sum_values {m : StringMap ℚ} {nodes : Finset String} (h : ∀ v ∈ m, v ∈ nodes) :
    (m.toList.map Prod.snd).sum = ∑ v ∈ nodes, m[v]?.getD 0 := by
  have hnodup : (m.toList.map Prod.fst).Nodup := by
    rw [Std.ExtTreeMap.map_fst_toList_eq_keys]
    exact Std.ExtTreeMap.nodup_keys
  have hkeys : ∀ v, v ∈ (m.toList.map Prod.fst).toFinset ↔ v ∈ m := by
    intro v
    rw [List.mem_toFinset, Std.ExtTreeMap.map_fst_toList_eq_keys, Std.ExtTreeMap.mem_keys]
  have hvalues : m.toList.map Prod.snd = (m.toList.map Prod.fst).map fun v => m[v]?.getD 0 := by
    rw [List.map_map]
    refine List.map_congr_left fun e he => ?_
    rw [Function.comp_apply, Std.ExtTreeMap.mem_toList_iff_getElem?_eq_some.mp he, Option.getD_some]
  rw [hvalues, ← List.sum_toFinset _ hnodup]
  refine Finset.sum_subset (fun v hv => h v ((hkeys v).mp hv)) fun v _ hv => ?_
  rw [Std.ExtTreeMap.getElem?_eq_none (mt (hkeys v).mpr hv), Option.getD_none]

theorem totalWeight_rat (order : HashOrder) (edges : List (Edge ℚ)) :
    totalWeight order edges = some (edgeWeight edges) := by
  have hsum : (order.arrange .degrees (degrees edges).toList).foldl (fun sum e => sum + e.2) 0 =
      2 * edgeWeight edges := by
    rw [← sum_degreeOf (endpoints (ends edges)).toFinset fun v hv => List.mem_toFinset.mpr hv]
    simp only [← getD_degrees]
    rw [← sum_values fun v hv => List.mem_toFinset.mpr (mem_degrees hv),
      ← ((order.arrange_perm .degrees (degrees edges).toList).map Prod.snd).sum_eq, List.sum_eq_foldl, List.foldl_map]
  rw [totalWeight, hsum, Arith.div_rat two_ne_zero, mul_div_cancel_left₀ _ two_ne_zero]

/-! ## Gains -/

/-- The weight to the neighbours in a community. -/
def weightInto (labels : StringMap String) (neighbors : List (String × ℚ)) (comm : String) : ℚ :=
  (neighbors.map fun e => if labels[e.1]? = some comm then e.2 else 0).sum

theorem kInPerComm_rat {labels : StringMap String} {neighbors : List (String × ℚ)}
    (h : ∀ e ∈ neighbors, ∃ comm, labels[e.1]? = some comm) (acc : StringMap ℚ) :
    ∃ kIn, kInPerComm labels neighbors acc = some kIn ∧
      (∀ comm, kIn[comm]?.getD 0 = acc[comm]?.getD 0 + weightInto labels neighbors comm) ∧
      ∀ comm, comm ∈ kIn ↔ comm ∈ acc ∨ ∃ e ∈ neighbors, labels[e.1]? = some comm := by
  induction neighbors generalizing acc with
  | nil => exact ⟨acc, rfl, by simp [weightInto], by simp⟩
  | cons e neighbors ih =>
    obtain ⟨⟨nbComm, hcomm⟩, h⟩ := List.forall_mem_cons.mp h
    obtain ⟨kIn, hrest, hweight, hmem⟩ := ih h (addTo acc nbComm e.2)
    refine ⟨kIn, by simp [kInPerComm, hcomm, hrest], fun comm => ?_, fun comm => ?_⟩
    · rw [hweight, getD_addTo, weightInto, weightInto, List.map_cons, List.sum_cons, hcomm]
      simp only [Option.some.injEq]
      ring
    · rw [hmem, mem_addTo, List.exists_mem_cons_iff, hcomm, Option.some.injEq]
      tauto

def neighborsOf (edges : List (Edge ℚ)) (node : String) : List (String × ℚ) :=
  (louvainGraph edges).adj[node]?.getD []

/-- What the node gains by moving to another community. -/
def netGain (edges : List (Edge ℚ)) (resolution : ℚ) (node : String) (st : LouvainState ℚ)
    (currentComm comm : String) : ℚ :=
  let ki := (degrees edges)[node]?.getD 0
  let gain (kiInC sigma : ℚ) : ℚ := kiInC - resolution * sigma * ki / (2 * edgeWeight edges)
  gain (weightInto st.nodeToComm (neighborsOf edges node) comm) (st.sigmaTot[comm]?.getD 0) -
    gain (weightInto st.nodeToComm (neighborsOf edges node) currentComm) (st.sigmaTot[currentComm]?.getD 0 - ki)

/-- Another community, which a neighbour is in. -/
def Candidate (edges : List (Edge ℚ)) (node : String) (st : LouvainState ℚ) (currentComm comm : String) : Prop :=
  comm ≠ currentComm ∧ ∃ e ∈ neighborsOf edges node, st.nodeToComm[e.1]? = some comm

/-- The candidate with the greatest gain, if there is one with a gain. -/
def IsBest (gain : String → ℚ) (candidate : String → Prop) (best : ℚ × Option String) : Prop :=
  match best.2 with
  | none => best.1 = 0 ∧ ∀ d, candidate d → gain d ≤ 0
  | some c => best.1 = gain c ∧ candidate c ∧ 0 < gain c ∧ ∀ d, candidate d → gain d ≤ gain c

theorem bestComm_max {net : String → ℚ → Option ℚ} {gain : String → ℚ} (currentComm : String)
    {candidates : List (String × ℚ)} (hnet : ∀ c ∈ candidates, net c.1 c.2 = some (gain c.1))
    (best : ℚ × Option String) : ∃ result, bestComm net currentComm candidates best = some result ∧
      best.1 ≤ result.1 ∧ (∀ c ∈ candidates, c.1 ≠ currentComm → gain c.1 ≤ result.1) ∧
      (result = best ∨ ∃ c ∈ candidates, c.1 ≠ currentComm ∧ best.1 < gain c.1 ∧ result = (gain c.1, some c.1)) := by
  induction candidates generalizing best with
  | nil => exact ⟨best, rfl, le_rfl, fun c hc => absurd hc List.not_mem_nil, .inl rfl⟩
  | cons c candidates ih =>
    obtain ⟨hc, hnet⟩ := List.forall_mem_cons.mp hnet
    rw [bestComm]
    split
    · rename_i hcurrent
      obtain ⟨result, hrun, hle, hmax, hcases⟩ := ih hnet best
      refine ⟨result, hrun, hle, List.forall_mem_cons.mpr ⟨fun hne => absurd hcurrent hne, hmax⟩, ?_⟩
      obtain heq | ⟨d, hd, hrest⟩ := hcases
      · exact .inl heq
      · exact .inr ⟨d, List.mem_cons_of_mem _ hd, hrest⟩
    · rename_i hcurrent
      simp only [hc, Option.bind_eq_bind, Option.bind_some, Arith.gt_rat, decide_eq_true_eq]
      by_cases hgt : best.1 < gain c.1
      · obtain ⟨result, hrun, hle, hmax, hcases⟩ := ih hnet (gain c.1, some c.1)
        rw [if_pos hgt]
        refine ⟨result, hrun, hgt.le.trans hle, List.forall_mem_cons.mpr ⟨fun _ => hle, hmax⟩, .inr ?_⟩
        obtain heq | ⟨d, hd, hne, hlt, heq⟩ := hcases
        · exact ⟨c, List.mem_cons_self, hcurrent, hgt, heq⟩
        · exact ⟨d, List.mem_cons_of_mem _ hd, hne, hgt.trans hlt, heq⟩
      · obtain ⟨result, hrun, hle, hmax, hcases⟩ := ih hnet best
        rw [if_neg hgt]
        refine ⟨result, hrun, hle, List.forall_mem_cons.mpr ⟨fun _ => (not_lt.mp hgt).trans hle, hmax⟩, ?_⟩
        obtain heq | ⟨d, hd, hrest⟩ := hcases
        · exact .inl heq
        · exact .inr ⟨d, List.mem_cons_of_mem _ hd, hrest⟩

section Move

variable {edges : List (Edge ℚ)} {st : LouvainState ℚ}

theorem labelled_neighbors (h : Local (ends edges) st.nodeToComm) (node : String) :
    ∀ e ∈ neighborsOf edges node, ∃ comm, st.nodeToComm[e.1]? = some comm := by
  intro e he
  obtain ⟨comm, hcomm, -⟩ := h.neighbor ((louvainGraph_of edges).adjacent node e he)
  exact ⟨comm, hcomm⟩

/-- The order is that of the candidates that are gone through, and nothing else depends on it. -/
theorem bestMove_eq (hm : edgeWeight edges ≠ 0) (h : Local (ends edges) st.nodeToComm) (resolution : ℚ)
    (node currentComm : String) :
    ∃ (kIn : StringMap ℚ) (net : String → ℚ → Option ℚ),
      (∀ comm, comm ∈ kIn ↔ ∃ e ∈ neighborsOf edges node, st.nodeToComm[e.1]? = some comm) ∧
      (∀ c ∈ kIn.toList, net c.1 c.2 = some (netGain edges resolution node st currentComm c.1)) ∧
      ∀ (order : HashOrder) (pass : Nat), bestMove order (louvainGraph edges) (edgeWeight edges) resolution pass node
          ((degrees edges)[node]?.getD 0) currentComm st =
        bestComm net currentComm (order.arrange (.candidates pass node) kIn.toList) (0, none) := by
  have hgain : ∀ ki kiInC sigma : ℚ, gainOf (edgeWeight edges) resolution ki kiInC sigma =
      some (kiInC - resolution * sigma * ki / (2 * edgeWeight edges)) := by
    intro ki kiInC sigma
    simp [gainOf, Arith.div_rat (mul_ne_zero two_ne_zero hm)]
  obtain ⟨kIn, hkIn, hweight, hmem⟩ := kInPerComm_rat (labelled_neighbors h node) ∅
  simp only [Std.ExtTreeMap.getElem?_empty, Option.getD_none, zero_add, Std.ExtTreeMap.not_mem_empty, false_or]
    at hweight hmem
  have hkiIn : ∀ c ∈ kIn.toList, c.2 = weightInto st.nodeToComm (neighborsOf edges node) c.1 := by
    intro c hc
    rw [← hweight, Std.ExtTreeMap.mem_toList_iff_getElem?_eq_some.mp hc, Option.getD_some]
  let baseline := weightInto st.nodeToComm (neighborsOf edges node) currentComm - resolution *
    (st.sigmaTot[currentComm]?.getD 0 - (degrees edges)[node]?.getD 0) * (degrees edges)[node]?.getD 0 /
      (2 * edgeWeight edges)
  refine ⟨kIn, fun comm kiInC => some (kiInC - resolution * (st.sigmaTot[comm]?.getD 0) *
    (degrees edges)[node]?.getD 0 / (2 * edgeWeight edges) - baseline), hmem, fun c hc => ?_, fun order pass => ?_⟩
  · simp only [hkiIn c hc, netGain, baseline]
  · rw [neighborsOf] at hkIn
    simp only [bestMove, hkIn, hgain, hweight, Option.bind_eq_bind, Option.bind_some, Option.pure_def, baseline]

theorem bestMove_rat (hm : edgeWeight edges ≠ 0) (h : Local (ends edges) st.nodeToComm) (resolution : ℚ)
    (node currentComm : String) (order : HashOrder) (pass : Nat) :
    ∃ best, bestMove order (louvainGraph edges) (edgeWeight edges) resolution pass node
        ((degrees edges)[node]?.getD 0) currentComm st = some best ∧
      IsBest (netGain edges resolution node st currentComm) (Candidate edges node st currentComm) best := by
  obtain ⟨kIn, net, hmem, hnet, heq⟩ := bestMove_eq hm h resolution node currentComm
  have hperm := order.arrange_perm (.candidates pass node) kIn.toList
  have hcandidate : ∀ comm, Candidate edges node st currentComm comm ↔
      comm ≠ currentComm ∧ ∃ c ∈ order.arrange (.candidates pass node) kIn.toList, c.1 = comm := by
    intro comm
    rw [Candidate, ← hmem, ← Std.ExtTreeMap.mem_keys, ← Std.ExtTreeMap.map_fst_toList_eq_keys, List.mem_map]
    simp only [hperm.mem_iff]
  obtain ⟨best, hbest, -, hmax, hcases⟩ := bestComm_max currentComm
    (fun c hc => hnet c (hperm.mem_iff.mp hc)) (0, none)
  refine ⟨best, (heq order pass).trans hbest, ?_⟩
  have hle : ∀ d, Candidate edges node st currentComm d → netGain edges resolution node st currentComm d ≤ best.1 := by
    intro d hd
    obtain ⟨hne, c, hc, rfl⟩ := (hcandidate d).mp hd
    exact hmax c hc hne
  obtain rfl | ⟨c, hc, hne, hpos, rfl⟩ := hcases
  · exact ⟨rfl, hle⟩
  · exact ⟨rfl, (hcandidate c.1).mpr ⟨hne, c, hc, rfl⟩, hpos, hle⟩

theorem louvainVisit_rat (hm : edgeWeight edges ≠ 0) (h : Local (ends edges) st.nodeToComm) (resolution : ℚ)
    {node currentComm : String} (hcurrent : st.nodeToComm[node]? = some currentComm) (order : HashOrder) (pass : Nat) :
    louvainVisit order (louvainGraph edges) (degrees edges) (edgeWeight edges) resolution pass node st =
        some (st, false) ∨
      ∃ bestGain targetComm, bestMove order (louvainGraph edges) (edgeWeight edges) resolution pass node
          ((degrees edges)[node]?.getD 0) currentComm st = some (bestGain, some targetComm) ∧
        IsBest (netGain edges resolution node st currentComm) (Candidate edges node st currentComm)
          (bestGain, some targetComm) ∧
        louvainVisit order (louvainGraph edges) (degrees edges) (edgeWeight edges) resolution pass node st =
          some (st.move node currentComm targetComm ((degrees edges)[node]?.getD 0), true) := by
  obtain ⟨⟨bestGain, target⟩, hbest, hmax⟩ := bestMove_rat hm h resolution node currentComm order pass
  simp only [louvainVisit, hcurrent, hbest, Arith.isZero_rat, decide_eq_true_eq, Option.bind_eq_bind, Option.bind_some]
  split
  · exact .inl rfl
  · cases target with
    | none => exact .inl rfl
    | some targetComm => exact .inr ⟨bestGain, targetComm, rfl, hmax, rfl⟩

end Move

end Community

end Dllb
