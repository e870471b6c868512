import Mathlib
import Dllb.Graph.Exact

/-! # Louvain and the order of its maps

A node is moved to the first of the communities that it gains the most with. Where
there is only one the order of the candidates is of no account, and where there are
two each of them can come first.
-/

namespace Dllb

set_option autoImplicit false

namespace Community

open Components (Groups sortMembers)

/-- The node gains the most with each of two communities. -/
def Tied (edges : List (Edge ℚ)) (resolution : ℚ) (node : String) (st : LouvainState ℚ) : Prop :=
  (degrees edges)[node]?.getD 0 ≠ 0 ∧ ∃ currentComm c c', st.nodeToComm[node]? = some currentComm ∧ c ≠ c' ∧
    let gain := netGain edges resolution node st currentComm
    let candidate := Candidate edges node st currentComm
    candidate c ∧ candidate c' ∧ gain c = gain c' ∧ 0 < gain c ∧ ∀ d, candidate d → gain d ≤ gain c

/-- The visits of a run, of which there are none without weight. -/
def visits (order : HashOrder) (edges : List (Edge ℚ)) (opts : Options ℚ) :
    List (Rounds.Visit String (LouvainState ℚ)) :=
  if edgeWeight edges = 0 then [] else louvainTrace order edges opts (edgeWeight edges)

/-- The candidates with `comm` in front. -/
def favouring (comm : String) : HashOrder where
  arrange site entries :=
    match site with
    | .candidates _ _ => (entries.filter fun e => e.1 = comm) ++ entries.filter fun e => ¬ e.1 = comm
    | _ => entries
  arrange_perm site entries := by
    cases site with
    | candidates pass node => simpa using List.filter_append_perm (fun e => decide (e.1 = comm)) entries
    | degrees => exact .refl entries
    | frequencies round node => exact .refl entries
    | assignment => exact .refl entries

theorem favouring_first {comm : String} {entries : List (String × ℚ)} (h : comm ∈ entries.map Prod.fst) (pass : Nat)
    (node : String) :
    ∃ c rest, (favouring comm).arrange (.candidates pass node) entries = c :: rest ∧ c.1 = comm := by
  obtain ⟨c, hc, hcomm⟩ := List.mem_map.mp h
  have hfilter : c ∈ entries.filter fun e => e.1 = comm := List.mem_filter.mpr ⟨hc, by simpa using hcomm⟩
  obtain ⟨first, rest, hsplit⟩ := List.exists_cons_of_ne_nil (List.ne_nil_of_mem hfilter)
  have hfirst : first ∈ entries.filter fun e => e.1 = comm := hsplit ▸ List.mem_cons_self
  refine ⟨first, rest ++ entries.filter fun e => ¬ e.1 = comm, ?_, by simpa using (List.mem_filter.mp hfirst).2⟩
  simp only [favouring, hsplit, List.cons_append]

theorem IsBest.eq {gain : String → ℚ} {candidate : String → Prop} {best best' : ℚ × Option String}
    (h : IsBest gain candidate best) (h' : IsBest gain candidate best')
    (hone : ∀ c c', candidate c → candidate c' → gain c = gain c' → 0 < gain c →
      (∀ d, candidate d → gain d ≤ gain c) → c = c') : best = best' := by
  obtain ⟨g, target⟩ := best
  obtain ⟨g', target'⟩ := best'
  cases target with
  | none =>
    obtain ⟨rfl, hmax⟩ := h
    cases target' with
    | none => exact congrArg (·, none) h'.1.symm
    | some c' => exact absurd h'.2.2.1 (not_lt.mpr (hmax c' h'.2.1))
  | some c =>
    obtain ⟨rfl, hc, hpos, hmax⟩ := h
    cases target' with
    | none => exact absurd hpos (not_lt.mpr (h'.2 c hc))
    | some c' =>
      obtain ⟨rfl, hc', -, hmax'⟩ := h'
      have heq : gain c = gain c' := le_antisymm (hmax' c hc) (hmax c' hc')
      rw [hone c c' hc hc' heq hpos hmax]

section Visit

variable {edges : List (Edge ℚ)} {st : LouvainState ℚ}

theorem louvainVisit_of_not_tied (hm : edgeWeight edges ≠ 0) (hlocal : Local (ends edges) st.nodeToComm)
    {resolution : ℚ} {node : String} (h : ¬ Tied edges resolution node st) (order order' : HashOrder) (pass : Nat) :
    louvainVisit order (louvainGraph edges) (degrees edges) (edgeWeight edges) resolution pass node st =
      louvainVisit order' (louvainGraph edges) (degrees edges) (edgeWeight edges) resolution pass node st := by
  simp only [louvainVisit, Arith.isZero_rat, decide_eq_true_eq]
  by_cases hki : (degrees edges)[node]?.getD 0 = 0
  · rw [if_pos hki, if_pos hki]
  · rw [if_neg hki, if_neg hki]
    cases hcurrent : st.nodeToComm[node]? with
    | none => rfl
    | some currentComm =>
      obtain ⟨best, hbest, hmax⟩ := bestMove_rat hm hlocal resolution node currentComm order pass
      obtain ⟨best', hbest', hmax'⟩ := bestMove_rat hm hlocal resolution node currentComm order' pass
      have heq : best = best' := hmax.eq hmax' fun c c' hc hc' hgain hpos hle => by
        by_contra hne
        exact h ⟨hki, currentComm, c, c', hcurrent, hne, hc, hc', hgain, hpos, hle⟩
      simp only [Option.bind_eq_bind, Option.bind_some, hbest, hbest', heq]

/-- Each of the best communities is chosen when it comes first. -/
theorem louvainVisit_favouring (hm : edgeWeight edges ≠ 0) (hlocal : Local (ends edges) st.nodeToComm)
    {resolution : ℚ} {node currentComm comm : String} (hki : (degrees edges)[node]?.getD 0 ≠ 0)
    (hcurrent : st.nodeToComm[node]? = some currentComm) (hbest : IsBest (netGain edges resolution node st currentComm)
      (Candidate edges node st currentComm) (netGain edges resolution node st currentComm comm, some comm))
    (pass : Nat) :
    louvainVisit (favouring comm) (louvainGraph edges) (degrees edges) (edgeWeight edges) resolution pass node st =
      some (st.move node currentComm comm ((degrees edges)[node]?.getD 0), true) := by
  obtain ⟨-, ⟨hne, hnb⟩, hpos, hmax⟩ := hbest
  obtain ⟨kIn, net, hmem, hnet, heq⟩ := bestMove_eq hm hlocal resolution node currentComm
  have hkey : comm ∈ kIn.toList.map Prod.fst := by
    rw [Std.ExtTreeMap.map_fst_toList_eq_keys, Std.ExtTreeMap.mem_keys, hmem]
    exact hnb
  obtain ⟨c, rest, hsplit, rfl⟩ := favouring_first hkey pass node
  have hin : ∀ d ∈ c :: rest, d ∈ kIn.toList := by
    intro d hd
    rw [← hsplit] at hd
    exact (HashOrder.arrange_perm _ _ _).mem_iff.mp hd
  obtain ⟨hc, hrest⟩ := List.forall_mem_cons.mp hin
  -- after the first one no other is better
  obtain ⟨result, hrun, -, -, hcases⟩ := bestComm_max currentComm (fun d hd => hnet d (hrest d hd))
    (netGain edges resolution node st currentComm c.1, some c.1)
  have hstays : result = (netGain edges resolution node st currentComm c.1, some c.1) := by
    obtain hsame | ⟨d, hd, hdne, hlt, -⟩ := hcases
    · exact hsame
    · refine absurd hlt (not_lt.mpr (hmax d.1 ⟨hdne, (hmem d.1).mp ?_⟩))
      rw [Std.ExtTreeMap.mem_iff_isSome_getElem?, Std.ExtTreeMap.mem_toList_iff_getElem?_eq_some.mp (hrest d hd)]
      rfl
  have hmove : bestMove (favouring c.1) (louvainGraph edges) (edgeWeight edges) resolution pass node
      ((degrees edges)[node]?.getD 0) currentComm st =
        some (netGain edges resolution node st currentComm c.1, some c.1) := by
    rw [heq, hsplit, bestComm, if_neg hne]
    simp only [hnet c hc, Option.bind_eq_bind, Option.bind_some, Arith.gt_rat, hpos, decide_true, if_true, hrun, hstays]
  simp only [louvainVisit, Arith.isZero_rat, hki, hcurrent, hmove, decide_false, Bool.false_eq_true, if_false,
    Option.bind_eq_bind, Option.bind_some, Option.pure_def]

end Visit

/-- Without ties the run does not depend on the order. -/
theorem louvain_run_congr {edges : List (Edge ℚ)} (hm : edgeWeight edges ≠ 0) (order : HashOrder) (opts : Options ℚ)
    (hnot : ∀ v ∈ louvainTrace order edges opts (edgeWeight edges), ¬ Tied edges opts.resolution v.element v.before) :
    ∃ st : LouvainState ℚ, ∀ order' : HashOrder,
      Rounds.run (louvainVisit order' (louvainGraph edges) (degrees edges) (edgeWeight edges) opts.resolution)
        (sortMembers (louvainGraph edges).allNodes) opts.maxIterations 0 (louvainStart edges) = some st ∧
      louvainTrace order' edges opts (edgeWeight edges) = louvainTrace order edges opts (edgeWeight edges) := by
  obtain ⟨st, hrun, -, hleads, hcases⟩ := louvain_run divides_rat order edges opts (m := edgeWeight edges)
    (by simpa using hm)
  refine ⟨st, fun order' => Rounds.run_congr hrun fun v hv => ?_⟩
  rw [louvainVisit_of_not_tied hm (hcases v hv).1 (hnot v hv) order' order]
  exact (hleads.visit_eq v hv).2

/-- A tie is decided by the order. -/
theorem not_tied_of_trace_eq {edges : List (Edge ℚ)} (hm : edgeWeight edges ≠ 0) {order : HashOrder} {opts : Options ℚ}
    (hall : ∀ order' : HashOrder, louvainTrace order' edges opts (edgeWeight edges) =
      louvainTrace order edges opts (edgeWeight edges)) :
    ∀ v ∈ louvainTrace order edges opts (edgeWeight edges), ¬ Tied edges opts.resolution v.element v.before := by
  rintro v hv ⟨hki, currentComm, c, c', hcurrent, hne, hc, hc', heq, hpos, hmax⟩
  have hafter : ∀ comm, IsBest (netGain edges opts.resolution v.element v.before currentComm)
      (Candidate edges v.element v.before currentComm)
      (netGain edges opts.resolution v.element v.before currentComm comm, some comm) →
      v.after.nodeToComm[v.element]? = some comm := by
    intro comm hbest
    obtain ⟨st, -, -, hleads, hcases⟩ := louvain_run divides_rat (favouring comm) edges opts (m := edgeWeight edges)
      (by simpa using hm)
    have hv' : v ∈ louvainTrace (favouring comm) edges opts (edgeWeight edges) := (hall _).symm ▸ hv
    have hvisit := louvainVisit_favouring hm (hcases v hv').1 hki hcurrent hbest v.round
    rw [(hleads.visit_eq v hv').2, Option.some.injEq, Prod.mk.injEq] at hvisit
    rw [hvisit.1, LouvainState.move, getElem?_insert_string, if_pos rfl]
  have hfirst := hafter c ⟨rfl, hc, hpos, hmax⟩
  have hsecond := hafter c' ⟨rfl, hc', heq ▸ hpos, fun d hd => heq ▸ hmax d hd⟩
  exact hne (Option.some.inj (hfirst.symm.trans hsecond))

/-- No visit is tied exactly if the visits are the same in every order, and then the groups are. -/
theorem order_is_irrelevant (order : HashOrder) (edges : List (Edge ℚ)) (opts : Options ℚ) :
    ((∀ v ∈ visits order edges opts, ¬ Tied edges opts.resolution v.element v.before) ↔
        ∀ order' : HashOrder, visits order' edges opts = visits order edges opts) ∧
      ((∀ v ∈ visits order edges opts, ¬ Tied edges opts.resolution v.element v.before) →
        ∃ groups, ∀ order' : HashOrder, louvain order' edges opts = some groups) := by
  by_cases hm : edgeWeight edges = 0
  · have hnone : ∀ order' : HashOrder, visits order' edges opts = [] := fun order' => if_pos hm
    refine ⟨iff_of_true (by simp [hnone]) (by simp [hnone]), fun _ => ?_⟩
    by_cases hnil : (louvainGraph edges).allNodes = []
    · exact ⟨∅, fun order' => if_pos hnil⟩
    · refine ⟨tabulate (fun node => [node]) (louvainGraph edges).allNodes, fun order' => ?_⟩
      simp [louvain, hnil, totalWeight_rat, hm]
  · have hsome : ∀ order' : HashOrder, visits order' edges opts = louvainTrace order' edges opts (edgeWeight edges) :=
      fun order' => if_neg hm
    simp only [hsome]
    refine ⟨⟨fun hnot order' => ?_, not_tied_of_trace_eq hm⟩, fun hnot => ?_⟩
    · obtain ⟨st, hst⟩ := louvain_run_congr hm order opts hnot
      exact (hst order').2
    · obtain ⟨st, hst⟩ := louvain_run_congr hm order opts hnot
      by_cases hnil : (louvainGraph edges).allNodes = []
      · exact ⟨∅, fun order' => if_pos hnil⟩
      · refine ⟨communitiesFromAssignment order st.nodeToComm, fun order' => ?_⟩
        rw [(groupsOf_assignment order st.nodeToComm).eq (groupsOf_assignment order' st.nodeToComm)]
        simp [louvain, hnil, totalWeight_rat, hm, (hst order').1]

/-- A node with two neighbours. -/
def star : List (Edge ℚ) := [("a", "b", 1), ("a", "c", 1)]

theorem allNodes_star : (louvainGraph star).allNodes = ["c", "b", "a"] := by decide +kernel

theorem sorted_star : sortMembers (louvainGraph star).allNodes = ["a", "b", "c"] := by
  have hnodup : ["c", "b", "a"].Nodup := by decide +kernel
  have hsorted : ["a", "b", "c"].Pairwise fun a b => cmpString a b = .lt := by decide +kernel
  rw [allNodes_star]
  refine sortMembers_eq hnodup hsorted fun v => ?_
  simp only [List.mem_cons, List.not_mem_nil, or_false]
  tauto

/-- The state that the run on the star starts with. -/
def starStart : LouvainState ℚ :=
  { nodeToComm := tabulate id ["a", "b", "c"]
    sigmaTot := tabulate (fun node => (degrees star)[node]?.getD 0) ["a", "b", "c"] }

def starLabel (order : HashOrder) : Option (Option String) :=
  (Rounds.run (louvainVisit order (louvainGraph star) (degrees star) 2 1) ["a", "b", "c"] 10 0 starStart).map
    fun st => st.nodeToComm["a"]?

theorem louvain_star (order : HashOrder) {label : String} (h : starLabel order = some (some label)) :
    ∃ labels groups, louvain order star ⟨.louvain, 10, 1⟩ = some groups ∧ GroupsOf labels groups ∧
      labels["a"]? = some label := by
  obtain ⟨st, hrun, hlabel⟩ := Option.map_eq_some_iff.mp h
  refine ⟨st.nodeToComm, _, ?_, groupsOf_assignment order st.nodeToComm, hlabel⟩
  have hm : edgeWeight star = 2 := by decide +kernel
  have hnil : (louvainGraph star).allNodes ≠ [] := by
    rw [allNodes_star]
    exact List.cons_ne_nil _ _
  have hstart : louvainStart star = starStart := by rw [louvainStart, sorted_star, starStart]
  simp [louvain, hnil, totalWeight_rat, hm, sorted_star, hstart, hrun]

/-- The three nodes are one group, named after the leaf that came first. -/
theorem star_depends_on_order :
    ¬ ∀ order order' : HashOrder, louvain order star ⟨.louvain, 10, 1⟩ = louvain order' star ⟨.louvain, 10, 1⟩ := by
  intro h
  have hb : starLabel (favouring "b") = some (some "b") := by decide +kernel
  have hc : starLabel (favouring "c") = some (some "c") := by decide +kernel
  obtain ⟨labels, groups, hgroups, hof, hlabel⟩ := louvain_star _ hb
  obtain ⟨labels', groups', hgroups', hof', hlabel'⟩ := louvain_star _ hc
  rw [h _ (favouring "c"), hgroups', Option.some.injEq] at hgroups
  subst hgroups
  obtain ⟨members, hgroup⟩ := hof.exists_group "a" "b" hlabel
  have hmem := ((hof'.group "b" members hgroup).2.2 "a").mp (((hof.group "b" members hgroup).2.2 "a").mpr hlabel)
  exact absurd (hmem.symm.trans hlabel') (by decide)

end Community

end Dllb
