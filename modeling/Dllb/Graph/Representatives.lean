import Mathlib
import Dllb.Graph.Community

/-! # Representatives

A community is named after the node that it started with, and that node can move
to another one while others stay. A run in which this never happens returns
groups whose keys are members.
-/

namespace Dllb

set_option autoImplicit false

namespace Community

open Components (Groups sortMembers)

/-- Every label in use is the label of the node that it names. -/
def Represented (labels : StringMap String) : Prop :=
  ∀ v label : String, labels[v]? = some label → labels[label]? = some label

/-- The node leaves the community named after it, and others are in it. -/
def Abandons (visit : Rounds.Visit String (StringMap String)) : Prop :=
  visit.changed = true ∧ visit.before[visit.element]? = some visit.element ∧
    ∃ u ≠ visit.element, visit.before[u]? = some visit.element

/-- The visits of a run of the chosen algorithm, with the labels before and after each. -/
def history {R : Type} [OfNat R 0] [OfNat R 2] [Add R] [Sub R] [Mul R] [Arith R] (order : HashOrder)
    (edges : List (Edge R)) (opts : Options R) : List (Rounds.Visit String (StringMap String)) :=
  match opts.algorithm with
  | .louvain =>
    match totalWeight order edges with
    | some m =>
      if Arith.isZero m then [] else (louvainTrace order edges opts m).map (Rounds.Visit.map LouvainState.nodeToComm)
    | none => []
  | .labelPropagation => labelTrace order edges opts

theorem represented_start (nodes : List String) : Represented (tabulate id nodes) := by
  intro v label hlabel
  rw [getElem?_tabulate] at hlabel
  split at hlabel
  · rename_i hv
    cases hlabel
    exact (getElem?_tabulate id nodes v).trans (if_pos hv)
  · cases hlabel

/-- Labels stay represented exactly if the node does not abandon others. -/
theorem Relabels.represented_iff {edges : List (String × String)} {node : String} {labels labels' : StringMap String}
    (hr : Relabels edges node labels labels') (h : Represented labels) :
    Represented labels' ↔ ¬ (labels[node]? = some node ∧ ∃ u ≠ node, labels[u]? = some node) := by
  obtain ⟨nb, current, target, -, hcurrent, htarget, hne, rfl⟩ := hr
  constructor
  · rintro h' ⟨hself, u, hu, hlabel⟩
    have hown := h' u node (by rw [getElem?_insert_string, if_neg (Ne.symm hu), hlabel])
    rw [getElem?_insert_string, if_pos rfl] at hown
    cases hown
    exact hne (Option.some.inj (hself.symm.trans hcurrent))
  · intro hstays v label hlabel
    rw [getElem?_insert_string] at hlabel ⊢
    split at hlabel
    · cases hlabel
      split
      · rfl
      · exact h nb target htarget
    · rename_i hv
      split
      · rename_i hlabelNode
        subst hlabelNode
        exact absurd ⟨h v node hlabel, v, Ne.symm hv, hlabel⟩ hstays
      · exact h v label hlabel

/-- What a run does to the labels that it works on. -/
theorem represented_of_leads {σ : Type} {visit : Nat → String → σ → Option (σ × Bool)} {as : List String} {st st' : σ}
    {vs : List (Rounds.Visit String σ)} (hleads : Rounds.Leads visit as st vs st') (f : σ → StringMap String)
    {edges : List (String × String)} (hcases : ∀ v ∈ vs, v.changed = false ∧ v.after = v.before ∨
      v.changed = true ∧ Relabels edges v.element (f v.before) (f v.after)) (h : Represented (f st)) :
    ((∀ v ∈ vs.map (Rounds.Visit.map f), ¬ Abandons v) ↔
        ∀ v ∈ vs.map (Rounds.Visit.map f), Represented v.after) ∧
      ((∀ v ∈ vs.map (Rounds.Visit.map f), ¬ Abandons v) → Represented (f st')) := by
  induction hleads with
  | nil => exact ⟨by simp, fun _ => h⟩
  | @cons v vs st' _ _ _ ih =>
    obtain ⟨hcase, hcases⟩ := List.forall_mem_cons.mp hcases
    have hstep : Represented (f v.after) ↔ ¬ Abandons (v.map f) := by
      obtain ⟨hchanged, hafter⟩ | ⟨hchanged, hr⟩ := hcase
      · rw [hafter]
        exact iff_of_true h fun hab => by cases hchanged.symm.trans hab.1
      · rw [hr.represented_iff h]
        simp [Abandons, Rounds.Visit.map, hchanged]
    rw [List.map_cons, List.forall_mem_cons, List.forall_mem_cons]
    refine ⟨⟨?_, ?_⟩, ?_⟩
    · rintro ⟨hkeeps, hrest⟩
      exact ⟨hstep.mpr hkeeps, (ih hcases (hstep.mpr hkeeps)).1.mp hrest⟩
    · rintro ⟨hrep, hrest⟩
      exact ⟨hstep.mp hrep, (ih hcases hrep).1.mpr hrest⟩
    · rintro ⟨hkeeps, hrest⟩
      exact (ih hcases (hstep.mpr hkeeps)).2 hrest

theorem GroupsOf.key_mem {labels : StringMap String} {groups : Groups} (hg : GroupsOf labels groups)
    (h : Represented labels) {key : String} {members : List String} (hgroup : groups[key]? = some members) :
    key ∈ members := by
  obtain ⟨hne, -, hmem⟩ := hg.group key members hgroup
  obtain ⟨v, hv⟩ := List.exists_mem_of_ne_nil _ hne
  exact (hmem key).mpr (h v key ((hmem v).mp hv))

theorem louvain_represented (order : HashOrder) (edges : List (Edge F64)) (opts : Options F64)
    (halg : opts.algorithm = .louvain) :
    ((∀ v ∈ history order edges opts, ¬ Abandons v) ↔ ∀ v ∈ history order edges opts, Represented v.after) ∧
      (edges ≠ [] → (∀ v ∈ history order edges opts, ¬ Abandons v) → ∃ groups labels,
        louvain order edges opts = some groups ∧ GroupsOf labels groups ∧ Represented labels) := by
  have hnodes : edges ≠ [] → (louvainGraph edges).allNodes ≠ [] := (louvainGraph_of edges).allNodes_ne_nil
  obtain ⟨m, hm⟩ : ∃ m, totalWeight order edges = some m := divides_f64.half _
  cases hzero : Arith.isZero m with
  | true =>
    have hnone : history order edges opts = [] := by simp only [history, halg, hm, hzero, if_true]
    refine ⟨by simp [hnone], fun hne _ => ?_⟩
    obtain ⟨m', hm', ⟨-, heq⟩ | ⟨hzero', -⟩⟩ := louvain_eq divides_f64 order edges opts (hnodes hne)
    · exact ⟨_, _, heq, groupsOf_singletons _, represented_start _⟩
    · cases hm.symm.trans hm'
      cases hzero.symm.trans hzero'
  | false =>
    have hhistory : history order edges opts =
        (louvainTrace order edges opts m).map (Rounds.Visit.map LouvainState.nodeToComm) := by
      simp only [history, halg, hm, hzero, Bool.false_eq_true, if_false]
    obtain ⟨st, hrun, -, hleads, hcases⟩ := louvain_run divides_f64 order edges opts hzero
    obtain ⟨hiff, hend⟩ := represented_of_leads hleads LouvainState.nodeToComm (fun v hv => (hcases v hv).2)
      (represented_start _)
    rw [hhistory]
    refine ⟨hiff, fun hne hkeeps => ⟨_, st.nodeToComm, ?_, groupsOf_assignment order _, hend hkeeps⟩⟩
    simp [louvain, hnodes hne, hm, hzero, hrun]

theorem labelPropagation_represented (order : HashOrder) (edges : List (Edge F64)) (opts : Options F64)
    (halg : opts.algorithm = .labelPropagation) :
    ((∀ v ∈ history order edges opts, ¬ Abandons v) ↔ ∀ v ∈ history order edges opts, Represented v.after) ∧
      (edges ≠ [] → (∀ v ∈ history order edges opts, ¬ Abandons v) → ∃ groups labels,
        labelPropagation order edges opts = some groups ∧ GroupsOf labels groups ∧ Represented labels) := by
  have hhistory : history order edges opts = (labelTrace order edges opts).map (Rounds.Visit.map id) := by
    simp only [history, halg]
    exact (List.map_id _).symm
  obtain ⟨labels, hrun, -, hleads, hcases⟩ := labelPropagation_run order edges opts
  obtain ⟨hiff, hend⟩ := represented_of_leads hleads id (fun v hv => (hcases v hv).2) (represented_start _)
  rw [hhistory]
  refine ⟨hiff, fun hne hkeeps => ⟨_, labels, ?_, groupsOf_assignment order _, hend hkeeps⟩⟩
  simp [labelPropagation, (labelGraph_of edges).allNodes_ne_nil hne, hrun]

/-- In a run that abandons no community every key is a member of its group, and exactly in such a run
every label in use is at all times the label of the node that it names. -/
theorem representatives_are_members (order : HashOrder) (edges : List (Edge F64)) (opts : Options F64) :
    ((∀ v ∈ history order edges opts, ¬ Abandons v) ↔ ∀ v ∈ history order edges opts, Represented v.after) ∧
      ((∀ v ∈ history order edges opts, ¬ Abandons v) → ∃ groups, detectWeighted order edges opts = some groups ∧
        ∀ (key : String) (members : List String), groups[key]? = some members → key ∈ members) := by
  have hspec : ((∀ v ∈ history order edges opts, ¬ Abandons v) ↔ ∀ v ∈ history order edges opts, Represented v.after) ∧
      (edges ≠ [] → (∀ v ∈ history order edges opts, ¬ Abandons v) → ∃ groups labels,
        detectWeighted order edges opts = some groups ∧ GroupsOf labels groups ∧ Represented labels) := by
    cases halg : opts.algorithm with
    | louvain =>
      obtain ⟨hiff, hresult⟩ := louvain_represented order edges opts halg
      exact ⟨hiff, fun hne hkeeps => by simpa [detectWeighted, hne, halg] using hresult hne hkeeps⟩
    | labelPropagation =>
      obtain ⟨hiff, hresult⟩ := labelPropagation_represented order edges opts halg
      exact ⟨hiff, fun hne hkeeps => by simpa [detectWeighted, hne, halg] using hresult hne hkeeps⟩
  refine ⟨hspec.1, fun hkeeps => ?_⟩
  by_cases hnil : edges = []
  · exact ⟨∅, if_pos hnil, fun key members hgroup => by simp at hgroup⟩
  · obtain ⟨groups, labels, hgroups, hof, hrep⟩ := hspec.2 hnil hkeeps
    exact ⟨groups, hgroups, fun key members hgroup => hof.key_mem hrep hgroup⟩

/-- A triangle with a tail, along which the label `d` goes before `d` itself takes another one. -/
def tailed : List (Edge F64) := [("a", "d", 1), ("a", "e", 1), ("b", "c", 1), ("b", "d", 1), ("c", "d", 1)]

theorem allNodes_tailed : (labelGraph tailed).allNodes = ["c", "b", "e", "d", "a"] := by decide +kernel

theorem sorted_tailed : sortMembers (labelGraph tailed).allNodes = ["a", "b", "c", "d", "e"] := by
  have hnodup : ["c", "b", "e", "d", "a"].Nodup := by decide +kernel
  have hsorted : ["a", "b", "c", "d", "e"].Pairwise fun a b => cmpString a b = .lt := by decide +kernel
  rw [allNodes_tailed]
  refine sortMembers_eq hnodup hsorted fun v => ?_
  simp only [List.mem_cons, List.not_mem_nil, or_false]
  tauto

/-- With the default bound of ten rounds the group `d` is left without `d`. -/
theorem representative_missing :
    ¬ ∀ groups, detectWeighted default tailed ⟨.labelPropagation, 10, 1⟩ = some groups →
      ∀ (key : String) (members : List String), groups[key]? = some members → key ∈ members := by
  intro h
  obtain ⟨labels, hrun, -⟩ := labelPropagation_run default tailed ⟨.labelPropagation, 10, 1⟩
  rw [sorted_tailed] at hrun
  have hends : (Rounds.run (labelVisit default (labelGraph tailed)) ["a", "b", "c", "d", "e"] 10 0
      (tabulate id ["a", "b", "c", "d", "e"])).map (fun labels => (labels["a"]?, labels["d"]?)) =
        some (some "d", some "c") := by decide +kernel
  rw [hrun, Option.map_some, Option.some.injEq, Prod.mk.injEq] at hends
  have hof := groupsOf_assignment default labels
  obtain ⟨members, hgroup⟩ := hof.exists_group "a" "d" hends.1
  have hgroups : detectWeighted default tailed ⟨.labelPropagation, 10, 1⟩ =
      some (communitiesFromAssignment default labels) := by
    have hne : (labelGraph tailed).allNodes ≠ [] := (labelGraph_of tailed).allNodes_ne_nil (List.cons_ne_nil _ _)
    have hcons : tailed ≠ [] := List.cons_ne_nil _ _
    simp only [detectWeighted, if_neg hcons, labelPropagation, if_neg hne, sorted_tailed, hrun,
      Option.bind_eq_bind, Option.bind_some, Option.pure_def]
  have hmem := ((hof.group "d" members hgroup).2.2 "d").mp (h _ hgroups "d" members hgroup)
  exact absurd (hmem.symm.trans hends.2) (by decide)

end Community

end Dllb
