import Mathlib
import Dllb.CodeIntel.IngestQueries

/-! # What ingestion covers

A container gives documents for all functions below it, those in inner containers
included, and functions outside the containers get theirs only below a root that
is a function. So a function has as many documents as containers are around it,
and one more below such a root.
-/

namespace Dllb

set_option autoImplicit false

def containersOf (root : MetaNode) : List MetaNode := (walk root).filter (·.nodeType = .container)

def functionsOf (root : MetaNode) : List MetaNode := (walk root).filter (·.nodeType = .functionDef)

mutual

/-- The functions of a tree with `n` containers around it, each with the number of containers around it. -/
def enclosed : Nat → MetaNode → List (Nat × MetaNode)
  | n, .mk nodeType metadata children =>
    (if nodeType = .functionDef then [(n, .mk nodeType metadata children)] else []) ++
      enclosedChildren (if nodeType = .container then n + 1 else n) children

def enclosedChildren : Nat → NodeChildren → List (Nat × MetaNode)
  | _, .value _ => []
  | n, .nodes ns => enclosedAll n ns

def enclosedAll : Nat → List MetaNode → List (Nat × MetaNode)
  | _, [] => []
  | n, node :: nodes => enclosed n node ++ enclosedAll n nodes

end

/-! ## Counting documents -/

section

variable {K : Type} [DecidableEq K] (g : MetaNode → K) (k : K)

/-- How often `k` is the key of a function below one of the containers, a container counted with its whole tree. -/
def belowContainers (nodes : List MetaNode) : Nat :=
  ((nodes.filter (·.nodeType = .container)).flatMap fun c => (functionsOf c).map g).count k

def keyCount (nodes : List MetaNode) : Nat := ((nodes.filter (·.nodeType = .functionDef)).map g).count k

def enclosedCount (fns : List (Nat × MetaNode)) : Nat :=
  (fns.flatMap fun f => List.replicate f.1 (g f.2)).count k

theorem enclosedCount_append (fns fns' : List (Nat × MetaNode)) :
    enclosedCount g k (fns ++ fns') = enclosedCount g k fns + enclosedCount g k fns' := by
  simp [enclosedCount]

theorem belowContainers_append (nodes nodes' : List MetaNode) :
    belowContainers g k (nodes ++ nodes') = belowContainers g k nodes + belowContainers g k nodes' := by
  simp [belowContainers]

theorem keyCount_append (nodes nodes' : List MetaNode) :
    keyCount g k (nodes ++ nodes') = keyCount g k nodes + keyCount g k nodes' := by
  simp [keyCount]

mutual

theorem enclosedCount_enclosed : ∀ (n : Nat) (node : MetaNode),
    enclosedCount g k (enclosed n node) = belowContainers g k (walk node) + n * keyCount g k (walk node)
  | n, .mk nodeType metadata children => by
    have ih := fun n => enclosedCount_enclosedChildren n children
    have hwalk : walk (.mk nodeType metadata children) = [.mk nodeType metadata children] ++ walkChildren children := by
      rw [walk, List.singleton_append]
    rw [enclosed, enclosedCount_append, ih, hwalk, belowContainers_append, keyCount_append]
    by_cases hcontainer : nodeType = .container
    · subst hcontainer
      have hbelow : belowContainers g k [.mk .container metadata children] = keyCount g k (walkChildren children) := by
        simp [belowContainers, keyCount, functionsOf, walk, MetaNode.nodeType]
      have hkey : keyCount g k [.mk .container metadata children] = 0 := by simp [keyCount, MetaNode.nodeType]
      rw [hbelow, hkey, if_pos rfl, if_neg (by decide)]
      simp only [enclosedCount, List.flatMap_nil, List.count_nil]
      ring
    · have hbelow : belowContainers g k [.mk nodeType metadata children] = 0 := by
        simp [belowContainers, MetaNode.nodeType, hcontainer]
      rw [hbelow, if_neg hcontainer]
      by_cases hfunction : nodeType = .functionDef
      · subst hfunction
        rw [if_pos rfl]
        simp only [enclosedCount, keyCount, List.flatMap_cons, List.flatMap_nil, List.append_nil, List.count_replicate,
          List.filter_cons, MetaNode.nodeType, decide_true, if_true, List.filter_nil, List.map_cons, List.map_nil,
          List.count_cons, List.count_nil, beq_iff_eq]
        split <;> ring
      · rw [if_neg hfunction]
        have hkey : keyCount g k [.mk nodeType metadata children] = 0 := by simp [keyCount, MetaNode.nodeType, hfunction]
        rw [hkey]
        simp only [enclosedCount, List.flatMap_nil, List.count_nil]
        ring

theorem enclosedCount_enclosedChildren : ∀ (n : Nat) (children : NodeChildren),
    enclosedCount g k (enclosedChildren n children) =
      belowContainers g k (walkChildren children) + n * keyCount g k (walkChildren children)
  | n, .value _ => by simp [enclosedChildren, walkChildren, enclosedCount, belowContainers, keyCount]
  | n, .nodes ns => by
    rw [enclosedChildren, walkChildren]
    exact enclosedCount_enclosedAll n ns

theorem enclosedCount_enclosedAll : ∀ (n : Nat) (nodes : List MetaNode),
    enclosedCount g k (enclosedAll n nodes) =
      belowContainers g k (walkAll nodes) + n * keyCount g k (walkAll nodes)
  | n, [] => by simp [enclosedAll, walkAll, enclosedCount, belowContainers, keyCount]
  | n, node :: nodes => by
    rw [enclosedAll, walkAll, enclosedCount_append, belowContainers_append, keyCount_append,
      enclosedCount_enclosed n node, enclosedCount_enclosedAll n nodes]
    ring

end

end

mutual

theorem map_snd_enclosed : ∀ (n : Nat) (node : MetaNode), (enclosed n node).map Prod.snd = functionsOf node
  | n, .mk nodeType metadata children => by
    rw [enclosed, functionsOf, walk, List.map_append, map_snd_enclosedChildren, List.filter_cons]
    by_cases hfunction : nodeType = .functionDef
    · simp [hfunction, MetaNode.nodeType]
    · simp [hfunction, MetaNode.nodeType]

theorem map_snd_enclosedChildren : ∀ (n : Nat) (children : NodeChildren),
    (enclosedChildren n children).map Prod.snd = (walkChildren children).filter (·.nodeType = .functionDef)
  | n, .value _ => by simp [enclosedChildren, walkChildren]
  | n, .nodes ns => by
    rw [enclosedChildren, walkChildren]
    exact map_snd_enclosedAll n ns

theorem map_snd_enclosedAll : ∀ (n : Nat) (nodes : List MetaNode),
    (enclosedAll n nodes).map Prod.snd = (walkAll nodes).filter (·.nodeType = .functionDef)
  | n, [] => rfl
  | n, node :: nodes => by
    rw [enclosedAll, walkAll, List.map_append, List.filter_append, map_snd_enclosed n node, map_snd_enclosedAll n nodes]
    rfl

end

/-! ## What a batch should cover -/

/-- What names a container within a file. -/
def containerText (c : MetaNode) : String := containerKind c ++ "::" ++ containerName c

/-- What names a function within a file. -/
def functionText (f : MetaNode) : String := (functionInfo f).name ++ "/" ++ toString (functionInfo f).arity

/-- The containers have distinct kinds and names, and the functions are named with distinct names and arities. -/
structure Named (root : MetaNode) : Prop where
  containers : ((containersOf root).map fun c => (containerKind c, containerName c)).Nodup
  named : ∀ f ∈ functionsOf root, ∃ name, f.getMetaStr "name" = some name
  functions : ((functionsOf root).map fun f => (f.getMetaStr "name", f.arity)).Nodup

def containerIdOf (filePath : String) (c : MetaNode) : String :=
  containerId filePath (containerKind c) (containerName c)

def functionIdOf (filePath : String) (f : MetaNode) : String :=
  functionId filePath (functionInfo f).name (functionInfo f).arity

/-- Where the edge of a call goes. -/
def callTarget (root : MetaNode) (filePath call : String) : String :=
  match (localFunctions root).lookup call with
  | some arity => functionId filePath call arity
  | none => callTargetId call

def IngestBatch.ids (batch : IngestBatch) : List String := batch.documents.map (·.id)

section

variable [MetaJson]

/-- One document for each container and each function, with distinct ids; containment links documents, and so do
the calls of functions of the tree. -/
structure CoversOnce (root : MetaNode) (filePath language : String) : Prop where
  documents : (prepareBatch root filePath language).ids.Perm
    ((containersOf root).map (containerIdOf filePath) ++ (functionsOf root).map (functionIdOf filePath))
  distinct : (prepareBatch root filePath language).ids.Nodup
  contains : ∀ e ∈ (prepareBatch root filePath language).edges, e.edgeType = "contains" →
    e.fromId ∈ (prepareBatch root filePath language).ids ∧ e.toId ∈ (prepareBatch root filePath language).ids
  calls : ∀ e ∈ (prepareBatch root filePath language).edges, e.edgeType = "calls" →
    ∀ call ∈ extractCalls root, (∃ f ∈ functionsOf root, f.getMetaStr "name" = some call) →
      e.toId = callTarget root filePath call → e.toId ∈ (prepareBatch root filePath language).ids

/-- The functions of the tree, each with the number of containers around it; a root that is a function counts too. -/
def owners (root : MetaNode) : List (Nat × MetaNode) :=
  enclosed (if root.nodeType = .functionDef then 1 else 0) root

/-- Every function has one container around it and the root is no function, or it has none and the root is one. -/
def OwnedOnce (root : MetaNode) : Prop := ∀ f ∈ owners root, f.1 = 1

/-- No two names within the file are written alike. -/
def TextsApart (root : MetaNode) : Prop :=
  ((containersOf root).map containerText ++ (functionsOf root).map functionText).Nodup

/-! ## The ids of a batch -/

omit [MetaJson] in
theorem containerIdOf_eq (filePath : String) (c : MetaNode) :
    containerIdOf filePath c = filePath ++ "::" ++ containerText c := by
  simp only [containerIdOf, containerId, containerText, String.append_assoc]

omit [MetaJson] in
theorem functionIdOf_eq (filePath : String) (f : MetaNode) :
    functionIdOf filePath f = filePath ++ "::" ++ functionText f := by
  simp only [functionIdOf, functionId, functionText, String.append_assoc]

omit [MetaJson] in
theorem nodup_ids_iff (root : MetaNode) (filePath : String) :
    ((containersOf root).map (containerIdOf filePath) ++ (functionsOf root).map (functionIdOf filePath)).Nodup ↔
      TextsApart root := by
  have hinj : Function.Injective fun text => filePath ++ "::" ++ text := fun _ _ h => (String.append_right_inj _).mp h
  have hcontainers : (containersOf root).map (containerIdOf filePath) =
      ((containersOf root).map containerText).map fun text => filePath ++ "::" ++ text := by
    rw [List.map_map]
    exact List.map_congr_left fun c _ => containerIdOf_eq filePath c
  have hfunctions : (functionsOf root).map (functionIdOf filePath) =
      ((functionsOf root).map functionText).map fun text => filePath ++ "::" ++ text := by
    rw [List.map_map]
    exact List.map_congr_left fun f _ => functionIdOf_eq filePath f
  rw [TextsApart, hcontainers, hfunctions, ← List.map_append, List.nodup_map_iff hinj]

theorem ids_eq (root : MetaNode) (filePath language : String) :
    (prepareBatch root filePath language).ids =
      ((containersOf root).flatMap fun c => containerIdOf filePath c :: (functionsOf c).map (functionIdOf filePath)) ++
        if root.nodeType = .functionDef then (functionsOf root).map (functionIdOf filePath) else [] := by
  have hdocuments : ∀ node : MetaNode, ((extractFunctions node).map (functionDocument filePath language node)).map
      (·.id) = (functionsOf node).map (functionIdOf filePath) := by
    intro node
    rw [extractFunctions, functionsOf, List.map_map, List.map_map]
    rfl
  rw [IngestBatch.ids, prepareBatch, ingestParts, List.flatMap_append, List.map_append, List.flatMap_map,
    List.map_flatMap]
  congr 1
  · refine List.flatMap_congr fun c _ => ?_
    rw [containerPart, List.map_cons, hdocuments]
    rfl
  · split
    · rw [List.flatMap_map, ← hdocuments, List.map_eq_flatMap (f := functionDocument filePath language root)]
      rfl
    · rfl

theorem count_ids (root : MetaNode) (filePath language id : String) :
    (prepareBatch root filePath language).ids.count id =
      ((containersOf root).map (containerIdOf filePath)).count id +
        enclosedCount (functionIdOf filePath) id (owners root) := by
  have hperm := List.map_append_flatMap_perm (containersOf root) (containerIdOf filePath)
    fun c => (functionsOf c).map (functionIdOf filePath)
  rw [ids_eq, List.count_append, ← hperm.count_eq, List.count_append, owners, enclosedCount_enclosed, add_assoc]
  congr 2
  split
  · rw [one_mul]
    rfl
  · rw [zero_mul]
    rfl

omit [MetaJson] in
theorem count_replicated {α K : Type} [DecidableEq K] (key : α → K) {l : List (Nat × α)}
    (h : (l.map fun f => key f.2).Nodup) {f : Nat × α} (hf : f ∈ l) :
    (l.flatMap fun f => List.replicate f.1 (key f.2)).count (key f.2) = f.1 := by
  induction l with
  | nil => cases hf
  | cons f' l ih =>
    rw [List.map_cons, List.nodup_cons] at h
    obtain ⟨hnew, h⟩ := h
    rw [List.flatMap_cons, List.count_append, List.count_replicate]
    obtain rfl | hf := List.mem_cons.mp hf
    · have hnone : (l.flatMap fun f => List.replicate f.1 (key f.2)).count (key f.2) = 0 := by
        rw [List.count_eq_zero]
        intro hmem
        obtain ⟨f', hf', hkey⟩ := List.mem_flatMap.mp hmem
        exact hnew (List.mem_map.mpr ⟨f', hf', ((List.mem_replicate.mp hkey).2).symm⟩)
      rw [hnone, if_pos (beq_self_eq_true _), add_zero]
    · have hne : key f'.2 ≠ key f.2 := fun heq => hnew (heq ▸ List.mem_map.mpr ⟨f, hf, rfl⟩)
      rw [ih h hf, if_neg (by simpa using hne), zero_add]

/-- Where the texts differ, there is one document for each node just where every function is owned once. -/
theorem ids_perm_iff {root : MetaNode} (filePath language : String) (h : TextsApart root) :
    (prepareBatch root filePath language).ids.Perm
      ((containersOf root).map (containerIdOf filePath) ++ (functionsOf root).map (functionIdOf filePath)) ↔
      OwnedOnce root := by
  have howners : (functionsOf root).map (functionIdOf filePath) =
      (owners root).map fun f => functionIdOf filePath f.2 := by
    rw [owners, ← map_snd_enclosed, List.map_map]
    rfl
  have hnodup : ((owners root).map fun f => functionIdOf filePath f.2).Nodup := by
    rw [← howners]
    exact ((nodup_ids_iff root filePath).mpr h).of_append_right
  have hcount : ∀ id, (prepareBatch root filePath language).ids.count id =
      ((containersOf root).map (containerIdOf filePath) ++ (functionsOf root).map (functionIdOf filePath)).count id ↔
      enclosedCount (functionIdOf filePath) id (owners root) =
        ((owners root).map fun f => functionIdOf filePath f.2).count id := by
    intro id
    rw [count_ids, List.count_append, howners, Nat.add_left_cancel_iff]
  rw [List.perm_iff_count]
  simp only [hcount]
  constructor
  · intro hall f hf
    have hone : ((owners root).map fun f => functionIdOf filePath f.2).count (functionIdOf filePath f.2) = 1 :=
      List.count_eq_one_of_mem hnodup (List.mem_map.mpr ⟨f, hf, rfl⟩)
    rw [← count_replicated (functionIdOf filePath) hnodup hf, ← hone]
    exact hall _
  · intro hone id
    have hreplicated : ((owners root).flatMap fun f => List.replicate f.1 (functionIdOf filePath f.2)) =
        (owners root).map fun f => functionIdOf filePath f.2 := by
      rw [List.map_eq_flatMap]
      refine List.flatMap_congr fun f hf => ?_
      rw [hone f hf, List.replicate_one]
    rw [enclosedCount, hreplicated]

/-! ## The edges of a batch -/

theorem mem_ids_of_part {root : MetaNode} {filePath language : String} {part : IngestPart}
    (hpart : part ∈ ingestParts root filePath language) {doc : AstDocument} (hdoc : doc ∈ part.documents) :
    doc.id ∈ (prepareBatch root filePath language).ids :=
  List.mem_map.mpr ⟨doc, List.mem_flatMap.mpr ⟨part, hpart, hdoc⟩, rfl⟩

omit [MetaJson] in
theorem edgeType_callEdges {filePath caller : String} {localFns : List (String × Nat)} {node : MetaNode}
    {e : AstEdge} (h : e ∈ callEdges filePath localFns caller node) : e.edgeType = "calls" := by
  obtain ⟨call, -, rfl⟩ := List.mem_map.mp h
  rfl

theorem contains_links {root : MetaNode} {filePath language : String} {e : AstEdge}
    (he : e ∈ (prepareBatch root filePath language).edges) (htype : e.edgeType = "contains") :
    e.fromId ∈ (prepareBatch root filePath language).ids ∧ e.toId ∈ (prepareBatch root filePath language).ids := by
  obtain ⟨part, hpart, he⟩ := List.mem_flatMap.mp he
  have hparts := hpart
  rw [ingestParts, List.mem_append, List.mem_map] at hparts
  obtain ⟨c, -, rfl⟩ | hparts := hparts
  · obtain hedges | hcalls := List.mem_append.mp he
    · obtain hcontains | himports := List.mem_append.mp hedges
      · obtain ⟨func, hfunc, rfl⟩ := List.mem_map.mp hcontains
        exact ⟨mem_ids_of_part hpart List.mem_cons_self,
          mem_ids_of_part hpart (List.mem_cons_of_mem _ (List.mem_map.mpr ⟨func, hfunc, rfl⟩))⟩
      · obtain ⟨imp, -, rfl⟩ := List.mem_map.mp himports
        have htype : "imports" = "contains" := htype
        exact absurd htype (by decide)
    · obtain ⟨func, -, hcalls⟩ := List.mem_flatMap.mp hcalls
      obtain ⟨f, -, hcalls⟩ := List.mem_flatMap.mp hcalls
      exact absurd ((edgeType_callEdges hcalls).symm.trans htype) (by decide)
  · split at hparts
    · obtain ⟨func, -, rfl⟩ := List.mem_map.mp hparts
      exact absurd ((edgeType_callEdges he).symm.trans htype) (by decide)
    · cases hparts

omit [MetaJson] in
/-- The call of a function of the tree goes to a function of the tree with that name. -/
theorem callTarget_eq {root : MetaNode} (filePath : String) {call : String}
    (h : ∃ f ∈ functionsOf root, f.getMetaStr "name" = some call) :
    ∃ f ∈ functionsOf root, callTarget root filePath call = functionIdOf filePath f := by
  obtain ⟨f, hf, hname⟩ := h
  have hmem : ∀ arity, (call, arity) ∈ localFunctions root ↔
      ∃ g ∈ functionsOf root, g.getMetaStr "name" = some call ∧ g.arity = arity := by
    intro arity
    rw [localFunctions, List.mem_reverse, List.mem_filterMap, functionsOf]
    refine exists_congr fun g => and_congr_right fun _ => ?_
    simp only [Option.map_eq_some_iff, Prod.mk.injEq]
    constructor
    · rintro ⟨name, hg, rfl, harity⟩
      exact ⟨hg, harity⟩
    · rintro ⟨hg, harity⟩
      exact ⟨call, hg, rfl, harity⟩
  cases hlookup : (localFunctions root).lookup call with
  | none =>
    have hnone := List.lookup_eq_none_iff.mp hlookup _ ((hmem f.arity).mpr ⟨f, hf, hname, rfl⟩)
    simp at hnone
  | some arity =>
    obtain ⟨l₁, l₂, hlist, -⟩ := List.lookup_eq_some_iff.mp hlookup
    obtain ⟨g, hg, hgname, rfl⟩ := (hmem arity).mp (hlist ▸ List.mem_append_right l₁ List.mem_cons_self)
    refine ⟨g, hg, ?_⟩
    rw [callTarget, hlookup, functionIdOf, functionInfo, hgname]
    rfl

/-- Ingestion covers every entity once for the trees that own each function once and in which no two names are
written alike, and for no others. -/
theorem covers_once_iff (root : MetaNode) (filePath language : String) :
    CoversOnce root filePath language ↔ OwnedOnce root ∧ TextsApart root := by
  constructor
  · intro hcovers
    have hapart := (nodup_ids_iff root filePath).mp (hcovers.documents.nodup_iff.mp hcovers.distinct)
    exact ⟨(ids_perm_iff filePath language hapart).mp hcovers.documents, hapart⟩
  · rintro ⟨howned, hapart⟩
    have hperm := (ids_perm_iff filePath language hapart).mpr howned
    refine ⟨hperm, hperm.nodup_iff.mpr ((nodup_ids_iff root filePath).mpr hapart), fun e he => contains_links he, ?_⟩
    rintro e - - call - hdefined htarget
    obtain ⟨f, hf, heq⟩ := callTarget_eq filePath hdefined
    rw [htarget, heq, hperm.mem_iff]
    exact List.mem_append_right _ (List.mem_map.mpr ⟨f, hf, rfl⟩)

end

/-- A module in a module, with a function in the inner one. -/
def nestedModules : MetaNode :=
  .mk .container [("name", .string "Outer"), ("container_type", .atom "module")] (.nodes
    [.mk .container [("name", .string "Inner"), ("container_type", .atom "module")] (.nodes
      [.mk .functionDef [("name", .string "f"), ("arity", .int 0)] (.nodes [])])])

/-- The function of the inner module gets two documents with one id. -/
theorem nested_modules_cover_twice :
    Named nestedModules ∧ ∀ [MetaJson], ¬ CoversOnce nestedModules "lib/outer.ex" "elixir" := by
  refine ⟨⟨by decide, ?_, by decide⟩, fun h => ?_⟩
  · intro f hf
    have hfunctions : functionsOf nestedModules =
        [.mk .functionDef [("name", .string "f"), ("arity", .int 0)] (.nodes [])] := rfl
    rw [hfunctions, List.mem_singleton] at hf
    subst hf
    exact ⟨"f", rfl⟩
  · have hdistinct := h.distinct
    rw [ids_eq] at hdistinct
    exact absurd hdistinct (by decide +kernel)

end Dllb
