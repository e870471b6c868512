import Mathlib
import Dllb.Document.Document

/-! # Shortest paths

A breadth-first search from the source. It stops when it comes upon the
destination, and the parents lead back from there. `none` stands for a loop that
would go on for more rounds than there is fuel.
-/

namespace Dllb

set_option autoImplicit false

namespace Path

/-! ## The search -/

abbrev Parents := Std.ExtTreeMap String String cmpString

structure Search where
  visited : List String
  parent : Parents
  queue : List (String × Nat)

def adjacency (edges : List (String × String)) : Std.ExtTreeMap String (List String) cmpString :=
  edges.foldl (fun adj e => adj.insert e.1 (adj[e.1]?.getD [] ++ [e.2])) ∅

inductive Expansion where
  | found (parent : Parents)
  | more (st : Search)

/-- The loop over the neighbors of `node`. -/
def expand (dst node : String) (depth : Nat) : List String → Search → Expansion
  | [], st => .more st
  | nb :: nbs, st =>
    if nb ∈ st.visited then expand dst node depth nbs st
    else
      let visited := nb :: st.visited
      let parent := st.parent.insert nb node
      if nb = dst then .found parent
      else expand dst node depth nbs { visited, parent, queue := st.queue ++ [(nb, depth + 1)] }

/-- The loop over the queue; a vertex at the greatest depth is not expanded. -/
def search (adj : Std.ExtTreeMap String (List String) cmpString) (dst : String) (maxDepth : Option Nat) :
    Nat → Search → Option (Option Parents)
  | 0, _ => none
  | fuel + 1, st =>
    match st.queue with
    | [] => some none
    | (node, depth) :: queue =>
      if maxDepth.any (· ≤ depth) then search adj dst maxDepth fuel { st with queue }
      else
        match adj[node]? with
        | none => search adj dst maxDepth fuel { st with queue }
        | some neighbors =>
          match expand dst node depth neighbors { st with queue } with
          | .found parent => some (some parent)
          | .more st => search adj dst maxDepth fuel st

def walkBack (parent : Parents) : Nat → String → List String → Option (List String)
  | 0, _, _ => none
  | fuel + 1, cur, path =>
    match parent[cur]? with
    | some p => walkBack parent fuel p (path ++ [p])
    | none => some path.reverse

def reconstruct (parent : Parents) (dst : String) : Option (List String) :=
  walkBack parent (parent.size + 1) dst [dst]

def shortestPath (edges : List (String × String)) (src dst : String) (maxDepth : Option Nat) :
    Option (Option (List String)) :=
  if src = dst then some (some [src])
  else do
    let found ← search (adjacency edges) dst maxDepth (edges.length + 2)
      { visited := [src], parent := ∅, queue := [(src, 0)] }
    match found with
    | some parent => (reconstruct parent dst).map some
    | none => some none

/-! ## Paths and walks -/

/-- A list of vertices from `src` to `dst`, each with an edge to the next. -/
structure DirectedPath (edges : List (String × String)) (src dst : String) (p : List String) : Prop where
  head : p.head? = some src
  last : p.getLast? = some dst
  chain : p.IsChain fun u v => (u, v) ∈ edges

/-- A walk of `n` edges from the source. -/
inductive WalkTo (edges : List (String × String)) (src : String) : Nat → String → Prop where
  | start : WalkTo edges src 0 src
  | snoc {n : Nat} {u v : String} (h : WalkTo edges src n u) (he : (u, v) ∈ edges) : WalkTo edges src (n + 1) v

theorem DirectedPath.walkTo {edges : List (String × String)} {src dst : String} {p : List String}
    (h : DirectedPath edges src dst p) : ∃ n, p.length = n + 1 ∧ WalkTo edges src n dst := by
  have hgo : ∀ (q : List String) (n : Nat) (u : String), WalkTo edges src n u →
      (u :: q).IsChain (fun u v => (u, v) ∈ edges) → (u :: q).getLast? = some dst →
        WalkTo edges src (n + q.length) dst := by
    intro q
    induction q with
    | nil =>
      intro n u hu _ hlast
      cases hlast
      exact hu
    | cons v q ih =>
      intro n u hu hchain hlast
      obtain ⟨he, hchain⟩ := List.isChain_cons_cons.mp hchain
      have hrest := ih (n + 1) v (hu.snoc he) hchain (by simpa using hlast)
      rwa [Nat.add_assoc, Nat.add_comm 1] at hrest
  obtain ⟨hhead, hlast, hchain⟩ := h
  cases p with
  | nil => cases hhead
  | cons u q =>
    cases hhead
    have hwalk := hgo q 0 src .start hchain hlast
    rw [Nat.zero_add] at hwalk
    exact ⟨q.length, rfl, hwalk⟩

theorem mem_adjacency_iff {edges : List (String × String)} {u v : String} :
    (∃ nbs, (adjacency edges)[u]? = some nbs ∧ v ∈ nbs) ↔ (u, v) ∈ edges := by
  have hgo : ∀ adj : Std.ExtTreeMap String (List String) cmpString,
      (edges.foldl (fun adj e => adj.insert e.1 (adj[e.1]?.getD [] ++ [e.2])) adj)[u]?.getD [] =
        adj[u]?.getD [] ++ (edges.filter (·.1 = u)).map Prod.snd := by
    induction edges with
    | nil => simp
    | cons e edges ih =>
      intro adj
      rw [List.foldl_cons, ih, getElem?_insert_string]
      by_cases he : e.1 = u
      · simp [he]
      · simp [he]
  have hadj := hgo ∅
  have hmem : v ∈ (adjacency edges)[u]?.getD [] ↔ (u, v) ∈ edges := by
    rw [adjacency, hadj]
    simp
  rw [← hmem]
  cases (adjacency edges)[u]? <;> simp

/-! ## What the search keeps -/

/-- The parents make the visited vertices a tree with the source at depth 0. -/
structure Tree (edges : List (String × String)) (src : String) (visited : List String) (parent : Parents)
    (depth : String → Nat) : Prop where
  src_visited : src ∈ visited
  src_depth : depth src = 0
  src_parent : parent[src]? = none
  has_parent : ∀ v ∈ visited, v ≠ src → ∃ u, parent[v]? = some u
  parent_edge : ∀ {u v : String}, parent[v]? = some u → u ∈ visited ∧ v ∈ visited ∧ (u, v) ∈ edges ∧ depth v = depth u + 1
  depth_le : ∀ v ∈ visited, depth v ≤ parent.size

theorem Tree.visit {edges : List (String × String)} {src : String} {visited : List String} {parent : Parents}
    {depth : String → Nat} (h : Tree edges src visited parent depth) {u v : String} (hu : u ∈ visited)
    (hv : v ∉ visited) (he : (u, v) ∈ edges) :
    Tree edges src (v :: visited) (parent.insert v u) (Function.update depth v (depth u + 1)) := by
  have hne : ∀ {w : String}, w ∈ visited → w ≠ v := fun hw heq => hv (heq ▸ hw)
  have hdepth : ∀ {w : String}, w ∈ visited → Function.update depth v (depth u + 1) w = depth w := fun hw =>
    Function.update_of_ne (hne hw) _ _
  have hfresh : v ∉ parent := by
    intro hmem
    obtain ⟨w, hw⟩ := Option.isSome_iff_exists.mp (Std.ExtTreeMap.mem_iff_isSome_getElem?.mp hmem)
    exact hv (h.parent_edge hw).2.1
  have hsize : (parent.insert v u).size = parent.size + 1 := by
    rw [Std.ExtTreeMap.size_insert]
    exact if_neg hfresh
  refine ⟨List.mem_cons_of_mem _ h.src_visited, (hdepth h.src_visited).trans h.src_depth, ?_, ?_, ?_, ?_⟩
  · rw [getElem?_insert_string, if_neg (Ne.symm (hne h.src_visited))]
    exact h.src_parent
  · intro w hw hwsrc
    rw [getElem?_insert_string]
    by_cases hvw : v = w
    · exact ⟨u, if_pos hvw⟩
    · rw [if_neg hvw]
      exact h.has_parent w ((List.mem_cons.mp hw).resolve_left (Ne.symm hvw)) hwsrc
  · intro x w hw
    rw [getElem?_insert_string] at hw
    split at hw
    · rename_i hvw
      subst hvw
      cases hw
      refine ⟨List.mem_cons_of_mem _ hu, List.mem_cons_self, he, ?_⟩
      rw [Function.update_self, hdepth hu]
    · obtain ⟨hx, hw', hedge, hdep⟩ := h.parent_edge hw
      refine ⟨List.mem_cons_of_mem _ hx, List.mem_cons_of_mem _ hw', hedge, ?_⟩
      rw [hdepth hx, hdepth hw', hdep]
  · intro w hw
    rw [hsize]
    rcases List.mem_cons.mp hw with rfl | hw
    · rw [Function.update_self]
      exact Nat.succ_le_succ (h.depth_le u hu)
    · rw [hdepth hw]
      exact (h.depth_le w hw).trans (Nat.le_succ _)

/-- From a visited vertex the parents lead back to the source, through a path as long as the vertex is deep. -/
theorem Tree.walkBack {edges : List (String × String)} {src : String} {visited : List String} {parent : Parents}
    {depth : String → Nat} (h : Tree edges src visited parent depth) {fuel : Nat} {v : String} (hv : v ∈ visited)
    (hfuel : depth v < fuel) (path : List String) :
    ∃ rest, walkBack parent fuel v path = some (rest ++ path.reverse) ∧ rest.length = depth v ∧
      (∀ w ∈ rest, depth w < depth v) ∧ rest.Nodup ∧ DirectedPath edges src v (rest ++ [v]) := by
  induction fuel generalizing v path with
  | zero => omega
  | succ fuel ih =>
    by_cases hsrc : v = src
    · subst hsrc
      refine ⟨[], ?_, h.src_depth.symm, by simp, .nil, rfl, rfl, .singleton v⟩
      rw [Path.walkBack, h.src_parent]
      rfl
    · obtain ⟨u, hu⟩ := h.has_parent v hv hsrc
      obtain ⟨huVisited, _, hedge, hdepth⟩ := h.parent_edge hu
      obtain ⟨rest, hwalk, hlength, hlower, hnodup, hpath⟩ := ih huVisited (by omega) (path ++ [u])
      refine ⟨rest ++ [u], ?_, ?_, ?_, ?_, ?_, ?_, ?_⟩
      · rw [Path.walkBack, hu]
        simpa using hwalk
      · rw [List.length_append, hlength, hdepth]
        rfl
      · intro w hw
        rcases List.mem_append.mp hw with hw | hw
        · have := hlower w hw
          omega
        · rw [List.mem_singleton.mp hw]
          omega
      · refine List.nodup_append.mpr ⟨hnodup, List.nodup_singleton u, ?_⟩
        rintro w hw _ hx rfl
        rw [List.mem_singleton.mp hx] at hw
        exact absurd (hlower u hw) (lt_irrefl _)
      · have hhead := hpath.head
        rw [List.head?_append, hhead]
        rfl
      · simp
      · refine List.isChain_append.mpr ⟨hpath.chain, .singleton v, ?_⟩
        intro x hx y hy
        rw [hpath.last] at hx
        cases hx
        cases hy
        exact hedge

/-- The state between two steps. `cur` is the vertex whose neighbors are being visited, if there is one,
and what waits is as deep as `level` or one deeper. -/
structure Inv (edges : List (String × String)) (src dst : String) (maxDepth : Option Nat) (cur : Option String)
    (level : Nat) (st : Search) (depth : String → Nat) : Prop where
  tree : Tree edges src st.visited st.parent depth
  queued : ∀ x ∈ st.queue, x.1 ∈ st.visited ∧ x.2 = depth x.1
  sorted : st.queue.Pairwise fun x y => x.2 ≤ y.2
  near : ∀ x ∈ st.queue, level ≤ x.2
  shallow : ∀ v ∈ st.visited, depth v ≤ level + 1
  fresh : dst ∉ st.visited
  current : ∀ u ∈ cur, u ∈ st.visited ∧ depth u = level ∧ ∀ m ∈ maxDepth, level < m
  expanded : ∀ v ∈ st.visited, v ∉ cur → (v, depth v) ∉ st.queue → (∀ m ∈ maxDepth, depth v < m) →
    ∀ w, (v, w) ∈ edges → w ∈ st.visited ∧ depth w ≤ depth v + 1

variable {edges : List (String × String)} {src dst : String} {maxDepth : Option Nat} {cur : Option String}
  {level : Nat} {st : Search} {depth : String → Nat}

/-- Walks that stay above all that waits end at visited vertices, which are no deeper than the walk is long. -/
theorem Inv.walk_visited (h : Inv edges src dst maxDepth cur level st depth) {bound : Nat}
    (hqueue : ∀ x ∈ st.queue, bound ≤ x.2) (hcur : ∀ u ∈ cur, bound ≤ depth u) {n : Nat} {w : String}
    (hwalk : WalkTo edges src n w) (hbound : n ≤ bound) (hmax : ∀ m ∈ maxDepth, n ≤ m) :
    w ∈ st.visited ∧ depth w ≤ n := by
  induction hwalk with
  | start => exact ⟨h.tree.src_visited, h.tree.src_depth.le⟩
  | @snoc n u v _ he ih =>
    obtain ⟨hu, hdepth⟩ := ih (by omega) fun m hm => by have := hmax m hm; omega
    have hnotCur : u ∉ cur := by
      intro hmem
      have := hcur u hmem
      omega
    have hnotQueued : (u, depth u) ∉ st.queue := by
      intro hmem
      have : bound ≤ depth u := hqueue _ hmem
      omega
    obtain ⟨hv, hle⟩ := h.expanded u hu hnotCur hnotQueued (fun m hm => by have := hmax m hm; omega) v he
    exact ⟨hv, by omega⟩

/-- The vertices that an edge leads to and that have not been visited. -/
def unseen (edges : List (String × String)) (visited : List String) : List String :=
  (edges.map Prod.snd).filter (· ∉ visited)

theorem length_unseen_cons {edges : List (String × String)} {visited : List String} {u v : String}
    (he : (u, v) ∈ edges) (hv : v ∉ visited) :
    (unseen edges (v :: visited)).length < (unseen edges visited).length := by
  have hsub : unseen edges (v :: visited) = (unseen edges visited).filter (· ≠ v) := by
    rw [unseen, unseen, List.filter_filter]
    refine List.filter_congr fun w _ => ?_
    simp
  rw [hsub]
  refine List.length_filter_lt_length_iff_exists.mpr ⟨v, ?_, by simp⟩
  exact List.mem_filter.mpr ⟨List.mem_map.mpr ⟨(u, v), he, rfl⟩, by simpa using hv⟩

/-- How much there is left to do. -/
def todo (edges : List (String × String)) (st : Search) : Nat := st.queue.length + (unseen edges st.visited).length

theorem Inv.visit {u v : String} (h : Inv edges src dst maxDepth (some u) level st depth)
    (hv : v ∉ st.visited) (he : (u, v) ∈ edges) (hne : v ≠ dst) :
    Inv edges src dst maxDepth (some u) level
      { visited := v :: st.visited, parent := st.parent.insert v u, queue := st.queue ++ [(v, level + 1)] }
      (Function.update depth v (level + 1)) := by
  obtain ⟨hu, hlevel, hmax⟩ := h.current u rfl
  have hother : ∀ {w : String}, w ∈ st.visited → w ≠ v := by
    rintro w hw rfl
    exact hv hw
  have hdepth : ∀ {w : String}, w ∈ st.visited → Function.update depth v (level + 1) w = depth w := fun hw =>
    Function.update_of_ne (hother hw) _ _
  have hnew : Function.update depth v (level + 1) v = level + 1 := Function.update_self ..
  refine ⟨hlevel ▸ h.tree.visit hu hv he, ?_, ?_, ?_, ?_, ?_, ?_, ?_⟩
  · intro x hx
    rcases List.mem_append.mp hx with hx | hx
    · obtain ⟨hmem, heq⟩ := h.queued x hx
      exact ⟨List.mem_cons_of_mem _ hmem, heq.trans (hdepth hmem).symm⟩
    · rw [List.mem_singleton.mp hx]
      exact ⟨List.mem_cons_self, hnew.symm⟩
  · refine List.pairwise_append.mpr ⟨h.sorted, List.pairwise_singleton _ _, fun x hx y hy => ?_⟩
    obtain ⟨hmem, heq⟩ := h.queued x hx
    rw [List.mem_singleton.mp hy, heq]
    exact h.shallow x.1 hmem
  · intro x hx
    rcases List.mem_append.mp hx with hx | hx
    · exact h.near x hx
    · rw [List.mem_singleton.mp hx]
      exact Nat.le_succ _
  · intro w hw
    rcases List.mem_cons.mp hw with rfl | hw
    · exact hnew.le
    · rw [hdepth hw]
      exact h.shallow w hw
  · intro hmem
    rcases List.mem_cons.mp hmem with heq | hmem
    · exact hne heq.symm
    · exact h.fresh hmem
  · rintro _ ⟨⟩
    exact ⟨List.mem_cons_of_mem _ hu, (hdepth hu).trans hlevel, hmax⟩
  · intro w hw hcur hqueue hlt x hx
    rcases List.mem_cons.mp hw with rfl | hw
    · rw [hnew] at hqueue
      exact absurd (List.mem_append_right _ (List.mem_singleton_self _)) hqueue
    · rw [hdepth hw] at hqueue hlt ⊢
      obtain ⟨hx, hle⟩ := h.expanded w hw hcur (fun hmem => hqueue (List.mem_append_left _ hmem)) hlt x hx
      rw [hdepth hx]
      exact ⟨List.mem_cons_of_mem _ hx, hle⟩

/-- Visiting the neighbors comes upon the destination, or ends with all of them visited. -/
theorem expand_spec {u : String} (h : Inv edges src dst maxDepth (some u) level st depth) {nbs : List String}
    (hnbs : ∀ w ∈ nbs, (u, w) ∈ edges) :
    (∃ st' depth', Inv edges src dst maxDepth (some u) level st' depth' ∧ (u, dst) ∈ edges ∧
      expand dst u level nbs st = .found (st'.parent.insert dst u)) ∨
    ∃ st' depth', Inv edges src dst maxDepth (some u) level st' depth' ∧ expand dst u level nbs st = .more st' ∧
      todo edges st' ≤ todo edges st ∧ (∀ w ∈ st.visited, w ∈ st'.visited ∧ depth' w = depth w) ∧
      ∀ w ∈ nbs, w ∈ st'.visited ∧ depth' w ≤ level + 1 := by
  induction nbs generalizing st depth with
  | nil => exact .inr ⟨st, depth, h, rfl, le_rfl, fun w hw => ⟨hw, rfl⟩, by simp⟩
  | cons v nbs ih =>
    obtain ⟨he, hnbs⟩ := List.forall_mem_cons.mp hnbs
    rw [expand]
    by_cases hv : v ∈ st.visited
    · rw [if_pos hv]
      refine (ih h hnbs).imp id ?_
      rintro ⟨st', depth', hinv, hexpand, htodo, hkeep, hall⟩
      obtain ⟨hv', hdepth⟩ := hkeep v hv
      exact ⟨st', depth', hinv, hexpand, htodo, hkeep,
        List.forall_mem_cons.mpr ⟨⟨hv', hinv.shallow v hv'⟩, hall⟩⟩
    · rw [if_neg hv]
      dsimp only
      by_cases hdst : v = dst
      · rw [if_pos hdst]
        exact .inl ⟨st, depth, h, hdst ▸ he, by rw [hdst]⟩
      · rw [if_neg hdst]
        refine (ih (h.visit hv he hdst) hnbs).imp id ?_
        rintro ⟨st', depth', hinv, hexpand, htodo, hkeep, hall⟩
        obtain ⟨hv', hdepth⟩ := hkeep v List.mem_cons_self
        refine ⟨st', depth', hinv, hexpand, htodo.trans ?_, fun w hw => ?_,
          List.forall_mem_cons.mpr ⟨⟨hv', ?_⟩, hall⟩⟩
        · have hfewer := length_unseen_cons he hv
          simp only [todo, List.length_append, List.length_singleton]
          omega
        · obtain ⟨hw', hdepth'⟩ := hkeep w (List.mem_cons_of_mem _ hw)
          refine ⟨hw', hdepth'.trans (Function.update_of_ne ?_ _ _)⟩
          rintro rfl
          exact hv hw
        · rw [hdepth, Function.update_self]

/-- The head of the queue becomes the current vertex, unless it is too deep. -/
theorem Inv.pop {u : String} {d : Nat} {queue : List (String × Nat)}
    (h : Inv edges src dst maxDepth none level st depth) (hqueue : st.queue = (u, d) :: queue) :
    ((∀ m ∈ maxDepth, d < m) → Inv edges src dst maxDepth (some u) d { st with queue } depth) ∧
      (¬ (∀ m ∈ maxDepth, d < m) → Inv edges src dst maxDepth none d { st with queue } depth) := by
  have hmem : ∀ {x}, x ∈ queue → x ∈ st.queue := fun hx => hqueue ▸ List.mem_cons_of_mem _ hx
  have hhead : (u, d) ∈ st.queue := hqueue ▸ List.mem_cons_self
  obtain ⟨huVisited, hud⟩ : u ∈ st.visited ∧ d = depth u := h.queued _ hhead
  have hlevel : level ≤ d := h.near _ hhead
  have hsorted := h.sorted
  rw [hqueue, List.pairwise_cons] at hsorted
  obtain ⟨hfirst, hsorted⟩ := hsorted
  have hshallow : ∀ v ∈ st.visited, depth v ≤ d + 1 := fun v hv => (h.shallow v hv).trans (by omega)
  constructor
  · intro hmax
    refine ⟨h.tree, fun x hx => h.queued x (hmem hx), hsorted, hfirst, hshallow, h.fresh, ?_, ?_⟩
    · rintro _ ⟨⟩
      exact ⟨huVisited, hud.symm, hmax⟩
    · intro v hv hcur hnot
      refine h.expanded v hv (by simp) ?_
      rw [hqueue, List.mem_cons, not_or]
      exact ⟨fun heq => hcur (congrArg some (congrArg Prod.fst heq).symm), hnot⟩
  · intro hdeep
    refine ⟨h.tree, fun x hx => h.queued x (hmem hx), hsorted, hfirst, hshallow, h.fresh, by simp, ?_⟩
    intro v hv hcur hnot hlt
    refine h.expanded v hv (by simp) ?_ hlt
    rw [hqueue, List.mem_cons, not_or]
    refine ⟨fun heq => hdeep ?_, hnot⟩
    have hvd : depth v = d := congrArg Prod.snd heq
    rwa [hvd] at hlt

/-- With all its neighbors visited the current vertex is done. -/
theorem Inv.done {u : String} (h : Inv edges src dst maxDepth (some u) level st depth)
    (hall : ∀ w, (u, w) ∈ edges → w ∈ st.visited ∧ depth w ≤ level + 1) :
    Inv edges src dst maxDepth none level st depth := by
  refine ⟨h.tree, h.queued, h.sorted, h.near, h.shallow, h.fresh, by simp, ?_⟩
  intro v hv _ hnot hlt w hw
  by_cases hvu : v = u
  · subst hvu
    obtain ⟨_, hlevel, _⟩ := h.current v rfl
    rw [hlevel]
    exact hall w hw
  · exact h.expanded v hv (fun heq => hvu (Option.some.inj heq).symm) hnot hlt w hw

/-- The search ends. It finds the destination as a neighbor of a vertex that no walk to the
destination undercuts, or there is no walk of the allowed length. -/
theorem search_spec {fuel : Nat} (h : Inv edges src dst maxDepth none level st depth)
    (hfuel : todo edges st < fuel) :
    (∃ u level' st' depth', Inv edges src dst maxDepth (some u) level' st' depth' ∧ (u, dst) ∈ edges ∧
      search (adjacency edges) dst maxDepth fuel st = some (some (st'.parent.insert dst u))) ∨
    search (adjacency edges) dst maxDepth fuel st = some none ∧
      ∀ n, WalkTo edges src n dst → ∃ m ∈ maxDepth, m < n := by
  induction fuel generalizing level st depth with
  | zero => omega
  | succ fuel ih =>
    cases hqueue : st.queue with
    | nil =>
      refine .inr ⟨by rw [search, hqueue], fun n hwalk => ?_⟩
      by_contra hmax
      push Not at hmax
      have hvisited : dst ∈ st.visited ∧ depth dst ≤ n :=
        h.walk_visited (by simp [hqueue]) (by simp) hwalk le_rfl hmax
      exact h.fresh hvisited.1
    | cons x queue =>
      obtain ⟨u, d⟩ := x
      obtain ⟨hshallow, hdeep⟩ := h.pop hqueue
      have htodo : todo edges { st with queue } + 1 = todo edges st := by
        simp only [todo, hqueue, List.length_cons]
        omega
      have hany : maxDepth.any (· ≤ d) = true ↔ ¬ ∀ m ∈ maxDepth, d < m := by
        cases maxDepth <;> simp
      by_cases hmax : ∀ m ∈ maxDepth, d < m
      · have hcur := hshallow hmax
        have hskip : maxDepth.any (· ≤ d) = false := by
          rw [Bool.eq_false_iff, ne_eq, hany]
          exact not_not_intro hmax
        cases hadj : (adjacency edges)[u]? with
        | none =>
          have hrun : search (adjacency edges) dst maxDepth (fuel + 1) st =
              search (adjacency edges) dst maxDepth fuel { st with queue } := by
            simp only [search, hqueue, hskip, hadj, Bool.false_eq_true, if_false]
          rw [hrun]
          refine ih (hcur.done fun w hw => ?_) (by omega)
          obtain ⟨nbs, hnbs, _⟩ := mem_adjacency_iff.mpr hw
          rw [hadj] at hnbs
          cases hnbs
        | some nbs =>
          have hedges : ∀ w, w ∈ nbs ↔ (u, w) ∈ edges := by
            intro w
            rw [← mem_adjacency_iff, hadj]
            simp
          rcases expand_spec hcur fun w hw => (hedges w).mp hw with
            ⟨st', depth', hinv, he, hexpand⟩ | ⟨st', depth', hinv, hexpand, hless, _, hall⟩
          · refine .inl ⟨u, d, st', depth', hinv, he, ?_⟩
            simp only [search, hqueue, hskip, hadj, hexpand, Bool.false_eq_true, if_false]
          · have hrun : search (adjacency edges) dst maxDepth (fuel + 1) st =
                search (adjacency edges) dst maxDepth fuel st' := by
              simp only [search, hqueue, hskip, hadj, hexpand, Bool.false_eq_true, if_false]
            rw [hrun]
            exact ih (hinv.done fun w hw => hall w ((hedges w).mpr hw)) (by omega)
      · have hrun : search (adjacency edges) dst maxDepth (fuel + 1) st =
            search (adjacency edges) dst maxDepth fuel { st with queue } := by
          simp only [search, hqueue, hany.mpr hmax, if_true]
        rw [hrun]
        exact ih (hdeep hmax) (by omega)

/-! ## The result -/

theorem inv_start (hne : src ≠ dst) :
    Inv edges src dst maxDepth none 0 { visited := [src], parent := ∅, queue := [(src, 0)] } fun _ => 0 := by
  refine ⟨⟨by simp, rfl, by simp, ?_, by simp, by simp⟩, by simp, by simp, by simp, by simp, ?_, by simp, ?_⟩
  · intro v hv hvsrc
    exact absurd (List.mem_singleton.mp hv) hvsrc
  · simpa using Ne.symm hne
  · intro v hv _ hnot
    rw [List.mem_singleton.mp hv] at hnot
    exact absurd (List.mem_singleton_self _) hnot

/-- The search for a path ends, with a shortest path that is short enough or, where every path is too
long, with nothing. -/
theorem shortestPath_cases (edges : List (String × String)) (src dst : String) (maxDepth : Option Nat) :
    (∃ p, shortestPath edges src dst maxDepth = some (some p) ∧ DirectedPath edges src dst p ∧ p.Nodup ∧
      (∀ m ∈ maxDepth, p.length - 1 ≤ m) ∧ ∀ q, DirectedPath edges src dst q → p.length ≤ q.length) ∨
    shortestPath edges src dst maxDepth = some none ∧
      ∀ p, DirectedPath edges src dst p → ∃ m ∈ maxDepth, m < p.length - 1 := by
  by_cases hne : src = dst
  · subst hne
    have hpath : DirectedPath edges src src [src] := ⟨rfl, rfl, .singleton src⟩
    refine .inl ⟨[src], if_pos rfl, hpath, List.nodup_singleton src, fun _ _ => Nat.zero_le _, fun q hq => ?_⟩
    obtain ⟨n, hn, _⟩ := hq.walkTo
    rw [List.length_singleton]
    omega
  · have hfuel : todo edges { visited := [src], parent := ∅, queue := [(src, 0)] } < edges.length + 2 := by
      have hle : (unseen edges [src]).length ≤ edges.length := by
        have hmap : (edges.map Prod.snd).length = edges.length := List.length_map Prod.snd
        rw [← hmap]
        exact List.length_filter_le _ _
      simp only [todo, List.length_singleton]
      omega
    have hstart : Inv edges src dst maxDepth none 0 _ _ := inv_start hne
    rcases search_spec hstart hfuel with ⟨u, level, st, depth, hinv, he, hsearch⟩ | ⟨hsearch, hnone⟩
    · obtain ⟨hu, hlevel, hmax⟩ := hinv.current u rfl
      have htree := hinv.tree.visit hu hinv.fresh he
      have hdepth : Function.update depth dst (depth u + 1) dst = level + 1 := by
        rw [Function.update_self, hlevel]
      have hfuel := Nat.lt_succ_of_le (htree.depth_le dst List.mem_cons_self)
      obtain ⟨rest, hwalk, hlength, hlower, hnodup, hpath⟩ := htree.walkBack List.mem_cons_self hfuel [dst]
      rw [hdepth] at hlength hlower
      have hshortest : ∀ q, DirectedPath edges src dst q → (rest ++ [dst]).length ≤ q.length := by
        intro q hq
        obtain ⟨n, hn, hwalk⟩ := hq.walkTo
        by_contra hless
        rw [List.length_append, hlength, List.length_singleton] at hless
        refine hinv.fresh (hinv.walk_visited hinv.near ?_ hwalk (by omega) fun m hm => ?_).1
        · rintro _ ⟨⟩
          exact hlevel.ge
        · have hlt := hmax m hm
          omega
      refine .inl ⟨rest ++ [dst], ?_, hpath, List.nodup_append.mpr ⟨hnodup, List.nodup_singleton dst, ?_⟩,
        fun m hm => ?_, hshortest⟩
      · simp only [shortestPath, if_neg hne, hsearch, Option.bind_eq_bind, Option.bind_some, reconstruct, hwalk,
          Option.map_some, List.reverse_singleton]
      · rintro w hw _ hx rfl
        rw [List.mem_singleton.mp hx] at hw
        have hlt := hlower dst hw
        omega
      · have hlt := hmax m hm
        rw [List.length_append, hlength, List.length_singleton]
        omega
    · refine .inr ⟨?_, fun p hpath => ?_⟩
      · simp only [shortestPath, if_neg hne, hsearch, Option.bind_eq_bind, Option.bind_some]
      · obtain ⟨n, hn, hwalk⟩ := hpath.walkTo
        obtain ⟨m, hm, hlt⟩ := hnone n hwalk
        exact ⟨m, hm, by omega⟩

/-- The search for a path ends. It finds one if and only if there is one of the allowed length, and
then no path is shorter. -/
theorem shortestPath_correct (edges : List (String × String)) (src dst : String) (maxDepth : Option Nat) :
    ∃ result, shortestPath edges src dst maxDepth = some result ∧
      ((∃ p, result = some p) ↔ ∃ p, DirectedPath edges src dst p ∧ ∀ m ∈ maxDepth, p.length - 1 ≤ m) ∧
      ∀ p, result = some p → DirectedPath edges src dst p ∧ p.Nodup ∧
        ∀ q, DirectedPath edges src dst q → p.length ≤ q.length := by
  rcases shortestPath_cases edges src dst maxDepth with ⟨p, heq, hpath, hnodup, hmax, hshortest⟩ | ⟨heq, hlong⟩
  · refine ⟨some p, heq, ⟨fun _ => ⟨p, hpath, hmax⟩, fun _ => ⟨p, rfl⟩⟩, ?_⟩
    rintro _ ⟨⟩
    exact ⟨hpath, hnodup, hshortest⟩
  · refine ⟨none, heq, ⟨?_, ?_⟩, ?_⟩
    · rintro ⟨_, ⟨⟩⟩
    · rintro ⟨p, hpath, hmax⟩
      obtain ⟨m, hm, hlt⟩ := hlong p hpath
      have hle := hmax m hm
      omega
    · rintro _ ⟨⟩

end Path

end Dllb
