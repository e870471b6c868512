import Mathlib
import Dllb.Document.Document
import Dllb.Lib.Forest

/-! # Connected components

A union-find over the endpoints of the edges, numbered in the order in which they
are met. A function returns `none` where the source panics, and where `find`
would go on for more rounds than there are positions.
-/

namespace Dllb

set_option autoImplicit false

namespace Components

/-! ## Union-find -/

/-- Every round points `x` to the parent of its parent, and goes on from there. -/
def find : Nat → List Nat → Nat → Option (Nat × List Nat)
  | 0, _, _ => none
  | fuel + 1, parent, x => do
    let p ← parent[x]?
    if p ≠ x then
      let g ← parent[p]?
      find fuel (parent.set x g) g
    else return (x, parent)

/-- The parents and the ranks. -/
structure UnionFind where
  parent : List Nat
  rank : List UInt8

def union (uf : UnionFind) (a b : Nat) : Option UnionFind := do
  let (ra, parent) ← find uf.parent.length uf.parent a
  let (rb, parent) ← find parent.length parent b
  if ra = rb then return { uf with parent }
  else
    let rankA ← uf.rank[ra]?
    let rankB ← uf.rank[rb]?
    if rankA < rankB then return { uf with parent := parent.set ra rb }
    else if rankB < rankA then return { uf with parent := parent.set rb ra }
    else return { parent := parent.set rb ra, rank := uf.rank.set ra (rankA + 1) }

/-! ## Components -/

abbrev Groups := Std.ExtTreeMap String (List String) cmpString

/-- The number of each distinct id, and the ids in the order of their numbers. -/
structure Interned where
  index : Std.ExtTreeMap String Nat cmpString
  labels : List String

def intern (st : Interned) (id : String) : Interned :=
  if id ∈ st.index then st
  else { index := st.index.insert id st.labels.length, labels := st.labels ++ [id] }

def internAll (edges : List (String × String)) : Interned :=
  edges.foldl (fun st e => intern (intern st e.1) e.2) { index := ∅, labels := [] }

def unionAll (index : Std.ExtTreeMap String Nat cmpString) :
    List (String × String) → UnionFind → Option UnionFind
  | [], uf => some uf
  | (src, dst) :: edges, uf => do
    let a ← index[src]?
    let b ← index[dst]?
    let uf ← union uf a b
    unionAll index edges uf

/-- Every position is put into the group that is named after the label of its root. -/
def groupAll (labels : List String) : List Nat → List Nat → Groups → Option Groups
  | [], _, groups => some groups
  | i :: is, parent, groups => do
    let (root, parent) ← find parent.length parent i
    let key ← labels[root]?
    let label ← labels[i]?
    groupAll labels is parent (groups.insert key (groups[key]?.getD [] ++ [label]))

def sortMembers (members : List String) : List String := members.mergeSort fun a b => (cmpString a b).isLE

def connectedComponents (edges : List (String × String)) : Option Groups := do
  let st := internAll edges
  let n := st.labels.length
  if n = 0 then return ∅
  else
    let uf ← unionAll st.index edges { parent := List.range n, rank := List.replicate n 0 }
    let groups ← groupAll st.labels (List.range n) uf.parent ∅
    return groups.map fun _ members => sortMembers members

/-! ## Finding and joining -/

/-- Enough rounds find the root, and leave every root where it was. -/
theorem find_spec {fuel : Nat} {parent : List Nat} {x r k : Nat} (h : Leads parent x r k) (hfuel : k < fuel) :
    ∃ parent', find fuel parent x = some (r, parent') ∧ SameRoots parent parent' := by
  induction fuel generalizing parent x k with
  | zero => omega
  | succ fuel ih =>
    cases h with
    | root h => exact ⟨parent, by simp [find, h], .refl parent⟩
    | @step _ y _ k hy hne rest =>
      obtain ⟨g, hg⟩ : ∃ g, parent[y]? = some g := ⟨_, List.getElem?_eq_getElem rest.lt⟩
      have hhalve : SameRoots parent (parent.set x g) := ⟨List.length_set, fun hz => hz.halve hy hne hg⟩
      -- From `g` it is at most as far as from `y`.
      have hway : ∃ k' ≤ k, Leads parent g r k' := by
        by_cases hgy : g = y
        · exact ⟨k, le_rfl, hgy ▸ rest⟩
        · obtain ⟨k', rfl, hrest⟩ := rest.of_parent hg hgy
          exact ⟨k', by omega, hrest⟩
      obtain ⟨k', hk', hway⟩ := hway
      obtain ⟨k'', hk'', hway'⟩ := hhalve.forward hway
      obtain ⟨parent', hfind, hsame⟩ := ih hway' (by omega)
      refine ⟨parent', ?_, hhalve.trans hsame⟩
      simp only [find, hy, hg, Option.bind_eq_bind, Option.bind_some, if_pos hne, hfind]

theorem find_of_forest {parent : List Nat} (h : Forest parent) {x : Nat} (hx : x < parent.length) :
    ∃ r k parent', find parent.length parent x = some (r, parent') ∧ Leads parent x r k ∧
      SameRoots parent parent' := by
  obtain ⟨r, k, hway⟩ := h x hx
  obtain ⟨parent', hfind, hsame⟩ := find_spec hway hway.depth_lt
  exact ⟨r, k, parent', hfind, hway, hsame⟩

/-- A forest, with a rank for every position. -/
structure UnionFind.Ok (n : Nat) (uf : UnionFind) : Prop where
  length : uf.parent.length = n
  ranks : uf.rank.length = n
  forest : Forest uf.parent

theorem union_spec {n : Nat} {uf : UnionFind} (h : uf.Ok n) {a b : Nat} (ha : a < n) (hb : b < n) :
    ∃ uf', union uf a b = some uf' ∧ uf'.Ok n ∧ ∀ x y, SameTree uf'.parent x y ↔
      SameTree uf.parent x y ∨ SameTree uf.parent x a ∧ SameTree uf.parent y b ∨
        SameTree uf.parent x b ∧ SameTree uf.parent y a := by
  obtain ⟨ra, k, p₁, hfindA, hwayA, hsame₁⟩ := find_of_forest h.forest (h.length.symm ▸ ha)
  have hforest₁ := hsame₁.forest h.forest
  have hlen₁ : p₁.length = n := hsame₁.length.trans h.length
  obtain ⟨rb, l, p₂, hfindB, hwayB, hsame₂⟩ := find_of_forest hforest₁ (hlen₁.symm ▸ hb)
  have hforest := hsame₂.forest hforest₁
  have hsame := hsame₁.trans hsame₂
  have hlen : p₂.length = n := hsame₂.length.trans hlen₁
  obtain ⟨_, _, hwayA₂⟩ := hsame.forward hwayA
  obtain ⟨_, _, hwayB₂⟩ := hsame₂.forward hwayB
  have htree := hsame.sameTree_iff h.forest
  have hrootA : ∀ x, SameTree p₂ x ra ↔ SameTree uf.parent x a := fun x =>
    (hwayA₂.sameTree_iff x).trans (htree x a)
  have hrootB : ∀ x, SameTree p₂ x rb ↔ SameTree uf.parent x b := fun x =>
    (hwayB₂.sameTree_iff x).trans (htree x b)
  have hlink : ∀ {s t : Nat}, p₂[s]? = some s → p₂[t]? = some t → s ≠ t → ∀ rank : List UInt8,
      rank.length = n → UnionFind.Ok n { parent := p₂.set t s, rank } := by
    intro s t hs ht hne rank hrank
    exact ⟨List.length_set.trans hlen, hrank, forest_link hforest hs ht hne⟩
  have hrootedA := hwayA₂.root_eq
  have hrootedB := hwayB₂.root_eq
  have hranks : ∀ {r : Nat}, p₂[r]? = some r → ∃ rank, uf.rank[r]? = some rank := by
    intro r hr
    have hlt : r < uf.rank.length := by
      rw [h.ranks, ← hlen]
      exact (List.getElem?_eq_some_iff.mp hr).1
    exact ⟨_, List.getElem?_eq_getElem hlt⟩
  obtain ⟨rankA, hrankA⟩ := hranks hrootedA
  obtain ⟨rankB, hrankB⟩ := hranks hrootedB
  -- Which root is put below the other makes no difference to the trees.
  have htreeA : ra ≠ rb → ∀ x y, SameTree (p₂.set rb ra) x y ↔ SameTree uf.parent x y ∨
      SameTree uf.parent x a ∧ SameTree uf.parent y b ∨ SameTree uf.parent x b ∧ SameTree uf.parent y a := by
    intro hne x y
    rw [sameTree_link_iff hforest hrootedA hrootedB hne, htree, hrootA, hrootA, hrootB, hrootB]
  have htreeB : ra ≠ rb → ∀ x y, SameTree (p₂.set ra rb) x y ↔ SameTree uf.parent x y ∨
      SameTree uf.parent x a ∧ SameTree uf.parent y b ∨ SameTree uf.parent x b ∧ SameTree uf.parent y a := by
    intro hne x y
    rw [sameTree_link_iff hforest hrootedB hrootedA (Ne.symm hne), htree, hrootA, hrootA, hrootB, hrootB]
    tauto
  simp only [union, hfindA, hfindB, hrankA, hrankB, Option.bind_eq_bind, Option.bind_some]
  by_cases hab : ra = rb
  · refine ⟨_, if_pos hab, ⟨hlen, h.ranks, hforest⟩, fun x y => ?_⟩
    subst hab
    rw [htree]
    refine ⟨.inl, ?_⟩
    rintro (hxy | ⟨hxa, hyb⟩ | ⟨hxb, hya⟩)
    · exact hxy
    · exact (htree x y).mp (((hrootA x).mpr hxa).trans ((hrootB y).mpr hyb).symm)
    · exact (htree x y).mp (((hrootB x).mpr hxb).trans ((hrootA y).mpr hya).symm)
  · rw [if_neg hab]
    by_cases hlt : rankA < rankB
    · exact ⟨_, if_pos hlt, hlink hrootedB hrootedA (Ne.symm hab) _ h.ranks, htreeB hab⟩
    · rw [if_neg hlt]
      by_cases hgt : rankB < rankA
      · exact ⟨_, if_pos hgt, hlink hrootedA hrootedB hab _ h.ranks, htreeA hab⟩
      · exact ⟨_, if_neg hgt, hlink hrootedA hrootedB hab _ (List.length_set.trans h.ranks), htreeA hab⟩

/-! ## Numbers and labels -/

/-- The index is the list of the labels, read backwards. -/
structure Interned.Ok (st : Interned) : Prop where
  index : ∀ (id : String) (i : Nat), st.index[id]? = some i ↔ st.labels[i]? = some id

theorem Interned.Ok.nodup {st : Interned} (h : st.Ok) : st.labels.Nodup := by
  refine List.nodup_iff_injective_getElem.mpr fun i j hij => ?_
  have hi := (h.index _ i.1).mpr (List.getElem?_eq_getElem i.2)
  have hj := (h.index _ j.1).mpr (List.getElem?_eq_getElem j.2)
  simp only at hij
  rw [hij, hj] at hi
  exact Fin.ext (Option.some.inj hi).symm

theorem intern_spec {st : Interned} (h : st.Ok) (id : String) :
    (intern st id).Ok ∧ ∀ v, v ∈ (intern st id).labels ↔ v ∈ st.labels ∨ v = id := by
  unfold intern
  split
  · rename_i hmem
    refine ⟨h, fun v => ⟨.inl, ?_⟩⟩
    rintro (hv | rfl)
    · exact hv
    · obtain ⟨i, hi⟩ := Option.isSome_iff_exists.mp (Std.ExtTreeMap.mem_iff_isSome_getElem?.mp hmem)
      exact List.mem_of_getElem? ((h.index v i).mp hi)
  · rename_i hmem
    have hfresh : ∀ i : Nat, st.labels[i]? ≠ some id := by
      intro i hi
      refine hmem (Std.ExtTreeMap.mem_iff_isSome_getElem?.mpr ?_)
      rw [(h.index id i).mpr hi]
      rfl
    refine ⟨⟨fun k i => ?_⟩, fun v => by simp⟩
    dsimp only
    rw [getElem?_insert_string, List.getElem?_append]
    by_cases hk : id = k
    · subst hk
      rw [if_pos rfl]
      split
      · rename_i hlt
        constructor
        · rintro h
          cases h
          omega
        · intro hi
          exact absurd hi (hfresh i)
      · rename_i hge
        constructor
        · rintro h
          cases h
          simp
        · intro hi
          have hi' := (List.getElem?_eq_some_iff.mp hi).1
          simp only [List.length_singleton] at hi'
          congr 1
          omega
    · rw [if_neg hk, h.index]
      split
      · rfl
      · rename_i hge
        constructor
        · intro hi
          exact absurd (List.getElem?_eq_some_iff.mp hi).1 hge
        · intro hi
          have hmem := List.mem_of_getElem? hi
          exact absurd (List.mem_singleton.mp hmem).symm hk

/-- The vertices that some edge starts or ends at. -/
def endpoints (edges : List (String × String)) : List String := edges.flatMap fun e => [e.1, e.2]

theorem internAll_spec (edges : List (String × String)) :
    (internAll edges).Ok ∧ ∀ v, v ∈ (internAll edges).labels ↔ v ∈ endpoints edges := by
  have hgo : ∀ st : Interned, st.Ok →
      (edges.foldl (fun st e => intern (intern st e.1) e.2) st).Ok ∧
      ∀ v, v ∈ (edges.foldl (fun st e => intern (intern st e.1) e.2) st).labels ↔
        v ∈ st.labels ∨ v ∈ endpoints edges := by
    induction edges with
    | nil => exact fun st hst => ⟨hst, by simp [endpoints]⟩
    | cons e edges ih =>
      intro st hst
      obtain ⟨hok₁, hmem₁⟩ := intern_spec hst e.1
      obtain ⟨hok₂, hmem₂⟩ := intern_spec hok₁ e.2
      obtain ⟨hok, hmem⟩ := ih _ hok₂
      refine ⟨hok, fun v => ?_⟩
      rw [List.foldl_cons, hmem, hmem₂, hmem₁]
      simp only [endpoints, List.flatMap_cons, List.mem_append, List.mem_cons, List.not_mem_nil, or_false]
      tauto
  obtain ⟨hok, hmem⟩ := hgo { index := ∅, labels := [] } ⟨fun id i => by simp⟩
  exact ⟨hok, fun v => (hmem v).trans (by simp)⟩

/-! ## Trees and components -/

theorem unionAll_spec {n : Nat} {index : Std.ExtTreeMap String Nat cmpString} {edges : List (String × String)}
    (hindex : ∀ e ∈ edges, ∃ a b, index[e.1]? = some a ∧ index[e.2]? = some b ∧ a < n ∧ b < n)
    {uf : UnionFind} (h : uf.Ok n) :
    ∃ uf', unionAll index edges uf = some uf' ∧ uf'.Ok n ∧
      (∀ x y, SameTree uf.parent x y → SameTree uf'.parent x y) ∧
      (∀ e ∈ edges, ∀ a b, index[e.1]? = some a → index[e.2]? = some b → SameTree uf'.parent a b) ∧
      ∀ E : Nat → Nat → Prop, Equivalence E → (∀ x y, SameTree uf.parent x y → E x y) →
        (∀ e ∈ edges, ∀ a b, index[e.1]? = some a → index[e.2]? = some b → E a b) →
        ∀ x y, SameTree uf'.parent x y → E x y := by
  induction edges generalizing uf with
  | nil => exact ⟨uf, rfl, h, fun _ _ hxy => hxy, by simp, fun E _ hE _ => hE⟩
  | cons e edges ih =>
    obtain ⟨⟨a, b, ha, hb, hlta, hltb⟩, hindex⟩ := List.forall_mem_cons.mp hindex
    obtain ⟨uf₁, hunion, hok₁, htree₁⟩ := union_spec h hlta hltb
    obtain ⟨uf', hrest, hok, hkeep, hjoined, hleast⟩ := ih hindex hok₁
    have hself : ∀ {x}, x < n → SameTree uf.parent x x := by
      intro x hx
      obtain ⟨r, k, hway⟩ := h.forest x (h.length.symm ▸ hx)
      exact ⟨r, k, k, hway, hway⟩
    refine ⟨uf', ?_, hok, fun x y hxy => hkeep x y ((htree₁ x y).mpr (.inl hxy)), ?_, ?_⟩
    · simp only [unionAll, ha, hb, hunion, Option.bind_eq_bind, Option.bind_some, hrest]
    · refine List.forall_mem_cons.mpr ⟨fun a' b' ha' hb' => ?_, hjoined⟩
      cases ha.symm.trans ha'
      cases hb.symm.trans hb'
      exact hkeep a b ((htree₁ a b).mpr (.inr (.inl ⟨hself hlta, hself hltb⟩)))
    · intro E hE hbefore hedges
      obtain ⟨hhead, hedges⟩ := List.forall_mem_cons.mp hedges
      have hab := hhead a b ha hb
      refine hleast E hE (fun x y hxy => ?_) hedges
      rcases (htree₁ x y).mp hxy with hxy | ⟨hxa, hyb⟩ | ⟨hxb, hya⟩
      · exact hbefore x y hxy
      · exact hE.trans (hbefore x a hxa) (hE.trans hab (hE.symm (hbefore y b hyb)))
      · exact hE.trans (hbefore x b hxb) (hE.trans (hE.symm hab) (hE.symm (hbefore y a hya)))

/-- An edge between the two, in one direction or the other. -/
def Adjacent (edges : List (String × String)) (u v : String) : Prop := (u, v) ∈ edges ∨ (v, u) ∈ edges

/-- An undirected path from one vertex to the other. -/
def Connected (edges : List (String × String)) : String → String → Prop := Relation.ReflTransGen (Adjacent edges)

theorem connected_eq_eqvGen (edges : List (String × String)) :
    Connected edges = Relation.EqvGen fun u v => (u, v) ∈ edges :=
  Relation.EqvGen.reflTransGen_symmGen _

theorem connected_equivalence (edges : List (String × String)) : Equivalence (Connected edges) := by
  rw [connected_eq_eqvGen]
  exact Relation.EqvGen.is_equivalence _

/-- Once all edges are joined, the trees are the components. -/
theorem sameTree_iff_connected {edges : List (String × String)} {st : Interned} (hst : st.Ok)
    (hmem : ∀ v, v ∈ st.labels ↔ v ∈ endpoints edges) {n : Nat} (hn : st.labels.length = n) :
    ∃ uf, unionAll st.index edges { parent := List.range n, rank := List.replicate n 0 } = some uf ∧ uf.Ok n ∧
      ∀ i j u v, st.labels[i]? = some u → st.labels[j]? = some v →
        (SameTree uf.parent i j ↔ Connected edges u v) := by
  have hlabel : ∀ v ∈ endpoints edges, ∃ i, st.index[v]? = some i ∧ i < n := by
    intro v hv
    obtain ⟨i, hi⟩ := List.mem_iff_getElem?.mp ((hmem v).mpr hv)
    exact ⟨i, (hst.index v i).mpr hi, hn ▸ (List.getElem?_eq_some_iff.mp hi).1⟩
  have hends : ∀ e ∈ edges, e.1 ∈ endpoints edges ∧ e.2 ∈ endpoints edges := by
    intro e he
    exact ⟨List.mem_flatMap.mpr ⟨e, he, by simp⟩, List.mem_flatMap.mpr ⟨e, he, by simp⟩⟩
  have hindex : ∀ e ∈ edges, ∃ a b, st.index[e.1]? = some a ∧ st.index[e.2]? = some b ∧ a < n ∧ b < n := by
    intro e he
    obtain ⟨a, ha, hlta⟩ := hlabel e.1 (hends e he).1
    obtain ⟨b, hb, hltb⟩ := hlabel e.2 (hends e he).2
    exact ⟨a, b, ha, hb, hlta, hltb⟩
  have hstart : UnionFind.Ok n { parent := List.range n, rank := List.replicate n 0 } :=
    ⟨List.length_range, List.length_replicate, forest_range n⟩
  obtain ⟨uf, hunion, hok, _, hjoined, hleast⟩ := unionAll_spec hindex hstart
  refine ⟨uf, hunion, hok, fun i j u v hi hj => ⟨fun htree => ?_, fun hconnected => ?_⟩⟩
  · have hE := connected_equivalence edges
    -- Positions are related when their labels are connected.
    have hsame := hleast (fun x y => x = y ∨ ∃ u v, st.labels[x]? = some u ∧ st.labels[y]? = some v ∧
      Connected edges u v) ⟨fun x => .inl rfl, ?_, ?_⟩ ?_ ?_ i j htree
    · rcases hsame with rfl | ⟨u', v', hu', hv', huv⟩
      · cases hi.symm.trans hj
        exact hE.refl u
      · cases hi.symm.trans hu'
        cases hj.symm.trans hv'
        exact huv
    · rintro x y (rfl | ⟨u, v, hu, hv, huv⟩)
      · exact .inl rfl
      · exact .inr ⟨v, u, hv, hu, hE.symm huv⟩
    · rintro x y z (rfl | ⟨u, v, hu, hv, huv⟩) hyz
      · exact hyz
      · rcases hyz with rfl | ⟨v', w, hv', hw, hvw⟩
        · exact .inr ⟨u, v, hu, hv, huv⟩
        · cases hv.symm.trans hv'
          exact .inr ⟨u, w, hu, hw, hE.trans huv hvw⟩
    · intro x y hxy
      exact .inl (sameTree_range_iff.mp hxy).1
    · intro e he a b ha hb
      exact .inr ⟨e.1, e.2, (hst.index _ _).mp ha, (hst.index _ _).mp hb, .single (.inl he)⟩
  · have htrees : ∀ u v, Connected edges u v → u = v ∨
        ∃ i j, st.labels[i]? = some u ∧ st.labels[j]? = some v ∧ SameTree uf.parent i j := by
      intro u v huv
      rw [connected_eq_eqvGen] at huv
      induction huv with
      | rel u v he =>
        obtain ⟨a, b, ha, hb, _⟩ := hindex (u, v) he
        exact .inr ⟨a, b, (hst.index _ _).mp ha, (hst.index _ _).mp hb, hjoined (u, v) he a b ha hb⟩
      | refl u => exact .inl rfl
      | symm u v _ ih =>
        rcases ih with rfl | ⟨i, j, hi, hj, hij⟩
        · exact .inl rfl
        · exact .inr ⟨j, i, hj, hi, hij.symm⟩
      | trans u v w _ _ ih ih' =>
        rcases ih with rfl | ⟨i, j, hi, hj, hij⟩
        · exact ih'
        · rcases ih' with rfl | ⟨j', k, hj', hk, hjk⟩
          · exact .inr ⟨i, j, hi, hj, hij⟩
          · have hjj : j = j' := Option.some.inj (((hst.index _ _).mpr hj).symm.trans ((hst.index _ _).mpr hj'))
            exact .inr ⟨i, k, hi, hk, hij.trans (hjj ▸ hjk)⟩
    have hpos : ∀ {i j : Nat} {u : String}, st.labels[i]? = some u → st.labels[j]? = some u → i = j := by
      intro i j u hi hj
      exact Option.some.inj (((hst.index _ _).mpr hi).symm.trans ((hst.index _ _).mpr hj))
    rcases htrees u v hconnected with rfl | ⟨i', j', hi', hj', hij⟩
    · obtain rfl := hpos hi hj
      obtain ⟨r, k, hway⟩ := hok.forest i (hok.length ▸ hn ▸ (List.getElem?_eq_some_iff.mp hi).1)
      exact ⟨r, k, k, hway, hway⟩
    · obtain rfl := hpos hi hi'
      obtain rfl := hpos hj hj'
      exact hij

/-! ## Groups -/

/-- The labels among the positions whose root has the label `key`. -/
def membersOf (labels : List String) (root : Nat → Nat) (key : String) (is : List Nat) : List String :=
  is.filterMap fun i => if labels[root i]? = some key then labels[i]? else none

theorem mem_membersOf {labels : List String} {root : Nat → Nat} {key v : String} {is : List Nat} :
    v ∈ membersOf labels root key is ↔ ∃ i ∈ is, labels[root i]? = some key ∧ labels[i]? = some v := by
  simp only [membersOf, List.mem_filterMap]
  refine exists_congr fun i => and_congr_right fun _ => ?_
  split
  · rename_i h
    simp [h]
  · rename_i h
    simp [h]

theorem nodup_membersOf {labels : List String} (hlabels : labels.Nodup) (root : Nat → Nat) (key : String)
    {is : List Nat} (his : is.Nodup) : (membersOf labels root key is).Nodup := by
  refine his.filterMap fun i j v hi hj => ?_
  split at hi
  · split at hj
    · obtain ⟨hi, rfl⟩ := List.getElem?_eq_some_iff.mp hi
      obtain ⟨hj, heq⟩ := List.getElem?_eq_some_iff.mp hj
      exact (hlabels.getElem_inj_iff.mp heq).symm
    · cases hj
  · cases hi

/-- Grouping appends to each group the members that its positions give. -/
theorem groupAll_spec {labels : List String} {root : Nat → Nat} {is : List Nat} {parent : List Nat}
    (hforest : Forest parent) (hlength : parent.length = labels.length) (his : ∀ i ∈ is, i < labels.length)
    (hroot : ∀ i < labels.length, ∃ k, Leads parent i (root i) k) (groups : Groups) :
    ∃ groups', groupAll labels is parent groups = some groups' ∧ ∀ key,
      groups'[key]?.getD [] = groups[key]?.getD [] ++ membersOf labels root key is ∧
      (key ∈ groups' ↔ key ∈ groups ∨ membersOf labels root key is ≠ []) := by
  induction is generalizing parent groups with
  | nil => exact ⟨groups, rfl, fun key => by simp [membersOf]⟩
  | cons i is ih =>
    obtain ⟨hi, his⟩ := List.forall_mem_cons.mp his
    obtain ⟨k, hway⟩ := hroot i hi
    obtain ⟨parent', hfind, hsame⟩ := find_spec hway hway.depth_lt
    obtain ⟨rootLabel, hrootLabel⟩ : ∃ l, labels[root i]? = some l := by
      refine ⟨_, List.getElem?_eq_getElem ?_⟩
      rw [← hlength]
      exact (List.getElem?_eq_some_iff.mp hway.root_eq).1
    obtain ⟨label, hlabel⟩ : ∃ l, labels[i]? = some l := ⟨_, List.getElem?_eq_getElem hi⟩
    have hroot' : ∀ i < labels.length, ∃ k, Leads parent' i (root i) k := by
      intro j hj
      obtain ⟨l, hl⟩ := hroot j hj
      obtain ⟨l', _, hl'⟩ := hsame.forward hl
      exact ⟨l', hl'⟩
    obtain ⟨groups', hgroup, hspec⟩ := ih (hsame.forest hforest) (hsame.length.trans hlength) his hroot'
      (groups.insert rootLabel (groups[rootLabel]?.getD [] ++ [label]))
    refine ⟨groups', ?_, fun key => ?_⟩
    · simp only [groupAll, hfind, hrootLabel, hlabel, Option.bind_eq_bind, Option.bind_some, hgroup]
    · obtain ⟨hmembers, hkey⟩ := hspec key
      have hhead : membersOf labels root key (i :: is) =
          (if rootLabel = key then [label] else []) ++ membersOf labels root key is := by
        by_cases hk : rootLabel = key
        · simp [membersOf, hrootLabel, hk, hlabel]
        · simp [membersOf, hrootLabel, hk]
      rw [hmembers, hkey, hhead, getElem?_insert_string, Std.ExtTreeMap.mem_insert,
        Std.LawfulEqCmp.compare_eq_iff_eq]
      by_cases hk : rootLabel = key
      · subst hk
        simp
      · simp [hk]

theorem pairwise_sortMembers {members : List String} (h : members.Nodup) :
    (sortMembers members).Pairwise fun a b => cmpString a b = .lt := by
  have hsorted : (sortMembers members).Pairwise fun a b => (cmpString a b).isLE = true := by
    refine List.pairwise_mergeSort (fun a b c => Std.TransCmp.isLE_trans) (fun a b => ?_) members
    have hswap : cmpString b a = (cmpString a b).swap := Std.OrientedCmp.eq_swap
    rw [hswap]
    cases cmpString a b <;> rfl
  have hdistinct : (sortMembers members).Nodup := (List.mergeSort_perm _ _).nodup_iff.mpr h
  refine (hsorted.and hdistinct).imp fun {a b} hab => ?_
  obtain ⟨hle, hne⟩ := hab
  cases hcmp : cmpString a b with
  | lt => rfl
  | eq => exact absurd (Std.LawfulEqCmp.eq_of_compare hcmp) hne
  | gt =>
    rw [hcmp] at hle
    cases hle

/-! ## The result -/

/-- What unions and finds make of the fresh arrays. -/
inductive Reached (n : Nat) : UnionFind → Prop where
  | start : Reached n { parent := List.range n, rank := List.replicate n 0 }
  | union {uf uf' : UnionFind} {a b : Nat} (h : Reached n uf) (ha : a < n) (hb : b < n)
      (hunion : union uf a b = some uf') : Reached n uf'
  | find {uf : UnionFind} {x r : Nat} {parent : List Nat} (h : Reached n uf) (hx : x < n)
      (hfind : find n uf.parent x = some (r, parent)) : Reached n { uf with parent }

theorem Reached.ok {n : Nat} {uf : UnionFind} (h : Reached n uf) : uf.Ok n := by
  induction h with
  | start => exact ⟨List.length_range, List.length_replicate, forest_range n⟩
  | union _ ha hb hunion ih =>
    obtain ⟨uf', hunion', hok, _⟩ := union_spec ih ha hb
    cases hunion.symm.trans hunion'
    exact hok
  | @find uf x r parent _ hx hfind ih =>
    obtain ⟨r', k, parent', hfind', _, hsame⟩ := find_of_forest ih.forest (ih.length.symm ▸ hx)
    rw [ih.length] at hfind'
    cases hfind.symm.trans hfind'
    exact ⟨hsame.length.trans ih.length, ih.ranks, hsame.forest ih.forest⟩

/-- The groups of a result. -/
structure Partition (edges : List (String × String)) (groups : Groups) : Prop where
  covers : ∀ v, v ∈ endpoints edges ↔ ∃ (key : String) (members : List String),
    groups[key]? = some members ∧ v ∈ members
  disjoint : ∀ (key key' : String) (members members' : List String) (v : String), groups[key]? = some members →
    groups[key']? = some members' → v ∈ members → v ∈ members' → key = key'
  named : ∀ (key : String) (members : List String), groups[key]? = some members → key ∈ members
  sorted : ∀ (key : String) (members : List String), groups[key]? = some members →
    members.Pairwise fun a b => cmpString a b = .lt
  connected : ∀ u ∈ endpoints edges, ∀ v ∈ endpoints edges,
    ((∃ (key : String) (members : List String), groups[key]? = some members ∧ u ∈ members ∧ v ∈ members) ↔
      Connected edges u v)

/-- The result, by the labels and roots it is made from. -/
structure Grouping (edges : List (String × String)) (groups : Groups) (labels : List String)
    (root : Nat → Nat) : Prop where
  labels_nodup : labels.Nodup
  mem_labels : ∀ v, v ∈ labels ↔ v ∈ endpoints edges
  root_lt : ∀ i < labels.length, root i < labels.length
  root_root : ∀ i < labels.length, root (root i) = root i
  connected : ∀ (i j : Nat) (u v : String), labels[i]? = some u → labels[j]? = some v →
    (root i = root j ↔ Connected edges u v)
  group : ∀ (key : String) (members : List String), groups[key]? = some members ↔
    membersOf labels root key (List.range labels.length) ≠ [] ∧
      members = sortMembers (membersOf labels root key (List.range labels.length))

theorem connectedComponents_eq_some (edges : List (String × String)) :
    ∃ groups labels root, connectedComponents edges = some groups ∧ Grouping edges groups labels root := by
  obtain ⟨hst, hmem⟩ := internAll_spec edges
  obtain ⟨uf, hunion, hok, hconnected⟩ := sameTree_iff_connected hst hmem rfl
  have hforest : ∀ i, ∃ r, i < (internAll edges).labels.length → ∃ k, Leads uf.parent i r k := by
    intro i
    by_cases hi : i < (internAll edges).labels.length
    · obtain ⟨r, k, hway⟩ := hok.forest i (hok.length.symm ▸ hi)
      exact ⟨r, fun _ => ⟨k, hway⟩⟩
    · exact ⟨0, fun h => absurd h hi⟩
  choose root hroot using hforest
  obtain ⟨groups, hgroup, hspec⟩ := groupAll_spec hok.forest hok.length (fun i hi => List.mem_range.mp hi) hroot ∅
  have hrooted : ∀ i < (internAll edges).labels.length, uf.parent[root i]? = some (root i) := by
    intro i hi
    obtain ⟨k, hway⟩ := hroot i hi
    exact hway.root_eq
  have hlt : ∀ i < (internAll edges).labels.length, root i < (internAll edges).labels.length := by
    intro i hi
    rw [← hok.length]
    exact (List.getElem?_eq_some_iff.mp (hrooted i hi)).1
  refine ⟨groups.map fun _ members => sortMembers members, (internAll edges).labels, root, ?_, hst.nodup, hmem,
    hlt, ?_, ?_, ?_⟩
  · simp only [connectedComponents, Option.bind_eq_bind]
    split
    · rename_i hzero
      -- Without labels there are no groups either.
      have hempty : groups = ∅ := by
        rw [hzero, List.range_zero] at hgroup
        exact (Option.some.inj hgroup).symm
      rw [hempty]
      rfl
    · rw [hunion, Option.bind_some, hgroup]
      rfl
  · intro i hi
    obtain ⟨k, hway⟩ := hroot (root i) (hlt i hi)
    exact (hway.eq_of_root (hrooted i hi)).1
  · intro i j u v hi hj
    rw [← hconnected i j u v hi hj]
    obtain ⟨k, hwayI⟩ := hroot i (List.getElem?_eq_some_iff.mp hi).1
    obtain ⟨l, hwayJ⟩ := hroot j (List.getElem?_eq_some_iff.mp hj).1
    constructor
    · intro heq
      exact ⟨root j, k, l, heq ▸ hwayI, hwayJ⟩
    · rintro ⟨r, k', l', hi', hj'⟩
      exact (hwayI.unique hi').1.trans (hwayJ.unique hj').1.symm
  · intro key members
    obtain ⟨hmembers, hkey⟩ := hspec key
    rw [Std.ExtTreeMap.getElem?_map, Option.map_eq_some_iff]
    simp only [Std.ExtTreeMap.getElem?_empty, Option.getD_none, List.nil_append, Std.ExtTreeMap.not_mem_empty,
      false_or] at hmembers hkey
    rw [← hkey, ← hmembers, Std.ExtTreeMap.mem_iff_isSome_getElem?]
    cases groups[key]? with
    | none => simp
    | some ms => simp [eq_comm]

/-- Vertices are in the group that is named after the root of their position. -/
theorem Grouping.mem_group_iff {edges : List (String × String)} {groups : Groups} {labels : List String}
    {root : Nat → Nat} (h : Grouping edges groups labels root) {i : Nat} {v : String} (hi : labels[i]? = some v)
    (key : String) :
    (∃ members, groups[key]? = some members ∧ v ∈ members) ↔ labels[root i]? = some key := by
  constructor
  · rintro ⟨members, hgroup, hv⟩
    obtain ⟨_, rfl⟩ := (h.group key members).mp hgroup
    obtain ⟨j, _, hkey, hj⟩ := mem_membersOf.mp (List.mem_mergeSort.mp hv)
    obtain ⟨hi, rfl⟩ := List.getElem?_eq_some_iff.mp hi
    obtain ⟨hj, heq⟩ := List.getElem?_eq_some_iff.mp hj
    rwa [← h.labels_nodup.getElem_inj_iff.mp heq]
  · intro hkey
    have hv : v ∈ membersOf labels root key (List.range labels.length) :=
      mem_membersOf.mpr ⟨i, List.mem_range.mpr (List.getElem?_eq_some_iff.mp hi).1, hkey, hi⟩
    exact ⟨_, (h.group key _).mpr ⟨List.ne_nil_of_mem hv, rfl⟩, List.mem_mergeSort.mpr hv⟩

theorem Grouping.exists_key {edges : List (String × String)} {groups : Groups} {labels : List String}
    {root : Nat → Nat} (h : Grouping edges groups labels root) {i : Nat} {v : String} (hi : labels[i]? = some v) :
    ∃ key, labels[root i]? = some key :=
  ⟨_, List.getElem?_eq_getElem (h.root_lt i (List.getElem?_eq_some_iff.mp hi).1)⟩

theorem Grouping.partition {edges : List (String × String)} {groups : Groups} {labels : List String}
    {root : Nat → Nat} (h : Grouping edges groups labels root) : Partition edges groups := by
  have hlabel : ∀ v ∈ endpoints edges, ∃ i, labels[i]? = some v := fun v hv =>
    List.mem_iff_getElem?.mp ((h.mem_labels v).mpr hv)
  have hmember : ∀ (key : String) (members : List String) (v : String), groups[key]? = some members →
      v ∈ members → ∃ i, labels[i]? = some v ∧ labels[root i]? = some key := by
    intro key members v hgroup hv
    obtain ⟨_, rfl⟩ := (h.group key members).mp hgroup
    obtain ⟨i, _, hkey, hi⟩ := mem_membersOf.mp (List.mem_mergeSort.mp hv)
    exact ⟨i, hi, hkey⟩
  refine ⟨fun v => ⟨fun hv => ?_, ?_⟩, ?_, ?_, ?_, ?_⟩
  · obtain ⟨i, hi⟩ := hlabel v hv
    obtain ⟨key, hkey⟩ := h.exists_key hi
    exact ⟨key, (h.mem_group_iff hi key).mpr hkey⟩
  · rintro ⟨key, members, hgroup, hv⟩
    obtain ⟨i, hi, _⟩ := hmember key members v hgroup hv
    exact (h.mem_labels v).mp (List.mem_of_getElem? hi)
  · intro key key' members members' v hgroup hgroup' hv hv'
    obtain ⟨i, hi, hkey⟩ := hmember key members v hgroup hv
    have hkey' := (h.mem_group_iff hi key').mp ⟨members', hgroup', hv'⟩
    exact Option.some.inj (hkey.symm.trans hkey')
  · intro key members hgroup
    obtain ⟨hne, rfl⟩ := (h.group key members).mp hgroup
    obtain ⟨v, hv⟩ := List.exists_mem_of_ne_nil _ hne
    obtain ⟨i, hi, hkey, _⟩ := mem_membersOf.mp hv
    -- The root of a member has the key as its label, and is its own root.
    have hlt := List.mem_range.mp hi
    refine List.mem_mergeSort.mpr (mem_membersOf.mpr ⟨root i, List.mem_range.mpr (h.root_lt i hlt), ?_, hkey⟩)
    rwa [h.root_root i hlt]
  · intro key members hgroup
    obtain ⟨_, rfl⟩ := (h.group key members).mp hgroup
    exact pairwise_sortMembers (nodup_membersOf h.labels_nodup root key List.nodup_range)
  · intro u hu v hv
    obtain ⟨i, hi⟩ := hlabel u hu
    obtain ⟨j, hj⟩ := hlabel v hv
    rw [← h.connected i j u v hi hj]
    constructor
    · rintro ⟨key, members, hgroup, hu, hv⟩
      have hkeyU := (h.mem_group_iff hi key).mp ⟨members, hgroup, hu⟩
      have hkeyV := (h.mem_group_iff hj key).mp ⟨members, hgroup, hv⟩
      obtain ⟨hltU, heqU⟩ := List.getElem?_eq_some_iff.mp hkeyU
      obtain ⟨hltV, heqV⟩ := List.getElem?_eq_some_iff.mp hkeyV
      exact h.labels_nodup.getElem_inj_iff.mp (heqU.trans heqV.symm)
    · intro hroot
      obtain ⟨key, hkey⟩ := h.exists_key hi
      obtain ⟨members, hgroup, hu⟩ := (h.mem_group_iff hi key).mpr hkey
      obtain ⟨members', hgroup', hv⟩ := (h.mem_group_iff hj key).mpr (hroot ▸ hkey)
      cases hgroup.symm.trans hgroup'
      exact ⟨key, members, hgroup, hu, hv⟩

/-- The groups are the components, and no search for a root goes on for ever. -/
theorem components_correct (edges : List (String × String)) :
    (∃ groups, connectedComponents edges = some groups ∧ Partition edges groups) ∧
      ∀ (n : Nat) (uf : UnionFind), Reached n uf → ∀ x < n, ∃ r parent, find n uf.parent x = some (r, parent) := by
  constructor
  · obtain ⟨groups, labels, root, hgroups, hresult⟩ := connectedComponents_eq_some edges
    exact ⟨groups, hgroups, hresult.partition⟩
  · intro n uf h x hx
    obtain ⟨r, k, parent, hfind, _⟩ := find_of_forest h.ok.forest (h.ok.length.symm ▸ hx)
    rw [h.ok.length] at hfind
    exact ⟨r, parent, hfind⟩

end Components

end Dllb
