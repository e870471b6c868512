import Mathlib
import Dllb.Graph.Components

/-! # Union by rank

Path halving rewrites parents between the unions, while the ranks stay. The trees
are sets of positions, whatever their shape, and a tree has two to the rank of its
root positions at least. The increment of a rank is a panic on overflow where the
arithmetic is checked, and wraps around elsewhere.
-/

namespace Dllb

set_option autoImplicit false

namespace Components

/-! ## Calls -/

/-- `union` where the arithmetic is checked. -/
def unionChecked (uf : UnionFind) (a b : Nat) : Option UnionFind := do
  let (ra, parent) ← find uf.parent.length uf.parent a
  let (rb, parent) ← find parent.length parent b
  if ra = rb then return { uf with parent }
  else
    let rankA ← uf.rank[ra]?
    let rankB ← uf.rank[rb]?
    if rankA < rankB then return { uf with parent := parent.set ra rb }
    else if rankB < rankA then return { uf with parent := parent.set rb ra }
    else if rankA = 255 then none
    else return { parent := parent.set rb ra, rank := uf.rank.set ra (rankA + 1) }

inductive Call where
  | union (a b : Nat)
  | find (x : Nat)

/-- The positions that a call names. -/
def Call.positions : Call → List Nat
  | union a b => [a, b]
  | find x => [x]

def Call.exec (union : UnionFind → Nat → Nat → Option UnionFind) (uf : UnionFind) : Call → Option UnionFind
  | .union a b => union uf a b
  | .find x => (Components.find uf.parent.length uf.parent x).map fun found => { uf with parent := found.2 }

namespace UnionFind

/-- The forest of `n` singletons. -/
def fresh (n : Nat) : UnionFind := { parent := List.range n, rank := List.replicate n 0 }

def rankOf (uf : UnionFind) (x : Nat) : Nat := (uf.rank[x]?.getD 0).toNat

/-- Ranks go up to the roots, and a tree has as many positions as the rank of its root asks for. -/
structure Ranked (uf : UnionFind) : Prop where
  rises : Rises uf.rankOf uf.parent
  size : ∀ r, uf.parent[r]? = some r → 2 ^ uf.rankOf r ≤ (treeOf uf.parent r).ncard

theorem fresh_ok (n : Nat) : (fresh n).Ok n := ⟨List.length_range, List.length_replicate, forest_range n⟩

theorem fresh_ranked (n : Nat) : (fresh n).Ranked where
  rises x y hy hne := by
    obtain ⟨hlt, rfl⟩ := List.getElem?_eq_some_iff.mp hy
    exact absurd (List.getElem_range hlt) hne
  size r hr := by
    have hlt : r < n := by simpa [fresh] using (List.getElem?_eq_some_iff.mp hr).1
    have hrank : (fresh n).rankOf r = 0 := by simp [rankOf, fresh, hlt]
    rw [hrank, pow_zero]
    exact (Set.ncard_pos (finite_treeOf _ _)).mpr ⟨r, mem_treeOf_self hr⟩

theorem Ranked.two_pow_rankOf_le {n : Nat} {uf : UnionFind} (h : uf.Ranked) (hok : uf.Ok n) {x : Nat} (hx : x < n) :
    2 ^ uf.rankOf x ≤ n := by
  obtain ⟨r, k, hway⟩ := hok.forest x (hok.length.symm ▸ hx)
  calc 2 ^ uf.rankOf x ≤ 2 ^ uf.rankOf r := Nat.pow_le_pow_right (by decide) (h.rises.le_root hway)
    _ ≤ (treeOf uf.parent r).ncard := h.size r hway.root_eq
    _ ≤ uf.parent.length := ncard_treeOf_le _ _
    _ = n := hok.length

end UnionFind

/-! ## Find -/

/-- The same trees, and the ranks still go up. -/
structure Shortened (p p' : List Nat) : Prop extends SameRoots p p' where
  rises : ∀ {ρ : Nat → Nat}, Rises ρ p → Rises ρ p'

theorem Shortened.trans {p p' p'' : List Nat} (h : Shortened p p') (h' : Shortened p' p'') : Shortened p p'' :=
  ⟨h.toSameRoots.trans h'.toSameRoots, fun hp => h'.rises (h.rises hp)⟩

theorem rises_find {ρ : Nat → Nat} {fuel : Nat} {parent parent' : List Nat} {x r : Nat} (h : Rises ρ parent)
    (hfind : find fuel parent x = some (r, parent')) : Rises ρ parent' := by
  induction fuel generalizing parent x with
  | zero => cases hfind
  | succ fuel ih =>
    rw [find] at hfind
    obtain ⟨p, hp, hfind⟩ := Option.bind_eq_some_iff.mp hfind
    split at hfind
    · rename_i hne
      obtain ⟨g, hg, hfind⟩ := Option.bind_eq_some_iff.mp hfind
      exact ih (h.halve hp hne hg) hfind
    · cases hfind
      exact h

theorem find_shortens {parent : List Nat} (h : Forest parent) {x : Nat} (hx : x < parent.length) :
    ∃ r k parent', find parent.length parent x = some (r, parent') ∧ Leads parent x r k ∧
      Shortened parent parent' := by
  obtain ⟨r, k, parent', hfind, hway, hsame⟩ := find_of_forest h hx
  exact ⟨r, k, parent', hfind, hway, hsame, fun hp => rises_find hp hfind⟩

/-! ## Union -/

/-- What a union can do: nothing but shorten ways, or put the root `t` below the root `s`. -/
inductive Joined (uf : UnionFind) (p : List Nat) : UnionFind → Prop where
  | same : Joined uf p { uf with parent := p }
  | below {s t : Nat} {ks kt : UInt8} (hs : p[s]? = some s) (ht : p[t]? = some t) (hne : s ≠ t)
      (hks : uf.rank[s]? = some ks) (hkt : uf.rank[t]? = some kt) (hlt : kt < ks) :
      Joined uf p { uf with parent := p.set t s }
  | level {s t : Nat} {k : UInt8} (hs : p[s]? = some s) (ht : p[t]? = some t) (hne : s ≠ t)
      (hks : uf.rank[s]? = some k) (hkt : uf.rank[t]? = some k) (hk : k ≠ 255) :
      Joined uf p { parent := p.set t s, rank := uf.rank.set s (k + 1) }

theorem lt_of_find {fuel : Nat} {parent : List Nat} {x : Nat} {found : Nat × List Nat}
    (h : find fuel parent x = some found) : x < parent.length := by
  cases fuel with
  | zero => cases h
  | succ fuel =>
    rw [find] at h
    obtain ⟨p, hp, -⟩ := Option.bind_eq_some_iff.mp h
    exact (List.getElem?_eq_some_iff.mp hp).1

theorem unionChecked_joined {n : Nat} {uf uf' : UnionFind} (h : uf.Ok n) {a b : Nat}
    (hunion : unionChecked uf a b = some uf') : ∃ p, Shortened uf.parent p ∧ Joined uf p uf' := by
  obtain ⟨⟨ra, p₁⟩, hfindA, hunion⟩ := Option.bind_eq_some_iff.mp hunion
  obtain ⟨⟨rb, p₂⟩, hfindB, hunion⟩ := Option.bind_eq_some_iff.mp hunion
  obtain ⟨_, _, _, hfindA', hwayA, hshort₁⟩ := find_shortens h.forest (lt_of_find hfindA)
  cases hfindA.symm.trans hfindA'
  have hforest₁ := hshort₁.forest h.forest
  obtain ⟨_, _, _, hfindB', hwayB, hshort₂⟩ := find_shortens hforest₁ (lt_of_find hfindB)
  cases hfindB.symm.trans hfindB'
  obtain ⟨_, _, hwayA₂⟩ := (hshort₁.trans hshort₂).forward hwayA
  obtain ⟨_, _, hwayB₂⟩ := hshort₂.forward hwayB
  have hA := hwayA₂.root_eq
  have hB := hwayB₂.root_eq
  refine ⟨_, hshort₁.trans hshort₂, ?_⟩
  dsimp only at hunion
  split at hunion
  · cases hunion
    exact .same
  rename_i hne
  obtain ⟨rankA, hrankA, hunion⟩ := Option.bind_eq_some_iff.mp hunion
  obtain ⟨rankB, hrankB, hunion⟩ := Option.bind_eq_some_iff.mp hunion
  split at hunion
  · rename_i hlt
    cases hunion
    exact .below hB hA (Ne.symm hne) hrankB hrankA hlt
  rename_i hnlt
  split at hunion
  · rename_i hgt
    cases hunion
    exact .below hA hB hne hrankA hrankB hgt
  rename_i hngt
  split at hunion
  · cases hunion
  · rename_i hk
    cases hunion
    obtain rfl : rankA = rankB := UInt8.le_antisymm (UInt8.not_lt.mp hngt) (UInt8.not_lt.mp hnlt)
    exact .level hA hB hne hrankA hrankB hk

theorem UnionFind.rankOf_eq {uf : UnionFind} {x : Nat} {k : UInt8} (h : uf.rank[x]? = some k) :
    uf.rankOf x = k.toNat := by rw [rankOf, h, Option.getD_some]

theorem UnionFind.Ranked.shorten {n : Nat} {uf : UnionFind} (h : uf.Ranked) (hok : uf.Ok n) {p : List Nat}
    (hp : Shortened uf.parent p) : UnionFind.Ok n { uf with parent := p } ∧ UnionFind.Ranked { uf with parent := p } := by
  refine ⟨⟨hp.length.trans hok.length, hok.ranks, hp.forest hok.forest⟩, hp.rises h.rises, fun r hr => ?_⟩
  rw [show treeOf p r = treeOf uf.parent r from hp.treeOf_eq hok.forest r]
  exact h.size r ((hp.root_iff hok.forest r).mp hr)

/-- A root after a join is a root before it, and not the one that was put below. -/
theorem root_of_link {p : List Nat} {s t r : Nat} (hne : s ≠ t) (hr : (p.set t s)[r]? = some r) :
    r ≠ t ∧ p[r]? = some r := by
  by_cases hrt : r = t
  · subst hrt
    have hlt : r < p.length := by simpa using (List.getElem?_eq_some_iff.mp hr).1
    rw [List.getElem?_set_self hlt] at hr
    exact absurd (Option.some.inj hr) hne
  · rw [List.getElem?_set_ne (Ne.symm hrt)] at hr
    exact ⟨hrt, hr⟩

theorem UnionFind.Ranked.join {n : Nat} {uf uf' : UnionFind} (h : uf.Ranked) (hok : uf.Ok n) {p : List Nat}
    (hp : Shortened uf.parent p) (hjoin : Joined uf p uf') : uf'.Ok n ∧ uf'.Ranked := by
  obtain ⟨hok₁, hranked₁⟩ := h.shorten hok hp
  have hforest : Forest p := hok₁.forest
  have hsize : ∀ r, p[r]? = some r → 2 ^ uf.rankOf r ≤ (treeOf p r).ncard := hranked₁.size
  cases hjoin with
  | same => exact ⟨hok₁, hranked₁⟩
  | @below s t ks kt hs ht hne hks hkt hlt =>
    refine ⟨⟨List.length_set.trans hok₁.length, hok₁.ranks, forest_link hforest hs ht hne⟩, ?_, ?_⟩
    · refine hranked₁.rises.link ?_
      change uf.rankOf t < uf.rankOf s
      rw [rankOf_eq hks, rankOf_eq hkt]
      exact UInt8.lt_iff_toNat_lt.mp hlt
    · intro r hr
      obtain ⟨hrt, hroot⟩ := root_of_link hne hr
      refine (hsize r hroot).trans ?_
      rw [treeOf_link hforest hs ht hne hrt]
      split
      · rename_i hrs
        subst hrs
        exact Set.ncard_le_ncard Set.subset_union_left ((finite_treeOf _ _).union (finite_treeOf _ _))
      · exact le_rfl
  | @level s t k hs ht hne hks hkt hk =>
    have hrankS : UnionFind.rankOf { parent := p.set t s, rank := uf.rank.set s (k + 1) } s = uf.rankOf s + 1 := by
      have hlt := (List.getElem?_eq_some_iff.mp hks).1
      rw [rankOf_eq (List.getElem?_set_self hlt), rankOf_eq hks, UInt8.toNat_add]
      have hk' : k.toNat ≠ 255 := fun heq => hk (UInt8.toNat_inj.mp heq)
      have hbound := k.toNat_lt
      change (k.toNat + 1) % 256 = _
      omega
    have hother : ∀ x, x ≠ s →
        UnionFind.rankOf { parent := p.set t s, rank := uf.rank.set s (k + 1) } x = uf.rankOf x := by
      intro x hx
      simp only [rankOf, List.getElem?_set_ne (Ne.symm hx)]
    refine ⟨⟨List.length_set.trans hok₁.length, List.length_set.trans hok.ranks, forest_link hforest hs ht hne⟩,
      ?_, ?_⟩
    · refine (hranked₁.rises.raise hs ?_ hother).link ?_
      · exact hrankS ▸ Nat.le_succ _
      · rw [hrankS, hother t (Ne.symm hne), rankOf_eq hks, rankOf_eq hkt]
        exact Nat.lt_succ_self _
    · intro r hr
      obtain ⟨hrt, hroot⟩ := root_of_link hne hr
      dsimp only
      rw [treeOf_link hforest hs ht hne hrt]
      split
      · rename_i hrs
        subst hrs
        -- Two trees of one rank make one of the next.
        have hsizeT : 2 ^ uf.rankOf r ≤ (treeOf p t).ncard := by
          rw [rankOf_eq hks, ← rankOf_eq hkt]
          exact hsize t ht
        have hsizeR := hsize r hroot
        rw [hrankS, pow_succ, Set.ncard_union_eq (disjoint_treeOf hne) (finite_treeOf _ _) (finite_treeOf _ _)]
        omega
      · rename_i hrs
        rw [hother r hrs]
        exact hsize r hroot

/-! ## Runs -/

theorem Call.exec_ranked {n : Nat} {uf uf' : UnionFind} (hok : uf.Ok n) (h : uf.Ranked) {call : Call}
    (hexec : call.exec unionChecked uf = some uf') : uf'.Ok n ∧ uf'.Ranked := by
  cases call with
  | union a b =>
    obtain ⟨p, hp, hjoin⟩ := unionChecked_joined hok hexec
    exact h.join hok hp hjoin
  | find x =>
    obtain ⟨⟨r, parent⟩, hfind, rfl⟩ := Option.map_eq_some_iff.mp hexec
    obtain ⟨_, _, _, hfind', _, hp⟩ := find_shortens hok.forest (lt_of_find hfind)
    cases hfind.symm.trans hfind'
    exact h.shorten hok hp

theorem run_ranked {n : Nat} {uf uf' : UnionFind} (hok : uf.Ok n) (h : uf.Ranked) {calls : List Call}
    (hrun : calls.foldlM (Call.exec unionChecked) uf = some uf') : uf'.Ok n ∧ uf'.Ranked := by
  induction calls generalizing uf with
  | nil =>
    cases hrun
    exact ⟨hok, h⟩
  | cons call calls ih =>
    obtain ⟨uf₁, hexec, hrun⟩ := Option.bind_eq_some_iff.mp hrun
    obtain ⟨hok₁, h₁⟩ := Call.exec_ranked hok h hexec
    exact ih hok₁ h₁ hrun

/-- With too few positions for a tree of rank 255 no increment overflows. -/
theorem unionChecked_eq {n : Nat} {uf : UnionFind} (hok : uf.Ok n) (h : uf.Ranked) (hn : n < 2 ^ 255) (a b : Nat) :
    unionChecked uf a b = union uf a b := by
  have hrank : ∀ (x : Nat) (k : UInt8), uf.rank[x]? = some k → k ≠ 255 := by
    rintro x k hk rfl
    have hx : x < n := hok.ranks ▸ (List.getElem?_eq_some_iff.mp hk).1
    have hle := h.two_pow_rankOf_le hok hx
    rw [UnionFind.rankOf_eq hk] at hle
    exact absurd (hle.trans_lt hn) (lt_irrefl _)
  unfold unionChecked union
  refine bind_congr fun found₁ => bind_congr fun found₂ => ?_
  dsimp only
  refine if_congr Iff.rfl rfl ?_
  refine Option.bind_congr fun rankA hA => bind_congr fun rankB => ?_
  rw [if_neg (hrank _ _ hA)]

theorem Call.exec_eq {n : Nat} {uf : UnionFind} (hok : uf.Ok n) (h : uf.Ranked) (hn : n < 2 ^ 255) {call : Call}
    (hcall : ∀ x ∈ call.positions, x < n) :
    ∃ uf', call.exec unionChecked uf = some uf' ∧ call.exec Components.union uf = some uf' := by
  cases call with
  | union a b =>
    obtain ⟨uf', hunion, -⟩ := union_spec hok (hcall a (by simp [positions])) (hcall b (by simp [positions]))
    exact ⟨uf', (unionChecked_eq hok h hn a b).trans hunion, hunion⟩
  | find x =>
    have hx : x < uf.parent.length := hok.length.symm ▸ hcall x (by simp [positions])
    obtain ⟨r, k, parent, hfind, -⟩ := find_of_forest hok.forest hx
    have hexec : (Call.find x).exec Components.union uf = some { uf with parent } := by rw [exec, hfind, Option.map_some]
    exact ⟨_, hexec, hexec⟩

theorem run_eq {n : Nat} {uf : UnionFind} (hok : uf.Ok n) (h : uf.Ranked) (hn : n < 2 ^ 255) {calls : List Call}
    (hcalls : ∀ call ∈ calls, ∀ x ∈ call.positions, x < n) :
    ∃ uf', calls.foldlM (Call.exec unionChecked) uf = some uf' ∧ calls.foldlM (Call.exec union) uf = some uf' := by
  induction calls generalizing uf with
  | nil => exact ⟨uf, rfl, rfl⟩
  | cons call calls ih =>
    obtain ⟨hcall, hcalls⟩ := List.forall_mem_cons.mp hcalls
    obtain ⟨uf₁, hchecked, hexec⟩ := Call.exec_eq hok h hn hcall
    obtain ⟨hok₁, h₁⟩ := Call.exec_ranked hok h hchecked
    obtain ⟨uf', hrun, hrun'⟩ := ih hok₁ h₁ hcalls
    exact ⟨uf', by rw [List.foldlM_cons, hchecked]; exact hrun, by rw [List.foldlM_cons, hexec]; exact hrun'⟩

/-- Ranks bound the trees from below in every run in which no increment overflows, and with fewer than
`2 ^ 255` positions there is no other run. -/
theorem union_by_rank (n : Nat) :
    (∀ (calls : List Call) (uf : UnionFind), calls.foldlM (Call.exec unionChecked) (.fresh n) = some uf →
      Forest uf.parent ∧ uf.Ranked ∧
        ∀ (x r : Nat) (parent' : List Nat), find uf.parent.length uf.parent x = some (r, parent') →
          (∀ s : Nat, parent'[s]? = some s ↔ uf.parent[s]? = some s) ∧ ∀ s, treeOf parent' s = treeOf uf.parent s) ∧
    (n < 2 ^ 255 → ∀ calls : List Call, (∀ call ∈ calls, ∀ x ∈ call.positions, x < n) →
      ∃ uf, calls.foldlM (Call.exec unionChecked) (.fresh n) = some uf ∧
        calls.foldlM (Call.exec union) (.fresh n) = some uf) := by
  refine ⟨fun calls uf hrun => ?_, fun hn calls hcalls => ?_⟩
  · obtain ⟨hok, hranked⟩ := run_ranked (UnionFind.fresh_ok n) (UnionFind.fresh_ranked n) hrun
    refine ⟨hok.forest, hranked, fun x r parent' hfind => ?_⟩
    obtain ⟨_, _, _, hfind', _, hsame⟩ := find_of_forest hok.forest (lt_of_find hfind)
    cases hfind.symm.trans hfind'
    exact ⟨hsame.root_iff hok.forest, hsame.treeOf_eq hok.forest⟩
  · exact run_eq (UnionFind.fresh_ok n) (UnionFind.fresh_ranked n) hn hcalls

theorem union_by_rank_three :
    (3 < 2 ^ 255 ∧ ∀ call ∈ [Call.union 0 1, .union 1 2, .find 2], ∀ x ∈ call.positions, x < 3) ∧
    (∃ uf, [Call.union 0 1, .union 1 2, .find 2].foldlM (Call.exec unionChecked) (.fresh 3) = some uf) ∧
    UnionFind.Ranked { parent := [0, 0, 0], rank := [1, 0, 0] } := by
  have hcalls : ∀ call ∈ [Call.union 0 1, .union 1 2, .find 2], ∀ x ∈ call.positions, x < 3 := by
    simp [Call.positions]
  refine ⟨⟨by norm_num, hcalls⟩, ?_, ?_⟩
  · obtain ⟨uf, hrun, -⟩ := (union_by_rank 3).2 (by norm_num) _ hcalls
    exact ⟨uf, hrun⟩
  · exact ((union_by_rank 3).1 [.union 0 1, .union 1 2, .find 2] _ (by rfl)).2.1

end Components

end Dllb
