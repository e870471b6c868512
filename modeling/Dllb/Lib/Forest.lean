import Mathlib

/-! # Parent arrays

Position `x` of the array points to its parent, and a root points to itself. In a
forest every position leads to a root. Shortening a way to the root and hanging
one root below another keep an array a forest.
-/

namespace Dllb

set_option autoImplicit false

/-- Following the parents leads from `x` to the root `r` in `k` steps. -/
inductive Leads (p : List Nat) : Nat → Nat → Nat → Prop where
  | root {r : Nat} (h : p[r]? = some r) : Leads p r r 0
  | step {x y r k : Nat} (h : p[x]? = some y) (hne : y ≠ x) (rest : Leads p y r k) : Leads p x r (k + 1)

namespace Leads

variable {p : List Nat} {x y r r' k k' : Nat}

theorem root_eq (h : Leads p x r k) : p[r]? = some r := by
  induction h with
  | root h => exact h
  | step _ _ _ ih => exact ih

theorem lt (h : Leads p x r k) : x < p.length := by
  cases h with
  | root h => exact (List.getElem?_eq_some_iff.mp h).1
  | step h _ _ => exact (List.getElem?_eq_some_iff.mp h).1

theorem unique (h : Leads p x r k) (h' : Leads p x r' k') : r = r' ∧ k = k' := by
  induction h generalizing k' with
  | root h =>
    cases h' with
    | root _ => exact ⟨rfl, rfl⟩
    | step hy hne _ =>
      cases h.symm.trans hy
      exact absurd rfl hne
  | step hy hne _ ih =>
    cases h' with
    | root h =>
      cases h.symm.trans hy
      exact absurd rfl hne
    | step hy' _ rest =>
      cases hy.symm.trans hy'
      obtain ⟨hr, hk⟩ := ih rest
      exact ⟨hr, congrArg (· + 1) hk⟩

theorem of_parent (h : Leads p x r k) (hy : p[x]? = some y) (hne : y ≠ x) :
    ∃ k', k = k' + 1 ∧ Leads p y r k' := by
  cases h with
  | root h =>
    cases h.symm.trans hy
    exact absurd rfl hne
  | step hy' _ rest =>
    cases hy.symm.trans hy'
    exact ⟨_, rfl, rest⟩

theorem eq_of_root (h : Leads p x r k) (hx : p[x]? = some x) : r = x ∧ k = 0 := h.unique (.root hx)

/-- On the way every smaller number of steps is met. -/
theorem exists_at (h : Leads p x r k) {j : Nat} (hj : j ≤ k) : ∃ y, Leads p y r j := by
  induction h with
  | root h =>
    obtain rfl := Nat.le_zero.mp hj
    exact ⟨_, .root h⟩
  | @step x y r k hy hne rest ih =>
    rcases Nat.le_succ_iff.mp hj with hle | rfl
    · exact ih hle
    · exact ⟨x, .step hy hne rest⟩

/-- No way to the root is as long as the array. -/
theorem depth_lt (h : Leads p x r k) : k < p.length := by
  choose y hy using fun j : Fin (k + 1) => h.exists_at (Nat.le_of_lt_succ j.isLt)
  have hinj : Function.Injective fun j => (⟨y j, (hy j).lt⟩ : Fin p.length) := by
    intro i j hij
    have heq : y i = y j := congrArg Fin.val hij
    have hi := hy i
    rw [heq] at hi
    exact Fin.ext (hi.unique (hy j)).2
  have hcard := Fintype.card_le_of_injective _ hinj
  rwa [Fintype.card_fin, Fintype.card_fin] at hcard

/-! ## Shortening a way -/

/-- Where `x` points past its parent, every way ends where it did, and none gets longer. -/
theorem halve {g : Nat} (hx : p[x]? = some y) (hne : y ≠ x) (hg : p[y]? = some g) {z : Nat}
    (h : Leads p z r k) : ∃ k' ≤ k, Leads (p.set x g) z r k' := by
  have hlt := (List.getElem?_eq_some_iff.mp hx).1
  have hother : ∀ w, w ≠ x → (p.set x g)[w]? = p[w]? := fun w hw => List.getElem?_set_ne (Ne.symm hw)
  have hset : (p.set x g)[x]? = some g := List.getElem?_set_self hlt
  induction k using Nat.strong_induction_on generalizing z with
  | _ k ih =>
    cases h with
    | root h =>
      have hzx : r ≠ x := by
        rintro rfl
        cases h.symm.trans hx
        exact hne rfl
      exact ⟨0, le_rfl, .root ((hother r hzx).trans h)⟩
    | @step _ w _ k hw hwne rest =>
      by_cases hzx : z = x
      · subst hzx
        cases hx.symm.trans hw
        -- The way from `z` now leaves its parent `y` out, unless that is the root.
        by_cases hgy : g = y
        · subst hgy
          obtain ⟨rfl, rfl⟩ := rest.eq_of_root hg
          exact ⟨1, le_rfl, .step hset hne (.root ((hother r hne).trans hg))⟩
        · obtain ⟨k, rfl, hrest⟩ := rest.of_parent hg hgy
          have hgz : g ≠ z := by
            rintro rfl
            have hk := (hrest.unique (.step hw hne rest)).2
            omega
          obtain ⟨k', hk', hway⟩ := ih k (by omega) hrest
          exact ⟨k' + 1, by omega, .step hset hgz hway⟩
      · obtain ⟨k', hk', hway⟩ := ih k (by omega) rest
        exact ⟨k' + 1, by omega, .step ((hother z hzx).trans hw) hwne hway⟩

/-! ## Joining two trees -/

/-- Below another root `s`, the ways to `t` go on to `s`, and the other ways stay. -/
theorem link {s t : Nat} (hs : p[s]? = some s) (ht : p[t]? = some t) (hne : s ≠ t) {z : Nat}
    (h : Leads p z r k) : ∃ k', Leads (p.set t s) z (if r = t then s else r) k' := by
  have hlt := (List.getElem?_eq_some_iff.mp ht).1
  have hother : ∀ w, w ≠ t → (p.set t s)[w]? = p[w]? := fun w hw => List.getElem?_set_ne (Ne.symm hw)
  have hset : (p.set t s)[t]? = some s := List.getElem?_set_self hlt
  induction h with
  | @root r h =>
    by_cases hr : r = t
    · rw [if_pos hr, hr]
      exact ⟨1, .step hset hne (.root ((hother s hne).trans hs))⟩
    · rw [if_neg hr]
      exact ⟨0, .root ((hother r hr).trans h)⟩
  | @step x y r k hy hyne _ ih =>
    obtain ⟨k', hway⟩ := ih
    have hx : x ≠ t := by
      rintro rfl
      cases ht.symm.trans hy
      exact hyne rfl
    exact ⟨k' + 1, .step ((hother x hx).trans hy) hyne hway⟩

end Leads

/-- Every position leads to a root. -/
def Forest (p : List Nat) : Prop := ∀ x < p.length, ∃ r k, Leads p x r k

/-- Two positions with one root. -/
def SameTree (p : List Nat) (x y : Nat) : Prop := ∃ r k l, Leads p x r k ∧ Leads p y r l

theorem SameTree.symm {p : List Nat} {x y : Nat} (h : SameTree p x y) : SameTree p y x := by
  obtain ⟨r, k, l, hx, hy⟩ := h
  exact ⟨r, l, k, hy, hx⟩

theorem SameTree.trans {p : List Nat} {x y z : Nat} (h : SameTree p x y) (h' : SameTree p y z) :
    SameTree p x z := by
  obtain ⟨r, k, l, hx, hy⟩ := h
  obtain ⟨r', l', m, hy', hz⟩ := h'
  obtain ⟨rfl, _⟩ := hy.unique hy'
  exact ⟨r, k, m, hx, hz⟩

theorem Leads.sameTree_iff {p : List Nat} {x r k : Nat} (h : Leads p x r k) (z : Nat) :
    SameTree p z r ↔ SameTree p z x := by
  have hroot : SameTree p x r := ⟨r, k, 0, h, .root h.root_eq⟩
  exact ⟨fun hz => hz.trans hroot.symm, fun hz => hz.trans hroot⟩

/-- The arrays send every position to the same root. -/
structure SameRoots (p p' : List Nat) : Prop where
  length : p'.length = p.length
  forward : ∀ {x r k}, Leads p x r k → ∃ k' ≤ k, Leads p' x r k'

theorem SameRoots.refl (p : List Nat) : SameRoots p p := ⟨rfl, fun h => ⟨_, le_rfl, h⟩⟩

theorem SameRoots.trans {p p' p'' : List Nat} (h : SameRoots p p') (h' : SameRoots p' p'') : SameRoots p p'' where
  length := h'.length.trans h.length
  forward := by
    intro x r k hway
    obtain ⟨k', hk', hway'⟩ := h.forward hway
    obtain ⟨k'', hk'', hway''⟩ := h'.forward hway'
    exact ⟨k'', hk''.trans hk', hway''⟩

theorem SameRoots.forest {p p' : List Nat} (h : SameRoots p p') (hp : Forest p) : Forest p' := by
  intro x hx
  obtain ⟨r, k, hway⟩ := hp x (h.length ▸ hx)
  obtain ⟨k', _, hway'⟩ := h.forward hway
  exact ⟨r, k', hway'⟩

theorem SameRoots.sameTree_iff {p p' : List Nat} (h : SameRoots p p') (hp : Forest p) (x y : Nat) :
    SameTree p' x y ↔ SameTree p x y := by
  constructor
  · rintro ⟨r, k, l, hx, hy⟩
    obtain ⟨rx, kx, hwayX⟩ := hp x (h.length ▸ hx.lt)
    obtain ⟨ry, ky, hwayY⟩ := hp y (h.length ▸ hy.lt)
    obtain ⟨_, _, hx'⟩ := h.forward hwayX
    obtain ⟨_, _, hy'⟩ := h.forward hwayY
    obtain rfl := (hx'.unique hx).1
    obtain rfl := (hy'.unique hy).1
    exact ⟨_, kx, ky, hwayX, hwayY⟩
  · rintro ⟨r, k, l, hx, hy⟩
    obtain ⟨k', _, hx'⟩ := h.forward hx
    obtain ⟨l', _, hy'⟩ := h.forward hy
    exact ⟨r, k', l', hx', hy'⟩

/-- After a join two positions are in one tree if they were, or if the join brought them together. -/
theorem sameTree_link_iff {p : List Nat} (hp : Forest p) {s t : Nat} (hs : p[s]? = some s)
    (ht : p[t]? = some t) (hne : s ≠ t) (x y : Nat) :
    SameTree (p.set t s) x y ↔
      SameTree p x y ∨ SameTree p x s ∧ SameTree p y t ∨ SameTree p x t ∧ SameTree p y s := by
  have hroot : ∀ {z r : Nat}, p[r]? = some r → (SameTree p z r ↔ ∃ k, Leads p z r k) := by
    intro z r hr
    constructor
    · rintro ⟨r', k, l, hz, hr'⟩
      obtain ⟨rfl, _⟩ := hr'.eq_of_root hr
      exact ⟨k, hz⟩
    · rintro ⟨k, hz⟩
      exact ⟨r, k, 0, hz, .root hr⟩
  rw [hroot hs, hroot ht, hroot ht, hroot hs]
  constructor
  · rintro ⟨r, k, l, hx, hy⟩
    obtain ⟨rx, kx, hwayX⟩ := hp x (List.length_set ▸ hx.lt)
    obtain ⟨ry, ky, hwayY⟩ := hp y (List.length_set ▸ hy.lt)
    obtain ⟨_, hx'⟩ := hwayX.link hs ht hne
    obtain ⟨_, hy'⟩ := hwayY.link hs ht hne
    have heq : (if rx = t then s else rx) = if ry = t then s else ry :=
      (hx'.unique hx).1.trans (hy'.unique hy).1.symm
    by_cases hrx : rx = t
    · by_cases hry : ry = t
      · exact .inl ⟨t, kx, ky, hrx ▸ hwayX, hry ▸ hwayY⟩
      · rw [if_pos hrx, if_neg hry] at heq
        exact .inr (.inr ⟨⟨kx, hrx ▸ hwayX⟩, ⟨ky, heq ▸ hwayY⟩⟩)
    · by_cases hry : ry = t
      · rw [if_neg hrx, if_pos hry] at heq
        exact .inr (.inl ⟨⟨kx, heq ▸ hwayX⟩, ⟨ky, hry ▸ hwayY⟩⟩)
      · rw [if_neg hrx, if_neg hry] at heq
        exact .inl ⟨rx, kx, ky, hwayX, heq ▸ hwayY⟩
  · rintro (⟨r, k, l, hx, hy⟩ | ⟨⟨k, hx⟩, ⟨l, hy⟩⟩ | ⟨⟨k, hx⟩, ⟨l, hy⟩⟩)
    · obtain ⟨k', hx'⟩ := hx.link hs ht hne
      obtain ⟨l', hy'⟩ := hy.link hs ht hne
      exact ⟨_, k', l', hx', hy'⟩
    · obtain ⟨k', hx'⟩ := hx.link hs ht hne
      obtain ⟨l', hy'⟩ := hy.link hs ht hne
      rw [if_neg hne] at hx'
      rw [if_pos rfl] at hy'
      exact ⟨s, k', l', hx', hy'⟩
    · obtain ⟨k', hx'⟩ := hx.link hs ht hne
      obtain ⟨l', hy'⟩ := hy.link hs ht hne
      rw [if_pos rfl] at hx'
      rw [if_neg hne] at hy'
      exact ⟨s, k', l', hx', hy'⟩

theorem forest_link {p : List Nat} (hp : Forest p) {s t : Nat} (hs : p[s]? = some s) (ht : p[t]? = some t)
    (hne : s ≠ t) : Forest (p.set t s) := by
  intro x hx
  obtain ⟨r, k, hway⟩ := hp x (List.length_set ▸ hx)
  obtain ⟨k', hway'⟩ := hway.link hs ht hne
  exact ⟨_, k', hway'⟩

theorem forest_range (n : Nat) : Forest (List.range n) := by
  intro x hx
  rw [List.length_range] at hx
  exact ⟨x, 0, .root (by simp [hx])⟩

theorem sameTree_range_iff {n x y : Nat} : SameTree (List.range n) x y ↔ x = y ∧ x < n := by
  have hroot : ∀ {z r k : Nat}, Leads (List.range n) z r k → r = z ∧ z < n := by
    intro z r k hway
    have hz : z < n := by simpa using hway.lt
    exact ⟨(hway.eq_of_root (by simp [hz])).1, hz⟩
  constructor
  · rintro ⟨r, k, l, hx, hy⟩
    obtain ⟨rfl, hlt⟩ := hroot hx
    obtain ⟨rfl, _⟩ := hroot hy
    exact ⟨rfl, hlt⟩
  · rintro ⟨rfl, hlt⟩
    have hway : Leads (List.range n) x x 0 := .root (by simp [hlt])
    exact ⟨x, 0, 0, hway, hway⟩

/-! ## Trees and ranks -/

/-- The positions of the tree of `r`. -/
def treeOf (p : List Nat) (r : Nat) : Set Nat := {x | ∃ k, Leads p x r k}

theorem treeOf_subset (p : List Nat) (r : Nat) : treeOf p r ⊆ {x | x < p.length} := fun _ ⟨_, hway⟩ => hway.lt

theorem finite_treeOf (p : List Nat) (r : Nat) : (treeOf p r).Finite :=
  (Set.finite_lt_nat p.length).subset (treeOf_subset p r)

theorem ncard_treeOf_le (p : List Nat) (r : Nat) : (treeOf p r).ncard ≤ p.length := by
  have hcard : {x | x < p.length}.ncard = p.length := by
    rw [show {x | x < p.length} = ((Finset.range p.length : Finset Nat) : Set Nat) from by ext x; simp,
      Set.ncard_coe_finset, Finset.card_range]
  exact (Set.ncard_le_ncard (treeOf_subset p r) (Set.finite_lt_nat p.length)).trans_eq hcard

theorem mem_treeOf_self {p : List Nat} {r : Nat} (h : p[r]? = some r) : r ∈ treeOf p r := ⟨0, .root h⟩

theorem SameRoots.treeOf_eq {p p' : List Nat} (h : SameRoots p p') (hp : Forest p) (r : Nat) :
    treeOf p' r = treeOf p r := by
  ext x
  constructor
  · rintro ⟨k, hway⟩
    obtain ⟨r', k', hway'⟩ := hp x (h.length ▸ hway.lt)
    obtain ⟨_, _, hmoved⟩ := h.forward hway'
    obtain ⟨rfl, _⟩ := hmoved.unique hway
    exact ⟨k', hway'⟩
  · rintro ⟨k, hway⟩
    obtain ⟨k', _, hmoved⟩ := h.forward hway
    exact ⟨k', hmoved⟩

theorem SameRoots.root_iff {p p' : List Nat} (h : SameRoots p p') (hp : Forest p) (r : Nat) :
    p'[r]? = some r ↔ p[r]? = some r := by
  constructor
  · intro hr
    have hmem : r ∈ treeOf p r := h.treeOf_eq hp r ▸ mem_treeOf_self hr
    exact hmem.choose_spec.root_eq
  · intro hr
    obtain ⟨k, _, hway⟩ := h.forward (.root hr)
    exact hway.root_eq

/-- A join puts the one tree into the other, and leaves the rest. -/
theorem treeOf_link {p : List Nat} (hp : Forest p) {s t : Nat} (hs : p[s]? = some s) (ht : p[t]? = some t)
    (hne : s ≠ t) {r : Nat} (hr : r ≠ t) :
    treeOf (p.set t s) r = if r = s then treeOf p s ∪ treeOf p t else treeOf p r := by
  ext x
  have hmem : x ∈ treeOf (p.set t s) r ↔ ∃ r' k, Leads p x r' k ∧ (if r' = t then s else r') = r := by
    constructor
    · rintro ⟨k, hway⟩
      obtain ⟨r', k', hway'⟩ := hp x (List.length_set ▸ hway.lt)
      obtain ⟨_, hmoved⟩ := hway'.link hs ht hne
      exact ⟨r', k', hway', (hmoved.unique hway).1⟩
    · rintro ⟨r', k, hway, rfl⟩
      exact hway.link hs ht hne
  rw [hmem]
  constructor
  · rintro ⟨r', k, hway, heq⟩
    by_cases hr' : r' = t
    · rw [if_pos hr'] at heq
      rw [if_pos heq.symm]
      exact .inr ⟨k, hr' ▸ hway⟩
    · rw [if_neg hr'] at heq
      subst heq
      split
      · rename_i hrs
        exact .inl ⟨k, hrs ▸ hway⟩
      · exact ⟨k, hway⟩
  · intro hx
    split at hx
    · rename_i hrs
      obtain ⟨k, hway⟩ | ⟨k, hway⟩ := hx
      · exact ⟨s, k, hway, by rw [if_neg hne, hrs]⟩
      · exact ⟨t, k, hway, by rw [if_pos rfl, hrs]⟩
    · obtain ⟨k, hway⟩ := hx
      exact ⟨r, k, hway, if_neg hr⟩

theorem disjoint_treeOf {p : List Nat} {s t : Nat} (hne : s ≠ t) : Disjoint (treeOf p s) (treeOf p t) :=
  Set.disjoint_left.mpr fun _ ⟨_, hs⟩ ⟨_, ht⟩ => hne (hs.unique ht).1

/-- The values go up on every way to a root. -/
def Rises (ρ : Nat → Nat) (p : List Nat) : Prop := ∀ x y, p[x]? = some y → y ≠ x → ρ x < ρ y

theorem Rises.halve {ρ : Nat → Nat} {p : List Nat} (h : Rises ρ p) {x y g : Nat} (hx : p[x]? = some y)
    (hne : y ≠ x) (hg : p[y]? = some g) : Rises ρ (p.set x g) := by
  intro z w hw hwne
  by_cases hzx : z = x
  · subst hzx
    rw [List.getElem?_set_self (List.getElem?_eq_some_iff.mp hx).1] at hw
    obtain rfl := Option.some.inj hw
    by_cases hgy : g = y
    · exact hgy ▸ h z y hx hne
    · exact (h z y hx hne).trans (h y g hg hgy)
  · rw [List.getElem?_set_ne (Ne.symm hzx)] at hw
    exact h z w hw hwne

theorem Rises.link {ρ : Nat → Nat} {p : List Nat} (h : Rises ρ p) {s t : Nat} (hst : ρ t < ρ s) :
    Rises ρ (p.set t s) := by
  intro z w hw hwne
  by_cases hzt : z = t
  · subst hzt
    have hlt : z < p.length := by simpa using (List.getElem?_eq_some_iff.mp hw).1
    rw [List.getElem?_set_self hlt] at hw
    exact Option.some.inj hw ▸ hst
  · rw [List.getElem?_set_ne (Ne.symm hzt)] at hw
    exact h z w hw hwne

/-- A root can be given a higher value. -/
theorem Rises.raise {ρ ρ' : Nat → Nat} {p : List Nat} (h : Rises ρ p) {s : Nat} (hs : p[s]? = some s)
    (hle : ρ s ≤ ρ' s) (hother : ∀ x, x ≠ s → ρ' x = ρ x) : Rises ρ' p := by
  intro x y hy hne
  have hx : x ≠ s := by
    rintro rfl
    cases hs.symm.trans hy
    exact hne rfl
  rw [hother x hx]
  by_cases hys : y = s
  · exact hys ▸ (h x s (hys ▸ hy) (hys ▸ hne)).trans_le hle
  · exact hother y hys ▸ h x y hy hne

theorem Rises.le_root {ρ : Nat → Nat} {p : List Nat} (h : Rises ρ p) {x r k : Nat} (hway : Leads p x r k) :
    ρ x ≤ ρ r := by
  induction hway with
  | root _ => exact le_rfl
  | step hy hne _ ih => exact (h _ _ hy hne).le.trans ih

end Dllb
