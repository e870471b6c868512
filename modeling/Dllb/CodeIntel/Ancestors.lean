import Mathlib
import Dllb.CodeIntel.QueryHelpers

/-! # What is around a node

The parent and the ancestors of a node are looked for through the whole tree, with
pointers to tell whether a child is the node. They are what lies on the way there.
-/

namespace Dllb

set_option autoImplicit false

def NodeRef.childRefs (r : NodeRef) : List NodeRef :=
  r.node.childNodes.mapIdx fun i child => ⟨r.address ++ [i], child⟩

/-! ## The searches -/

mutual

def findParentInner (target : Address) : Address → MetaNode → Option NodeRef
  | here, .mk nodeType metadata children =>
    findParentIn target ⟨here, .mk nodeType metadata children⟩ children

def findParentIn (target : Address) (r : NodeRef) : NodeChildren → Option NodeRef
  | .value _ => none
  | .nodes ns => findParentAmong target r 0 ns

/-- The loop over the children from the `i`-th on. -/
def findParentAmong (target : Address) (r : NodeRef) : Nat → List MetaNode → Option NodeRef
  | _, [] => none
  | i, child :: rest =>
    if r.address ++ [i] = target then some r
    else
      match findParentInner target (r.address ++ [i]) child with
      | some parent => some parent
      | none => findParentAmong target r (i + 1) rest

end

def findParent (root : MetaNode) (target : Address) : Option NodeRef :=
  if target = [] then none else findParentInner target [] root

def findSiblings (root : MetaNode) (target : Address) : List NodeRef :=
  match findParent root target with
  | some parent => parent.childRefs.filter fun child => child.address ≠ target
  | none => []

mutual

/-- What is on the path in the end where the target is found. -/
def ancestorsInner (target : Address) : Address → MetaNode → Option (List NodeRef)
  | here, .mk nodeType metadata children =>
    ancestorsIn target ⟨here, .mk nodeType metadata children⟩ children

def ancestorsIn (target : Address) (r : NodeRef) : NodeChildren → Option (List NodeRef)
  | .value _ => none
  | .nodes ns => if r.childRefs.any (·.address = target) then some [r] else ancestorsAmong target r 0 ns

/-- The second loop over the children, from the `i`-th on. -/
def ancestorsAmong (target : Address) (r : NodeRef) : Nat → List MetaNode → Option (List NodeRef)
  | _, [] => none
  | i, child :: rest =>
    match ancestorsInner target (r.address ++ [i]) child with
    | some path => some (r :: path)
    | none => ancestorsAmong target r (i + 1) rest

end

def ancestors (root : MetaNode) (target : Address) : List NodeRef :=
  if target = [] then [] else (ancestorsInner target [] root).getD []

def containing (nodeType : NodeType) (root : MetaNode) (target : Address) : Option NodeRef :=
  (ancestors root target).reverse.find? (·.node.nodeType = nodeType)

def containingFunction : MetaNode → Address → Option NodeRef := containing .functionDef

def containingContainer : MetaNode → Address → Option NodeRef := containing .container

/-! ## The way to a node -/

/-- The nodes that are left on the way down, if it is one. -/
def wayTo : NodeRef → Address → Option (List NodeRef)
  | _, [] => some []
  | r, i :: p => r.node.childNodes[i]?.bind fun child => (wayTo ⟨r.address ++ [i], child⟩ p).map (r :: ·)

theorem wayTo_child (r : NodeRef) {i : Nat} {child : Option MetaNode} (h : r.node.childNodes[i]? = child) :
    wayTo r [i] = child.map fun _ => [r] := by
  rw [wayTo, h]
  cases child
  · rfl
  · rfl

/-- A way that goes on ends at the same node with and without another node in front. -/
theorem getLast?_wayTo (r r' : NodeRef) (i : Nat) (p : Address) :
    ((wayTo r (i :: p)).bind fun w => (r' :: w).getLast?) = (wayTo r (i :: p)).bind List.getLast? := by
  rw [wayTo]
  cases r.node.childNodes[i]? with
  | none => rfl
  | some child =>
    rw [Option.bind_some]
    cases wayTo ⟨r.address ++ [i], child⟩ p with
    | none => rfl
    | some w => exact List.getLast?_cons_cons

theorem wayTo_eq_none {p : Address} : ∀ {r : NodeRef}, nodeAt r.node p = none → wayTo r p = none := by
  induction p with
  | nil =>
    intro r h
    cases h
  | cons i p ih =>
    intro r h
    rw [nodeAt, Option.bind_eq_none_iff] at h
    rw [wayTo, Option.bind_eq_none_iff]
    intro child hchild
    rw [ih (h child hchild), Option.map_none]

/-- The way passes the nodes at the addresses in front. -/
theorem exists_wayTo {p : Address} : ∀ {r : NodeRef}, (nodeAt r.node p).isSome →
    ∃ w, wayTo r p = some w ∧ w.map NodeRef.address = (List.range p.length).map (r.address ++ p.take ·) ∧
      ∀ x ∈ w, ∃ q, x.address = r.address ++ q ∧ nodeAt r.node q = some x.node := by
  induction p with
  | nil => exact fun _ => ⟨[], rfl, rfl, fun _ hx => absurd hx List.not_mem_nil⟩
  | cons i p ih =>
    intro r h
    obtain ⟨n, hn⟩ := Option.isSome_iff_exists.mp h
    obtain ⟨child, hchild, hn⟩ := Option.bind_eq_some_iff.mp hn
    have hbelow : (nodeAt child p).isSome := Option.isSome_iff_exists.mpr ⟨n, hn⟩
    obtain ⟨w, hw, haddresses, hnodes⟩ := @ih ⟨r.address ++ [i], child⟩ hbelow
    refine ⟨r :: w, ?_, ?_, List.forall_mem_cons.mpr ⟨⟨[], (List.append_nil _).symm, rfl⟩, fun x hx => ?_⟩⟩
    · rw [wayTo, hchild, Option.bind_some, hw, Option.map_some]
    · rw [List.map_cons, haddresses, List.length_cons, List.range_succ_eq_map, List.map_cons, List.map_map,
        List.take_zero, List.append_nil]
      refine congrArg _ (List.map_congr_left fun k _ => ?_)
      rw [Function.comp_apply, List.take_succ_cons, List.append_assoc, List.singleton_append]
    · obtain ⟨q, hq, hnode⟩ := hnodes x hx
      refine ⟨i :: q, ?_, ?_⟩
      · rw [hq, List.append_assoc, List.singleton_append]
      · rw [nodeAt, hchild, Option.bind_some, hnode]

theorem NodeRef.mem_childRefs_iff (r x : NodeRef) :
    x ∈ r.childRefs ↔ ∃ i child, r.node.childNodes[i]? = some child ∧ x = ⟨r.address ++ [i], child⟩ := by
  rw [childRefs, List.mem_mapIdx]
  constructor
  · rintro ⟨i, hi, rfl⟩
    exact ⟨i, _, List.getElem?_eq_getElem hi, rfl⟩
  · rintro ⟨i, child, hchild, rfl⟩
    obtain ⟨hi, rfl⟩ := List.getElem?_eq_some_iff.mp hchild
    exact ⟨i, hi, rfl⟩

theorem NodeRef.any_childRefs_iff (r : NodeRef) (target : Address) :
    r.childRefs.any (·.address = target) = true ↔
      ∃ i child, r.node.childNodes[i]? = some child ∧ target = r.address ++ [i] := by
  rw [List.any_eq_true]
  constructor
  · rintro ⟨x, hx, htarget⟩
    obtain ⟨i, child, hchild, rfl⟩ := (r.mem_childRefs_iff x).mp hx
    exact ⟨i, child, hchild, (of_decide_eq_true htarget).symm⟩
  · rintro ⟨i, child, hchild, rfl⟩
    exact ⟨_, (r.mem_childRefs_iff _).mpr ⟨i, child, hchild, rfl⟩, decide_eq_true rfl⟩

theorem NodeRef.nodup_childRefs (r : NodeRef) : r.childRefs.Nodup := by
  refine List.pairwise_iff_getElem.mpr fun i j hi hj hlt heq => ?_
  simp only [childRefs, List.getElem_mapIdx, NodeRef.mk.injEq] at heq
  have hlast := (List.cons.inj (List.append_cancel_left heq.1)).1
  omega

theorem append_cons_ne {here : Address} {i j : Nat} (h : i ≠ j) (p q : Address) :
    here ++ [i] ++ p ≠ here ++ j :: q := by
  rw [List.append_assoc, List.singleton_append]
  exact fun heq => h (List.cons.inj (List.append_cancel_left heq)).1

/-! ## What the searches find -/

mutual

theorem ancestorsInner_spec : ∀ (node : MetaNode) (here : Address),
    (∀ i q, ancestorsInner (here ++ i :: q) here node = wayTo ⟨here, node⟩ (i :: q)) ∧
    ∀ target, (∀ i q, target ≠ here ++ i :: q) → ancestorsInner target here node = none
  | .mk nodeType metadata (.value v), here => by
    refine ⟨fun i q => ?_, fun target _ => ?_⟩
    · rw [ancestorsInner, ancestorsIn, wayTo]
      rfl
    · rw [ancestorsInner, ancestorsIn]
  | .mk nodeType metadata (.nodes ns), here => by
    obtain ⟨hbelow, hnone⟩ := ancestorsAmong_spec ns ⟨here, .mk nodeType metadata (.nodes ns)⟩ 0
    refine ⟨fun i q => ?_, fun target htarget => ?_⟩
    · rw [ancestorsInner, ancestorsIn]
      cases q with
      | nil =>
        cases hchild : ns[i]? with
        | none =>
          rw [if_neg, hnone]
          · exact (wayTo_child ⟨here, .mk nodeType metadata (.nodes ns)⟩ hchild).symm
          · intro j k q heq
            cases List.append_cancel_left heq
          · rintro hany
            obtain ⟨j, child, hj, heq⟩ := (NodeRef.any_childRefs_iff _ _).mp hany
            cases List.append_cancel_left heq
            cases hchild.symm.trans hj
        | some child =>
          rw [if_pos]
          · exact (wayTo_child ⟨here, .mk nodeType metadata (.nodes ns)⟩ hchild).symm
          · exact (NodeRef.any_childRefs_iff _ _).mpr ⟨i, child, hchild, rfl⟩
      | cons k q =>
        rw [if_neg]
        · have hway := hbelow i k q
          rw [Nat.zero_add] at hway
          exact hway
        · rintro hany
          obtain ⟨j, child, -, heq⟩ := (NodeRef.any_childRefs_iff _ _).mp hany
          cases List.append_cancel_left heq
    · rw [ancestorsInner, ancestorsIn, if_neg, hnone]
      · exact fun j k q => htarget _ _
      · intro hany
        obtain ⟨i, child, -, heq⟩ := (NodeRef.any_childRefs_iff _ _).mp hany
        exact htarget i [] heq

/-- The loop goes on at the child on the way, and past all others. -/
theorem ancestorsAmong_spec : ∀ (ns : List MetaNode) (r : NodeRef) (i : Nat),
    (∀ j k q, ancestorsAmong (r.address ++ (i + j) :: k :: q) r i ns =
      ns[j]?.bind fun child => (wayTo ⟨r.address ++ [i + j], child⟩ (k :: q)).map (r :: ·)) ∧
    ∀ target, (∀ j k q, target ≠ r.address ++ (i + j) :: k :: q) → ancestorsAmong target r i ns = none
  | [], r, i => by
    refine ⟨fun j k q => ?_, fun target _ => ?_⟩
    · rw [ancestorsAmong]
      rfl
    · rw [ancestorsAmong]
  | child :: rest, r, i => by
    obtain ⟨hbelow, hnone⟩ := ancestorsInner_spec child (r.address ++ [i])
    obtain ⟨hrest, hrestNone⟩ := ancestorsAmong_spec rest r (i + 1)
    refine ⟨fun j k q => ?_, fun target htarget => ?_⟩
    · cases j with
      | zero =>
        have hway := hbelow k q
        rw [List.append_assoc, List.singleton_append] at hway
        rw [ancestorsAmong, Nat.add_zero, hway, List.getElem?_cons_zero, Option.bind_some]
        cases wayTo ⟨r.address ++ [i], child⟩ (k :: q) with
        | some w => rfl
        | none =>
          refine hrestNone _ fun j' k' q' heq => ?_
          have hhead := (List.cons.inj (List.append_cancel_left heq)).1
          omega
      | succ j =>
        rw [ancestorsAmong, hnone, List.getElem?_cons_succ]
        · have hway := hrest j k q
          rw [Nat.add_assoc, Nat.add_comm 1] at hway
          exact hway
        · intro k' q'
          exact (append_cons_ne (by omega) (k' :: q') (k :: q)).symm
    · rw [ancestorsAmong, hnone]
      · refine hrestNone target fun j k q => ?_
        rw [Nat.add_assoc, Nat.add_comm 1]
        exact htarget (j + 1) k q
      · intro k q
        rw [List.append_assoc, List.singleton_append]
        exact htarget 0 k q

end

mutual

theorem findParentInner_spec : ∀ (node : MetaNode) (here : Address),
    (∀ i q, findParentInner (here ++ i :: q) here node = (wayTo ⟨here, node⟩ (i :: q)).bind List.getLast?) ∧
    ∀ target, (∀ i q, target ≠ here ++ i :: q) → findParentInner target here node = none
  | .mk nodeType metadata (.value v), here => by
    refine ⟨fun i q => ?_, fun target _ => ?_⟩
    · rw [findParentInner, findParentIn, wayTo]
      rfl
    · rw [findParentInner, findParentIn]
  | .mk nodeType metadata (.nodes ns), here => by
    obtain ⟨hbelow, hnone⟩ := findParentAmong_spec ns ⟨here, .mk nodeType metadata (.nodes ns)⟩ 0
    refine ⟨fun i q => ?_, fun target htarget => ?_⟩
    · have hway := hbelow i q
      rw [Nat.zero_add] at hway
      rw [findParentInner, findParentIn, wayTo, Option.bind_assoc]
      refine hway.trans (Option.bind_congr fun child _ => ?_)
      rw [Option.bind_map]
      rfl
    · rw [findParentInner, findParentIn, hnone]
      exact fun j q => htarget _ q

theorem findParentAmong_spec : ∀ (ns : List MetaNode) (r : NodeRef) (i : Nat),
    (∀ j q, findParentAmong (r.address ++ (i + j) :: q) r i ns =
      ns[j]?.bind fun child => (wayTo ⟨r.address ++ [i + j], child⟩ q).bind fun w => (r :: w).getLast?) ∧
    ∀ target, (∀ j q, target ≠ r.address ++ (i + j) :: q) → findParentAmong target r i ns = none
  | [], r, i => by
    refine ⟨fun j q => ?_, fun target _ => ?_⟩
    · rw [findParentAmong]
      rfl
    · rw [findParentAmong]
  | child :: rest, r, i => by
    obtain ⟨hbelow, hnone⟩ := findParentInner_spec child (r.address ++ [i])
    obtain ⟨hrest, hrestNone⟩ := findParentAmong_spec rest r (i + 1)
    refine ⟨fun j q => ?_, fun target htarget => ?_⟩
    · cases j with
      | zero =>
        rw [findParentAmong, Nat.add_zero, List.getElem?_cons_zero, Option.bind_some]
        cases q with
        | nil =>
          rw [if_pos rfl]
          rfl
        | cons k q =>
          have hway := hbelow k q
          rw [List.append_assoc, List.singleton_append] at hway
          rw [getLast?_wayTo, hway, if_neg]
          · cases (wayTo ⟨r.address ++ [i], child⟩ (k :: q)).bind List.getLast? with
            | some parent => rfl
            | none =>
              refine hrestNone _ fun j' q' heq => ?_
              have hhead := (List.cons.inj (List.append_cancel_left heq)).1
              omega
          · intro heq
            cases List.append_cancel_left heq
      | succ j =>
        rw [findParentAmong, hnone, List.getElem?_cons_succ, if_neg]
        · have hway := hrest j q
          rw [Nat.add_assoc, Nat.add_comm 1] at hway
          exact hway
        · rw [← List.append_nil (r.address ++ [i])]
          exact append_cons_ne (by omega) [] q
        · intro k' q'
          exact (append_cons_ne (by omega) (k' :: q') q).symm
    · rw [findParentAmong, hnone, if_neg]
      · refine hrestNone target fun j q => ?_
        rw [Nat.add_assoc, Nat.add_comm 1]
        exact htarget (j + 1) q
      · exact (htarget 0 []).symm
      · intro k q
        rw [List.append_assoc, List.singleton_append]
        exact htarget 0 (k :: q)

end

theorem ancestors_eq (root : MetaNode) (target : Address) :
    ancestors root target = (wayTo ⟨[], root⟩ target).getD [] := by
  cases target with
  | nil => exact if_pos rfl
  | cons i q =>
    rw [ancestors, if_neg (List.cons_ne_nil i q)]
    exact congrArg (Option.getD · []) ((ancestorsInner_spec root []).1 i q)

theorem findParent_eq (root : MetaNode) (target : Address) :
    findParent root target = (wayTo ⟨[], root⟩ target).bind List.getLast? := by
  cases target with
  | nil => exact if_pos rfl
  | cons i q =>
    rw [findParent, if_neg (List.cons_ne_nil i q)]
    exact (findParentInner_spec root []).1 i q

/-- The last that passes is the one behind which none does. -/
theorem find?_reverse_eq_some_iff {α : Type} {f : α → Nat} {p : α → Bool} {l : List α}
    (hl : l.Pairwise fun a b => f a < f b) (a : α) :
    l.reverse.find? p = some a ↔ a ∈ l ∧ p a ∧ ∀ b ∈ l, f a < f b → ¬p b := by
  induction l using List.reverseRecOn with
  | nil =>
    constructor
    · intro h
      cases h
    · exact fun h => absurd h.1 List.not_mem_nil
  | append_singleton l b ih =>
    obtain ⟨hl, -, hb⟩ := List.pairwise_append.mp hl
    have hlast : ∀ c ∈ l, f c < f b := fun c hc => hb c hc b (List.mem_singleton_self b)
    rw [List.reverse_append, List.reverse_singleton, List.singleton_append, List.find?_cons]
    cases hp : p b with
    | true =>
      constructor
      · intro h
        rw [← Option.some.inj h]
        refine ⟨List.mem_append_right _ (List.mem_singleton_self b), hp, fun c hc hlt => ?_⟩
        rcases List.mem_append.mp hc with hc | hc
        · exact absurd (hlast c hc) hlt.asymm
        · rw [List.mem_singleton.mp hc] at hlt
          exact absurd hlt (lt_irrefl _)
      · rintro ⟨ha, -, hbehind⟩
        rcases List.mem_append.mp ha with ha | ha
        · exact absurd hp (hbehind b (List.mem_append_right _ (List.mem_singleton_self b)) (hlast a ha))
        · rw [List.mem_singleton.mp ha]
    | false =>
      refine (ih hl).trans ⟨?_, ?_⟩
      · rintro ⟨ha, hpa, hbehind⟩
        refine ⟨List.mem_append_left _ ha, hpa, fun c hc hlt => ?_⟩
        rcases List.mem_append.mp hc with hc | hc
        · exact hbehind c hc hlt
        · rw [List.mem_singleton.mp hc, hp]
          exact Bool.false_ne_true
      · rintro ⟨ha, hpa, hbehind⟩
        rcases List.mem_append.mp ha with ha | ha
        · exact ⟨ha, hpa, fun c hc => hbehind c (List.mem_append_left _ hc)⟩
        · rw [List.mem_singleton.mp ha, hp] at hpa
          cases hpa

/-- `r` is the innermost node of a type that the target is in. -/
structure Nearest (root : MetaNode) (target : Address) (nodeType : NodeType) (r : NodeRef) : Prop where
  above : r.address <+: target ∧ r.address ≠ target
  node : nodeAt root r.address = some r.node
  ofType : r.node.nodeType = nodeType
  innermost : ∀ p n, p <+: target → p ≠ target → r.address.length < p.length → nodeAt root p = some n →
    n.nodeType ≠ nodeType

section Found

variable {root : MetaNode} {target : Address}

theorem ancestors_spec (h : (nodeAt root target).isSome) :
    (ancestors root target).map NodeRef.address = (List.range target.length).map (target.take ·) ∧
      (∀ r ∈ ancestors root target, nodeAt root r.address = some r.node) ∧
      findParent root target = (ancestors root target).getLast? := by
  obtain ⟨w, hw, haddresses, hnodes⟩ := exists_wayTo (r := ⟨[], root⟩) h
  rw [ancestors_eq, findParent_eq, hw]
  refine ⟨haddresses, fun r hr => ?_, rfl⟩
  obtain ⟨q, hq, hnode⟩ := hnodes r hr
  rw [hq]
  exact hnode

theorem mem_ancestors_iff (h : (nodeAt root target).isSome) (r : NodeRef) :
    r ∈ ancestors root target ↔
      (r.address <+: target ∧ r.address ≠ target) ∧ nodeAt root r.address = some r.node := by
  obtain ⟨haddresses, hnodes, -⟩ := ancestors_spec h
  constructor
  · intro hr
    have haddress := List.mem_map_of_mem (f := NodeRef.address) hr
    rw [haddresses] at haddress
    obtain ⟨k, hk, heq⟩ := List.mem_map.mp haddress
    refine ⟨⟨heq ▸ List.take_prefix k target, fun htarget => ?_⟩, hnodes r hr⟩
    have hlength := congrArg List.length (heq.trans htarget)
    rw [List.length_take] at hlength
    have hlt := List.mem_range.mp hk
    omega
  · rintro ⟨⟨hfront, hne⟩, hnode⟩
    have hlt : r.address.length < target.length :=
      lt_of_le_of_ne hfront.length_le fun hlength => hne (hfront.eq_of_length hlength)
    have hmem : r.address ∈ (ancestors root target).map NodeRef.address := by
      rw [haddresses]
      exact List.mem_map.mpr ⟨_, List.mem_range.mpr hlt, (List.prefix_iff_eq_take.mp hfront).symm⟩
    obtain ⟨⟨address, node⟩, hr, heq⟩ := List.mem_map.mp hmem
    have hfound := hnodes _ hr
    dsimp only at heq hfound
    rw [heq, hnode] at hfound
    cases Option.some.inj hfound
    cases heq
    exact hr

theorem ancestors_pairwise (h : (nodeAt root target).isSome) :
    (ancestors root target).Pairwise fun a b => a.address.length < b.address.length := by
  obtain ⟨haddresses, -, -⟩ := ancestors_spec h
  have hlengths : ((ancestors root target).map NodeRef.address).Pairwise fun p q => p.length < q.length := by
    rw [haddresses, List.pairwise_map]
    refine List.pairwise_lt_range.imp_of_mem fun {i j} hi hj hlt => ?_
    have hi := List.mem_range.mp hi
    have hj := List.mem_range.mp hj
    rw [List.length_take, List.length_take]
    omega
  exact (List.pairwise_map (f := NodeRef.address)).mp hlengths

theorem containing_eq_some_iff (h : (nodeAt root target).isSome) (nodeType : NodeType) (r : NodeRef) :
    containing nodeType root target = some r ↔ Nearest root target nodeType r := by
  refine (find?_reverse_eq_some_iff (ancestors_pairwise h) r).trans ?_
  rw [mem_ancestors_iff h]
  constructor
  · rintro ⟨⟨habove, hnode⟩, htype, hbehind⟩
    refine ⟨habove, hnode, of_decide_eq_true htype, fun p n hfront hne hlt hn htype => ?_⟩
    exact hbehind ⟨p, n⟩ ((mem_ancestors_iff h ⟨p, n⟩).mpr ⟨⟨hfront, hne⟩, hn⟩) hlt (decide_eq_true htype)
  · rintro ⟨habove, hnode, htype, hinner⟩
    refine ⟨⟨habove, hnode⟩, decide_eq_true htype, fun x hx hlt htype => ?_⟩
    obtain ⟨⟨hfront, hne⟩, hn⟩ := (mem_ancestors_iff h x).mp hx
    exact hinner x.address x.node hfront hne hlt hn (of_decide_eq_true htype)

theorem mem_findSiblings_iff (h : (nodeAt root target).isSome) (r : NodeRef) :
    r ∈ findSiblings root target ↔
      nodeAt root r.address = some r.node ∧ r.address ≠ target ∧
        ∃ p i j, target = p ++ [i] ∧ r.address = p ++ [j] := by
  obtain ⟨haddresses, hnodes, hparent⟩ := ancestors_spec h
  rcases List.eq_nil_or_concat target with rfl | ⟨p, i, htarget⟩
  · have hnone : findSiblings root [] = [] := rfl
    rw [hnone]
    refine iff_of_false List.not_mem_nil ?_
    rintro ⟨-, -, p, i, j, heq, -⟩
    exact List.append_ne_nil_of_right_ne_nil p (List.cons_ne_nil i []) heq.symm
  · have hlast : ((ancestors root target).map NodeRef.address).getLast? = some p := by
      rw [haddresses, htarget, List.concat_eq_append, List.length_append, List.length_singleton, List.range_succ,
        List.map_append, List.map_singleton, List.getLast?_append, List.take_left]
      rfl
    rw [List.getLast?_map, ← hparent] at hlast
    obtain ⟨parent, hfound, rfl⟩ := Option.map_eq_some_iff.mp hlast
    have hnode := hnodes parent (List.mem_of_getLast? (hparent ▸ hfound))
    rw [findSiblings, hfound]
    dsimp only
    rw [List.mem_filter, parent.mem_childRefs_iff]
    constructor
    · rintro ⟨⟨j, child, hchild, rfl⟩, hne⟩
      refine ⟨?_, of_decide_eq_true hne, parent.address, i, j, htarget.trans List.concat_eq_append, rfl⟩
      rw [nodeAt_append, hnode, Option.bind_some, nodeAt, hchild]
      rfl
    · rintro ⟨hat, hne, p, i', j, heq, haddress⟩
      rw [htarget, List.concat_eq_append] at heq
      obtain ⟨rfl, -⟩ := List.append_inj' heq rfl
      rw [haddress, nodeAt_append, hnode, Option.bind_some, nodeAt] at hat
      obtain ⟨child, hchild, heq⟩ := Option.bind_eq_some_iff.mp hat
      cases heq
      refine ⟨⟨j, _, hchild, ?_⟩, decide_eq_true hne⟩
      rw [← haddress]

theorem nodup_findSiblings (root : MetaNode) (target : Address) : (findSiblings root target).Nodup := by
  rw [findSiblings]
  split
  · exact (NodeRef.nodup_childRefs _).filter _
  · exact List.nodup_nil

end Found

/-- What is around a node is found from where the node is: its ancestors are the nodes on the way to it from
the root, its parent is the last of them, its siblings are the others below the parent, and the function
and the container it is in are the innermost of them. Around what is no node of the tree there is nothing. -/
theorem around_node_exact (root : MetaNode) (target : Address) :
    ((nodeAt root target).isSome →
      (∀ r, r ∈ ancestors root target ↔
        (r.address <+: target ∧ r.address ≠ target) ∧ nodeAt root r.address = some r.node) ∧
      ((ancestors root target).Pairwise fun a b => a.address.length < b.address.length) ∧
      findParent root target = (ancestors root target).getLast? ∧
      (findSiblings root target).Nodup ∧
      (∀ r, r ∈ findSiblings root target ↔ nodeAt root r.address = some r.node ∧ r.address ≠ target ∧
        ∃ p i j, target = p ++ [i] ∧ r.address = p ++ [j]) ∧
      (∀ r, containingFunction root target = some r ↔ Nearest root target .functionDef r) ∧
      ∀ r, containingContainer root target = some r ↔ Nearest root target .container r) ∧
    (nodeAt root target = none →
      ancestors root target = [] ∧ findParent root target = none ∧ findSiblings root target = [] ∧
      containingFunction root target = none ∧ containingContainer root target = none) := by
  constructor
  · intro h
    obtain ⟨-, -, hparent⟩ := ancestors_spec h
    exact ⟨mem_ancestors_iff h, ancestors_pairwise h, hparent, nodup_findSiblings root target,
      mem_findSiblings_iff h, containing_eq_some_iff h .functionDef, containing_eq_some_iff h .container⟩
  · intro h
    have hway : wayTo ⟨[], root⟩ target = none := wayTo_eq_none h
    have hancestors : ancestors root target = [] := by rw [ancestors_eq, hway, Option.getD_none]
    have hparent : findParent root target = none := by rw [findParent_eq, hway, Option.bind_none]
    refine ⟨hancestors, hparent, ?_, ?_, ?_⟩
    · rw [findSiblings, hparent]
    · rw [containingFunction, containing, hancestors]
      rfl
    · rw [containingContainer, containing, hancestors]
      rfl

def smallTree : MetaNode :=
  .mk .container [] (.nodes [.mk .functionDef [] (.nodes [.mk .functionCall [] (.nodes [])]),
    .mk .functionCall [] (.nodes [])])

theorem around_node_exact_smallTree :
    findParent smallTree [0, 0] = (ancestors smallTree [0, 0]).getLast? ∧
      ∀ r, containingFunction smallTree [0, 0] = some r ↔ Nearest smallTree [0, 0] .functionDef r := by
  obtain ⟨hfound, -⟩ := around_node_exact smallTree [0, 0]
  obtain ⟨-, -, hparent, -, -, hfunction, -⟩ := hfound rfl
  exact ⟨hparent, hfunction⟩

end Dllb
