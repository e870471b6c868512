import Mathlib
import Dllb.Lib.Comparator
import Dllb.Graph.Community

/-! # PageRank

Power iteration over directed edges. A node passes its rank on to the nodes that
it points to, by weight, and one that points nowhere passes it on to all of them.
-/

namespace Dllb

set_option autoImplicit false

namespace PageRank

open Components (Interned intern endpoints)
open Community (Edge ends)

structure PageRankOptions (R : Type) where
  damping : R
  maxIterations : Nat
  tolerance : R

section Model

variable {R : Type} [OfNat R 0] [OfNat R 1] [Add R] [Sub R] [Mul R] [Arith R]

/-- An id that is met for the first time gets the next number. -/
def nodeIndex (st : Interned) (id : String) : Interned := intern st id

def nodeIndexes (edges : List (Edge R)) : Interned :=
  edges.foldl (fun st e => nodeIndex (nodeIndex st e.1) e.2.1) { index := ∅, labels := [] }

/-- The links of each node, and the sum of their weights. -/
structure Out (R : Type) where
  links : List (List (Nat × R))
  strength : List R

def addLink (index : Std.ExtTreeMap String Nat cmpString) (out : Out R) (e : Edge R) : Option (Out R) := do
  let (src, dst, weight) := e
  let w := if Arith.gt weight 0 then weight else 0
  if Arith.isZero w then return out
  else
    let si ← index[src]?
    let di ← index[dst]?
    let links ← out.links[si]?
    let strength ← out.strength[si]?
    return { links := out.links.set si (links ++ [(di, w)]), strength := out.strength.set si (strength + w) }

def addLinks (index : Std.ExtTreeMap String Nat cmpString) : List (Edge R) → Out R → Option (Out R)
  | [], out => some out
  | e :: edges, out => do
    let out ← addLink index out e
    addLinks index edges out

/-- The rank that the nodes without links hold. -/
def danglingSum (rank strength : List R) : R :=
  ((rank.zip strength).filter fun e => Arith.isZero e.2).foldl (fun sum e => sum + e.1) 0

def addShares (share : R) : List (Nat × R) → List R → Option (List R)
  | [], next => some next
  | (di, w) :: links, next => do
    let r ← next[di]?
    addShares share links (next.set di (r + share * w))

/-- The nodes from `i` on pass on what they have. -/
def distribute (damping : R) (rank strength : List R) : Nat → List (List (Nat × R)) → List R → Option (List R)
  | _, [], next => some next
  | i, links :: rest, next => do
    let s ← strength[i]?
    if Arith.isZero s then distribute damping rank strength (i + 1) rest next
    else
      let r ← rank[i]?
      let share ← Arith.div (damping * r) s
      let next ← addShares share links next
      distribute damping rank strength (i + 1) rest next

def step (n : Nat) (out : Out R) (damping teleport : R) (rank : List R) : Option (List R) := do
  let evenly ← Arith.div (damping * danglingSum rank out.strength) (Arith.ofNat n)
  distribute damping rank out.strength 0 out.links (List.replicate n (teleport + evenly))

/-- One iteration, and whether the ranks are still changing. -/
def iteration (n : Nat) (out : Out R) (opts : PageRankOptions R) (teleport : R) (_ : Nat) (_ : Unit) (rank : List R) :
    Option (List R × Bool) := do
  let next ← step n out opts.damping teleport rank
  let diff := (next.zip rank).foldl (fun sum e => sum + Arith.abs (e.1 - e.2)) 0
  return (next, !Arith.lt diff opts.tolerance)

/-- By falling score, and then by id. -/
def byScore (a b : String × R) : Ordering :=
  ((Arith.partialCmp b.2 a.2).getD .eq).then (cmpString a.1 b.1)

/-- What the iterations work with: the links, `teleport`, and the rank that all nodes start with. -/
def prepare (edges : List (Edge R)) (opts : PageRankOptions R) : Option (Out R × R × R) := do
  let st := nodeIndexes edges
  let n := st.labels.length
  let out ← addLinks st.index edges { links := List.replicate n [], strength := List.replicate n 0 }
  let teleport ← Arith.div (1 - opts.damping) (Arith.ofNat n)
  let start ← Arith.div 1 (Arith.ofNat n : R)
  return (out, teleport, start)

def pagerank (edges : List (Edge R)) (opts : PageRankOptions R) : Option (List (String × R)) :=
  let labels := (nodeIndexes edges).labels
  let n := labels.length
  if n = 0 then some []
  else do
    let (out, teleport, start) ← prepare edges opts
    let rank ← Rounds.run (iteration n out opts teleport) [()] opts.maxIterations 0
      (List.replicate n start)
    return (labels.zip rank).insertionSort fun a b => (byScore a b != .gt) = true

/-- The ranks after each iteration. -/
def iterations (edges : List (Edge R)) (opts : PageRankOptions R) : List (List R) :=
  let n := (nodeIndexes edges).labels.length
  match prepare edges opts with
  | none => []
  | some (out, teleport, start) =>
    (Rounds.trace (iteration n out opts teleport) [()] opts.maxIterations 0
      (List.replicate n start)).map Rounds.Visit.after

end Model

/-! ## The links -/

theorem nodeIndexes_eq {R : Type} (edges : List (Edge R)) : nodeIndexes edges = Components.internAll (ends edges) := by
  rw [nodeIndexes, Components.internAll, ends, List.foldl_map]
  rfl

/-- The weights of a node's links are positive, lead to nodes, and add up to its strength. -/
structure Out.Ok (n : Nat) (out : Out ℚ) : Prop where
  length_links : out.links.length = n
  length_strength : out.strength.length = n
  strength : ∀ (i : Nat) (links : List (Nat × ℚ)) (s : ℚ), out.links[i]? = some links → out.strength[i]? = some s →
    s = (links.map Prod.snd).sum
  lt : ∀ links ∈ out.links, ∀ l ∈ links, l.1 < n ∧ 0 < l.2

theorem addLink_spec {n : Nat} {out : Out ℚ} (h : out.Ok n) {index : Std.ExtTreeMap String Nat cmpString} {e : Edge ℚ}
    (hindex : ∃ a b, index[e.1]? = some a ∧ index[e.2.1]? = some b ∧ a < n ∧ b < n) :
    ∃ out', addLink index out e = some out' ∧ out'.Ok n := by
  obtain ⟨si, di, hsi, hdi, hlts, hltd⟩ := hindex
  obtain ⟨src, dst, weight⟩ := e
  simp only [addLink, Arith.gt_rat, Arith.isZero_rat, decide_eq_true_eq]
  by_cases hpos : 0 < weight
  · obtain ⟨links, hlinks⟩ : ∃ links, out.links[si]? = some links :=
      ⟨_, List.getElem?_eq_getElem (h.length_links.symm ▸ hlts)⟩
    obtain ⟨strength, hstrength⟩ : ∃ strength, out.strength[si]? = some strength :=
      ⟨_, List.getElem?_eq_getElem (h.length_strength.symm ▸ hlts)⟩
    rw [if_pos hpos, if_neg hpos.ne']
    simp only [hsi, hdi, hlinks, hstrength, Option.bind_eq_bind, Option.bind_some, Option.pure_def]
    refine ⟨_, rfl, List.length_set.trans h.length_links, List.length_set.trans h.length_strength,
      fun i ls s hls hs => ?_, fun ls hls l hl => ?_⟩
    · simp only [List.getElem?_set] at hls hs
      by_cases hi : si = i
      · subst hi
        rw [if_pos rfl, if_pos (h.length_links.symm ▸ hlts), Option.some.injEq] at hls
        rw [if_pos rfl, if_pos (h.length_strength.symm ▸ hlts), Option.some.injEq] at hs
        rw [← hls, ← hs, h.strength si links strength hlinks hstrength]
        simp
      · rw [if_neg hi] at hls hs
        exact h.strength i ls s hls hs
    · obtain hls | rfl := List.mem_or_eq_of_mem_set hls
      · exact h.lt ls hls l hl
      · obtain hl | hl := List.mem_append.mp hl
        · exact h.lt links (List.mem_of_getElem? hlinks) l hl
        · rw [List.mem_singleton.mp hl]
          exact ⟨hltd, hpos⟩
  · rw [if_neg hpos, if_pos rfl]
    exact ⟨out, rfl, h⟩

theorem addLinks_spec {n : Nat} {index : Std.ExtTreeMap String Nat cmpString} {edges : List (Edge ℚ)}
    (hindex : ∀ e ∈ edges, ∃ a b, index[e.1]? = some a ∧ index[e.2.1]? = some b ∧ a < n ∧ b < n) {out : Out ℚ}
    (h : out.Ok n) : ∃ out', addLinks index edges out = some out' ∧ out'.Ok n := by
  induction edges generalizing out with
  | nil => exact ⟨out, rfl, h⟩
  | cons e edges ih =>
    obtain ⟨he, hindex⟩ := List.forall_mem_cons.mp hindex
    obtain ⟨out₁, hlink, h₁⟩ := addLink_spec h he
    obtain ⟨out₂, hlinks, h₂⟩ := ih hindex h₁
    exact ⟨out₂, by simp [addLinks, hlink, hlinks], h₂⟩

theorem mem_labels (edges : List (Edge ℚ)) (v : String) :
    v ∈ (nodeIndexes edges).labels ↔ v ∈ endpoints (ends edges) := by
  rw [nodeIndexes_eq]
  exact (Components.internAll_spec (ends edges)).2 v

theorem labels_pos {edges : List (Edge ℚ)} (hne : edges ≠ []) : 0 < (nodeIndexes edges).labels.length := by
  obtain ⟨e, rest, rfl⟩ := List.exists_cons_of_ne_nil hne
  exact List.length_pos_of_mem ((mem_labels _ e.1).mpr (by simp [ends, endpoints]))

theorem index_of_edge {edges : List (Edge ℚ)} {e : Edge ℚ} (he : e ∈ edges) :
    ∃ a b, (nodeIndexes edges).index[e.1]? = some a ∧ (nodeIndexes edges).index[e.2.1]? = some b ∧
      a < (nodeIndexes edges).labels.length ∧ b < (nodeIndexes edges).labels.length := by
  have hok := (Components.internAll_spec (ends edges)).1
  rw [← nodeIndexes_eq] at hok
  have hmem : (e.1, e.2.1) ∈ ends edges := List.mem_map_of_mem he
  have hnumber : ∀ v ∈ endpoints (ends edges), ∃ a, (nodeIndexes edges).index[v]? = some a ∧
      a < (nodeIndexes edges).labels.length := by
    intro v hv
    obtain ⟨a, ha⟩ := List.mem_iff_getElem?.mp ((mem_labels edges v).mpr hv)
    exact ⟨a, (hok.index v a).mpr ha, (List.getElem?_eq_some_iff.mp ha).1⟩
  obtain ⟨a, ha, hlta⟩ := hnumber e.1 (Community.mem_endpoints (.inr hmem))
  obtain ⟨b, hb, hltb⟩ := hnumber e.2.1 (Community.mem_endpoints (.inl hmem))
  exact ⟨a, b, ha, hb, hlta, hltb⟩

theorem prepare_spec {edges : List (Edge ℚ)} (hne : edges ≠ []) (opts : PageRankOptions ℚ) :
    ∃ out : Out ℚ, out.Ok (nodeIndexes edges).labels.length ∧
      prepare edges opts = some (out, (1 - opts.damping) / ((nodeIndexes edges).labels.length : ℚ),
        1 / ((nodeIndexes edges).labels.length : ℚ)) := by
  have hn : ((nodeIndexes edges).labels.length : ℚ) ≠ 0 := Nat.cast_ne_zero.mpr (labels_pos hne).ne'
  have hempty : Out.Ok (nodeIndexes edges).labels.length
      { links := List.replicate (nodeIndexes edges).labels.length []
        strength := List.replicate (nodeIndexes edges).labels.length 0 } := by
    refine ⟨List.length_replicate, List.length_replicate, fun i links s hlinks hs => ?_, fun links hlinks l hl => ?_⟩
    · have hnil := List.eq_of_mem_replicate (List.mem_of_getElem? hlinks)
      have hzero := List.eq_of_mem_replicate (List.mem_of_getElem? hs)
      rw [hnil, hzero]
      rfl
    · rw [List.eq_of_mem_replicate hlinks] at hl
      exact absurd hl List.not_mem_nil
  obtain ⟨out, hlinks, hout⟩ := addLinks_spec (fun e he => index_of_edge he) hempty
  refine ⟨out, hout, ?_⟩
  simp only [prepare, hlinks, Arith.ofNat, Arith.div_rat hn, Option.bind_eq_bind, Option.bind_some, Option.pure_def]

/-! ## One iteration -/

/-- Shares of a positive weight add up, and take from no rank. -/
theorem addShares_spec {n : Nat} {links : List (Nat × ℚ)} (h : ∀ l ∈ links, l.1 < n ∧ 0 < l.2) (share : ℚ)
    (next : List ℚ) (hlength : next.length = n) :
    ∃ next', addShares share links next = some next' ∧ next'.length = n ∧
      next'.sum = next.sum + share * (links.map Prod.snd).sum ∧
      (0 ≤ share → (∀ r ∈ next, 0 ≤ r) → ∀ r ∈ next', 0 ≤ r) := by
  induction links generalizing next with
  | nil => exact ⟨next, rfl, hlength, by simp, fun _ hnext => hnext⟩
  | cons l links ih =>
    obtain ⟨⟨hlt, hpos⟩, h⟩ := List.forall_mem_cons.mp h
    have hlt' : l.1 < next.length := hlength.symm ▸ hlt
    obtain ⟨next', hrest, hlength', hsum, hnonneg⟩ := ih h
      (next.set l.1 (next[l.1] + share * l.2)) (List.length_set.trans hlength)
    refine ⟨next', ?_, hlength', ?_, fun hshare hnext => hnonneg hshare fun r hr => ?_⟩
    · simp only [addShares, List.getElem?_eq_getElem hlt', hrest, Option.bind_eq_bind, Option.bind_some]
    · rw [hsum, List.sum_set', dif_pos hlt', List.map_cons, List.sum_cons]
      ring
    · obtain hr | rfl := List.mem_or_eq_of_mem_set hr
      · exact hnext r hr
      · exact add_nonneg (hnext _ (List.getElem_mem hlt')) (mul_nonneg hshare hpos.le)

theorem sum_positive {links : List (Nat × ℚ)} {n : Nat} (h : ∀ l ∈ links, l.1 < n ∧ 0 < l.2) :
    0 ≤ (links.map Prod.snd).sum := by
  refine List.sum_nonneg fun w hw => ?_
  obtain ⟨l, hl, rfl⟩ := List.mem_map.mp hw
  exact (h l hl).2.le

/-- The nodes with links pass on the damped part of their rank. -/
theorem distribute_spec {n : Nat} {out : Out ℚ} (h : out.Ok n) (damping : ℚ) {rank : List ℚ}
    (hrank : rank.length = n) (rest : List (List (Nat × ℚ))) (i : Nat) (hrest : out.links.drop i = rest)
    (next : List ℚ) (hlength : next.length = n) :
    ∃ next', distribute damping rank out.strength i rest next = some next' ∧ next'.length = n ∧
      next'.sum = next.sum +
        damping * ((((rank.zip out.strength).drop i).filter fun e => ¬ e.2 = 0).map Prod.fst).sum ∧
      (0 ≤ damping → (∀ r ∈ rank, 0 ≤ r) → (∀ r ∈ next, 0 ≤ r) → ∀ r ∈ next', 0 ≤ r) := by
  induction rest generalizing i next with
  | nil =>
    have hzip : (rank.zip out.strength).drop i = [] := by
      rw [List.drop_eq_nil_iff, List.length_zip, hrank, h.length_strength, Nat.min_self, ← h.length_links]
      exact List.drop_eq_nil_iff.mp hrest
    exact ⟨next, rfl, hlength, by simp [hzip], fun _ _ hnext => hnext⟩
  | cons links rest ih =>
    have hi : i < out.links.length := by
      by_contra hge
      rw [List.drop_eq_nil_of_le (not_lt.mp hge)] at hrest
      cases hrest
    rw [List.drop_eq_getElem_cons hi, List.cons.injEq] at hrest
    obtain ⟨hlinks, hrest⟩ := hrest
    have hlinks : out.links[i]? = some links := by rw [List.getElem?_eq_getElem hi, hlinks]
    have hlt := h.lt links (List.mem_of_getElem? hlinks)
    have his : i < out.strength.length := by rwa [h.length_strength, ← h.length_links]
    have hir : i < rank.length := by rwa [hrank, ← h.length_links]
    have hstrength := h.strength i links _ hlinks (List.getElem?_eq_getElem his)
    have hzip : (rank.zip out.strength).drop i =
        (rank[i], out.strength[i]) :: (rank.zip out.strength).drop (i + 1) := by
      rw [List.drop_eq_getElem_cons (by rw [List.length_zip]; exact lt_min hir his), List.getElem_zip]
    simp only [distribute, List.getElem?_eq_getElem his, List.getElem?_eq_getElem hir, Arith.isZero_rat,
      Option.bind_eq_bind, Option.bind_some, decide_eq_true_eq, hzip]
    by_cases hzero : out.strength[i] = 0
    · obtain ⟨next', hrun, hlength', hsum, hnonneg⟩ := ih (i + 1) hrest next hlength
      exact ⟨next', by rw [if_pos hzero, hrun], hlength', by simp [hsum, hzero], hnonneg⟩
    · obtain ⟨next₁, hshares, hlength₁, hsum₁, hnonneg₁⟩ :=
        addShares_spec hlt (damping * rank[i] / out.strength[i]) next hlength
      obtain ⟨next', hrun, hlength', hsum, hnonneg⟩ := ih (i + 1) hrest next₁ hlength₁
      refine ⟨next', ?_, hlength', ?_, fun hdamping hrank hnext => hnonneg hdamping hrank (hnonneg₁ ?_ hnext)⟩
      · rw [if_neg hzero, Arith.div_rat hzero]
        simp only [Option.bind_some, hshares, hrun]
      · rw [hsum, hsum₁, ← hstrength, div_mul_cancel₀ _ hzero]
        simp [hzero]
        ring
      · exact div_nonneg (mul_nonneg hdamping (hrank _ (List.getElem_mem hir))) (hstrength ▸ sum_positive hlt)

/-- Ranks that add up to one, none of them negative if the damping is a probability. -/
structure Distribution (n : Nat) (damping : ℚ) (rank : List ℚ) : Prop where
  length : rank.length = n
  sum : rank.sum = 1
  nonneg : 0 ≤ damping → damping ≤ 1 → ∀ r ∈ rank, 0 ≤ r

theorem distribution_uniform {n : Nat} (hn : 0 < n) (damping : ℚ) :
    Distribution n damping (List.replicate n (1 / (n : ℚ))) := by
  have hn' : (n : ℚ) ≠ 0 := Nat.cast_ne_zero.mpr hn.ne'
  refine ⟨List.length_replicate, ?_, fun _ _ r hr => ?_⟩
  · rw [List.sum_replicate, nsmul_eq_mul, mul_one_div_cancel hn']
  · rw [List.eq_of_mem_replicate hr]
    positivity

/-- The rank with and the rank without links is all of the rank. -/
theorem danglingSum_add {rank strength : List ℚ} (h : rank.length = strength.length) :
    danglingSum rank strength + (((rank.zip strength).filter fun e => ¬ e.2 = 0).map Prod.fst).sum = rank.sum := by
  have hdangling : danglingSum rank strength = (((rank.zip strength).filter fun e => e.2 = 0).map Prod.fst).sum := by
    simp only [danglingSum, Arith.isZero_rat, List.sum_eq_foldl, List.foldl_map]
  have hperm := (List.filter_append_perm (fun e => decide (e.2 = 0)) (rank.zip strength)).map Prod.fst
  rw [List.map_append, List.map_fst_zip h.le] at hperm
  rw [hdangling, ← hperm.sum_eq, List.sum_append]
  simp only [decide_not]

theorem step_spec {n : Nat} (hn : 0 < n) {out : Out ℚ} (hout : out.Ok n) {damping : ℚ} {rank : List ℚ}
    (h : Distribution n damping rank) :
    ∃ next, step n out damping ((1 - damping) / n) rank = some next ∧ Distribution n damping next := by
  have hn' : (n : ℚ) ≠ 0 := Nat.cast_ne_zero.mpr hn.ne'
  obtain ⟨next, hrun, hlength, hsum, hnonneg⟩ := distribute_spec hout damping h.length out.links 0 rfl
    (List.replicate n ((1 - damping) / n + damping * danglingSum rank out.strength / n)) List.length_replicate
  have hall := danglingSum_add (h.length.trans hout.length_strength.symm)
  refine ⟨next, ?_, hlength, ?_, fun hdamping hle => hnonneg hdamping (h.nonneg hdamping hle) fun r hr => ?_⟩
  · simp only [step, Arith.ofNat, Arith.div_rat hn', Option.bind_eq_bind, Option.bind_some, hrun]
  · rw [hsum, List.sum_replicate, nsmul_eq_mul, List.drop_zero, eq_sub_iff_add_eq'.mpr hall, h.sum]
    field_simp
    ring
  · have hdangling : 0 ≤ danglingSum rank out.strength := by
      simp only [danglingSum, ← List.foldl_map (f := Prod.fst) (g := fun sum r : ℚ => sum + r), ← List.sum_eq_foldl]
      refine List.sum_nonneg fun r hr => ?_
      obtain ⟨e, he, rfl⟩ := List.mem_map.mp hr
      exact h.nonneg hdamping hle _ (List.of_mem_zip (List.mem_of_mem_filter he)).1
    rw [List.eq_of_mem_replicate hr]
    exact add_nonneg (div_nonneg (sub_nonneg.mpr hle) (Nat.cast_nonneg n))
      (div_nonneg (mul_nonneg hdamping hdangling) (Nat.cast_nonneg n))

theorem iteration_spec {n : Nat} (hn : 0 < n) {out : Out ℚ} (hout : out.Ok n) (opts : PageRankOptions ℚ) (round : Nat)
    (u : Unit) {rank : List ℚ} (h : Distribution n opts.damping rank) : ∃ next changed,
      iteration n out opts ((1 - opts.damping) / n) round u rank = some (next, changed) ∧
        Distribution n opts.damping next := by
  obtain ⟨next, hnext, hdistribution⟩ := step_spec hn hout h
  refine ⟨next, !Arith.lt ((next.zip rank).foldl (fun sum e => sum + Arith.abs (e.1 - e.2)) 0) opts.tolerance, ?_,
    hdistribution⟩
  simp only [iteration, hnext, Option.bind_eq_bind, Option.bind_some, Option.pure_def]

/-! ## The result -/

theorem ordersOn_byScore : OrdersOn (byScore (R := ℚ)) fun _ => True := by
  have hscore : OrdersOn (fun a b : String × ℚ => (compare a.2 b.2).swap) fun _ => True :=
    (OrdersOn.of_transCmp (P := fun _ => True)).comap Prod.snd |>.reverse
  have hname : OrdersOn (fun a b : String × ℚ => cmpString a.1 b.1) fun _ => True :=
    (OrdersOn.of_transCmp (P := fun _ => True)).comap Prod.fst
  refine (hscore.then hname).congr fun a b _ _ => ?_
  rw [byScore, Arith.partialCmp_rat, Option.getD_some, ← Std.OrientedCmp.eq_swap]

theorem not_byScore_lt {a b : String × ℚ} (h : byScore b a ≠ .lt) (hne : a.1 ≠ b.1) :
    b.2 < a.2 ∨ a.2 = b.2 ∧ cmpString a.1 b.1 = .lt := by
  rw [ordersOn_byScore.swap a b trivial trivial, Ne, Ordering.swap_eq_lt] at h
  rw [byScore, Arith.partialCmp_rat, Option.getD_some] at h
  cases hscore : compare b.2 a.2 with
  | lt => exact .inl (compare_lt_iff_lt.mp hscore)
  | gt => exact absurd (by rw [hscore]; rfl) h
  | eq =>
    refine .inr ⟨(compare_eq_iff_eq.mp hscore).symm, ?_⟩
    rw [hscore, Ordering.eq_then] at h
    cases hname : cmpString a.1 b.1 with
    | lt => rfl
    | eq => exact absurd (Std.LawfulEqCmp.eq_of_compare hname) hne
    | gt => exact absurd hname h

/-- What PageRank returns, and what holds after each of its iterations. -/
structure Ranking (edges : List (Edge ℚ)) (opts : PageRankOptions ℚ) (result : List (String × ℚ)) : Prop where
  conserves : ∀ rank ∈ iterations edges opts, rank.sum = 1
  nonneg : 0 ≤ opts.damping → opts.damping ≤ 1 → ∀ rank ∈ iterations edges opts, ∀ r ∈ rank, 0 ≤ r
  sum : (result.map Prod.snd).sum = 1
  scores : 0 ≤ opts.damping → opts.damping ≤ 1 → ∀ e ∈ result, 0 ≤ e.2
  nodup : (result.map Prod.fst).Nodup
  mem : ∀ v, v ∈ result.map Prod.fst ↔ v ∈ endpoints (ends edges)
  sorted : result.Pairwise fun a b => b.2 < a.2 ∨ a.2 = b.2 ∧ cmpString a.1 b.1 = .lt

/-- Ranks are conserved, whatever the weights and the damping are, and every end of an edge is ranked. -/
theorem pagerank_conserves (edges : List (Edge ℚ)) (opts : PageRankOptions ℚ) (hne : edges ≠ []) :
    ∃ result, pagerank edges opts = some result ∧ Ranking edges opts result := by
  have hn := labels_pos hne
  have hnodup : (nodeIndexes edges).labels.Nodup := by
    rw [nodeIndexes_eq]
    exact (Components.internAll_spec (ends edges)).1.nodup
  obtain ⟨out, hout, hprepare⟩ := prepare_spec hne opts
  have hkeep := fun round u (_ : u ∈ [()]) rank
    (hrank : Distribution (nodeIndexes edges).labels.length opts.damping rank) => iteration_spec hn hout opts round u hrank
  obtain ⟨rank, hrun, hrank⟩ := Rounds.run_spec hkeep opts.maxIterations 0 (distribution_uniform hn opts.damping)
  have hleads := Rounds.run_leads hrun
  have hafter : ∀ rank ∈ iterations edges opts, Distribution (nodeIndexes edges).labels.length opts.damping rank := by
    intro rank hmem
    simp only [iterations, hprepare] at hmem
    obtain ⟨v, hv, rfl⟩ := List.mem_map.mp hmem
    refine ((hleads.keeps (distribution_uniform hn opts.damping) fun v hv hbefore => ?_).1 v hv).2
    obtain ⟨next, changed, hnext, hdistribution⟩ := hkeep v.round v.element (hleads.visit_eq v hv).1 v.before hbefore
    cases (hleads.visit_eq v hv).2.symm.trans hnext
    exact hdistribution
  have hlength : (nodeIndexes edges).labels.length = rank.length := hrank.length.symm
  have hperm := List.perm_insertionSort (fun a b : String × ℚ => (byScore a b != .gt) = true)
    ((nodeIndexes edges).labels.zip rank)
  have hnames := hperm.map Prod.fst
  rw [List.map_fst_zip hlength.le] at hnames
  have hscores := hperm.map Prod.snd
  rw [List.map_snd_zip hlength.ge] at hscores
  have hresult : pagerank edges opts = some (((nodeIndexes edges).labels.zip rank).insertionSort fun a b =>
      (byScore a b != .gt) = true) := by
    simp only [pagerank, if_neg hn.ne', hprepare, hrun, Option.bind_eq_bind, Option.bind_some, Option.pure_def]
  refine ⟨_, hresult, fun rank h => (hafter rank h).sum,
    fun hdamping hle rank h => (hafter rank h).nonneg hdamping hle, hscores.sum_eq.trans hrank.sum,
    fun hdamping hle e he => hrank.nonneg hdamping hle _ (hscores.mem_iff.mp (List.mem_map_of_mem he)),
    hnames.nodup_iff.mpr hnodup, fun v => hnames.mem_iff.trans (mem_labels edges v), ?_⟩
  have hsorted := ordersOn_byScore.pairwise_insertionSort (l := (nodeIndexes edges).labels.zip rank)
    fun _ _ => trivial
  have hdistinct := List.pairwise_map.mp (hnames.nodup_iff.mpr hnodup)
  exact (hsorted.and hdistinct).imp fun ⟨hle, hne⟩ => not_byScore_lt hle hne

theorem pagerank_conserves_loop : ∃ result,
    pagerank [("a", "b", 2), ("b", "a", 1), ("b", "b", 1), ("c", "a", -3)] ⟨17 / 20, 100, 0⟩ = some result ∧
      Ranking [("a", "b", 2), ("b", "a", 1), ("b", "b", 1), ("c", "a", -3)] ⟨17 / 20, 100, 0⟩ result :=
  pagerank_conserves _ _ (List.cons_ne_nil _ _)

end PageRank

end Dllb
