import Mathlib
import Dllb.Graph.EdgeConsistency
import Dllb.Query.Legible
import Dllb.Query.Written

/-! # Traversals

The entries of an edge name its type and the ids of its records, not their tables.
A traversal goes from id to id and looks the last ids up in the destination table
of the last hop. The tables before it, and those that a `RELATE` names, play no
part.
-/

namespace Dllb

set_option autoImplicit false

open Key

/-! ## Relations -/

/-- What a `RELATE` relates. -/
structure Relation where
  src : RecordRef
  edgeType : String
  dst : RecordRef

namespace Relation

/-- The parser takes identifiers for the names, and these have no separator in them. -/
structure Named (r : Relation) : Prop where
  src : NulFree r.src.id
  edgeType : NulFree r.edgeType
  dst : NulFree r.dst.id

/-- The hop leads from `a` to `b` along the relation. -/
def Along (r : Relation) (hop : TraversalHop) (a b : RecordRef) : Prop :=
  r.edgeType = hop.edgeType ∧
    match hop.direction with
    | .out => r.src = a ∧ r.dst = b
    | .in' => r.dst = a ∧ r.src = b

def written (ex : QueryExecutor) (r : Relation) : Written :=
  ⟨ex.tableKey r.edgeType, r.src.id, r.dst.id⟩

def triple (r : Relation) (h : r.Named) : Triple :=
  ⟨⟨r.src.id, h.src⟩, ⟨r.edgeType, h.edgeType⟩, ⟨r.dst.id, h.dst⟩⟩

end Relation

def Issued.relation (i : Issued) : Option Relation :=
  match i.stmt with
  | .relate src edgeType dst _ => some ⟨src, edgeType, dst⟩
  | _ => none

def Request.relations : Request → List Relation
  | .statement i => i.relation.toList
  | .batch stmts => stmts.filterMap Issued.relation

/-- The ends of a chain of steps, one for each label. -/
inductive Path {κ α : Type} (step : κ → α → α → Prop) : List κ → α → α → Prop
  | nil (a : α) : Path step [] a a
  | cons {k : κ} {ks : List κ} {a b c : α} (first : step k a b) (rest : Path step ks b c) :
      Path step (k :: ks) a c

/-- A hop from record to record. -/
def RecordStep (rels : List Relation) (hop : TraversalHop) (a b : RecordRef) : Prop :=
  b.table = hop.destTable ∧ ∃ r ∈ rels, r.Along hop a b

/-- A hop from id to id. -/
def IdStep (rels : List Relation) (hop : TraversalHop) (a b : String) : Prop :=
  ∃ r ∈ rels, ∃ s t, r.Along hop ⟨s, a⟩ ⟨t, b⟩

theorem idStep_out_iff {rels : List Relation} {hop : TraversalHop} (hdir : hop.direction = .out)
    {a b : String} : IdStep rels hop a b ↔
      ∃ r ∈ rels, r.edgeType = hop.edgeType ∧ r.src.id = a ∧ r.dst.id = b := by
  simp only [IdStep, Relation.Along, hdir]
  constructor
  · rintro ⟨r, hr, s, t, htype, hsrc, hdst⟩
    exact ⟨r, hr, htype, by rw [hsrc], by rw [hdst]⟩
  · rintro ⟨r, hr, htype, rfl, rfl⟩
    exact ⟨r, hr, _, _, htype, rfl, rfl⟩

theorem idStep_in_iff {rels : List Relation} {hop : TraversalHop} (hdir : hop.direction = .in')
    {a b : String} : IdStep rels hop a b ↔
      ∃ r ∈ rels, r.edgeType = hop.edgeType ∧ r.dst.id = a ∧ r.src.id = b := by
  simp only [IdStep, Relation.Along, hdir]
  constructor
  · rintro ⟨r, hr, s, t, htype, hdst, hsrc⟩
    exact ⟨r, hr, htype, by rw [hdst], by rw [hsrc]⟩
  · rintro ⟨r, hr, htype, rfl, rfl⟩
    exact ⟨r, hr, _, _, htype, rfl, rfl⟩

theorem IdStep.nulFree {rels : List Relation} (hrels : ∀ r ∈ rels, r.Named) {hop : TraversalHop}
    {a b : String} (h : IdStep rels hop a b) : NulFree b := by
  cases hdir : hop.direction with
  | out =>
    obtain ⟨r, hr, -, -, rfl⟩ := (idStep_out_iff hdir).mp h
    exact (hrels r hr).dst
  | in' =>
    obtain ⟨r, hr, -, -, rfl⟩ := (idStep_in_iff hdir).mp h
    exact (hrels r hr).src

namespace QueryExecutor

theorem edges_eq_map (ex : QueryExecutor) (r : Request) :
    ex.edges r = r.relations.map (Relation.written ex) := by
  have hedge : ∀ i : Issued, ex.edge i = i.relation.map (Relation.written ex) := by
    rintro ⟨uuid, stmt⟩
    cases stmt <;> rfl
  cases r with
  | statement i =>
    rw [edges, hedge, Request.relations]
    cases i.relation <;> rfl
  | batch stmts => rw [edges, Request.relations, List.map_filterMap, funext hedge]

section History

variable [Rmp] [CodeIntel]

/-- Carries a request out, and keeps account of what has been related. -/
def perform (ex : QueryExecutor) (h : Store × List Relation) (r : Request) : Store × List Relation :=
  match ex.prog r with
  | none => h
  | some p =>
    let (result, s) := p.run h.1
    (s, if result.toBool then h.2 ++ r.relations else h.2)

/-- The store after the requests, and the relations they have made. -/
def history (ex : QueryExecutor) (reqs : List Request) : Store × List Relation :=
  reqs.foldl ex.perform (∅, [])

/-- The edge entries of the store are those of the relations. -/
structure Recorded (ex : QueryExecutor) (rels : List Relation) (s : Store) : Prop where
  named : ∀ r ∈ rels, r.Named
  mem_iff : ∀ (q : Place) (k : Bytes), q.start Tag.graphEdge <+: k →
    (k ∈ s ↔ ∃ r ∈ rels, k = (r.written ex).key ∨ k = (r.written ex).inKey)

theorem Recorded.perform {ex : QueryExecutor} (hex : ex.Regular) {h : Store × List Relation}
    (hrec : ex.Recorded h.2 h.1) {r : Request} (hnamed : r.Named) (hrels : ∀ rel ∈ r.relations, rel.Named) :
    ex.Recorded (ex.perform h r).2 (ex.perform h r).1 := by
  rw [QueryExecutor.perform]
  split
  · exact hrec
  · rename_i p hp
    obtain ⟨result, s', hrun⟩ : ∃ result s', p.run h.1 = (result, s') := ⟨_, _, rfl⟩
    have hmem := fun (q : Place) (k : Bytes) (hk : q.start Tag.graphEdge <+: k) =>
      mem_edges_request hex hnamed hp hrun hk
    simp only [edges_eq_map, List.mem_map, exists_exists_and_eq_and] at hmem
    simp only [hrun]
    cases hok : result.toBool with
    | false =>
      refine ⟨hrec.named, fun q k hk => ?_⟩
      rw [hmem q k hk, hok]
      simpa using hrec.mem_iff q k hk
    | true =>
      constructor
      · intro rel hrel
        rcases List.mem_append.mp hrel with hrel | hrel
        · exact hrec.named rel hrel
        · exact hrels rel hrel
      · intro q k hk
        rw [hmem q k hk, hok, hrec.mem_iff q k hk]
        simp only [true_and, if_true, List.mem_append, or_and_right, exists_or]

theorem recorded_foldl {ex : QueryExecutor} (hex : ex.Regular) (reqs : List Request)
    (hnamed : ∀ r ∈ reqs, r.Named) (hrels : ∀ r ∈ reqs, ∀ rel ∈ r.relations, rel.Named)
    {h : Store × List Relation} (hrec : ex.Recorded h.2 h.1) :
    ex.Recorded (reqs.foldl ex.perform h).2 (reqs.foldl ex.perform h).1 := by
  induction reqs generalizing h with
  | nil => exact hrec
  | cons r reqs ih =>
    obtain ⟨hr, hnamed⟩ := List.forall_mem_cons.mp hnamed
    obtain ⟨hrel, hrels⟩ := List.forall_mem_cons.mp hrels
    exact ih hnamed hrels (hrec.perform hex hr hrel)

theorem history_recorded {ex : QueryExecutor} (hex : ex.Regular) {reqs : List Request}
    (hnamed : ∀ r ∈ reqs, r.Named) (hrels : ∀ r ∈ reqs, ∀ rel ∈ r.relations, rel.Named) :
    ex.Recorded (ex.history reqs).2 (ex.history reqs).1 := by
  refine recorded_foldl hex reqs hnamed hrels ⟨fun _ hr => absurd hr List.not_mem_nil, ?_⟩
  intro q k _
  simp

theorem reachable_foldl {ex : QueryExecutor} (reqs : List Request) (hnamed : ∀ r ∈ reqs, r.Named)
    {h : Store × List Relation} (hreach : ex.Reachable (fun _ _ => True) h.1) :
    ex.Reachable (fun _ _ => True) (reqs.foldl ex.perform h).1 := by
  induction reqs generalizing h with
  | nil => exact hreach
  | cons r reqs ih =>
    obtain ⟨hr, hnamed⟩ := List.forall_mem_cons.mp hnamed
    refine ih hnamed ?_
    rw [perform]
    split
    · exact hreach
    · rename_i p hp
      exact .request hreach hr trivial hp

theorem history_reachable {ex : QueryExecutor} {reqs : List Request} (hnamed : ∀ r ∈ reqs, r.Named) :
    ex.Reachable (fun _ _ => True) (ex.history reqs).1 :=
  reachable_foldl reqs hnamed .empty

end History

end QueryExecutor

/-! ## Neighbors -/

/-- The vertex at the other end of an edge key. -/
def otherVertex (k : Bytes) : Result String := do
  let parts ← parseKey k
  parseOtherVertex parts.remainder

theorem otherVertex_outKey (p : Place) (t : Triple) : otherVertex (t.outKey p) = .ok t.dst.1 := by
  rw [otherVertex, Triple.outKey, parseKey_key]
  simp only [bind, Except.bind]
  rw [parseOtherVertex, Triple.outContent, Content.remainder, splitn_edge _ _ _ (by decide)]
  simp

theorem otherVertex_inKey (p : Place) (t : Triple) : otherVertex (t.inKey p) = .ok t.src.1 := by
  rw [otherVertex, Triple.inKey, parseKey_key]
  simp only [bind, Except.bind]
  rw [parseOtherVertex, Triple.inContent, Content.remainder, splitn_edge _ _ _ (by decide)]
  simp

theorem decodeNeighbors_eq_ok {keys : List Bytes} (h : ∀ k ∈ keys, ∃ x, otherVertex k = .ok x) :
    ∃ xs, Traversal.decodeNeighbors keys = .ok xs ∧ ∀ x, x ∈ xs ↔ ∃ k ∈ keys, otherVertex k = .ok x := by
  induction keys with
  | nil => exact ⟨[], rfl, by simp⟩
  | cons k keys ih =>
    obtain ⟨⟨x, hx⟩, hrest⟩ := List.forall_mem_cons.mp h
    obtain ⟨xs, hxs, hmem⟩ := ih hrest
    refine ⟨x :: xs, ?_, fun y => ?_⟩
    · rw [otherVertex] at hx
      cases hparts : parseKey k with
      | error e => simp [hparts, bind, Except.bind] at hx
      | ok parts =>
        simp only [hparts, bind, Except.bind] at hx
        simp only [Traversal.decodeNeighbors, hparts, hxs, bind, Except.bind, hx]
        rfl
    · rw [List.mem_cons, hmem, List.exists_mem_cons_iff, hx, Except.ok.injEq, eq_comm]

theorem run_scanNeighbors {s : Store} {q : Place} (scope : Scope)
    (h : ∀ k ∈ s, scope.start q <+: k → ∃ x, otherVertex k = .ok x) :
    ∃ xs, (Traversal.scanNeighbors (scope.start q)).run s = (.ok xs, s) ∧
      ∀ x, x ∈ xs ↔ ∃ k, (k ∈ s ∧ scope.start q <+: k) ∧ otherVertex k = .ok x := by
  have hend : prefixEnd (scope.start q) ≠ [] := by
    rw [scope.start_eq]
    exact prefixEnd_tablePrefix_append_ne_nil q.ns q.db q.table scope.tag scope.rest
  have hkeys : ∀ k ∈ s.scanPrefixKeys (scope.start q), ∃ x, otherVertex k = .ok x := by
    intro k hk
    obtain ⟨hmem, hprefix⟩ := (Store.mem_scanPrefixKeys_iff hend).mp hk
    exact h k hmem hprefix
  obtain ⟨xs, hxs, hmem⟩ := decodeNeighbors_eq_ok hkeys
  refine ⟨xs, ?_, fun x => ?_⟩
  · rw [Traversal.scanNeighbors, Db.scanPrefixKeys, Prog.run_query_bind, Prog.run_lift, hxs]
  · simp only [hmem, Store.mem_scanPrefixKeys_iff hend]

namespace QueryExecutor

/-- The entries of a scope of edges, by the relations they come from. -/
theorem Recorded.mem_scope_iff {ex : QueryExecutor} (hex : ex.Regular) {rels : List Relation} {s : Store}
    (h : ex.Recorded rels s) (q : Place) (scope : Scope) (htag : scope.tag = Tag.graphEdge) (k : Bytes) :
    k ∈ s ∧ scope.start q <+: k ↔ ∃ r ∈ rels, ∃ hr : r.Named, q = ex.place hex r.edgeType hr.edgeType ∧
      (k = (r.triple hr).outKey q ∧ scope.Holds (r.triple hr).outContent ∨
        k = (r.triple hr).inKey q ∧ scope.Holds (r.triple hr).inContent) := by
  have hend : prefixEnd (scope.start q) ≠ [] := by
    rw [scope.start_eq]
    exact prefixEnd_tablePrefix_append_ne_nil q.ns q.db q.table scope.tag scope.rest
  have hscope : ∀ (p : Place) (c : Content), scope.start q <+: c.key p ↔ q = p ∧ scope.Holds c := by
    intro p c
    rw [← mem_range_prefixEnd_iff hend, Key.mem_scope_iff]
  have hregion : scope.start q <+: k → q.start Tag.graphEdge <+: k := by
    rw [scope.start_eq, htag]
    exact (List.prefix_append ..).trans
  constructor
  · rintro ⟨hk, hprefix⟩
    obtain ⟨r, hr, hkey⟩ := (h.mem_iff q k (hregion hprefix)).mp hk
    have hn := h.named r hr
    refine ⟨r, hr, hn, ?_⟩
    rcases hkey with rfl | rfl
    · obtain ⟨rfl, hholds⟩ := (hscope (ex.place hex r.edgeType hn.edgeType) (r.triple hn).outContent).mp hprefix
      exact ⟨rfl, .inl ⟨rfl, hholds⟩⟩
    · obtain ⟨rfl, hholds⟩ := (hscope (ex.place hex r.edgeType hn.edgeType) (r.triple hn).inContent).mp hprefix
      exact ⟨rfl, .inr ⟨rfl, hholds⟩⟩
  · rintro ⟨r, hr, hn, rfl, ⟨rfl, hholds⟩ | ⟨rfl, hholds⟩⟩
    · have hprefix := (hscope _ (r.triple hn).outContent).mpr ⟨rfl, hholds⟩
      exact ⟨(h.mem_iff _ _ (hregion hprefix)).mpr ⟨r, hr, .inl rfl⟩, hprefix⟩
    · have hprefix := (hscope _ (r.triple hn).inContent).mpr ⟨rfl, hholds⟩
      exact ⟨(h.mem_iff _ _ (hregion hprefix)).mpr ⟨r, hr, .inr rfl⟩, hprefix⟩

theorem Recorded.otherVertex_ok {ex : QueryExecutor} (hex : ex.Regular) {rels : List Relation} {s : Store}
    (h : ex.Recorded rels s) (q : Place) (scope : Scope) (htag : scope.tag = Tag.graphEdge) :
    ∀ k ∈ s, scope.start q <+: k → ∃ x, otherVertex k = .ok x := by
  intro k hk hprefix
  obtain ⟨r, -, hn, -, ⟨rfl, -⟩ | ⟨rfl, -⟩⟩ := (h.mem_scope_iff hex q scope htag k).mp ⟨hk, hprefix⟩
  · exact ⟨_, otherVertex_outKey ..⟩
  · exact ⟨_, otherVertex_inKey ..⟩

/-- The neighbors of a hop are the ids that the relations lead to. -/
theorem Recorded.run_hopNeighbors {ex : QueryExecutor} (hex : ex.Regular) {rels : List Relation} {s : Store}
    (h : ex.Recorded rels s) {hop : TraversalHop} (hhop : NulFree hop.edgeType) {v : String}
    (hv : NulFree v) :
    ∃ xs, (ex.hopNeighbors hop v).run s = (.ok xs, s) ∧ ∀ x, x ∈ xs ↔ IdStep rels hop v x := by
  have hplace : ∀ (r : Relation) (hr : r.Named),
      ex.place hex hop.edgeType hhop = ex.place hex r.edgeType hr.edgeType ↔ r.edgeType = hop.edgeType := by
    intro r hr
    simp [place, eq_comm]
  cases hdir : hop.direction with
  | out =>
    let scope : Scope := .vertexOutgoingTyped ⟨v, hv⟩ ⟨hop.edgeType, hhop⟩
    obtain ⟨xs, hrun, hmem⟩ := run_scanNeighbors scope
      (h.otherVertex_ok hex (ex.place hex hop.edgeType hhop) scope rfl)
    refine ⟨xs, by rw [hopNeighbors, hdir]; exact hrun, fun x => ?_⟩
    rw [hmem, idStep_out_iff hdir]
    simp only [h.mem_scope_iff hex _ scope rfl]
    constructor
    · rintro ⟨k, ⟨r, hr, hn, htype, ⟨rfl, hsrc, -⟩ | ⟨-, hno⟩⟩, hx⟩
      · rw [otherVertex_outKey] at hx
        exact ⟨r, hr, (hplace r hn).mp htype, congrArg Subtype.val hsrc, Except.ok.inj hx⟩
      · exact hno.elim
    · rintro ⟨r, hr, htype, rfl, rfl⟩
      have hn := h.named r hr
      refine ⟨_, ⟨r, hr, hn, (hplace r hn).mpr htype, .inl ⟨rfl, rfl, ?_⟩⟩, otherVertex_outKey ..⟩
      exact Subtype.ext htype
  | in' =>
    let scope : Scope := .vertexIncomingTyped ⟨v, hv⟩ ⟨hop.edgeType, hhop⟩
    obtain ⟨xs, hrun, hmem⟩ := run_scanNeighbors scope
      (h.otherVertex_ok hex (ex.place hex hop.edgeType hhop) scope rfl)
    refine ⟨xs, by rw [hopNeighbors, hdir]; exact hrun, fun x => ?_⟩
    rw [hmem, idStep_in_iff hdir]
    simp only [h.mem_scope_iff hex _ scope rfl]
    constructor
    · rintro ⟨k, ⟨r, hr, hn, htype, ⟨-, hno⟩ | ⟨rfl, hdst, -⟩⟩, hx⟩
      · exact hno.elim
      · rw [otherVertex_inKey] at hx
        exact ⟨r, hr, (hplace r hn).mp htype, congrArg Subtype.val hdst, Except.ok.inj hx⟩
    · rintro ⟨r, hr, htype, rfl, rfl⟩
      have hn := h.named r hr
      refine ⟨_, ⟨r, hr, hn, (hplace r hn).mpr htype, .inr ⟨rfl, rfl, ?_⟩⟩, otherVertex_inKey ..⟩
      exact Subtype.ext htype

end QueryExecutor

/-! ## Hops -/

theorem nodup_pushNew {next : List String} (h : next.Nodup) (dests : List String) :
    (QueryExecutor.pushNew next dests).Nodup := by
  induction dests generalizing next with
  | nil => exact h
  | cons dest dests ih =>
    apply ih
    split
    · exact h
    · rename_i hnew
      exact List.nodup_append.mpr ⟨h, List.nodup_singleton _, by grind⟩

theorem mem_pushNew (next dests : List String) (x : String) :
    x ∈ QueryExecutor.pushNew next dests ↔ x ∈ next ∨ x ∈ dests := by
  induction dests generalizing next with
  | nil => simp [QueryExecutor.pushNew]
  | cons dest dests ih =>
    rw [QueryExecutor.pushNew, ih]
    split <;> grind

namespace QueryExecutor

theorem Recorded.run_followHop {ex : QueryExecutor} (hex : ex.Regular) {rels : List Relation} {s : Store}
    (h : ex.Recorded rels s) {hop : TraversalHop} (hhop : NulFree hop.edgeType) (ids next : List String)
    (hids : ∀ v ∈ ids, NulFree v) (hnext : next.Nodup) :
    ∃ out, (ex.followHop hop ids next).run s = (.ok out, s) ∧ out.Nodup ∧
      ∀ x, x ∈ out ↔ x ∈ next ∨ ∃ v ∈ ids, IdStep rels hop v x := by
  induction ids generalizing next with
  | nil => exact ⟨next, rfl, hnext, by simp⟩
  | cons v ids ih =>
    obtain ⟨hv, hids⟩ := List.forall_mem_cons.mp hids
    obtain ⟨xs, hxs, hmem⟩ := h.run_hopNeighbors hex hhop hv
    obtain ⟨out, hout, hnodup, hreach⟩ := ih (pushNew next xs) hids (nodup_pushNew hnext xs)
    refine ⟨out, ?_, hnodup, fun x => ?_⟩
    · rw [followHop, Prog.run_bind_ok hxs, hout]
    · rw [hreach, mem_pushNew, hmem, List.exists_mem_cons_iff, or_assoc]

theorem Recorded.run_followHops {ex : QueryExecutor} (hex : ex.Regular) {rels : List Relation} {s : Store}
    (h : ex.Recorded rels s) (hops : List TraversalHop) (hhops : ∀ hop ∈ hops, NulFree hop.edgeType)
    {ids : List String} (hids : ∀ v ∈ ids, NulFree v) (hnodup : ids.Nodup) :
    ∃ out, (ex.followHops hops ids).run s = (.ok out, s) ∧ out.Nodup ∧
      ∀ x, x ∈ out ↔ ∃ v ∈ ids, Path (IdStep rels) hops v x := by
  induction hops generalizing ids with
  | nil =>
    refine ⟨ids, rfl, hnodup, fun x => ⟨fun hx => ⟨x, hx, .nil x⟩, ?_⟩⟩
    rintro ⟨v, hv, ⟨⟩⟩
    exact hv
  | cons hop hops ih =>
    obtain ⟨hhop, hhops⟩ := List.forall_mem_cons.mp hhops
    obtain ⟨next, hnext, hnodup, hmem⟩ := h.run_followHop hex hhop ids [] hids List.nodup_nil
    simp only [List.not_mem_nil, false_or] at hmem
    have hfree : ∀ v ∈ next, NulFree v := by
      intro v hv
      obtain ⟨_, -, hstep⟩ := (hmem v).mp hv
      exact hstep.nulFree h.named
    obtain ⟨out, hout, hnodup, hreach⟩ := ih hhops hfree hnodup
    refine ⟨out, ?_, hnodup, fun x => ?_⟩
    · rw [followHops, Prog.run_bind_ok hnext, hout]
    · rw [hreach]
      constructor
      · rintro ⟨w, hw, hpath⟩
        obtain ⟨v, hv, hstep⟩ := (hmem w).mp hw
        exact ⟨v, hv, .cons hstep hpath⟩
      · rintro ⟨v, hv, hpath⟩
        cases hpath with
        | cons first rest => exact ⟨_, (hmem _).mpr ⟨v, hv, first⟩, rest⟩

end QueryExecutor

/-! ## The selection -/

section Selection

variable [Rmp]

theorem Collection.map_id_decodeFound {c : Collection} {entries : List (String × Option Bytes)}
    {docs : List Document} (h : c.decodeFound entries = .ok docs) :
    (docs.map (·.id.id)).Sublist (entries.map Prod.fst) := by
  induction entries generalizing docs with
  | nil =>
    cases h
    exact .slnil
  | cons entry entries ih =>
    obtain ⟨id, found⟩ := entry
    cases found with
    | none => exact (ih h).cons id
    | some b =>
      rw [decodeFound, deserialize] at h
      cases hfields : Rmp.fromSlice b with
      | error e => simp [hfields, bind, Except.bind] at h
      | ok fields =>
        cases hrest : c.decodeFound entries with
        | error e => simp [hfields, hrest, bind, Except.bind] at h
        | ok rest =>
          simp only [hfields, hrest, bind, Except.bind, pure, Except.pure, Except.ok.injEq] at h
          rw [← h]
          exact (ih hrest).cons_cons id

theorem Collection.nodup_getMany {c : Collection} {s s' : Store} {ids : List String} (hids : ids.Nodup)
    {docs : List Document} (h : (c.getMany ids).run s = (.ok docs, s')) : (docs.map (·.id)).Nodup := by
  rw [getMany] at h
  split at h
  · cases h
    exact List.nodup_nil
  · rw [Db.multiGet, Prog.run_query_bind, Prog.run_lift, Prod.mk.injEq] at h
    have hsub := map_id_decodeFound h.1
    rw [List.map_fst_zip (by simp [Store.multiGet])] at hsub
    refine List.Nodup.of_map RecordId.id ?_
    rw [List.map_map]
    exact hids.sublist hsub

namespace QueryExecutor

variable [CodeIntel] [Texts]

/-- The parser takes no empty chain, and identifiers for the names of its hops. -/
structure NamedChain (chain : TraversalChain) : Prop where
  ne_nil : chain.hops ≠ []
  edgeType : ∀ hop ∈ chain.hops, NulFree hop.edgeType
  destTable : ∀ hop ∈ chain.hops, NulFree hop.destTable

/-- The traversal gives a row for each of the stored records of the last destination table that
meet `P`, and no record twice. -/
def Selects (ex : QueryExecutor) (s : Store) (chain : TraversalChain) (a : RecordRef)
    (P : RecordId → Prop) : Prop :=
  ∃ (hop : TraversalHop) (docs : List Document), chain.hops.getLast? = some hop ∧
    (ex.execSelect (.traversal chain) (.record a) none [] none).run s =
      (.ok (.rows (docs.map (traversalRow hop.destTable chain.projection))), s) ∧
    (docs.map (·.id)).Nodup ∧
    ∀ doc : Document, doc ∈ docs ↔
      doc.id.table = hop.destTable ∧ ex.stored s ⟨doc.id.table, doc.id.id⟩ = some doc.fields ∧ P doc.id

/-- A traversal finds the stored records of the last destination table whose ids the relations lead
to, whatever the tables of the records on the way. -/
theorem traversal_selects {ex : QueryExecutor} (hex : ex.Regular) {reqs : List Request}
    (hnamed : ∀ r ∈ reqs, r.Named) (hrels : ∀ r ∈ reqs, ∀ rel ∈ r.relations, rel.Named)
    {chain : TraversalChain} (hchain : NamedChain chain) {a : RecordRef} (ha : NulFree a.id) :
    ex.Selects (ex.history reqs).1 chain a
      fun b => Path (IdStep (ex.history reqs).2) chain.hops a.id b.id := by
  have hrec := history_recorded hex hnamed hrels
  have hlegible := (history_reachable hnamed).allLegible hex
  obtain ⟨hop, hlast⟩ : ∃ hop, chain.hops.getLast? = some hop :=
    Option.ne_none_iff_exists'.mp (by simp [hchain.ne_nil])
  obtain ⟨ids, hids, hnodup, hmem⟩ := hrec.run_followHops hex chain.hops hchain.edgeType
    (List.forall_mem_singleton.mpr ha) (List.nodup_singleton a.id)
  simp only [List.mem_singleton, exists_eq_left] at hmem
  have htable := hchain.destTable hop (List.mem_of_getLast? hlast)
  have hreadable := (hlegible hop.destTable htable).documentsReadable []
  obtain ⟨docs, hdocs, hfound⟩ := hreadable.getMany_eq_ok ids
  refine ⟨hop, docs, hlast, ?_, Collection.nodup_getMany hnodup hdocs, fun doc => ?_⟩
  · have hstart : (ex.startIds (.record a)).run (ex.history reqs).1 = (.ok [a.id], (ex.history reqs).1) := rfl
    rw [execSelect, execTraversalSelect, Prog.run_bind_ok hstart, Prog.run_bind_ok hids, hlast]
    have hnew : Collection.new ex.ns ex.db hop.destTable = ex.collection hop.destTable [] := rfl
    dsimp only
    rw [hnew, Prog.run_bind_ok hdocs]
    simp [limited]
  · rw [hfound, hmem, ← stored_eq_some_iff []]
    obtain ⟨⟨table, id⟩, fields⟩ := doc
    simp only [Collection.recordId, collection, RecordId.mk.injEq, and_true]
    constructor
    · rintro ⟨hpath, rfl, hstored⟩
      exact ⟨rfl, hstored, hpath⟩
    · rintro ⟨rfl, hstored, hpath⟩
      exact ⟨hpath, rfl, hstored⟩

end QueryExecutor

end Selection

section Runs

open QueryExecutor Concrete

/-- `RELATE s:a->e->t:b`, and a record `u:b`. -/
def relatedElsewhere : List Request :=
  [.statement ⟨"", .relate ⟨"s", "a"⟩ "e" ⟨"t", "b"⟩ []⟩, .statement ⟨"", .create "u" (some "b") [] none⟩]

/-- `SELECT ->e->u`. -/
def alongE : TraversalChain := ⟨[⟨.out, "e", "u"⟩], none⟩

theorem named_relatedElsewhere : ∀ r ∈ relatedElsewhere, r.Named := by
  have he : NulFree "e" := by decide
  have hu : NulFree "u" := by decide
  exact List.forall_mem_cons.mpr ⟨he, List.forall_mem_singleton.mpr hu⟩

theorem named_relations_relatedElsewhere :
    ∀ r ∈ relatedElsewhere, ∀ rel ∈ r.relations, rel.Named := by
  refine List.forall_mem_cons.mpr ⟨?_, List.forall_mem_singleton.mpr ?_⟩
  · exact List.forall_mem_singleton.mpr ⟨by decide, by decide, by decide⟩
  · exact fun _ hrel => absurd hrel List.not_mem_nil

theorem namedChain_alongE : NamedChain alongE where
  ne_nil := List.cons_ne_nil _ _
  edgeType := List.forall_mem_singleton.mpr (by decide)
  destTable := List.forall_mem_singleton.mpr (by decide)

theorem traversal_selects_elsewhere :
    accounts.Selects (accounts.history relatedElsewhere).1 alongE ⟨"z", "a"⟩
      fun b => Path (IdStep (accounts.history relatedElsewhere).2) alongE.hops "a" b.id :=
  traversal_selects regular_accounts named_relatedElsewhere named_relations_relatedElsewhere
    namedChain_alongE (by decide)

/-- From `z:a`, that nothing was related to, the traversal finds `u:b`, that nothing was related to
either. -/
theorem traversal_ignores_tables :
    ¬ ∀ reqs : List Request, (∀ r ∈ reqs, r.Named) → (∀ r ∈ reqs, ∀ rel ∈ r.relations, rel.Named) →
      ∀ chain, NamedChain chain → ∀ a : RecordRef, NulFree a.id →
        accounts.Selects (accounts.history reqs).1 chain a
          fun b => Path (RecordStep (accounts.history reqs).2) chain.hops a ⟨b.table, b.id⟩ := by
  intro h
  obtain ⟨hop, docs, hlast, hrun, -, hdocs⟩ := h relatedElsewhere named_relatedElsewhere
    named_relations_relatedElsewhere alongE namedChain_alongE ⟨"z", "a"⟩ (by decide)
  have hrels : (accounts.history relatedElsewhere).2 = [⟨⟨"s", "a"⟩, "e", ⟨"t", "b"⟩⟩] := rfl
  have hnone : docs = [] := by
    refine List.eq_nil_iff_forall_not_mem.mpr fun doc hdoc => ?_
    obtain ⟨-, -, hpath⟩ := (hdocs doc).mp hdoc
    cases hpath with
    | cons first rest =>
      obtain ⟨-, rel, hrel, -, hsrc, -⟩ := first
      rw [hrels, List.mem_singleton] at hrel
      rw [hrel] at hsrc
      exact absurd (congrArg RecordRef.table hsrc) (by decide)
  rw [hnone] at hrun
  have hrow : ∃ row s, (accounts.execSelect (.traversal alongE) (.record ⟨"z", "a"⟩) none [] none).run
      (accounts.history relatedElsewhere).1 = (.ok (.rows [row]), s) := ⟨_, _, rfl⟩
  obtain ⟨row, s, hrow⟩ := hrow
  rw [hrow] at hrun
  cases hrun

end Runs

end Dllb
