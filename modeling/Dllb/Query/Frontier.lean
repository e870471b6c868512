import Mathlib
import Dllb.Query.Traversal

/-! # The frontier of a traversal

Hop by hop a traversal keeps the ids it has come to, each once. They are the ends
of the walks along the relations, which the graph engine lists one by one, with
the edges read back and nothing dropped.
-/

namespace Dllb

set_option autoImplicit false

open Key
open Traversal (VertexPath HopSpec nextPaths walkFrom)

/-! ## The records of a request -/

def Request.issued : Request → List Issued
  | .statement i => [i]
  | .batch stmts => stmts

/-- The parser takes identifiers for the ids of records, and these have no separator in them. -/
def Request.IdsNamed (r : Request) : Prop :=
  ∀ i ∈ r.issued, ∀ ref, QueryExecutor.recordOf i = some ref → NulFree ref.id

namespace QueryExecutor

section Records

variable [Rmp]

theorem Collects.mem_document {ex : QueryExecutor} {s : Store} {stmts : List Issued} {st : BatchState}
    (h : Collects ex s stmts st) (hnamed : ∀ i ∈ stmts, i.stmt.Named) {r : RecordRef}
    (hr : NulFree r.table) (hmem : documentKey ex.ns ex.db r.table r.id ∈ s.writeBatch st.puts st.deletes) :
    documentKey ex.ns ex.db r.table r.id ∈ s ∨ ∃ i ∈ stmts, recordOf i = some r := by
  rcases (Store.mem_writeBatch_iff ..).mp hmem with hput | ⟨-, hold⟩
  · right
    by_contra hnone
    push Not at hnone
    have hlast : ex.lastGiven s stmts r = none := lastGiven_eq_none_iff.mpr hnone
    rcases h.lastPut_document hnamed hr with ⟨-, hput'⟩ | ⟨fields, b, hgiven, -⟩
    · exact Store.lastPut_eq_none_iff.mp hput' hput
    · rw [hlast] at hgiven
      cases hgiven
  · exact .inl hold

/-- Updates and deletions make no record. -/
theorem mem_document_of_steps {ex : QueryExecutor} {table : String} {defs : List IndexDefinition}
    (htable : NulFree table) {Q : Store → String → Option Fields → Prop}
    (hQ : ∀ s id new, Q s id new → new = none ∨ (ex.collection table defs).docKey id ∈ s) {s s' : Store}
    (h : (ex.collection table defs).Steps Q s s') {r : RecordRef} (hr : NulFree r.table)
    (hmem : documentKey ex.ns ex.db r.table r.id ∈ s') : documentKey ex.ns ex.db r.table r.id ∈ s := by
  induction h with
  | refl s => exact hmem
  | @step s s₁ s₂ id old new replaced meets _ ih =>
    have hmem := ih hmem
    by_cases htab : r.table = table
    · have hkey : documentKey ex.ns ex.db r.table r.id = (ex.collection table defs).docKey r.id := by
        rw [htab]
        rfl
      rw [hkey] at hmem ⊢
      by_cases hid : r.id = id
      · rw [hid] at hmem ⊢
        rcases hQ s id new meets with rfl | hin
        · have hafter : s₁[(ex.collection table defs).docKey id]? = none := replaced.after
          rw [← Std.ExtTreeMap.isSome_getElem?_iff_mem, hafter] at hmem
          cases hmem
        · exact hin
      · have hne : (ex.collection table defs).docKey r.id ≠ (ex.collection table defs).docKey id :=
          fun heq => hid (documentKey_inj.mp heq)
        have hsame := replaced.other _ hne
        rw [if_neg (Collection.docKey_notMem_entryKeys _ id r.id new),
          if_neg (Collection.docKey_notMem_entryKeys _ id r.id old)] at hsame
        exact (mem_congr hsame).mp hmem
    · have hsame := replaced.frame htable hr (.inl htab) (asBytes r.id) (t := Tag.document)
      rw [documentKey_eq] at hmem ⊢
      exact (mem_congr hsame).mp hmem

variable [CodeIntel]

/-- The records of a table are there already or named by the request. -/
theorem mem_document_statement {ex : QueryExecutor} (hex : ex.Regular) {s : Store} (hs : ex.CatalogsOk s)
    {i : Issued} (hnamed : i.stmt.Named) {p : Db QueryResult} (hp : ex.execute i = some p) {r : RecordRef}
    (hr : NulFree r.table) (hmem : documentKey ex.ns ex.db r.table r.id ∈ (p.run s).2) :
    documentKey ex.ns ex.db r.table r.id ∈ s ∨ recordOf i = some r := by
  have hops : ∀ {q s'}, (∃ a, ex.alone s i = .ok a ∧ ex.Admitted s i ∧
      s' = s.writeBatch a.puts a.deletes ∧ q = ex.answer s i) →
        documentKey ex.ns ex.db r.table r.id ∈ s' →
          documentKey ex.ns ex.db r.table r.id ∈ s ∨ recordOf i = some r := by
    rintro q s' ⟨a, ha, -, rfl, -⟩ hmem
    have hone : ∀ j ∈ [i], j.stmt.Named := List.forall_mem_singleton.mpr hnamed
    simpa using (collects_singleton ha).mem_document hone hr hmem
  obtain ⟨uuid, stmt⟩ := i
  obtain ⟨result, s', hrun⟩ : ∃ result s', p.run s = (result, s') := ⟨_, _, rfl⟩
  rw [hrun] at hmem
  cases stmt with
  | create table id fields onConflict =>
    cases hp
    cases result with
    | error e =>
      rw [(ex.writesLast_execCreate uuid table id fields onConflict).run_error hrun] at hmem
      exact .inl hmem
    | ok q => exact hops ((execCreate_eq_ok_iff rfl).mp hrun) hmem
  | relate src edgeType dst fields =>
    cases hp
    cases result with
    | error e =>
      rw [(ex.writesLast_execRelate src edgeType dst fields).run_error hrun] at hmem
      exact .inl hmem
    | ok q => exact hops ((execRelate_eq_ok_iff rfl).mp hrun) hmem
  | update target fields filter =>
    cases hp
    have htable : NulFree (targetTable target) := by cases target <;> exact hnamed
    obtain ⟨defs, _, hload, -⟩ := hs.load hex htable
    exact .inl (mem_document_of_steps htable (fun _ _ _ => .inr) (execUpdate_steps hload hrun) hr hmem)
  | delete table id =>
    cases hp
    obtain ⟨defs, _, hload, -⟩ := hs.load hex hnamed
    exact .inl (mem_document_of_steps hnamed (fun _ _ _ => .inl) (execDelete_steps hload hrun) hr hmem)
  | deleteWhere table filter =>
    cases hp
    obtain ⟨defs, _, hload, -⟩ := hs.load hex hnamed
    exact .inl (mem_document_of_steps hnamed (fun _ _ _ => .inl) (execDeleteWhere_steps hload hrun) hr hmem)
  | defineIndex name table fields unique =>
    cases hp
    rcases run_execDefineIndex hrun with ⟨_, -, rfl⟩ | ⟨-, -, docs, puts, b, -, hputs, -, rfl⟩
    · exact .inl hmem
    · rw [documentKey_eq] at hmem ⊢
      exact .inl ((mem_congr (getElem?_define_apart hnamed.2 hputs s b hr
        (.inr ⟨by decide, by decide⟩) (asBytes r.id))).mp hmem)
  | removeIndex name table =>
    cases hp
    rcases run_execRemoveIndex hrun with ⟨_, -, rfl, -⟩ | ⟨-, rfl⟩
    · exact .inl hmem
    · rcases (Store.mem_writeBatch_iff ..).mp hmem with hput | ⟨-, hold⟩
      · exact absurd hput List.not_mem_nil
      · exact .inl hold
  | _ => cases hp

/-- The ids of the records are named. -/
def IdsNamed (ex : QueryExecutor) (s : Store) : Prop :=
  ∀ r : RecordRef, NulFree r.table → documentKey ex.ns ex.db r.table r.id ∈ s → NulFree r.id

theorem IdsNamed.request {ex : QueryExecutor} (hex : ex.Regular) {s : Store} (hs : ex.CatalogsOk s)
    (h : ex.IdsNamed s) {r : Request} (hnamed : r.Named) (hids : r.IdsNamed) {p : Db QueryResult}
    (hp : ex.prog r = some p) : ex.IdsNamed (p.run s).2 := by
  intro ref href hmem
  cases r with
  | statement i =>
    rcases mem_document_statement hex hs hnamed hp href hmem with hold | hnew
    · exact h ref href hold
    · exact hids i (List.mem_singleton.mpr rfl) ref hnew
  | batch stmts =>
    cases hp
    rcases hrun : (ex.executeBatch stmts).run s with ⟨_ | q, s'⟩
    · rw [hrun, run_executeBatch_error hrun] at hmem
      exact h ref href hmem
    · obtain ⟨st, hst, rfl, -⟩ := run_executeBatch hrun
      rw [hrun] at hmem
      rcases hst.mem_document hnamed href hmem with hold | ⟨i, hi, hnew⟩
      · exact h ref href hold
      · exact hids i hi ref hnew

theorem history_idsNamed {ex : QueryExecutor} (hex : ex.Regular) {reqs : List Request}
    (hnamed : ∀ r ∈ reqs, r.Named) (hids : ∀ r ∈ reqs, r.IdsNamed) : ex.IdsNamed (ex.history reqs).1 := by
  have hrun : ∀ h : Store × List Relation, ex.Reachable (fun _ _ => True) h.1 → ex.IdsNamed h.1 →
      ex.IdsNamed (reqs.foldl ex.perform h).1 := by
    induction reqs with
    | nil => exact fun _ _ h => h
    | cons r reqs ih =>
      obtain ⟨hr, hnamed⟩ := List.forall_mem_cons.mp hnamed
      obtain ⟨hid, hids⟩ := List.forall_mem_cons.mp hids
      intro h hreach hok
      have hnext := reachable_foldl [r] (List.forall_mem_singleton.mpr hr) hreach
      refine ih hnamed hids _ hnext ?_
      rw [perform]
      split
      · exact hok
      · rename_i p hp
        exact hok.request hex (hreach.catalogsOk hex) hr hid hp
  refine hrun (∅, []) .empty ?_
  rintro ref - hmem
  simp at hmem

end Records

/-! ## The edges can be read back -/

section Edges

variable [Rmp]

theorem deserializeProps_ok {f : Fields} {b : Bytes} (h : EdgeStore.serializeProps f = .ok b) :
    ∃ g, EdgeStore.deserializeProps b = .ok g := by
  unfold EdgeStore.serializeProps at h
  split at h
  · cases h
    exact ⟨∅, rfl⟩
  · cases hvec : Rmp.toVec f with
    | error e =>
      rw [hvec] at h
      cases h
    | ok b' =>
      rw [hvec] at h
      obtain rfl := Except.ok.inj h
      unfold EdgeStore.deserializeProps
      split
      · exact ⟨∅, rfl⟩
      · rw [Rmp.fromSlice_toVec hvec]
        exact ⟨f, rfl⟩

/-- What the edge entries hold can be read as properties. -/
def EdgesReadable (s : Store) : Prop :=
  ∀ (q : Place) (k b : Bytes), q.start Tag.graphEdge <+: k → s[k]? = some b →
    ∃ f, EdgeStore.deserializeProps b = .ok f

theorem Adds.readable_puts {ex : QueryExecutor} (hex : ex.Regular) {s : Store} {i : Issued}
    {a : BatchState} (h : Adds ex s i a) (hnamed : i.stmt.Named) {q : Place} {k b : Bytes}
    (hk : q.start Tag.graphEdge <+: k) (hput : (k, b) ∈ a.puts) :
    ∃ f, EdgeStore.deserializeProps b = .ok f := by
  cases hedge : ex.edge i with
  | none => exact absurd hk (h.puts_outside hex hnamed hedge q k (List.mem_map_of_mem hput))
  | some w =>
    obtain ⟨src, edgeType, dst, fields, hstmt, -⟩ := edge_eq_some hedge
    cases h with
    | record names =>
      rw [recordOf, hstmt] at names
      cases names
    | relate stmt puts deletes created updated =>
      rw [hstmt] at stmt
      cases stmt
      unfold EdgeStore.relateToOps at puts
      cases hprops : EdgeStore.serializeProps (edgeOf src edgeType dst fields).properties with
      | error e =>
        rw [hprops] at puts
        cases puts
      | ok props =>
        rw [hprops] at puts
        rw [← Except.ok.inj puts] at hput
        rcases List.mem_cons.mp hput with heq | hput
        · obtain ⟨-, rfl⟩ := Prod.mk.inj heq
          exact deserializeProps_ok hprops
        · obtain ⟨-, rfl⟩ := Prod.mk.inj (List.mem_singleton.mp hput)
          exact ⟨∅, rfl⟩

theorem Collects.readable_puts {ex : QueryExecutor} (hex : ex.Regular) {s : Store} {stmts : List Issued}
    {st : BatchState} (h : Collects ex s stmts st) (hnamed : ∀ i ∈ stmts, i.stmt.Named) {q : Place}
    {k b : Bytes} (hk : q.start Tag.graphEdge <+: k) (hput : (k, b) ∈ st.puts) :
    ∃ f, EdgeStore.deserializeProps b = .ok f := by
  induction h with
  | nil => exact absurd hput List.not_mem_nil
  | @cons i stmts a rest st head tail follows ih =>
    obtain ⟨hi, hrest⟩ := List.forall_mem_cons.mp hnamed
    rw [follows.puts] at hput
    rcases List.mem_append.mp hput with hput | hput
    · exact (adds_of_alone head).readable_puts hex hi hk hput
    · exact ih hrest hput

variable [CodeIntel]

theorem EdgesReadable.request {ex : QueryExecutor} (hex : ex.Regular) {s : Store} (h : EdgesReadable s)
    {r : Request} (hnamed : r.Named) {p : Db QueryResult} (hp : ex.prog r = some p) :
    EdgesReadable (p.run s).2 := by
  intro q k b hk hb
  by_cases hedges : ex.edges r = []
  · have hnot : ¬ ex.Touches q r := fun htouch => edges_ne_nil htouch hedges
    rw [sameEdges_request hex hnamed hnot hp s k hk] at hb
    exact h q k b hk hb
  · obtain ⟨result, s', hrun⟩ : ∃ result s', p.run s = (result, s') := ⟨_, _, rfl⟩
    rw [hrun] at hb
    rcases collects_of_edges hnamed hedges hp hrun with ⟨_, -, rfl⟩ | ⟨stmts, st, hstmts, -, hst, -, rfl⟩
    · exact h q k b hk hb
    · rw [Store.getElem?_writeBatch] at hb
      rcases Option.or_eq_some_iff.mp hb with hput | ⟨-, hold⟩
      · exact hst.readable_puts hex hstmts hk (Store.mem_of_lastPut_eq_some hput)
      · exact h q k b hk (Option.ite_none_left_eq_some.mp hold).2

theorem history_edgesReadable {ex : QueryExecutor} (hex : ex.Regular) {reqs : List Request}
    (hnamed : ∀ r ∈ reqs, r.Named) : EdgesReadable (ex.history reqs).1 := by
  have hrun : ∀ h : Store × List Relation, EdgesReadable h.1 →
      EdgesReadable (reqs.foldl ex.perform h).1 := by
    induction reqs with
    | nil => exact fun _ h => h
    | cons r reqs ih =>
      obtain ⟨hr, hnamed⟩ := List.forall_mem_cons.mp hnamed
      intro h hok
      refine ih hnamed _ ?_
      rw [perform]
      split
      · exact hok
      · rename_i p hp
        exact hok.request hex hr hp
  refine hrun (∅, []) ?_
  rintro q k b - hb
  cases hb

end Edges

/-! ## The edges the graph engine lists -/

/-- What the outgoing entries of a place hold. -/
def liveAt [Rmp] (q : Place) (s : Store) : Live :=
  fun t => s[t.outKey q]?.bind fun b => (EdgeStore.deserializeProps b).toOption

/-- The relation has its entries at the place, and they are those of the edge. -/
def Places (ex : QueryExecutor) (hex : ex.Regular) (q : Place) (t : Triple) (r : Relation) : Prop :=
  ∃ hr : r.Named, q = ex.place hex r.edgeType hr.edgeType ∧ t = r.triple hr

theorem Recorded.mem_outKey_iff {ex : QueryExecutor} (hex : ex.Regular) {rels : List Relation} {s : Store}
    (h : ex.Recorded rels s) (q : Place) (t : Triple) :
    t.outKey q ∈ s ↔ ∃ r ∈ rels, ex.Places hex q t r := by
  have hscope := h.mem_scope_iff hex q (.table Tag.graphEdge) rfl (t.outKey q)
  have hprefix : (Scope.table Tag.graphEdge).start q <+: t.outKey q := by
    rw [Triple.outKey, t.outContent.key_eq]
    exact List.prefix_append ..
  rw [← and_iff_left hprefix (a := t.outKey q ∈ s), hscope]
  refine exists_congr fun r => and_congr_right fun _ => exists_congr fun hr => and_congr_right fun _ => ?_
  constructor
  · rintro (⟨hkey, -⟩ | ⟨hkey, -⟩)
    · exact Triple.outKey_inj.mp hkey
    · exact (Triple.outKey_ne_inKey _ _ _ hkey).elim
  · rintro rfl
    exact .inl ⟨rfl, rfl⟩

theorem Recorded.mem_inKey_iff {ex : QueryExecutor} (hex : ex.Regular) {rels : List Relation} {s : Store}
    (h : ex.Recorded rels s) (q : Place) (t : Triple) :
    t.inKey q ∈ s ↔ ∃ r ∈ rels, ex.Places hex q t r := by
  have hscope := h.mem_scope_iff hex q (.table Tag.graphEdge) rfl (t.inKey q)
  have hprefix : (Scope.table Tag.graphEdge).start q <+: t.inKey q := by
    rw [Triple.inKey, t.inContent.key_eq]
    exact List.prefix_append ..
  rw [← and_iff_left hprefix (a := t.inKey q ∈ s), hscope]
  refine exists_congr fun r => and_congr_right fun _ => exists_congr fun hr => and_congr_right fun _ => ?_
  constructor
  · rintro (⟨hkey, -⟩ | ⟨hkey, -⟩)
    · exact (Triple.outKey_ne_inKey _ _ _ hkey.symm).elim
    · exact Triple.inKey_inj.mp hkey
  · rintro rfl
    exact .inr ⟨rfl, rfl⟩

section Listed

variable [Rmp]

theorem liveAt_isSome {s : Store} (hread : EdgesReadable s) (q : Place) (t : Triple) :
    (liveAt q s t).isSome = s[t.outKey q]?.isSome := by
  have hprefix : q.start Tag.graphEdge <+: t.outKey q := by
    rw [Triple.outKey, t.outContent.key_eq]
    exact List.prefix_append ..
  rw [liveAt]
  cases hb : s[t.outKey q]? with
  | none => rfl
  | some b =>
    obtain ⟨f, hf⟩ := hread q _ b hprefix hb
    simp [hf, Except.toOption]

/-- The edges of a place are those of the relations. -/
theorem Recorded.liveAt_iff {ex : QueryExecutor} (hex : ex.Regular) {rels : List Relation} {s : Store}
    (h : ex.Recorded rels s) (hread : EdgesReadable s) (q : Place) (t : Triple) :
    (∃ f, liveAt q s t = some f) ↔ ∃ r ∈ rels, ex.Places hex q t r := by
  rw [← h.mem_outKey_iff hex, ← Std.ExtTreeMap.isSome_getElem?_iff_mem, ← liveAt_isSome hread,
    Option.isSome_iff_exists]

theorem Recorded.mirrors {ex : QueryExecutor} (hex : ex.Regular) {rels : List Relation} {s : Store}
    (h : ex.Recorded rels s) (hread : EdgesReadable s) (q : Place) : Mirrors q (liveAt q s) s where
  outgoing t := by
    have hprefix : q.start Tag.graphEdge <+: t.outKey q := by
      rw [Triple.outKey, t.outContent.key_eq]
      exact List.prefix_append ..
    cases hb : s[t.outKey q]? with
    | none =>
      rw [liveAt, hb]
      rfl
    | some b =>
      obtain ⟨f, hf⟩ := hread q _ b hprefix hb
      rw [liveAt, hb, Option.bind_some, hf]
      exact ⟨b, rfl, hf⟩
  incoming t := by
    rw [liveAt_isSome hread, Bool.eq_iff_iff, Std.ExtTreeMap.isSome_getElem?_iff_mem,
      Std.ExtTreeMap.isSome_getElem?_iff_mem, h.mem_inKey_iff hex, h.mem_outKey_iff hex]
  only k hk hprefix := by
    obtain ⟨r, -, hr, rfl, ⟨hkey, -⟩ | ⟨hkey, -⟩⟩ :=
      (h.mem_scope_iff hex q (.table Tag.graphEdge) rfl k).mp ⟨hk, hprefix⟩
    · exact ⟨_, .inl hkey⟩
    · exact ⟨_, .inr hkey⟩

/-- The hop of the graph engine goes the way of a hop of a query, along the edges of one type. -/
structure SameHop (et : String) (hop : TraversalHop) (spec : HopSpec) : Prop where
  edgeType : hop.edgeType = et
  direction : spec.direction = match hop.direction with
    | .out => .out
    | .in' => .in'
  specType : ∀ y ∈ spec.edgeType, y = et

/-- The far ends of the edges that a program lists at a vertex are those of the relations there. -/
theorem Recorded.ends_of_lists {ex : QueryExecutor} (hex : ex.Regular) {rels : List Relation} {s : Store}
    (h : ex.Recorded rels s) (hread : EdgesReadable s) {et : String} (het : NulFree et) {v : String}
    {prog : Db (List Edge)} {sel : Triple → Prop}
    (hlists : Lists prog s ((liveAt (ex.place hex et het) s).Among sel)) (near far : Relation → String)
    (hsel : ∀ (r : Relation) (hr : r.Named), r.edgeType = et → (sel (r.triple hr) ↔ near r = v))
    {next : Edge → String} (hnext : ∀ (r : Relation) (hr : r.Named) f, next ((r.triple hr).edge f) = far r) :
    ∃ edges, prog.run s = (.ok edges, s) ∧
      ∀ x, x ∈ edges.map next ↔ ∃ r ∈ rels, r.edgeType = et ∧ near r = v ∧ far r = x := by
  obtain ⟨edges, hrun, -, hmem⟩ := hlists
  have hlive := h.liveAt_iff hex hread (ex.place hex et het)
  refine ⟨edges, hrun, fun x => ?_⟩
  rw [List.mem_map]
  constructor
  · rintro ⟨e, he, rfl⟩
    obtain ⟨t, f, ht, hf, rfl⟩ := (hmem e).mp he
    obtain ⟨r, hr, hn, hq, rfl⟩ := (hlive t).mp ⟨f, hf⟩
    have htype : r.edgeType = et := (congrArg (fun p : Place => p.table.1) hq).symm
    exact ⟨r, hr, htype, (hsel r hn htype).mp ht, (hnext r hn f).symm⟩
  · rintro ⟨r, hr, rfl, hnear, rfl⟩
    have hn := h.named r hr
    obtain ⟨f, hf⟩ := (hlive (r.triple hn)).mpr ⟨r, hr, hn, rfl, rfl⟩
    exact ⟨_, (hmem _).mpr ⟨_, f, (hsel r hn rfl).mpr hnear, hf, rfl⟩, hnext r hn f⟩

/-- The vertices that the edges of a hop lead to are the ends of the hop, whether or not the engine
is asked for their type. -/
theorem Recorded.run_hopEdges {ex : QueryExecutor} (hex : ex.Regular) {rels : List Relation} {s : Store}
    (h : ex.Recorded rels s) (hread : EdgesReadable s) {et : String} (het : NulFree et)
    {hop : TraversalHop} {spec : HopSpec} (hsame : SameHop et hop spec) {v : String}
    (hv : NulFree v) :
    ∃ edges, (Traversal.hopEdges ⟨ex.ns, ex.db, et⟩ spec v).run s = (.ok edges, s) ∧
      ∀ x, x ∈ edges.map spec.nextVertex ↔ IdStep rels hop v x := by
  let w : Segment := ⟨v, hv⟩
  let y : Segment := ⟨et, het⟩
  have hmirrors := h.mirrors hex hread (ex.place hex et het)
  obtain ⟨direction, edgeType⟩ := spec
  have htype : edgeType = none ∨ edgeType = some et := by
    cases edgeType with
    | none => exact .inl rfl
    | some z => exact .inr (congrArg some (hsame.specType z rfl))
  cases hdir : hop.direction with
  | out =>
    obtain rfl : direction = .out := by
      have hdirection := hsame.direction
      rwa [hdir] at hdirection
    simp only [idStep_out_iff hdir, hsame.edgeType]
    obtain rfl | rfl := htype
    · have hlists := hmirrors.lists_outgoing (.vertexOutgoing w) rfl (fun _ => Iff.rfl) (fun _ => id)
        fun _ ht => ht
      exact h.ends_of_lists hex hread het hlists (fun r => r.src.id) (fun r => r.dst.id)
        (fun _ _ _ => Subtype.ext_iff) fun _ _ _ => rfl
    · have hlists := hmirrors.lists_outgoing (.vertexOutgoingTyped w y) rfl (fun _ => Iff.rfl) (fun _ => id)
        fun _ ht => ht.1
      exact h.ends_of_lists hex hread het hlists (fun r => r.src.id) (fun r => r.dst.id)
        (fun r hr htype => (and_iff_left (Subtype.ext htype)).trans Subtype.ext_iff) fun _ _ _ => rfl
  | in' =>
    obtain rfl : direction = .in' := by
      have hdirection := hsame.direction
      rwa [hdir] at hdirection
    simp only [idStep_in_iff hdir, hsame.edgeType]
    obtain rfl | rfl := htype
    · have hlists := hmirrors.lists_incoming (.vertexIncoming w) rfl (fun _ => Iff.rfl) (fun _ => id)
        fun _ ht => ht
      exact h.ends_of_lists hex hread het hlists (fun r => r.dst.id) (fun r => r.src.id)
        (fun _ _ _ => Subtype.ext_iff) fun _ _ _ => rfl
    · have hlists := hmirrors.lists_incoming (.vertexIncomingTyped w y) rfl (fun _ => Iff.rfl) (fun _ => id)
        fun _ ht => ht.1
      exact h.ends_of_lists hex hread het hlists (fun r => r.dst.id) (fun r => r.src.id)
        (fun r hr htype => (and_iff_left (Subtype.ext htype)).trans Subtype.ext_iff) fun _ _ _ => rfl

/-! ## The walks -/

theorem Recorded.run_nextPaths {ex : QueryExecutor} (hex : ex.Regular) {rels : List Relation} {s : Store}
    (h : ex.Recorded rels s) (hread : EdgesReadable s) {et : String} (het : NulFree et)
    {hop : TraversalHop} {spec : HopSpec} (hsame : SameHop et hop spec) {paths : List VertexPath}
    (hpaths : ∀ path ∈ paths, NulFree path.last) :
    ∃ next, (nextPaths ⟨ex.ns, ex.db, et⟩ spec paths).run s = (.ok next, s) ∧
      ∀ path, path ∈ next ↔ ∃ before ∈ paths, ∃ x, IdStep rels hop before.last x ∧ path = before.push x := by
  induction paths with
  | nil => exact ⟨[], rfl, by simp⟩
  | cons before paths ih =>
    obtain ⟨hbefore, hpaths⟩ := List.forall_mem_cons.mp hpaths
    obtain ⟨edges, hedges, hends⟩ := h.run_hopEdges hex hread het hsame hbefore
    obtain ⟨rest, hrest, hmem⟩ := ih hpaths
    refine ⟨edges.map (fun edge => before.push (spec.nextVertex edge)) ++ rest, ?_, fun path => ?_⟩
    · rw [nextPaths, Prog.run_bind_ok hedges, Prog.run_bind_ok hrest]
      rfl
    · rw [List.mem_append, hmem, List.exists_mem_cons_iff]
      refine or_congr_left ?_
      simp only [← hends, List.mem_map]
      constructor
      · rintro ⟨edge, hedge, rfl⟩
        exact ⟨_, ⟨edge, hedge, rfl⟩, rfl⟩
      · rintro ⟨_, ⟨edge, hedge, rfl⟩, rfl⟩
        exact ⟨edge, hedge, rfl⟩

/-- The paths of a walk end where the hops lead to. -/
theorem Recorded.run_walkFrom {ex : QueryExecutor} (hex : ex.Regular) {rels : List Relation} {s : Store}
    (h : ex.Recorded rels s) (hread : EdgesReadable s) {et : String} (het : NulFree et)
    {hops : List TraversalHop} {specs : List HopSpec} (hsame : List.Forall₂ (SameHop et) hops specs)
    {paths : List VertexPath} (hpaths : ∀ path ∈ paths, NulFree path.last) :
    ∃ walks, (walkFrom ⟨ex.ns, ex.db, et⟩ specs paths).run s = (.ok walks, s) ∧
      ∀ x, (∃ walk ∈ walks, walk.last = x) ↔ ∃ path ∈ paths, Path (IdStep rels) hops path.last x := by
  induction hsame generalizing paths with
  | nil =>
    refine ⟨paths, rfl, fun x => exists_congr fun path => and_congr_right fun _ => ?_⟩
    constructor
    · rintro rfl
      exact .nil _
    · rintro ⟨⟩
      rfl
  | @cons hop spec hops specs hhead _ ih =>
    obtain ⟨next, hnext, hmem⟩ := h.run_nextPaths hex hread het hhead hpaths
    have hfree : ∀ path ∈ next, NulFree path.last := by
      intro path hpath
      obtain ⟨_, -, x, hstep, rfl⟩ := (hmem path).mp hpath
      rw [VertexPath.last_push]
      exact hstep.nulFree h.named
    obtain ⟨walks, hwalks, hends⟩ := ih hfree
    refine ⟨walks, ?_, fun x => ?_⟩
    · rw [walkFrom, Prog.run_bind_ok hnext, hwalks]
    · rw [hends]
      constructor
      · rintro ⟨path, hpath, hrest⟩
        obtain ⟨before, hbefore, y, hstep, rfl⟩ := (hmem path).mp hpath
        rw [VertexPath.last_push] at hrest
        exact ⟨before, hbefore, .cons hstep hrest⟩
      · rintro ⟨before, hbefore, hpath⟩
        cases hpath with
        | cons first rest =>
          refine ⟨before.push _, (hmem _).mpr ⟨before, hbefore, _, first, rfl⟩, ?_⟩
          rwa [VertexPath.last_push]

end Listed

/-! ## The ids of a table -/

section Ids

variable [Rmp]

omit [Rmp] in
theorem decodeIds_eq_ok {c : Collection} (hc : c.Regular) {keys : List Bytes}
    (h : ∀ k ∈ keys, ∃ id, k = c.docKey id) :
    ∃ ids, Collection.decodeIds keys = .ok ids ∧ keys = ids.map c.docKey := by
  induction keys with
  | nil => exact ⟨[], rfl, rfl⟩
  | cons k keys ih =>
    obtain ⟨⟨id, rfl⟩, hrest⟩ := List.forall_mem_cons.mp h
    obtain ⟨ids, hids, rfl⟩ := ih hrest
    refine ⟨id :: ids, ?_, rfl⟩
    rw [Collection.decodeIds, hc.idOfKey_docKey, hids]
    rfl

/-- A scan of the ids gives those of the stored records, each once. -/
theorem Legible.run_scanIds {ex : QueryExecutor} (hex : ex.Regular) {table : String}
    (htable : NulFree table) {s : Store} (h : ex.Legible table s) :
    ∃ ids, (Collection.new ex.ns ex.db table).scanIds.run s = (.ok ids, s) ∧ ids.Nodup ∧
      ∀ x, x ∈ ids ↔ ∃ fields, ex.stored s ⟨table, x⟩ = some fields := by
  have hc : (Collection.new ex.ns ex.db table).Regular :=
    ⟨hex.ns, hex.db, htable, by simp [Collection.new], by simp [Collection.new], .nil⟩
  have hend : prefixEnd (tablePrefix ex.ns ex.db table Tag.document) ≠ [] :=
    (Collection.new ex.ns ex.db table).prefixEnd_documents_ne_nil
  have hscanned : ∀ k ∈ s.scanPrefixKeys (tablePrefix ex.ns ex.db table Tag.document),
      ∃ id, k = (Collection.new ex.ns ex.db table).docKey id := by
    intro k hk
    obtain ⟨hmem, r, rfl⟩ := (Store.mem_scanPrefixKeys_iff hend).mp hk
    obtain ⟨b, hb⟩ := Option.isSome_iff_exists.mp (Std.ExtTreeMap.isSome_getElem?_iff_mem.mpr hmem)
    obtain ⟨id, -, rfl, -⟩ := h.readable r b hb
    exact ⟨id, rfl⟩
  obtain ⟨ids, hids, hkeys⟩ := decodeIds_eq_ok hc hscanned
  refine ⟨ids, ?_, ?_, fun x => ?_⟩
  · exact (Prog.run_query_bind ..).trans (congrArg (fun r : Result (List String) => (Prog.lift r).run s) hids)
  · refine List.Nodup.of_map (Collection.new ex.ns ex.db table).docKey ?_
    rw [← hkeys]
    exact (List.pairwise_map.mpr (s.pairwise_scan _ _)).imp fun hlt => ne_of_lt hlt
  · have hmem : x ∈ ids ↔ documentKey ex.ns ex.db table x ∈ s := by
      have hkey : documentKey ex.ns ex.db table x ∈
          s.scanPrefixKeys (tablePrefix ex.ns ex.db table Tag.document) ↔ x ∈ ids := by
        rw [hkeys, List.mem_map]
        constructor
        · rintro ⟨id, hid, heq⟩
          rwa [← documentKey_inj.mp heq]
        · intro hx
          exact ⟨x, hx, rfl⟩
      rw [← hkey, Store.mem_scanPrefixKeys_iff hend, documentKey_eq]
      exact and_iff_left (List.prefix_append ..)
    rw [hmem, ← Std.ExtTreeMap.isSome_getElem?_iff_mem, Option.isSome_iff_exists]
    constructor
    · rintro ⟨b, hb⟩
      have hb' := hb
      rw [documentKey_eq] at hb'
      obtain ⟨id, fields, -, hfields⟩ := h.readable _ b hb'
      refine ⟨fields, Option.bind_eq_some_iff.mpr ⟨b, hb, ?_⟩⟩
      rw [hfields]
      rfl
    · rintro ⟨fields, hstored⟩
      obtain ⟨b, hb, -⟩ := Option.bind_eq_some_iff.mp hstored
      exact ⟨b, hb⟩

/-- The ids a traversal starts from. -/
def Starts (ex : QueryExecutor) (s : Store) : FromTarget → String → Prop
  | .record r, v => v = r.id
  | .table t, v => ∃ fields, ex.stored s ⟨t, v⟩ = some fields

/-- The parser takes identifiers for the start of a traversal. -/
def StartNamed : FromTarget → Prop
  | .record r => NulFree r.id
  | .table t => NulFree t

theorem run_startIds {ex : QueryExecutor} (hex : ex.Regular) {s : Store} (hlegible : ex.AllLegible s)
    (hids : ex.IdsNamed s) {source : FromTarget} (hsource : StartNamed source) :
    ∃ ids, (ex.startIds source).run s = (.ok ids, s) ∧ ids.Nodup ∧ (∀ v ∈ ids, NulFree v) ∧
      ∀ v, v ∈ ids ↔ ex.Starts s source v := by
  cases source with
  | record r =>
    exact ⟨[r.id], rfl, List.nodup_singleton _, List.forall_mem_singleton.mpr hsource,
      fun _ => List.mem_singleton⟩
  | table t =>
    obtain ⟨ids, hrun, hnodup, hmem⟩ := (hlegible t hsource).run_scanIds hex hsource
    refine ⟨ids, hrun, hnodup, fun v hv => ?_, hmem⟩
    obtain ⟨fields, hstored⟩ := (hmem v).mp hv
    obtain ⟨b, hb, -⟩ := Option.bind_eq_some_iff.mp hstored
    refine hids ⟨t, v⟩ hsource (Std.ExtTreeMap.isSome_getElem?_iff_mem.mp ?_)
    rw [hb]
    rfl

end Ids

/-! ## The frontier -/

section Frontier

variable [Rmp] [CodeIntel]

/-- What a traversal makes of the ids it has come to. -/
def lookUp (ex : QueryExecutor) (chain : TraversalChain) (filter : Option WhereClause)
    (limit : Option Nat) (ids : List String) : Db QueryResult :=
  match chain.hops.getLast? with
  | none => return .rows []
  | some hop => do
    let docs ← (Collection.new ex.ns ex.db hop.destTable).getMany ids
    let found := docs.filter fun doc => filter.all (matchesWhere doc)
    return .rows (limited (found.map (traversalRow hop.destTable chain.projection)) limit)

/-- The ids are those that a traversal has come to after its last hop. -/
def Resolves (ex : QueryExecutor) (s : Store) (source : FromTarget) (hops : List TraversalHop)
    (ids : List String) : Prop :=
  (∃ start, (ex.startIds source).run s = (.ok start, s) ∧ (ex.followHops hops start).run s = (.ok ids, s)) ∧
    ∀ chain filter limit, chain.hops = hops →
      (ex.execTraversalSelect chain source filter limit).run s = (ex.lookUp chain filter limit ids).run s

/-- The ids a traversal comes to are the ends of the walks along the relations, each once; from one
vertex and along one type of edges they are the last vertices of the paths that the graph engine
lists. -/
theorem frontier_is_ends {ex : QueryExecutor} (hex : ex.Regular) {reqs : List Request}
    (hnamed : ∀ r ∈ reqs, r.Named) (hrels : ∀ r ∈ reqs, ∀ rel ∈ r.relations, rel.Named)
    (hids : ∀ r ∈ reqs, r.IdsNamed) {source : FromTarget} (hsource : StartNamed source)
    {hops : List TraversalHop} (hhops : ∀ hop ∈ hops, NulFree hop.edgeType) {s : Store}
    {rels : List Relation} (hhistory : ex.history reqs = (s, rels)) :
    ∃ ids, ex.Resolves s source hops ids ∧ ids.Nodup ∧
      (∀ x, x ∈ ids ↔ ∃ v, ex.Starts s source v ∧ Path (IdStep rels) hops v x) ∧
      ∀ (r : RecordRef) (et : String) (specs : List HopSpec), source = .record r →
        List.Forall₂ (SameHop et) hops specs →
          ∃ walks, (Traversal.walk ⟨ex.ns, ex.db, et⟩ r.id specs).run s = (.ok walks, s) ∧
            ∀ x, x ∈ ids ↔ ∃ path ∈ walks, path.last = x := by
  have hrec := history_recorded hex hnamed hrels
  have hread := history_edgesReadable hex hnamed
  have hlegible := (history_reachable hnamed).allLegible hex
  have hidsNamed := history_idsNamed hex hnamed hids
  simp only [hhistory] at hrec hread hlegible hidsNamed
  obtain ⟨start, hids, hstartNodup, hfree, hstarts⟩ := run_startIds hex hlegible hidsNamed hsource
  obtain ⟨ids, hrun, hnodup, hmem⟩ := hrec.run_followHops hex hops hhops hfree hstartNodup
  simp only [hstarts] at hmem
  refine ⟨ids, ⟨⟨start, hids, hrun⟩, ?_⟩, hnodup, hmem, ?_⟩
  · rintro chain filter limit rfl
    rw [execTraversalSelect, Prog.run_bind_ok hids, Prog.run_bind_ok hrun]
    unfold lookUp
    cases chain.hops.getLast? <;> rfl
  · rintro r et specs rfl hsame
    have hwalk : ∃ walks, (Traversal.walk ⟨ex.ns, ex.db, et⟩ r.id specs).run s = (.ok walks, s) ∧
        ∀ x, (∃ path ∈ walks, path.last = x) ↔ Path (IdStep rels) hops r.id x := by
      cases hsame with
      | nil =>
        refine ⟨[.start r.id], rfl, fun x => ?_⟩
        simp only [List.mem_singleton, exists_eq_left, VertexPath.last_start]
        constructor
        · rintro rfl
          exact .nil _
        · rintro ⟨⟩
          rfl
      | @cons hop spec hops specs hhead htail =>
        have het : NulFree et := hhead.edgeType ▸ (List.forall_mem_cons.mp hhops).1
        have hstart : ∀ path ∈ [VertexPath.start r.id], NulFree path.last :=
          List.forall_mem_singleton.mpr hsource
        obtain ⟨walks, hwalks, hends⟩ := hrec.run_walkFrom hex hread het (.cons hhead htail) hstart
        refine ⟨walks, hwalks, fun x => ?_⟩
        simp only [hends, List.mem_singleton, exists_eq_left, VertexPath.last_start]
    obtain ⟨walks, hwalks, hends⟩ := hwalk
    refine ⟨walks, hwalks, fun x => ?_⟩
    rw [hmem, hends]
    simp [Starts]

end Frontier

end QueryExecutor

section Runs

open QueryExecutor Concrete

/-- `RELATE s:a->e->t:b`, `RELATE s:b->e->t:a` and `CREATE s:a`. -/
def relatedInCircle : List Request :=
  [.statement ⟨"", .relate ⟨"s", "a"⟩ "e" ⟨"t", "b"⟩ []⟩,
    .statement ⟨"", .relate ⟨"s", "b"⟩ "e" ⟨"t", "a"⟩ []⟩, .statement ⟨"", .create "s" (some "a") [] none⟩]

theorem named_relatedInCircle : ∀ r ∈ relatedInCircle, r.Named := by
  have he : NulFree "e" := by decide
  have hs : NulFree "s" := by decide
  exact List.forall_mem_cons.mpr ⟨he, List.forall_mem_cons.mpr ⟨he, List.forall_mem_singleton.mpr hs⟩⟩

theorem named_relations_relatedInCircle : ∀ r ∈ relatedInCircle, ∀ rel ∈ r.relations, rel.Named := by
  refine List.forall_mem_cons.mpr ⟨?_, List.forall_mem_cons.mpr ⟨?_, List.forall_mem_singleton.mpr ?_⟩⟩
  · exact List.forall_mem_singleton.mpr ⟨by decide, by decide, by decide⟩
  · exact List.forall_mem_singleton.mpr ⟨by decide, by decide, by decide⟩
  · exact fun _ hrel => absurd hrel List.not_mem_nil

theorem idsNamed_relatedInCircle : ∀ r ∈ relatedInCircle, r.IdsNamed := by
  refine List.forall_mem_cons.mpr ⟨?_, List.forall_mem_cons.mpr ⟨?_, List.forall_mem_singleton.mpr ?_⟩⟩
  · exact List.forall_mem_singleton.mpr fun _ h => by cases h
  · exact List.forall_mem_singleton.mpr fun _ h => by cases h
  · refine List.forall_mem_singleton.mpr fun _ h => ?_
    cases h
    decide

/-- Forth from `s:a` along an edge and back. -/
def forthAndBack : List TraversalHop := [⟨.out, "e", "t"⟩, ⟨.in', "e", "s"⟩]

theorem frontier_is_ends_relatedInCircle :
    ∃ ids, accounts.Resolves (accounts.history relatedInCircle).1 (.record ⟨"s", "a"⟩) forthAndBack ids ∧
      ids.Nodup ∧
      (∀ x, x ∈ ids ↔ ∃ v, accounts.Starts (accounts.history relatedInCircle).1 (.record ⟨"s", "a"⟩) v ∧
        Path (IdStep (accounts.history relatedInCircle).2) forthAndBack v x) ∧
      ∀ (r : RecordRef) (et : String) (specs : List HopSpec), FromTarget.record ⟨"s", "a"⟩ = .record r →
        List.Forall₂ (SameHop et) forthAndBack specs →
          ∃ walks, (Traversal.walk ⟨accounts.ns, accounts.db, et⟩ r.id specs).run
              (accounts.history relatedInCircle).1 = (.ok walks, (accounts.history relatedInCircle).1) ∧
            ∀ x, x ∈ ids ↔ ∃ path ∈ walks, path.last = x :=
  frontier_is_ends regular_accounts named_relatedInCircle named_relations_relatedInCircle
    idsNamed_relatedInCircle (show StartNamed (.record ⟨"s", "a"⟩) from (by decide : NulFree "a"))
    (List.forall_mem_cons.mpr ⟨by decide, List.forall_mem_singleton.mpr (by decide)⟩) rfl

end Runs

end Dllb
