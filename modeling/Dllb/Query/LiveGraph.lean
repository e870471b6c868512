import Mathlib
import Dllb.Graph.KeyScans
import Dllb.Query.Frontier

/-! # The graph of a run

The edges of one type form a graph whose vertices are ids. A `RELATE` that
succeeds, alone or in a batch, puts an edge there or replaces its properties, and
nothing takes an edge away. The store mirrors this graph after every run, and the
scans of the whole table list it.
-/

namespace Dllb

set_option autoImplicit false

open Key

/-! ## Graphs -/

/-- The properties of the edge from one id to another, if there is one. -/
abbrev Links := String → String → Option Fields

namespace Links

def empty : Links := fun _ _ => none

def relate (g : Links) (src dst : String) (properties : Fields) : Links :=
  fun a b => if a = src ∧ b = dst then some properties else g a b

/-- What a statement makes of the edges of a type when it succeeds. -/
def take (edgeType : String) (g : Links) (i : Issued) : Links :=
  match i.stmt with
  | .relate src type dst fields => if type = edgeType then g.relate src.id dst.id (assigned fields) else g
  | _ => g

/-- No id of an edge has the separator in it. -/
def Named (g : Links) : Prop := ∀ a b f, g a b = some f → NulFree a ∧ NulFree b

/-- A list of the edges, each once. -/
structure Listed (g : Links) (edges : List (String × String × Fields)) : Prop where
  nodup : (edges.map fun e => (e.1, e.2.1)).Nodup
  mem_iff : ∀ a b f, (a, b, f) ∈ edges ↔ g a b = some f

/-- The edges as an edge store names them. -/
def live (edgeType : String) (g : Links) : Live :=
  fun t => if t.edgeType.1 = edgeType then g t.src t.dst else none

theorem named_empty : empty.Named := by
  intro a b f h
  cases h

theorem live_empty (edgeType : String) : empty.live edgeType = fun _ => none := by
  funext t
  exact ite_self _

theorem Named.relate {g : Links} (h : g.Named) {src dst : String} (hsrc : NulFree src) (hdst : NulFree dst)
    (properties : Fields) : (g.relate src dst properties).Named := by
  intro a b f hf
  unfold Links.relate at hf
  split at hf
  · rename_i hab
    rw [hab.1, hab.2]
    exact ⟨hsrc, hdst⟩
  · exact h a b f hf

theorem live_relate (g : Links) (t : Triple) (properties : Fields) :
    (g.relate t.src t.dst properties).live t.edgeType =
      Function.update (g.live t.edgeType) t (some properties) := by
  funext u
  by_cases hu : u = t
  · rw [hu, Function.update_self, live, if_pos rfl, relate, if_pos ⟨rfl, rfl⟩]
  · rw [Function.update_of_ne hu, live, live]
    split
    · rename_i htype
      refine if_neg fun hends => hu ?_
      exact Triple.ext (Subtype.ext hends.1) (Subtype.ext htype) (Subtype.ext hends.2)
    · rfl

theorem isSome_take {g : Links} {a b : String} (h : (g a b).isSome) (edgeType : String) (i : Issued) :
    (g.take edgeType i a b).isSome := by
  obtain ⟨uuid, stmt⟩ := i
  cases stmt with
  | relate src type dst fields =>
    dsimp only [take]
    split
    · rw [relate]
      split
      · rfl
      · exact h
    · exact h
  | _ => exact h

theorem isSome_foldl_take {a b : String} (edgeType : String) (stmts : List Issued) :
    ∀ g : Links, (g a b).isSome → (stmts.foldl (take edgeType) g a b).isSome := by
  induction stmts with
  | nil => exact fun _ hg => hg
  | cons i stmts ih => exact fun g hg => ih _ (isSome_take hg edgeType i)

end Links

/-! ## What a request does to the graph -/

theorem Mirrors.sameEdges [Rmp] {p : Place} {live : Live} {s s' : Store} (h : Mirrors p live s)
    (hs : SameEdges p s s') : Mirrors p live s' := by
  have hkey : ∀ c : Content, c.tag = Tag.graphEdge → s'[c.key p]? = s[c.key p]? := by
    intro c hc
    apply hs
    rw [c.key_eq, hc]
    exact List.prefix_append ..
  constructor
  · intro t
    rw [Triple.outKey, hkey _ rfl]
    exact h.outgoing t
  · intro t
    rw [Triple.inKey, hkey _ rfl]
    exact h.incoming t
  · intro k hk hpre
    refine h.only k ?_ hpre
    rw [← Std.ExtTreeMap.isSome_getElem?_iff_mem] at hk ⊢
    rwa [hs k hpre] at hk

/-! ## The scans of the whole table -/

section Listed

variable [Rmp]

/-- A walk over the entries of a place collects the edges that are there from the outgoing ones. -/
theorem collectOutgoing_eq_ok {F : Bytes → Bytes → Bytes → Bytes → Result (Option Edge)}
    (hF : ∀ (t : Triple) (v : Bytes) (f : Fields), EdgeStore.deserializeProps v = .ok f →
      F (asBytes t.src) (asBytes t.edgeType) (asBytes t.dst) v = .ok (some (t.edge f)))
    {p : Place} {live : Live} {kvs : List PutOp}
    (h : ∀ kv ∈ kvs, (∃ (t : Triple) (f : Fields), kv.1 = t.outKey p ∧ live t = some f ∧
      EdgeStore.deserializeProps kv.2 = .ok f) ∨ ∃ t : Triple, kv.1 = t.inKey p) :
    ∃ outs edges, EdgeStore.collectOutgoing F kvs = .ok edges ∧ outs.Sublist kvs ∧
      (∀ kv ∈ kvs, (∃ t : Triple, kv.1 = t.outKey p) → kv ∈ outs) ∧
      List.Forall₂ (StandsFor (Triple.outKey p) live fun _ => True) outs edges := by
  induction kvs with
  | nil => exact ⟨[], [], rfl, .slnil, fun _ hkv => absurd hkv List.not_mem_nil, .nil⟩
  | cons kv kvs ih =>
    obtain ⟨hhead, hrest⟩ := List.forall_mem_cons.mp h
    obtain ⟨outs, edges, hedges, hsub, hall, hforall⟩ := ih hrest
    obtain ⟨k, v⟩ := kv
    dsimp only at hhead
    rcases hhead with ⟨t, f, rfl, hlive, hf⟩ | ⟨t, rfl⟩
    · refine ⟨(t.outKey p, v) :: outs, t.edge f :: edges, ?_, hsub.cons_cons _, ?_, .cons ?_ hforall⟩
      · simp only [EdgeStore.collectOutgoing, outgoingSegments_outKey, bind, Except.bind, hF t v f hf, hedges]
        rfl
      · intro kv hkv hout
        rcases List.mem_cons.mp hkv with rfl | hkv
        · exact List.mem_cons_self
        · exact List.mem_cons_of_mem _ (hall kv hkv hout)
      · exact ⟨t, f, rfl, trivial, hlive, rfl⟩
    · refine ⟨outs, edges, ?_, hsub.cons _, ?_, hforall⟩
      · simp only [EdgeStore.collectOutgoing, outgoingSegments_inKey, bind, Except.bind, hedges]
        rfl
      · intro kv hkv hout
        rcases List.mem_cons.mp hkv with rfl | hkv
        · obtain ⟨u, hu⟩ := hout
          exact absurd hu.symm (Triple.outKey_ne_inKey p u t)
        · exact hall kv hkv hout

theorem exists_scanAllOutgoingEdges (p : Place) :
    ∃ F : Bytes → Bytes → Bytes → Bytes → Result (Option Edge),
      (∀ s : Store, p.edges.scanAllOutgoingEdges.run s =
        (EdgeStore.collectOutgoing F (s.prefixScan ((Scope.table Tag.graphEdge).start p)), s)) ∧
      ∀ (t : Triple) (v : Bytes) (f : Fields), EdgeStore.deserializeProps v = .ok f →
        F (asBytes t.src) (asBytes t.edgeType) (asBytes t.dst) v = .ok (some (t.edge f)) := by
  apply Exists.intro
  constructor
  · intro s
    rw [EdgeStore.scanAllOutgoingEdges, Db.prefixScan, Prog.run_query_bind]
    exact Prog.run_lift _ s
  · intro t v f hf
    simp only [fromUtf8_asBytes, hf]
    rfl

/-- The full scan lists the edges that are there, once each. -/
theorem Mirrors.lists_all {p : Place} {live : Live} {s : Store} (h : Mirrors p live s) :
    Lists p.edges.scanAllOutgoingEdges s (live.Among fun _ => True) := by
  have hentries : ∀ kv ∈ s.prefixScan ((Scope.table Tag.graphEdge).start p),
      (∃ (t : Triple) (f : Fields), kv.1 = t.outKey p ∧ live t = some f ∧
        EdgeStore.deserializeProps kv.2 = .ok f) ∨ ∃ t : Triple, kv.1 = t.inKey p := by
    rintro ⟨k, b⟩ hkb
    obtain ⟨hk, t, ⟨rfl, -⟩ | ⟨rfl, -⟩⟩ := h.mem_prefixScan rfl hkb
    · have hentry := h.outgoing t
      cases hlive : live t with
      | none =>
        rw [hlive] at hentry
        cases hk.symm.trans hentry
      | some f =>
        rw [hlive] at hentry
        obtain ⟨b', hb', hf⟩ := hentry
        obtain rfl := Option.some.inj (hk.symm.trans hb')
        exact .inl ⟨t, f, rfl, hlive, hf⟩
    · exact .inr ⟨t, rfl⟩
  obtain ⟨F, hscan, hF⟩ := exists_scanAllOutgoingEdges p
  obtain ⟨outs, edges, hedges, hsub, hall, hforall⟩ := collectOutgoing_eq_ok hF hentries
  refine ⟨edges, ?_, nodup_of_standsFor hforall ((pairwise_prefixScan_ne s _).sublist hsub), ?_⟩
  · rw [hscan, hedges]
  · refine mem_of_standsFor (fun _ _ => Triple.outKey_inj.mp) hforall ?_
    intro t f _ hlive
    have hentry := h.outgoing t
    rw [hlive] at hentry
    obtain ⟨b, hb, -⟩ := hentry
    have hholds : (Scope.table Tag.graphEdge).Holds t.outContent := rfl
    have hmem := mem_prefixScan_of_holds hholds hb
    exact ⟨b, hall _ hmem ⟨t, rfl⟩⟩

end Listed

namespace QueryExecutor

theorem edgeOf_properties (src : RecordRef) (edgeType : String) (dst : RecordRef) (fields : Assignments) :
    (edgeOf src edgeType dst fields).properties = assigned fields := by
  have hfold : ∀ (fields : Assignments) (e : Edge),
      (fields.foldl (fun edge kv => edge.withProperty kv.1 kv.2.toValue) e).properties =
        fields.foldl (fun fs kv => fs.insert kv.1 kv.2.toValue) e.properties := by
    intro fields
    induction fields with
    | nil => exact fun _ => rfl
    | cons kv fields ih => exact fun e => ih (e.withProperty kv.1 kv.2.toValue)
  exact hfold fields (Edge.new src.id edgeType dst.id)

theorem edgeOf_eq (src : RecordRef) (edgeType : String) (dst : RecordRef) (fields : Assignments) :
    edgeOf src edgeType dst fields =
      { src := src.id, edgeType, dst := dst.id, properties := assigned fields } := by
  obtain ⟨hsrc, htype, hdst⟩ := edgeOf_ends src edgeType dst fields
  have hproperties := edgeOf_properties src edgeType dst fields
  generalize edgeOf src edgeType dst fields = edge at *
  obtain ⟨_, _, _, _⟩ := edge
  rw [← hsrc, ← htype, ← hdst, ← hproperties]

section Mirroring

variable [Rmp]

structure Mirrored (ex : QueryExecutor) (hex : ex.Regular) {edgeType : String} (htype : NulFree edgeType)
    (g : Links) (s : Store) : Prop where
  named : g.Named
  mirrors : Mirrors (ex.place hex edgeType htype) (g.live edgeType) s

variable {ex : QueryExecutor} {hex : ex.Regular} {edgeType : String} {htype : NulFree edgeType} {g : Links}
  {s s' : Store}

theorem Mirrored.sameEdges (h : ex.Mirrored hex htype g s)
    (hs : SameEdges (ex.place hex edgeType htype) s s') : ex.Mirrored hex htype g s' :=
  ⟨h.named, h.mirrors.sameEdges hs⟩

/-- A `RELATE` puts its edge into the graph of its type, and leaves those of the others. -/
theorem Mirrored.relate (hcodec : Rmp.Nonempty) (h : ex.Mirrored hex htype g s) {src dst : RecordRef}
    {type : String} {fields : Assignments} (hnamed : (Relation.mk src type dst).Named) {puts : List PutOp}
    (hputs : EdgeStore.relateToOps ⟨ex.ns, ex.db, type⟩ (edgeOf src type dst fields) = .ok puts) :
    ex.Mirrored hex htype (if type = edgeType then g.relate src.id dst.id (assigned fields) else g)
      (s.putBatch puts) := by
  split
  · rename_i heq
    subst heq
    rw [edgeOf_eq, EdgeStore.relateToOps] at hputs
    cases hb : EdgeStore.serializeProps (assigned fields) with
    | error e =>
      rw [hb] at hputs
      cases hputs
    | ok b =>
      rw [hb] at hputs
      cases hputs
      refine ⟨h.named.relate hnamed.src hnamed.dst _, ?_⟩
      have hlive : (g.relate src.id dst.id (assigned fields)).live type = _ :=
        Links.live_relate g ((Relation.mk src type dst).triple hnamed) (assigned fields)
      rw [hlive]
      exact h.mirrors.put hcodec _ hb
  · rename_i hne
    refine h.sameEdges (sameEdges_putBatch ?_ s)
    intro k hk
    obtain ⟨r, rfl⟩ := relateToOps_keys hex hnamed.edgeType hputs k hk
    refine outside_of_place (fun hplace => hne ?_) _ r
    exact congrArg (fun p : Place => p.table.1) hplace

theorem Mirrored.adds (hcodec : Rmp.Nonempty) (h : ex.Mirrored hex htype g s) {s₀ : Store} {i : Issued}
    {a : BatchState} (ha : ex.Adds s₀ i a) (hnamed : i.stmt.Named) (hrel : ∀ rel ∈ i.relation, rel.Named) :
    ex.Mirrored hex htype (g.take edgeType i) (s.putBatch a.puts) := by
  cases hedge : ex.edge i with
  | none =>
    have htake : g.take edgeType i = g := by
      rw [edge] at hedge
      rw [Links.take]
      split
      · rename_i hstmt
        rw [hstmt] at hedge
        cases hedge
      · rfl
    rw [htake]
    exact h.sameEdges (sameEdges_putBatch (ha.puts_outside hex hnamed hedge _) s)
  | some w =>
    obtain ⟨src, type, dst, fields, hstmt, -⟩ := edge_eq_some hedge
    have hrelation : (Relation.mk src type dst).Named := by
      apply hrel
      rw [Issued.relation, hstmt]
      rfl
    cases ha with
    | record names =>
      rw [recordOf, hstmt] at names
      cases names
    | relate stmt puts deletes created updated =>
      rw [hstmt] at stmt
      cases stmt
      rw [Links.take, hstmt]
      exact h.relate hcodec hrelation puts

/-- The statements of a batch one after the other, each with the operations that were computed for it. -/
theorem Mirrored.collects (hcodec : Rmp.Nonempty) {s₀ : Store} {stmts : List Issued} {st : BatchState}
    (hst : Collects ex s₀ stmts st) (hnamed : ∀ i ∈ stmts, i.stmt.Named)
    (hrels : ∀ i ∈ stmts, ∀ rel ∈ i.relation, rel.Named) (h : ex.Mirrored hex htype g s) :
    ex.Mirrored hex htype (stmts.foldl (Links.take edgeType) g) (s.putBatch st.puts) := by
  induction hst generalizing g s with
  | nil => exact h
  | @cons i stmts a rest st head tail follows ih =>
    obtain ⟨hi, hnamed⟩ := List.forall_mem_cons.mp hnamed
    obtain ⟨hrel, hrels⟩ := List.forall_mem_cons.mp hrels
    rw [follows.puts, Store.putBatch, List.foldl_append]
    exact ih hnamed hrels (h.adds hcodec (adds_of_alone head) hi hrel)

/-- What a batch has collected is written in one transaction, its deletions first. -/
theorem Mirrored.writes (hcodec : Rmp.Nonempty) (h : ex.Mirrored hex htype g s) {stmts : List Issued}
    {st : BatchState} (hst : Collects ex s stmts st) (hnamed : ∀ i ∈ stmts, i.stmt.Named)
    (hrels : ∀ i ∈ stmts, ∀ rel ∈ i.relation, rel.Named) :
    ex.Mirrored hex htype (stmts.foldl (Links.take edgeType) g) (s.writeBatch st.puts st.deletes) := by
  have hkept : SameEdges (ex.place hex edgeType htype) s (s.deleteBatch st.deletes) :=
    sameEdges_deleteBatch (hst.deletes_outside hex hnamed _) s
  exact (h.sameEdges hkept).collects hcodec hst hnamed hrels

omit [Rmp] in
theorem take_of_not_relates {i : Issued} (h : ¬ ex.Relates (ex.place hex edgeType htype) i.stmt) :
    g.take edgeType i = g := by
  rw [Links.take]
  split
  · rename_i src type dst fields hstmt
    refine if_neg fun heq => h ?_
    rw [hstmt]
    exact ⟨rfl, rfl, heq⟩
  · rfl

end Mirroring

/-! ## Runs -/

section Runs

variable [Rmp] [CodeIntel]

/-- Carries a request out, and keeps account of the edges of a type. -/
def link (ex : QueryExecutor) (edgeType : String) (h : Store × Links) (r : Request) : Store × Links :=
  match ex.prog r with
  | none => h
  | some p =>
    let (result, s) := p.run h.1
    (s, if result.toBool then r.issued.foldl (Links.take edgeType) h.2 else h.2)

/-- The store after the requests, and the graph they have made of the edges of a type. -/
def linked (ex : QueryExecutor) (edgeType : String) (reqs : List Request) : Store × Links :=
  reqs.foldl (ex.link edgeType) (∅, .empty)

variable {ex : QueryExecutor} {hex : ex.Regular} {edgeType : String} {htype : NulFree edgeType}

theorem Mirrored.link (hcodec : Rmp.Nonempty) {h : Store × Links} (hm : ex.Mirrored hex htype h.2 h.1)
    {r : Request} (hnamed : r.Named) (hrels : ∀ rel ∈ r.relations, rel.Named) :
    ex.Mirrored hex htype (ex.link edgeType h r).2 (ex.link edgeType h r).1 := by
  rw [QueryExecutor.link]
  split
  · exact hm
  · rename_i p hp
    obtain ⟨result, s', hrun⟩ : ∃ result s', p.run h.1 = (result, s') := ⟨_, _, rfl⟩
    simp only [hrun]
    cases r with
    | statement i =>
      cases hedge : ex.edge i with
      | none =>
        have hnot : ¬ ex.Touches (ex.place hex edgeType htype) (.statement i) := by
          intro htouch
          refine edges_ne_nil htouch ?_
          rw [edges, hedge]
          rfl
        have hsame := sameEdges_request hex hnamed hnot hp h.1
        rw [hrun] at hsame
        rw [Request.issued, List.foldl_cons, List.foldl_nil, take_of_not_relates hnot, ite_self]
        exact hm.sameEdges hsame
      | some w =>
        obtain ⟨src, type, dst, fields, hstmt, -⟩ := edge_eq_some hedge
        have hrelate : ex.execRelate src type dst fields = p := by
          rw [prog, execute, hstmt] at hp
          exact Option.some.inj hp
        subst hrelate
        cases result with
        | error e =>
          rw [(ex.writesLast_execRelate src type dst fields).run_error hrun]
          exact hm
        | ok result =>
          obtain ⟨a, ha, -, rfl, -⟩ := (execRelate_eq_ok_iff hstmt).mp hrun
          refine hm.writes hcodec (collects_singleton ha) (List.forall_mem_singleton.mpr hnamed) ?_
          exact List.forall_mem_singleton.mpr fun rel hrel => hrels rel (Option.mem_toList.mpr hrel)
    | batch stmts =>
      cases hp
      cases result with
      | error e =>
        rw [run_executeBatch_error hrun]
        exact hm
      | ok result =>
        obtain ⟨st, hst, rfl, -⟩ := run_executeBatch hrun
        refine hm.writes hcodec hst hnamed fun i hi rel hrel => ?_
        exact hrels rel (List.mem_filterMap.mpr ⟨i, hi, hrel⟩)

/-- However requests follow each other, the store mirrors the graph that those which succeeded have made. -/
theorem linked_mirrored (hex : ex.Regular) (htype : NulFree edgeType) (hcodec : Rmp.Nonempty)
    {reqs : List Request} (hnamed : ∀ r ∈ reqs, r.Named) (hrels : ∀ r ∈ reqs, ∀ rel ∈ r.relations, rel.Named) :
    ex.Mirrored hex htype (ex.linked edgeType reqs).2 (ex.linked edgeType reqs).1 := by
  have hrun : ∀ h : Store × Links, ex.Mirrored hex htype h.2 h.1 →
      ex.Mirrored hex htype (reqs.foldl (ex.link edgeType) h).2 (reqs.foldl (ex.link edgeType) h).1 := by
    induction reqs with
    | nil => exact fun _ hm => hm
    | cons r reqs ih =>
      obtain ⟨hr, hnamed⟩ := List.forall_mem_cons.mp hnamed
      obtain ⟨hrel, hrels⟩ := List.forall_mem_cons.mp hrels
      exact fun h hm => ih hnamed hrels _ (hm.link hcodec hr hrel)
  refine hrun _ ⟨Links.named_empty, ?_⟩
  rw [Links.live_empty]
  exact mirrors_empty fun k hk => absurd hk (by simp)

/-- The account of the edges takes no part in the run. -/
theorem fst_linked (ex : QueryExecutor) (edgeType : String) (reqs : List Request) :
    (ex.linked edgeType reqs).1 = (ex.history reqs).1 := by
  have hstep : ∀ (g : Links) (h : Store × List Relation) (r : Request),
      (ex.link edgeType (h.1, g) r).1 = (ex.perform h r).1 := by
    intro g h r
    rw [QueryExecutor.link, perform]
    cases ex.prog r <;> rfl
  have hrun : ∀ (g : Links) (h : Store × List Relation),
      (reqs.foldl (ex.link edgeType) (h.1, g)).1 = (reqs.foldl ex.perform h).1 := by
    induction reqs with
    | nil => exact fun _ _ => rfl
    | cons r reqs ih =>
      intro g h
      have hpair : ex.link edgeType (h.1, g) r = ((ex.perform h r).1, (ex.link edgeType (h.1, g) r).2) :=
        Prod.ext (hstep g h r) rfl
      rw [List.foldl_cons, hpair]
      exact ih _ _
  exact hrun .empty (∅, [])

theorem linked_edgesReadable (hex : ex.Regular) (edgeType : String) {reqs : List Request}
    (hnamed : ∀ r ∈ reqs, r.Named) : EdgesReadable (ex.linked edgeType reqs).1 := by
  rw [fst_linked]
  exact history_edgesReadable hex hnamed

/-! ## What the graph statements read -/

def linkEdge (edgeType : String) (e : String × String × Fields) : Edge :=
  { src := e.1, edgeType, dst := e.2.1, properties := e.2.2 }

omit [CodeIntel] in
/-- The full scan reads the graph off the store that mirrors it. -/
theorem Mirrored.listed {g : Links} {s : Store} (h : ex.Mirrored hex htype g s) :
    ∃ edges, g.Listed edges ∧ (EdgeStore.scanAllOutgoingEdges ⟨ex.ns, ex.db, edgeType⟩).run s =
      (.ok (edges.map (linkEdge edgeType)), s) := by
  obtain ⟨es, hrun, hnodup, hmem⟩ := h.mirrors.lists_all
  have htypes : ∀ e ∈ es, e.edgeType = edgeType := by
    intro e he
    obtain ⟨t, f, -, hlive, rfl⟩ := (hmem e).mp he
    rw [Links.live] at hlive
    split at hlive
    · assumption
    · cases hlive
  have hedges : (es.map fun e => (e.src, e.dst, e.properties)).map (linkEdge edgeType) = es := by
    rw [List.map_map]
    refine (List.map_congr_left fun e he => ?_).trans (List.map_id es)
    obtain ⟨_, _, _, _⟩ := e
    exact congrArg (Edge.mk _ · _ _) (htypes _ he).symm
  have hnames : es.map Edge.names = (es.map fun e => (e.src, e.dst)).map fun e => (e.1, edgeType, e.2) := by
    rw [List.map_map]
    refine List.map_congr_left fun e he => ?_
    rw [Edge.names, htypes e he]
    rfl
  refine ⟨es.map fun e => (e.src, e.dst, e.properties), ⟨?_, fun a b f => ?_⟩, ?_⟩
  · rw [List.map_map]
    rw [hnames] at hnodup
    exact hnodup.of_map
  · constructor
    · intro hin
      obtain ⟨e, he, heq⟩ := List.mem_map.mp hin
      obtain ⟨t, f', -, hlive, rfl⟩ := (hmem e).mp he
      cases heq
      rw [Links.live, if_pos (show t.edgeType.1 = edgeType from htypes _ he)] at hlive
      exact hlive
    · intro hlink
      obtain ⟨ha, hb⟩ := h.named a b f hlink
      refine List.mem_map.mpr ⟨(⟨⟨a, ha⟩, ⟨edgeType, htype⟩, ⟨b, hb⟩⟩ : Triple).edge f, (hmem _).mpr ?_, rfl⟩
      refine ⟨_, f, trivial, ?_, rfl⟩
      rw [Links.live, if_pos rfl]
      exact hlink
  · rw [hedges]
    exact hrun

omit [CodeIntel] in
theorem Mirrored.edgeEntry {g : Links} {s : Store} (h : ex.Mirrored hex htype g s) (hread : EdgesReadable s)
    (k v : Bytes) (hv : s[k]? = some v) : EdgeEntry (ex.place hex edgeType htype) k v := by
  intro hpre
  have hmem : k ∈ s := Std.ExtTreeMap.isSome_getElem?_iff_mem.mp (Option.isSome_iff_exists.mpr ⟨v, hv⟩)
  exact ⟨h.mirrors.only k hmem hpre, hread _ k v hpre hv⟩

/-! ## Edges stay -/

theorem isSome_linked_append (ex : QueryExecutor) (edgeType : String) (reqs more : List Request) {a b : String}
    (h : ((ex.linked edgeType reqs).2 a b).isSome) : ((ex.linked edgeType (reqs ++ more)).2 a b).isSome := by
  have hrun : ∀ h : Store × Links, (h.2 a b).isSome → ((more.foldl (ex.link edgeType) h).2 a b).isSome := by
    induction more with
    | nil => exact fun _ hg => hg
    | cons r more ih =>
      refine fun h hg => ih _ ?_
      rw [QueryExecutor.link]
      split
      · exact hg
      · dsimp only
        split
        · exact Links.isSome_foldl_take edgeType _ _ hg
        · exact hg
  rw [linked, List.foldl_append]
  exact hrun _ h

/-- After any requests the graph statements of a type all read one list: the edges that its `RELATE`s
have made, each once and with the properties it was given last. No request takes an edge away. -/
theorem graph_read_after_run (hcodec : Rmp.Nonempty) (hex : ex.Regular) (htype : NulFree edgeType)
    {reqs : List Request} (hnamed : ∀ r ∈ reqs, r.Named) (hrels : ∀ r ∈ reqs, ∀ rel ∈ r.relations, rel.Named)
    {s : Store} {g : Links} (hrun : ex.linked edgeType reqs = (s, g)) :
    (∃ edges, g.Listed edges ∧
      (∀ uuid filter, (ex.execGraphEdges uuid edgeType filter).run s =
        (.ok (.rows ((edges.map (edgeRow ∘ linkEdge edgeType)).filter fun row =>
          filter.all (matchesWhere ⟨⟨edgeType, uuid⟩, row⟩))), s)) ∧
      (EdgeStore.scanAllEdges ⟨ex.ns, ex.db, edgeType⟩).run s = (.ok (edges.map fun e => (e.1, e.2.1)), s) ∧
      (EdgeStore.scanAllOutgoing ⟨ex.ns, ex.db, edgeType⟩).run s =
        (.ok (edges.map fun e => (e.1, e.2.1, EdgeStore.weightOf e.2.2)), s)) ∧
    ∀ more a b, (g a b).isSome → ((ex.linked edgeType (reqs ++ more)).2 a b).isSome := by
  have hmirrored := linked_mirrored hex htype hcodec hnamed hrels
  have hreadable := linked_edgesReadable hex edgeType hnamed
  have hstays := fun more a b => ex.isSome_linked_append edgeType reqs more (a := a) (b := b)
  rw [hrun] at hmirrored hreadable hstays
  obtain ⟨edges, hlisted, hscan⟩ := hmirrored.listed
  have hentries := hmirrored.edgeEntry hreadable
  refine ⟨⟨edges, hlisted, fun uuid filter => ?_, ?_, ?_⟩, hstays⟩
  · rw [execGraphEdges, Prog.run_bind_ok hscan, List.map_map]
    rfl
  · obtain ⟨l, hl, hkeys⟩ := scanAllEdges_projects hentries
    cases hl.symm.trans hscan
    rw [List.map_map] at hkeys
    exact hkeys
  · obtain ⟨l, hl, hweights⟩ := scanAllOutgoing_projects hentries
    cases hl.symm.trans hscan
    rw [List.map_map] at hweights
    exact hweights

end Runs

end QueryExecutor

section Witness

open QueryExecutor Concrete

/-- An edge that is made anew in a batch, beside a loop, and a batch that fails. -/
def relatedAgain : List Request :=
  [.statement ⟨"", .relate ⟨"s", "a"⟩ "e" ⟨"t", "b"⟩ [("weight", .int 2)]⟩,
    .batch [⟨"", .relate ⟨"s", "b"⟩ "e" ⟨"t", "b"⟩ []⟩, ⟨"", .relate ⟨"s", "a"⟩ "e" ⟨"t", "b"⟩ []⟩],
    .batch [⟨"", .relate ⟨"s", "b"⟩ "e" ⟨"t", "a"⟩ []⟩, ⟨"", .delete "s" "a"⟩]]

theorem named_relatedAgain : ∀ r ∈ relatedAgain, r.Named := by
  have he : NulFree "e" := by decide
  have hs : NulFree "s" := by decide
  refine List.forall_mem_cons.mpr ⟨he, List.forall_mem_cons.mpr ⟨?_, List.forall_mem_singleton.mpr ?_⟩⟩
  · exact List.forall_mem_cons.mpr ⟨he, List.forall_mem_singleton.mpr he⟩
  · exact List.forall_mem_cons.mpr ⟨he, List.forall_mem_singleton.mpr hs⟩

theorem named_relations_relatedAgain : ∀ r ∈ relatedAgain, ∀ rel ∈ r.relations, rel.Named := by
  have hab : ∀ a b : String, NulFree a → NulFree b → (Relation.mk ⟨"s", a⟩ "e" ⟨"t", b⟩).Named :=
    fun _ _ ha hb => ⟨ha, (by decide : NulFree "e"), hb⟩
  have ha : NulFree "a" := by decide
  have hb : NulFree "b" := by decide
  refine List.forall_mem_cons.mpr ⟨?_, List.forall_mem_cons.mpr ⟨?_, List.forall_mem_singleton.mpr ?_⟩⟩
  · exact List.forall_mem_singleton.mpr (hab "a" "b" ha hb)
  · exact List.forall_mem_cons.mpr ⟨hab "b" "b" hb hb, List.forall_mem_singleton.mpr (hab "a" "b" ha hb)⟩
  · exact List.forall_mem_singleton.mpr (hab "b" "a" hb ha)

theorem graph_read_after_run_relatedAgain :
    ∃ edges, (accounts.linked "e" relatedAgain).2.Listed edges ∧
      (EdgeStore.scanAllEdges ⟨accounts.ns, accounts.db, "e"⟩).run (accounts.linked "e" relatedAgain).1 =
        (.ok (edges.map fun e => (e.1, e.2.1)), (accounts.linked "e" relatedAgain).1) := by
  obtain ⟨⟨edges, hlisted, -, hscan, -⟩, -⟩ := graph_read_after_run nonempty_codec regular_accounts
    (show NulFree "e" by decide) named_relatedAgain named_relations_relatedAgain rfl
  exact ⟨edges, hlisted, hscan⟩

end Witness

end Dllb
