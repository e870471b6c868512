import Mathlib
import Dllb.Graph.EdgeConsistency

/-! # Scans that read the keys alone

The neighbor scans and the scan of the pairs never look at a value, the full
scans read every one. On a store an edge store has written they see the same
edges in the same order, whatever vertex or edge type is asked for.
-/

namespace Dllb

set_option autoImplicit false

open Key

section KeyScans

variable [Rmp]

/-! ## What the calls of an edge store add -/

namespace EdgeStore

/-- The entries a call about an edge may write. -/
inductive Adds (es : EdgeStore) (src edgeType dst : String) : Bytes → Bytes → Prop where
  | outgoing {f : Fields} {b : Bytes} (h : serializeProps f = .ok b) :
    Adds es src edgeType dst (graphOutgoingKey es.ns es.db es.table src edgeType dst) b
  | incoming : Adds es src edgeType dst (graphIncomingKey es.ns es.db es.table dst edgeType src) []

theorem adds_relateToOps {es : EdgeStore} {edge : Edge} {puts : List PutOp}
    (h : es.relateToOps edge = .ok puts) : ∀ op ∈ puts, es.Adds edge.src edge.edgeType edge.dst op.1 op.2 := by
  unfold relateToOps at h
  cases hb : serializeProps edge.properties with
  | error e =>
    rw [hb] at h
    cases h
  | ok b =>
    rw [hb] at h
    cases h
    exact List.forall_mem_cons.mpr ⟨.outgoing hb, List.forall_mem_singleton.mpr .incoming⟩

theorem keeps_relate (es : EdgeStore) (edge : Edge) :
    (es.relate edge).Keeps (Store.Grows (es.Adds edge.src edge.edgeType edge.dst)) := by
  refine ((Prog.readOnly_lift _).keeps _).bind_returns (Prog.returns_lift fun b hb => hb) fun b hb => ?_
  refine Prog.keeps_commit fun s => Store.grows_putBatch ?_ s
  exact List.forall_mem_cons.mpr ⟨.outgoing hb, List.forall_mem_singleton.mpr .incoming⟩

omit [Rmp] in
theorem keeps_delete (es : EdgeStore) (src edgeType dst : String) (P : Bytes → Bytes → Prop) :
    (es.delete src edgeType dst).Keeps (Store.Grows P) := by
  refine ((Prog.readOnly_query _).keeps _).bind fun existed => ?_
  cases existed with
  | false => trivial
  | true => exact (Prog.keeps_commit (Store.grows_deleteBatch P _)).bind fun _ => trivial

theorem keeps_updateProperties (es : EdgeStore) (src edgeType dst : String) (props : Fields) :
    (es.updateProperties src edgeType dst props).Keeps (Store.Grows (es.Adds src edgeType dst)) := by
  refine ((Prog.readOnly_query _).keeps _).bind fun existed => ?_
  cases existed with
  | false => trivial
  | true =>
    refine ((Prog.readOnly_lift _).keeps _).bind_returns (Prog.returns_lift fun b hb => hb) fun b hb => ?_
    exact Prog.keeps_commit (Store.grows_insert (.outgoing hb))

end EdgeStore

theorem EdgeOp.grows (p : Place) (s : Store) (op : EdgeOp) :
    ∃ t : Triple, Store.Grows (p.edges.Adds t.src t.edgeType t.dst) s (op.exec p s) := by
  cases op with
  | relate t f => exact ⟨t, (p.edges.keeps_relate (t.edge f)).run (Store.Grows.refl _) Store.Grows.trans s⟩
  | relateToOps t f =>
    refine ⟨t, ?_⟩
    rw [EdgeOp.exec]
    split
    · rename_i puts hputs
      exact Store.grows_writeBatch (EdgeStore.adds_relateToOps hputs) [] s
    · exact Store.Grows.refl _ s
  | delete t =>
    exact ⟨t, (p.edges.keeps_delete t.src t.edgeType t.dst _).run (Store.Grows.refl _) Store.Grows.trans s⟩
  | updateProperties t f =>
    exact ⟨t, (p.edges.keeps_updateProperties t.src t.edgeType t.dst f).run (Store.Grows.refl _)
      Store.Grows.trans s⟩

/-! ## What the entries are -/

/-- An entry among the edges of a place is one of the two of an edge, and its value can be read as
properties. -/
def EdgeEntry (p : Place) (k v : Bytes) : Prop :=
  p.start Tag.graphEdge <+: k →
    (∃ t : Triple, k = t.outKey p ∨ k = t.inKey p) ∧ ∃ f, EdgeStore.deserializeProps v = .ok f

theorem exists_deserializeProps {f : Fields} {b : Bytes} (h : EdgeStore.serializeProps f = .ok b) :
    ∃ g, EdgeStore.deserializeProps b = .ok g := by
  unfold EdgeStore.serializeProps at h
  unfold EdgeStore.deserializeProps
  split
  · exact ⟨∅, rfl⟩
  · rename_i hb
    split at h
    · cases h
      exact absurd rfl hb
    · cases hvec : Rmp.toVec f with
      | error e =>
        rw [hvec] at h
        cases h
      | ok b' =>
        rw [hvec] at h
        obtain rfl := Except.ok.inj h
        rw [Rmp.fromSlice_toVec hvec]
        exact ⟨f, rfl⟩

theorem edgeEntry_of_adds {p q : Place} {t : Triple} {k v : Bytes}
    (h : q.edges.Adds t.src t.edgeType t.dst k v) : EdgeEntry p k v := by
  have hplace : ∀ c : Content, p.start Tag.graphEdge <+: c.key q → p = q := by
    intro c hpre
    rw [c.key_eq, ← List.append_nil (p.start _), start_append_prefix_iff] at hpre
    exact hpre.1
  intro hpre
  cases h with
  | outgoing hb =>
    obtain rfl := hplace t.outContent hpre
    exact ⟨⟨t, .inl rfl⟩, exists_deserializeProps hb⟩
  | incoming =>
    obtain rfl := hplace t.inContent hpre
    exact ⟨⟨t, .inr rfl⟩, ∅, rfl⟩

/-- The calls on the edge stores of any places, one after the other. -/
def execAt (s : Store) (calls : List (Place × EdgeOp)) : Store :=
  calls.foldl (fun s call => call.2.exec call.1 s) s

theorem edgeEntry_execAt {p : Place} {s : Store} (hs : ∀ k v, s[k]? = some v → EdgeEntry p k v)
    (calls : List (Place × EdgeOp)) : ∀ k v, (execAt s calls)[k]? = some v → EdgeEntry p k v := by
  induction calls generalizing s with
  | nil => exact hs
  | cons call calls ih =>
    refine ih fun k v hv => ?_
    obtain ⟨t, hgrows⟩ := call.2.grows call.1 s
    exact (hgrows.mono fun _ _ => edgeEntry_of_adds).all hs hv

/-! ## Reading the keys -/

omit [Rmp] in
/-- Both parsers find the same other vertex in the key of an edge. -/
theorem parse_edgeKey {p : Place} {k : Bytes} (h : ∃ t : Triple, k = t.outKey p ∨ k = t.inKey p) :
    ∃ parts edgeType other, parseKey k = .ok parts ∧
      parseDirectedRemainder parts.remainder = .ok (edgeType, other) ∧
      parseOtherVertex parts.remainder = .ok other := by
  obtain ⟨t, rfl | rfl⟩ := h
  · refine ⟨_, _, _, parseKey_key p t.outContent, parseDirectedRemainder_outContent t, ?_⟩
    rw [parseOtherVertex, Triple.outContent, Content.remainder, splitn_edge _ _ _ (by decide)]
    simp
  · refine ⟨_, _, _, parseKey_key p t.inContent, parseDirectedRemainder_inContent t, ?_⟩
    rw [parseOtherVertex, Triple.inContent, Content.remainder, splitn_edge _ _ _ (by decide)]
    simp

omit [Rmp] in
theorem outgoingSegments_outKey (p : Place) (t : Triple) :
    EdgeStore.outgoingSegments (t.outKey p) = .ok (some (asBytes t.src, asBytes t.edgeType, asBytes t.dst)) := by
  rw [EdgeStore.outgoingSegments, Triple.outKey, parseKey_key]
  simp only [bind, Except.bind]
  rw [Triple.outContent, Content.remainder, splitn_edge _ _ _ (by decide)]
  rfl

omit [Rmp] in
theorem outgoingSegments_inKey (p : Place) (t : Triple) :
    EdgeStore.outgoingSegments (t.inKey p) = .ok none := by
  rw [EdgeStore.outgoingSegments, Triple.inKey, parseKey_key]
  simp only [bind, Except.bind]
  rw [Triple.inContent, Content.remainder, splitn_edge _ _ _ (by decide)]
  rfl

/-! ## The scans agree -/

/-- The second scan answers with the image of what the first one lists, in the same order. -/
def Projects {α β : Type} (full : Db (List α)) (keys : Db (List β)) (f : α → β) (s : Store) : Prop :=
  ∃ l, full.run s = (.ok l, s) ∧ keys.run s = (.ok (l.map f), s)

/-- The entries a scan below the edges of a place meets. -/
theorem edgeEntries_prefixScan {p : Place} {s : Store} (hs : ∀ k v, s[k]? = some v → EdgeEntry p k v)
    (rest : Bytes) : ∀ kv ∈ s.prefixScan (p.start Tag.graphEdge ++ rest),
      (∃ t : Triple, kv.1 = t.outKey p ∨ kv.1 = t.inKey p) ∧ ∃ f, EdgeStore.deserializeProps kv.2 = .ok f := by
  rintro ⟨k, v⟩ hmem
  have hend := prefixEnd_tablePrefix_append_ne_nil p.ns p.db p.table Tag.graphEdge rest
  obtain ⟨hv, hpre⟩ := (Store.mem_prefixScan_iff hend).mp hmem
  exact hs k v hv ((List.prefix_append ..).trans hpre)

theorem decodeOutgoing_projects {p : Place} (src : String) {kvs : List PutOp}
    (h : ∀ kv ∈ kvs, (∃ t : Triple, kv.1 = t.outKey p ∨ kv.1 = t.inKey p) ∧
      ∃ f, EdgeStore.deserializeProps kv.2 = .ok f) :
    ∃ edges, Traversal.decodeOutgoing src kvs = .ok edges ∧
      Traversal.decodeNeighbors (kvs.map Prod.fst) = .ok (edges.map Edge.dst) := by
  induction kvs with
  | nil => exact ⟨[], rfl, rfl⟩
  | cons kv kvs ih =>
    obtain ⟨k, v⟩ := kv
    obtain ⟨⟨hkey, f, hf⟩, hrest⟩ := List.forall_mem_cons.mp h
    obtain ⟨edges, hedges, hothers⟩ := ih hrest
    obtain ⟨parts, edgeType, dst, hparts, hdirected, hother⟩ := parse_edgeKey hkey
    refine ⟨⟨src, edgeType, dst, f⟩ :: edges, ?_, ?_⟩
    · rw [Traversal.decodeOutgoing, hparts, hf, hedges]
      simp only [bind, Except.bind, hdirected]
      rfl
    · rw [List.map_cons, Traversal.decodeNeighbors, hparts, hothers]
      simp only [bind, Except.bind, hother]
      rfl

/-- An outgoing entry that is there can be read. -/
theorem run_get_eq_ok {p : Place} {s : Store} (hs : ∀ k v, s[k]? = some v → EdgeEntry p k v)
    (src edgeType dst : String) : ∃ found, (p.edges.get src edgeType dst).run s = (.ok found, s) := by
  rw [EdgeStore.get, Db.get, Prog.run_query_bind]
  cases hv : s[graphOutgoingKey p.edges.ns p.edges.db p.edges.table src edgeType dst]? with
  | none => exact ⟨none, rfl⟩
  | some v =>
    have hpre : p.start Tag.graphEdge <+: graphOutgoingKey p.edges.ns p.edges.db p.edges.table src edgeType dst := by
      rw [graphOutgoingKey_eq]
      exact List.prefix_append ..
    obtain ⟨-, f, hf⟩ := hs _ v hv hpre
    dsimp only
    rw [hf]
    exact ⟨_, rfl⟩

theorem fetchIncoming_projects {p : Place} {s : Store} (hs : ∀ k v, s[k]? = some v → EdgeEntry p k v)
    (dst : String) {kvs : List PutOp}
    (h : ∀ kv ∈ kvs, (∃ t : Triple, kv.1 = t.outKey p ∨ kv.1 = t.inKey p) ∧
      ∃ f, EdgeStore.deserializeProps kv.2 = .ok f) :
    ∃ edges, (Traversal.fetchIncoming p.edges dst kvs).run s = (.ok edges, s) ∧
      Traversal.decodeNeighbors (kvs.map Prod.fst) = .ok (edges.map Edge.src) := by
  induction kvs with
  | nil => exact ⟨[], rfl, rfl⟩
  | cons kv kvs ih =>
    obtain ⟨k, v⟩ := kv
    obtain ⟨⟨hkey, -⟩, hrest⟩ := List.forall_mem_cons.mp h
    obtain ⟨edges, hedges, hothers⟩ := ih hrest
    obtain ⟨parts, edgeType, src, hparts, hdirected, hother⟩ := parse_edgeKey hkey
    obtain ⟨found, hfound⟩ := run_get_eq_ok hs src edgeType dst
    refine ⟨⟨src, edgeType, dst, found.elim ∅ Edge.properties⟩ :: edges, ?_, ?_⟩
    · rw [Traversal.fetchIncoming, hparts, Prog.run_lift_ok_bind, hdirected, Prog.run_lift_ok_bind]
      dsimp only
      rw [Prog.run_bind_ok hfound, Prog.run_bind_ok hedges]
      cases found <;> rfl
    · rw [List.map_cons, Traversal.decodeNeighbors, hparts, hothers]
      simp only [bind, Except.bind, hother]
      rfl

theorem scanOutgoing_projects {p : Place} {s : Store} (hs : ∀ k v, s[k]? = some v → EdgeEntry p k v)
    (src : String) {start rest : Bytes} (hstart : start = p.start Tag.graphEdge ++ rest) :
    Projects (Traversal.scanOutgoing src start) (Traversal.scanNeighbors start) Edge.dst s := by
  subst hstart
  obtain ⟨edges, hedges, hothers⟩ := decodeOutgoing_projects src (edgeEntries_prefixScan hs rest)
  refine ⟨edges, ?_, ?_⟩
  · rw [Traversal.scanOutgoing, Db.prefixScan, Prog.run_query_bind, hedges]
    rfl
  · rw [Traversal.scanNeighbors, Db.scanPrefixKeys, Prog.run_query_bind, Store.scanPrefixKeys, hothers]
    rfl

theorem scanIncoming_projects {p : Place} {s : Store} (hs : ∀ k v, s[k]? = some v → EdgeEntry p k v)
    (dst : String) {start rest : Bytes} (hstart : start = p.start Tag.graphEdge ++ rest) :
    Projects (Traversal.scanIncoming p.edges dst start) (Traversal.scanNeighbors start) Edge.src s := by
  subst hstart
  obtain ⟨edges, hedges, hothers⟩ := fetchIncoming_projects hs dst (edgeEntries_prefixScan hs rest)
  refine ⟨edges, ?_, ?_⟩
  · rw [Traversal.scanIncoming, Db.prefixScan, Prog.run_query_bind, hedges]
  · rw [Traversal.scanNeighbors, Db.scanPrefixKeys, Prog.run_query_bind, Store.scanPrefixKeys, hothers]
    rfl

/-! ## The scans of the whole table -/

/-- A collector that makes less of every outgoing entry. -/
theorem collectOutgoing_projects {α β : Type} {f : Bytes → Bytes → Bytes → Bytes → Result (Option α)}
    {g : Bytes → Bytes → Bytes → Bytes → Result (Option β)} {proj : α → β} {p : Place} {kvs : List PutOp}
    (h : ∀ kv ∈ kvs, (∃ t : Triple, kv.1 = t.outKey p ∨ kv.1 = t.inKey p) ∧
      ∃ props, EdgeStore.deserializeProps kv.2 = .ok props)
    (hfg : ∀ (t : Triple) (v : Bytes) (props : Fields), EdgeStore.deserializeProps v = .ok props →
      ∃ a, f (asBytes t.src) (asBytes t.edgeType) (asBytes t.dst) v = .ok (some a) ∧
        g (asBytes t.src) (asBytes t.edgeType) (asBytes t.dst) v = .ok (some (proj a))) :
    ∃ l, EdgeStore.collectOutgoing f kvs = .ok l ∧ EdgeStore.collectOutgoing g kvs = .ok (l.map proj) := by
  induction kvs with
  | nil => exact ⟨[], rfl, rfl⟩
  | cons kv kvs ih =>
    obtain ⟨k, v⟩ := kv
    obtain ⟨⟨⟨t, hkey⟩, props, hprops⟩, hrest⟩ := List.forall_mem_cons.mp h
    obtain ⟨l, hl, hl'⟩ := ih hrest
    dsimp only at hkey hprops
    obtain rfl | rfl := hkey
    · obtain ⟨a, hf, hg⟩ := hfg t v props hprops
      refine ⟨a :: l, ?_, ?_⟩
      · simp only [EdgeStore.collectOutgoing, outgoingSegments_outKey, bind, Except.bind, hf, hl]
        rfl
      · simp only [EdgeStore.collectOutgoing, outgoingSegments_outKey, bind, Except.bind, hg, hl']
        rfl
    · refine ⟨l, ?_, ?_⟩
      · simp only [EdgeStore.collectOutgoing, outgoingSegments_inKey, bind, Except.bind, hl]
        rfl
      · simp only [EdgeStore.collectOutgoing, outgoingSegments_inKey, bind, Except.bind, hl']
        rfl

omit [Rmp] in
/-- A collector that never looks at a value can do without it. -/
theorem collectOutgoing_keys {α : Type} (f : Bytes → Bytes → Bytes → Result (Option α)) (kvs : List PutOp) :
    EdgeStore.collectOutgoing (fun src edgeType dst _ => f src edgeType dst)
      ((kvs.map Prod.fst).map (·, [])) =
    EdgeStore.collectOutgoing (fun src edgeType dst _ => f src edgeType dst) kvs := by
  induction kvs with
  | nil => rfl
  | cons kv kvs ih => rw [List.map_cons, List.map_cons, EdgeStore.collectOutgoing, EdgeStore.collectOutgoing, ih]

theorem weightOfBytes_eq {v : Bytes} {f : Fields} (h : EdgeStore.deserializeProps v = .ok f) :
    EdgeStore.weightOfBytes v = EdgeStore.weightOf f := by
  unfold EdgeStore.deserializeProps at h
  unfold EdgeStore.weightOfBytes
  split at h
  · rename_i hv
    obtain rfl := Except.ok.inj h
    rw [if_pos hv]
    rfl
  · rename_i hv
    rw [if_neg hv]
    cases hf : Rmp.fromSlice v with
    | error e =>
      rw [hf] at h
      cases h
    | ok g =>
      rw [hf] at h
      obtain rfl := Except.ok.inj h
      rfl

theorem scan_projects {α β : Type} {f : Bytes → Bytes → Bytes → Bytes → Result (Option α)}
    {g : Bytes → Bytes → Bytes → Bytes → Result (Option β)} {proj : α → β} {p : Place} {s : Store}
    (hs : ∀ k v, s[k]? = some v → EdgeEntry p k v)
    (hfg : ∀ (t : Triple) (v : Bytes) (props : Fields), EdgeStore.deserializeProps v = .ok props →
      ∃ a, f (asBytes t.src) (asBytes t.edgeType) (asBytes t.dst) v = .ok (some a) ∧
        g (asBytes t.src) (asBytes t.edgeType) (asBytes t.dst) v = .ok (some (proj a))) :
    Projects (Db.prefixScan (p.start Tag.graphEdge) >>= fun entries => .lift (EdgeStore.collectOutgoing f entries))
      (Db.prefixScan (p.start Tag.graphEdge) >>= fun entries => .lift (EdgeStore.collectOutgoing g entries))
      proj s := by
  have hentries := edgeEntries_prefixScan hs []
  rw [List.append_nil] at hentries
  obtain ⟨l, hl, hl'⟩ := collectOutgoing_projects hentries hfg
  refine ⟨l, ?_, ?_⟩
  · rw [Db.prefixScan, Prog.run_query_bind, hl]
    rfl
  · rw [Db.prefixScan, Prog.run_query_bind, hl']
    rfl

theorem scanAllOutgoing_projects {p : Place} {s : Store} (hs : ∀ k v, s[k]? = some v → EdgeEntry p k v) :
    Projects p.edges.scanAllOutgoingEdges p.edges.scanAllOutgoing
      (fun e => (e.src, e.dst, EdgeStore.weightOf e.properties)) s := by
  refine scan_projects hs fun t v props hprops => ⟨t.edge props, ?_, ?_⟩
  · simp only [fromUtf8_asBytes, hprops]
    rfl
  · simp only [fromUtf8_asBytes, weightOfBytes_eq hprops]
    rfl

theorem scanAllEdges_projects {p : Place} {s : Store} (hs : ∀ k v, s[k]? = some v → EdgeEntry p k v) :
    Projects p.edges.scanAllOutgoingEdges p.edges.scanAllEdges (fun e => (e.src, e.dst)) s := by
  have hkeys : p.edges.scanAllEdges = Db.prefixScan (p.start Tag.graphEdge) >>= fun entries =>
      .lift (EdgeStore.collectOutgoing (fun src _ dst _ =>
        .ok ((fromUtf8 src).bind fun src => (fromUtf8 dst).map fun dst => (src, dst))) entries) := by
    refine congrArg Prog.read (funext fun s => ?_)
    exact congrArg Prog.lift (collectOutgoing_keys _ _)
  rw [hkeys]
  refine scan_projects hs fun t v props hprops => ⟨t.edge props, ?_, ?_⟩
  · simp only [fromUtf8_asBytes, hprops]
    rfl
  · simp only [fromUtf8_asBytes]
    rfl

/-- After any calls on edge stores with names free of the separator, the scans of the keys answer with
what the full scans list, for any vertex and any edge type. -/
theorem key_scans_agree {p : Place} {s₀ : Store} (hs₀ : ∀ k ∈ s₀, ¬ p.start Tag.graphEdge <+: k)
    (calls : List (Place × EdgeOp)) {s : Store} (hs : s = execAt s₀ calls) (v y : String) :
    Projects (Traversal.outgoing p.edges v) (Traversal.outgoingNeighbors p.edges v) Edge.dst s ∧
    Projects (Traversal.outgoingTyped p.edges v y) (Traversal.outgoingNeighborsTyped p.edges v y) Edge.dst s ∧
    Projects (Traversal.incoming p.edges v) (Traversal.incomingNeighbors p.edges v) Edge.src s ∧
    Projects (Traversal.incomingTyped p.edges v y) (Traversal.incomingNeighborsTyped p.edges v y) Edge.src s ∧
    Projects p.edges.scanAllOutgoingEdges p.edges.scanAllEdges (fun e => (e.src, e.dst)) s ∧
    Projects p.edges.scanAllOutgoingEdges p.edges.scanAllOutgoing
      (fun e => (e.src, e.dst, EdgeStore.weightOf e.properties)) s := by
  have hentries : ∀ k v, s[k]? = some v → EdgeEntry p k v := by
    rw [hs]
    refine edgeEntry_execAt (fun k v hv hpre => absurd hpre (hs₀ k ?_)) calls
    exact Std.ExtTreeMap.isSome_getElem?_iff_mem.mp (Option.isSome_iff_exists.mpr ⟨v, hv⟩)
  exact ⟨scanOutgoing_projects hentries v (vertexOutgoingPrefix_eq ..),
    scanOutgoing_projects hentries v (vertexOutgoingTypedPrefix_eq ..),
    scanIncoming_projects hentries v (vertexIncomingPrefix_eq ..),
    scanIncoming_projects hentries v (vertexIncomingTypedPrefix_eq ..),
    scanAllEdges_projects hentries, scanAllOutgoing_projects hentries⟩

end KeyScans

/-- A loop is there and another edge is gone, in a store that was empty. -/
theorem key_scans_agree_meetings :
    @Projects _ _ (@Traversal.incoming MsgPack.codec friends.edges "ann")
      (Traversal.incomingNeighbors friends.edges "ann") Edge.src
      (@execAt MsgPack.codec ∅ (meetings.map fun op => (friends, op))) :=
  (@key_scans_agree MsgPack.codec friends ∅ (by simp) _ _ rfl "ann" "").2.2.1

end Dllb
