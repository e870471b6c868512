import Mathlib
import Dllb.Document.KeySpace
import Dllb.Document.MsgPack
import Dllb.Graph.Traverse

/-! # Both directions of every edge

Whatever calls an edge store has taken, the entries of its table are the two
entries of each edge that is there, and the traversals from either end list
those edges with the properties they were given last.
-/

namespace Dllb

set_option autoImplicit false

open Key

/-! ## Edges by their names -/

@[ext] structure Triple where
  src : Segment
  edgeType : Segment
  dst : Segment
  deriving DecidableEq

namespace Triple

def outContent (t : Triple) : Content := .outgoing t.src t.edgeType t.dst

def inContent (t : Triple) : Content := .incoming t.dst t.edgeType t.src

def outKey (p : Place) (t : Triple) : Bytes := t.outContent.key p

def inKey (p : Place) (t : Triple) : Bytes := t.inContent.key p

def edge (t : Triple) (properties : Fields) : Edge := { src := t.src, edgeType := t.edgeType, dst := t.dst, properties }

theorem outKey_inj {p : Place} {t u : Triple} : t.outKey p = u.outKey p ↔ t = u := by
  constructor
  · intro h
    obtain ⟨hsrc, htype, hdst⟩ := Content.outgoing.inj (key_injective h).2
    exact Triple.ext hsrc htype (Subtype.ext hdst)
  · rintro rfl
    rfl

theorem inKey_inj {p : Place} {t u : Triple} : t.inKey p = u.inKey p ↔ t = u := by
  constructor
  · intro h
    obtain ⟨hdst, htype, hsrc⟩ := Content.incoming.inj (key_injective h).2
    exact Triple.ext (Subtype.ext hsrc) htype hdst
  · rintro rfl
    rfl

theorem outKey_ne_inKey (p : Place) (t u : Triple) : t.outKey p ≠ u.inKey p := by
  intro h
  cases (key_injective h).2

theorem edge_inj {t u : Triple} {f g : Fields} : t.edge f = u.edge g ↔ t = u ∧ f = g := by
  obtain ⟨⟨_, _⟩, ⟨_, _⟩, ⟨_, _⟩⟩ := t
  obtain ⟨⟨_, _⟩, ⟨_, _⟩, ⟨_, _⟩⟩ := u
  simp [edge, and_assoc]

end Triple

/-- The edge store of a place. -/
def Key.Place.edges (p : Place) : EdgeStore := { ns := p.ns, db := p.db, table := p.table }

/-! ## What the calls mean -/

/-- The properties of the edges that are there. -/
abbrev Live := Triple → Option Fields

inductive EdgeOp where
  | relate (t : Triple) (properties : Fields)
  | relateToOps (t : Triple) (properties : Fields)
  | delete (t : Triple)
  | updateProperties (t : Triple) (properties : Fields)

section Ops

variable [Rmp]

/-- The store after a call, whether it succeeded or failed; the operations of `relateToOps` are
written in one batch. -/
def EdgeOp.exec (p : Place) (s : Store) : EdgeOp → Store
  | relate t properties => ((p.edges.relate (t.edge properties)).run s).2
  | relateToOps t properties =>
    match p.edges.relateToOps (t.edge properties) with
    | .ok puts => s.writeBatch puts []
    | .error _ => s
  | delete t => ((p.edges.delete t.src t.edgeType t.dst).run s).2
  | updateProperties t properties => ((p.edges.updateProperties t.src t.edgeType t.dst properties).run s).2

/-- A call changes the edge it names, unless it fails. -/
def EdgeOp.apply (live : Live) : EdgeOp → Live
  | relate t properties | relateToOps t properties =>
    match EdgeStore.serializeProps properties with
    | .ok _ => Function.update live t (some properties)
    | .error _ => live
  | delete t => Function.update live t none
  | updateProperties t properties =>
    match live t, EdgeStore.serializeProps properties with
    | some _, .ok _ => Function.update live t (some properties)
    | _, _ => live

def EdgeOp.execAll (p : Place) (s : Store) (ops : List EdgeOp) : Store := ops.foldl (EdgeOp.exec p) s

def EdgeOp.applyAll (ops : List EdgeOp) : Live := ops.foldl EdgeOp.apply fun _ => none

/-! ## The invariant -/

/-- The outgoing entry of an edge, which carries its properties. -/
def EntryHolds (entry : Option Bytes) : Option Fields → Prop
  | none => entry = none
  | some properties => ∃ b, entry = some b ∧ EdgeStore.deserializeProps b = .ok properties

structure Mirrors (p : Place) (live : Live) (s : Store) : Prop where
  outgoing : ∀ t, EntryHolds s[t.outKey p]? (live t)
  incoming : ∀ t, s[t.inKey p]?.isSome = (live t).isSome
  only : ∀ k ∈ s, p.start Tag.graphEdge <+: k → ∃ t : Triple, k = t.outKey p ∨ k = t.inKey p

theorem mirrors_empty {p : Place} {s : Store} (h : ∀ k ∈ s, ¬ p.start Tag.graphEdge <+: k) :
    Mirrors p (fun _ => none) s := by
  have hnone : ∀ c : Content, c.tag = Tag.graphEdge → s[c.key p]? = none := by
    intro c hc
    refine Std.ExtTreeMap.getElem?_eq_none fun hmem => h _ hmem ?_
    rw [c.key_eq, hc]
    exact List.prefix_append ..
  refine ⟨fun t => hnone _ rfl, fun t => ?_, fun k hk hp => absurd hp (h k hk)⟩
  rw [Triple.inKey, hnone _ rfl]
  rfl

/-- A change of one edge, in both of its entries. -/
theorem Mirrors.change {p : Place} {live : Live} {s : Store} (h : Mirrors p live s) (s' : Store) (t : Triple)
    {new : Option Fields} (hout : EntryHolds s'[t.outKey p]? new)
    (hin : s'[t.inKey p]?.isSome = new.isSome)
    (hother : ∀ k, k ≠ t.outKey p → k ≠ t.inKey p → s'[k]? = s[k]?) :
    Mirrors p (Function.update live t new) s' := by
  refine ⟨fun u => ?_, fun u => ?_, fun k hk hp => ?_⟩
  · by_cases hu : u = t
    · subst hu
      rwa [Function.update_self]
    · rw [Function.update_of_ne hu, hother _ (hu ∘ Triple.outKey_inj.mp) (Triple.outKey_ne_inKey p u t)]
      exact h.outgoing u
  · by_cases hu : u = t
    · subst hu
      rwa [Function.update_self]
    · rw [Function.update_of_ne hu, hother _ (Triple.outKey_ne_inKey p t u).symm (hu ∘ Triple.inKey_inj.mp)]
      exact h.incoming u
  · by_cases hout' : k = t.outKey p
    · exact ⟨t, .inl hout'⟩
    · by_cases hin' : k = t.inKey p
      · exact ⟨t, .inr hin'⟩
      · refine h.only k ?_ hp
        rw [← Std.ExtTreeMap.isSome_getElem?_iff_mem] at hk ⊢
        rwa [hother k hout' hin'] at hk

/-! ## Each call keeps it -/

/-- What a codec gives for properties is not empty, as no MessagePack value is. -/
def Rmp.Nonempty : Prop := ∀ f b, Rmp.toVec f = .ok b → b ≠ []

theorem deserializeProps_serializeProps (hcodec : Rmp.Nonempty) {f : Fields} {b : Bytes}
    (h : EdgeStore.serializeProps f = .ok b) : EdgeStore.deserializeProps b = .ok f := by
  unfold EdgeStore.serializeProps at h
  split at h
  · rename_i hempty
    cases h
    rw [Std.ExtTreeMap.isEmpty_iff.mp hempty]
    rfl
  · cases hvec : Rmp.toVec f with
    | error e =>
      rw [hvec] at h
      cases h
    | ok b' =>
      rw [hvec] at h
      obtain rfl := Except.ok.inj h
      rw [EdgeStore.deserializeProps, if_neg (by simpa using hcodec f b' hvec), Rmp.fromSlice_toVec hvec]
      rfl

theorem Mirrors.put (hcodec : Rmp.Nonempty) {p : Place} {live : Live} {s : Store} (h : Mirrors p live s)
    (t : Triple) {f : Fields} {b : Bytes} (hb : EdgeStore.serializeProps f = .ok b) :
    Mirrors p (Function.update live t (some f)) (s.putBatch [(t.outKey p, b), (t.inKey p, [])]) := by
  refine h.change _ t ?_ ?_ ?_
  · refine ⟨b, ?_, deserializeProps_serializeProps hcodec hb⟩
    simp [Store.lastPut, (Triple.outKey_ne_inKey p t t).symm]
  · simp [Store.lastPut]
  · intro k hout hin
    simp [Store.lastPut, hout.symm, hin.symm]

theorem Mirrors.mem_outKey_iff {p : Place} {live : Live} {s : Store} (h : Mirrors p live s) (t : Triple) :
    s[t.outKey p]?.isSome = (live t).isSome := by
  have hout := h.outgoing t
  cases hlive : live t with
  | none =>
    rw [hlive] at hout
    rw [hout]
    rfl
  | some f =>
    rw [hlive] at hout
    obtain ⟨b, hb, _⟩ := hout
    rw [hb]
    rfl

theorem Mirrors.exec (hcodec : Rmp.Nonempty) {p : Place} {live : Live} {s : Store} (h : Mirrors p live s)
    (op : EdgeOp) : Mirrors p (op.apply live) (op.exec p s) := by
  cases op with
  | relate t f =>
    rw [EdgeOp.apply, EdgeOp.exec, EdgeStore.relate]
    cases hb : EdgeStore.serializeProps f with
    | error e =>
      have hb : EdgeStore.serializeProps (t.edge f).properties = .error e := hb
      rw [hb]
      exact h
    | ok b =>
      have hser : EdgeStore.serializeProps (t.edge f).properties = .ok b := hb
      rw [hser]
      exact h.put hcodec t hb
  | relateToOps t f =>
    rw [EdgeOp.apply, EdgeOp.exec, EdgeStore.relateToOps]
    cases hb : EdgeStore.serializeProps f with
    | error e =>
      have hser : EdgeStore.serializeProps (t.edge f).properties = .error e := hb
      rw [hser]
      exact h
    | ok b =>
      have hser : EdgeStore.serializeProps (t.edge f).properties = .ok b := hb
      rw [hser]
      exact h.put hcodec t hb
  | delete t =>
    rw [EdgeOp.apply, EdgeOp.exec, EdgeStore.delete, Db.contains, Prog.run_query_bind]
    have hexists : s[graphOutgoingKey p.edges.ns p.edges.db p.edges.table t.src t.edgeType t.dst]?.isSome =
        (live t).isSome := h.mem_outKey_iff t
    rw [hexists]
    cases hlive : live t with
    | none =>
      rw [Function.update_eq_self_iff.mpr hlive.symm]
      exact h
    | some f =>
      have hkeys : ∀ k, (s.deleteBatch [t.outKey p, t.inKey p])[k]? =
          if k ∈ [t.outKey p, t.inKey p] then none else s[k]? := s.getElem?_deleteBatch _
      refine h.change (s.deleteBatch [t.outKey p, t.inKey p]) t ?_ ?_ ?_
      · exact (hkeys _).trans (by simp)
      · rw [hkeys]
        simp
      · intro k hout hin
        rw [hkeys]
        simp [hout, hin]
  | updateProperties t f =>
    rw [EdgeOp.apply, EdgeOp.exec, EdgeStore.updateProperties, Db.contains, Prog.run_query_bind]
    have hexists : s[graphOutgoingKey p.edges.ns p.edges.db p.edges.table t.src t.edgeType t.dst]?.isSome =
        (live t).isSome := h.mem_outKey_iff t
    rw [hexists]
    cases hlive : live t with
    | none => exact h
    | some old =>
      cases hb : EdgeStore.serializeProps f with
      | error e => exact h
      | ok b =>
        have hkeys : ∀ k, (s.insert (t.outKey p) b)[k]? = if t.outKey p = k then some b else s[k]? :=
          fun k => s.getElem?_insert' (t.outKey p) k b
        refine h.change (s.insert (t.outKey p) b) t ?_ ?_ ?_
        · exact ⟨b, (hkeys _).trans (if_pos rfl), deserializeProps_serializeProps hcodec hb⟩
        · rw [hkeys, if_neg (Triple.outKey_ne_inKey p t t), h.incoming t, hlive]
          rfl
        · intro k hout _
          rw [hkeys, if_neg hout.symm]

theorem Mirrors.execAll (hcodec : Rmp.Nonempty) {p : Place} {s : Store}
    (h : ∀ k ∈ s, ¬ p.start Tag.graphEdge <+: k) (ops : List EdgeOp) :
    Mirrors p (EdgeOp.applyAll ops) (EdgeOp.execAll p s ops) := by
  have hrun : ∀ (live : Live) (s : Store), Mirrors p live s →
      Mirrors p (ops.foldl EdgeOp.apply live) (ops.foldl (EdgeOp.exec p) s) := by
    induction ops with
    | nil => exact fun _ _ h => h
    | cons op ops ih => exact fun live s h => ih _ _ (h.exec hcodec op)
  exact hrun _ _ (mirrors_empty h)

/-! ## What the traversals list -/

def Edge.names (e : Edge) : String × String × String := (e.src, e.edgeType, e.dst)

/-- The program lists the edges with `P`, once each. -/
def Lists (prog : Db (List Edge)) (s : Store) (P : Edge → Prop) : Prop :=
  ∃ edges, prog.run s = (.ok edges, s) ∧ (edges.map Edge.names).Nodup ∧ ∀ e, e ∈ edges ↔ P e

/-- The edges that are there, among those named by `sel`. -/
def Live.Among (live : Live) (sel : Triple → Prop) (e : Edge) : Prop :=
  ∃ t f, sel t ∧ live t = some f ∧ e = t.edge f

/-- The entry stands for the edge in a list of those among `sel`. -/
def StandsFor (key : Triple → Bytes) (live : Live) (sel : Triple → Prop) (kv : PutOp) (e : Edge) : Prop :=
  ∃ t f, kv.1 = key t ∧ sel t ∧ live t = some f ∧ e = t.edge f

omit [Rmp] in
theorem names_edge_inj {t u : Triple} {f g : Fields} (h : (t.edge f).names = (u.edge g).names) : t = u := by
  obtain ⟨hsrc, hrest⟩ := Prod.mk.inj h
  obtain ⟨htype, hdst⟩ := Prod.mk.inj hrest
  exact Triple.ext (Subtype.ext hsrc) (Subtype.ext htype) (Subtype.ext hdst)

omit [Rmp] in
theorem exists_entry {key : Triple → Bytes} {live : Live} {sel : Triple → Prop} {kvs : List PutOp}
    {edges : List Edge} (h : List.Forall₂ (StandsFor key live sel) kvs edges) {e : Edge} (he : e ∈ edges) :
    ∃ kv ∈ kvs, StandsFor key live sel kv e := by
  induction h with
  | nil => cases he
  | cons hhead _ ih =>
    rcases List.mem_cons.mp he with rfl | he
    · exact ⟨_, List.mem_cons_self, hhead⟩
    · obtain ⟨kv, hkv, hstands⟩ := ih he
      exact ⟨kv, List.mem_cons_of_mem _ hkv, hstands⟩

omit [Rmp] in
theorem exists_edge {key : Triple → Bytes} {live : Live} {sel : Triple → Prop} {kvs : List PutOp}
    {edges : List Edge} (h : List.Forall₂ (StandsFor key live sel) kvs edges) {kv : PutOp} (hkv : kv ∈ kvs) :
    ∃ e ∈ edges, StandsFor key live sel kv e := by
  induction h with
  | nil => cases hkv
  | cons hhead _ ih =>
    rcases List.mem_cons.mp hkv with rfl | hkv
    · exact ⟨_, List.mem_cons_self, hhead⟩
    · obtain ⟨e, he, hstands⟩ := ih hkv
      exact ⟨e, List.mem_cons_of_mem _ he, hstands⟩

omit [Rmp] in
theorem nodup_of_standsFor {key : Triple → Bytes} {live : Live} {sel : Triple → Prop} {kvs : List PutOp}
    {edges : List Edge} (h : List.Forall₂ (StandsFor key live sel) kvs edges)
    (hkeys : kvs.Pairwise fun a b => a.1 ≠ b.1) : (edges.map Edge.names).Nodup := by
  induction h with
  | nil => exact List.nodup_nil
  | @cons kv e kvs edges hhead htail ih =>
    obtain ⟨hfresh, hkeys⟩ := List.pairwise_cons.mp hkeys
    refine List.nodup_cons.mpr ⟨?_, ih hkeys⟩
    intro hmem
    obtain ⟨e', he', hnames⟩ := List.mem_map.mp hmem
    obtain ⟨kv', hkv', u, g, hkey', _, _, rfl⟩ := exists_entry htail he'
    obtain ⟨t, f, hkey, _, _, rfl⟩ := hhead
    obtain rfl := names_edge_inj hnames
    exact hfresh kv' hkv' (hkey.trans hkey'.symm)

omit [Rmp] in
theorem mem_of_standsFor {key : Triple → Bytes} (hkey : Function.Injective key) {live : Live}
    {sel : Triple → Prop} {kvs : List PutOp} {edges : List Edge}
    (h : List.Forall₂ (StandsFor key live sel) kvs edges)
    (hall : ∀ t f, sel t → live t = some f → ∃ b, (key t, b) ∈ kvs) (e : Edge) :
    e ∈ edges ↔ live.Among sel e := by
  constructor
  · intro he
    obtain ⟨_, _, t, f, _, hsel, hlive, heq⟩ := exists_entry h he
    exact ⟨t, f, hsel, hlive, heq⟩
  · rintro ⟨t, f, hsel, hlive, rfl⟩
    obtain ⟨b, hb⟩ := hall t f hsel hlive
    obtain ⟨e, he, u, g, hk, _, hg, rfl⟩ := exists_edge h hb
    obtain rfl := hkey hk
    obtain rfl := Option.some.inj (hlive.symm.trans hg)
    exact he

/-! ## Reading the entries back -/

omit [Rmp] in
theorem splitn_edge (a b : Segment) (d : UInt8) (hd : d ≠ separator) (r : Bytes) :
    splitn 3 (asBytes a ++ separator :: d :: (asBytes b ++ separator :: r)) =
      [asBytes a, d :: asBytes b, r] := by
  have hb : separator ∉ d :: asBytes b := by
    rw [List.mem_cons, not_or]
    exact ⟨hd.symm, b.2⟩
  rw [splitn_append a.2 1, ← List.cons_append, splitn_append hb 0]
  rfl

omit [Rmp] in
theorem parseDirectedRemainder_outContent (t : Triple) :
    parseDirectedRemainder t.outContent.remainder = .ok (t.edgeType.1, t.dst.1) := by
  rw [parseDirectedRemainder, Triple.outContent, Content.remainder, splitn_edge _ _ _ (by decide)]
  simp

omit [Rmp] in
theorem parseDirectedRemainder_inContent (t : Triple) :
    parseDirectedRemainder t.inContent.remainder = .ok (t.edgeType.1, t.src.1) := by
  rw [parseDirectedRemainder, Triple.inContent, Content.remainder, splitn_edge _ _ _ (by decide)]
  simp

theorem decodeOutgoing_eq_ok {p : Place} {live : Live} {sel : Triple → Prop} {v : Segment}
    (hsrc : ∀ t, sel t → t.src = v) {kvs : List PutOp}
    (h : ∀ kv ∈ kvs, ∃ t f, kv.1 = t.outKey p ∧ sel t ∧ live t = some f ∧
      EdgeStore.deserializeProps kv.2 = .ok f) :
    ∃ edges, Traversal.decodeOutgoing v kvs = .ok edges ∧
      List.Forall₂ (StandsFor (Triple.outKey p) live sel) kvs edges := by
  induction kvs with
  | nil => exact ⟨[], rfl, .nil⟩
  | cons kv kvs ih =>
    obtain ⟨⟨t, f, hkey, hsel, hlive, hf⟩, hrest⟩ := List.forall_mem_cons.mp h
    obtain ⟨edges, hedges, hforall⟩ := ih hrest
    refine ⟨t.edge f :: edges, ?_, .cons ⟨t, f, hkey, hsel, hlive, rfl⟩ hforall⟩
    obtain ⟨k, b⟩ := kv
    dsimp only at hkey hf
    obtain rfl := hsrc t hsel
    rw [Traversal.decodeOutgoing, hkey, Triple.outKey, parseKey_key, hf, hedges]
    simp only [bind, Except.bind, parseDirectedRemainder_outContent]
    rfl

theorem Mirrors.run_get {p : Place} {live : Live} {s : Store} (h : Mirrors p live s) (t : Triple) :
    (p.edges.get t.src t.edgeType t.dst).run s = (.ok ((live t).map t.edge), s) := by
  have hout := h.outgoing t
  rw [EdgeStore.get, Db.get, Prog.run_query_bind]
  have hkey : s[Key.graphOutgoingKey p.edges.ns p.edges.db p.edges.table t.src t.edgeType t.dst]? =
      s[t.outKey p]? := rfl
  rw [hkey]
  cases hlive : live t with
  | none =>
    rw [hlive] at hout
    rw [hout]
    rfl
  | some f =>
    rw [hlive] at hout
    obtain ⟨b, hb, hf⟩ := hout
    rw [hb]
    dsimp only
    rw [hf]
    rfl

theorem Mirrors.fetchIncoming_eq_ok {p : Place} {live : Live} {s : Store} (hs : Mirrors p live s)
    {sel : Triple → Prop} {v : Segment} (hdst : ∀ t, sel t → t.dst = v) {kvs : List PutOp}
    (h : ∀ kv ∈ kvs, ∃ t f, kv.1 = t.inKey p ∧ sel t ∧ live t = some f) :
    ∃ edges, (Traversal.fetchIncoming p.edges v kvs).run s = (.ok edges, s) ∧
      List.Forall₂ (StandsFor (Triple.inKey p) live sel) kvs edges := by
  induction kvs with
  | nil => exact ⟨[], rfl, .nil⟩
  | cons kv kvs ih =>
    obtain ⟨⟨t, f, hkey, hsel, hlive⟩, hrest⟩ := List.forall_mem_cons.mp h
    obtain ⟨edges, hedges, hforall⟩ := ih hrest
    refine ⟨t.edge f :: edges, ?_, .cons ⟨t, f, hkey, hsel, hlive, rfl⟩ hforall⟩
    obtain ⟨k, b⟩ := kv
    dsimp only at hkey
    obtain rfl := hdst t hsel
    have hget := hs.run_get t
    rw [hlive] at hget
    rw [Traversal.fetchIncoming, hkey, Triple.inKey, parseKey_key, Prog.run_lift_ok_bind]
    dsimp only
    rw [parseDirectedRemainder_inContent, Prog.run_lift_ok_bind, Prog.run_bind_ok hget,
      Prog.run_bind_ok hedges]
    rfl

/-- The entries a scan of a scope of edges meets. -/
theorem Mirrors.mem_prefixScan {p : Place} {live : Live} {s : Store} (h : Mirrors p live s) {scope : Scope}
    (htag : scope.tag = Tag.graphEdge) {k b : Bytes} (hkb : (k, b) ∈ s.prefixScan (scope.start p)) :
    s[k]? = some b ∧ ∃ t : Triple, k = t.outKey p ∧ scope.Holds t.outContent ∨
      k = t.inKey p ∧ scope.Holds t.inContent := by
  have hend : prefixEnd (scope.start p) ≠ [] := by
    rw [scope.start_eq]
    exact prefixEnd_tablePrefix_append_ne_nil p.ns p.db p.table scope.tag scope.rest
  obtain ⟨hk, hp⟩ := (Store.mem_prefixScan_iff hend).mp hkb
  have hrange := (mem_range_prefixEnd_iff hend k).mpr hp
  have hmem : k ∈ s := Std.ExtTreeMap.isSome_getElem?_iff_mem.mp (Option.isSome_iff_exists.mpr ⟨b, hk⟩)
  refine ⟨hk, ?_⟩
  rw [scope.start_eq, htag] at hp
  obtain ⟨t, rfl | rfl⟩ := h.only k hmem ((List.prefix_append ..).trans hp)
  · exact ⟨t, .inl ⟨rfl, ((mem_scope_iff p p scope t.outContent).mp hrange).2⟩⟩
  · exact ⟨t, .inr ⟨rfl, ((mem_scope_iff p p scope t.inContent).mp hrange).2⟩⟩

omit [Rmp] in
theorem mem_prefixScan_of_holds {p : Place} {s : Store} {scope : Scope} {c : Content} (h : scope.Holds c)
    {b : Bytes} (hb : s[c.key p]? = some b) : (c.key p, b) ∈ s.prefixScan (scope.start p) :=
  Store.mem_scan_iff.mpr ⟨hb, (mem_scope_iff p p scope c).mpr ⟨rfl, h⟩⟩

omit [Rmp] in
theorem pairwise_prefixScan_ne (s : Store) (p : Bytes) : (s.prefixScan p).Pairwise fun a b => a.1 ≠ b.1 :=
  (s.pairwise_scan _ _).imp fun hlt => ne_of_lt hlt

theorem Mirrors.lists_outgoing {p : Place} {live : Live} {s : Store} (h : Mirrors p live s) (scope : Scope)
    (htag : scope.tag = Tag.graphEdge) {sel : Triple → Prop}
    (hout : ∀ t : Triple, scope.Holds t.outContent ↔ sel t) (hin : ∀ t : Triple, ¬ scope.Holds t.inContent)
    {v : Segment} (hsrc : ∀ t, sel t → t.src = v) :
    Lists (Traversal.scanOutgoing v (scope.start p)) s (live.Among sel) := by
  have hentries : ∀ kv ∈ s.prefixScan (scope.start p), ∃ t f, kv.1 = Triple.outKey p t ∧ sel t ∧
      live t = some f ∧ EdgeStore.deserializeProps kv.2 = .ok f := by
    rintro ⟨k, b⟩ hkb
    obtain ⟨hk, t, ⟨rfl, hholds⟩ | ⟨_, hholds⟩⟩ := h.mem_prefixScan htag hkb
    · have hentry := h.outgoing t
      cases hlive : live t with
      | none =>
        rw [hlive] at hentry
        cases hk.symm.trans hentry
      | some f =>
        rw [hlive] at hentry
        obtain ⟨b', hb', hf⟩ := hentry
        obtain rfl := Option.some.inj (hk.symm.trans hb')
        exact ⟨t, f, rfl, (hout t).mp hholds, hlive, hf⟩
    · exact absurd hholds (hin t)
  obtain ⟨edges, hedges, hforall⟩ := decodeOutgoing_eq_ok hsrc hentries
  refine ⟨edges, ?_, nodup_of_standsFor hforall (pairwise_prefixScan_ne s _), ?_⟩
  · rw [Traversal.scanOutgoing, Db.prefixScan, Prog.run_query_bind, hedges]
    rfl
  · refine mem_of_standsFor (fun _ _ => Triple.outKey_inj.mp) hforall ?_
    intro t f hsel hlive
    have hentry := h.outgoing t
    rw [hlive] at hentry
    obtain ⟨b, hb, _⟩ := hentry
    exact ⟨b, mem_prefixScan_of_holds ((hout t).mpr hsel) hb⟩

theorem Mirrors.lists_incoming {p : Place} {live : Live} {s : Store} (h : Mirrors p live s) (scope : Scope)
    (htag : scope.tag = Tag.graphEdge) {sel : Triple → Prop}
    (hin : ∀ t : Triple, scope.Holds t.inContent ↔ sel t) (hout : ∀ t : Triple, ¬ scope.Holds t.outContent)
    {v : Segment} (hdst : ∀ t, sel t → t.dst = v) :
    Lists (Traversal.scanIncoming p.edges v (scope.start p)) s (live.Among sel) := by
  have hentries : ∀ kv ∈ s.prefixScan (scope.start p), ∃ t f, kv.1 = Triple.inKey p t ∧ sel t ∧
      live t = some f := by
    rintro ⟨k, b⟩ hkb
    obtain ⟨hk, t, ⟨_, hholds⟩ | ⟨rfl, hholds⟩⟩ := h.mem_prefixScan htag hkb
    · exact absurd hholds (hout t)
    · have hlive := h.incoming t
      rw [hk] at hlive
      obtain ⟨f, hf⟩ := Option.isSome_iff_exists.mp hlive.symm
      exact ⟨t, f, rfl, (hin t).mp hholds, hf⟩
  obtain ⟨edges, hedges, hforall⟩ := h.fetchIncoming_eq_ok hdst hentries
  refine ⟨edges, ?_, nodup_of_standsFor hforall (pairwise_prefixScan_ne s _), ?_⟩
  · rw [Traversal.scanIncoming, Db.prefixScan, Prog.run_query_bind, hedges]
  · refine mem_of_standsFor (fun _ _ => Triple.inKey_inj.mp) hforall ?_
    intro t f hsel hlive
    have hentry := h.incoming t
    rw [hlive] at hentry
    obtain ⟨b, hb⟩ := Option.isSome_iff_exists.mp hentry
    exact ⟨b, mem_prefixScan_of_holds ((hin t).mpr hsel) hb⟩

/-- After any calls, failed ones included, an edge has both of its entries or neither, and every
traversal lists the edges that are there with the properties given to them last. -/
theorem edges_consistent (hcodec : Rmp.Nonempty) (p : Place) {s₀ : Store}
    (hs₀ : ∀ k ∈ s₀, ¬ p.start Tag.graphEdge <+: k) (ops : List EdgeOp) {s : Store}
    (hs : s = EdgeOp.execAll p s₀ ops) {live : Live} (hlive : live = EdgeOp.applyAll ops) :
    (∀ t : Triple, t.outKey p ∈ s ↔ t.inKey p ∈ s) ∧
    (∀ t : Triple, (p.edges.get t.src t.edgeType t.dst).run s = (.ok ((live t).map t.edge), s)) ∧
    (∀ v : Segment, Lists (Traversal.outgoing p.edges v) s (live.Among fun t => t.src = v)) ∧
    (∀ v y : Segment, Lists (Traversal.outgoingTyped p.edges v y) s
      (live.Among fun t => t.src = v ∧ t.edgeType = y)) ∧
    (∀ v : Segment, Lists (Traversal.incoming p.edges v) s (live.Among fun t => t.dst = v)) ∧
    ∀ v y : Segment, Lists (Traversal.incomingTyped p.edges v y) s
      (live.Among fun t => t.dst = v ∧ t.edgeType = y) := by
  have h : Mirrors p live s := by
    rw [hs, hlive]
    exact Mirrors.execAll hcodec hs₀ ops
  refine ⟨fun t => ?_, h.run_get, fun v => ?_, fun v y => ?_, fun v => ?_, fun v y => ?_⟩
  · rw [← Std.ExtTreeMap.isSome_getElem?_iff_mem, ← Std.ExtTreeMap.isSome_getElem?_iff_mem,
      h.mem_outKey_iff, h.incoming]
  · exact h.lists_outgoing (.vertexOutgoing v) rfl (fun _ => Iff.rfl) (fun _ => id) fun _ ht => ht
  · exact h.lists_outgoing (.vertexOutgoingTyped v y) rfl (fun _ => Iff.rfl) (fun _ => id)
      fun _ ht => ht.1
  · exact h.lists_incoming (.vertexIncoming v) rfl (fun _ => Iff.rfl) (fun _ => id) fun _ ht => ht
  · exact h.lists_incoming (.vertexIncomingTyped v y) rfl (fun _ => Iff.rfl) (fun _ => id)
      fun _ ht => ht.1

end Ops

/-! ## A self-loop whose properties are changed -/

def knows (src dst : Segment) : Triple := { src, edgeType := ⟨"knows", by decide⟩, dst }

def friends : Place := { ns := ⟨"n", by decide⟩, db := ⟨"d", by decide⟩, table := ⟨"knows", by decide⟩ }

def ann : Segment := ⟨"ann", by decide⟩

def bob : Segment := ⟨"bob", by decide⟩

/-- The loop is made, given a weight, and outlives the other edge. -/
def meetings : List EdgeOp :=
  [.relate (knows ann ann) ∅, .relateToOps (knows ann bob) ∅,
    .updateProperties (knows ann ann) ((∅ : Fields).insert "weight" (.int 2)), .delete (knows ann bob)]

theorem nonempty_codec : @Rmp.Nonempty MsgPack.codec := by
  rintro f b h rfl
  cases MsgPack.fromSlice_toVec h

theorem edges_consistent_meetings :
    Lists (@Traversal.incoming MsgPack.codec friends.edges ann)
      (@EdgeOp.execAll MsgPack.codec friends ∅ meetings)
      ((@EdgeOp.applyAll MsgPack.codec meetings).Among fun t => t.dst = ann) :=
  (@edges_consistent MsgPack.codec nonempty_codec friends ∅ (by simp) meetings _ rfl _ rfl).2.2.2.2.1 ann

end Dllb
