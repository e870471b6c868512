import Mathlib
import Dllb.Document.IndexOrder

/-! # Isolation of the key space

All data models share one sorted map. A key is described by its place and its
content; the description can be read back from the key, and the range of each
prefix builder holds exactly the keys of its scope.
-/

namespace Dllb

set_option autoImplicit false

namespace Index

/-! ## The entries of a document -/

theorem collectValues_length {doc : Document} {fields : List String} {values : List Value}
    (h : collectValues doc fields = some values) : values.length = fields.length := by
  induction fields generalizing values with
  | nil =>
    cases h
    rfl
  | cons field fields ih =>
    rw [collectValues] at h
    split at h
    · split at h
      · cases h
      · obtain ⟨rest, hrest, rfl⟩ := Option.map_eq_some_iff.mp h
        simp [ih hrest]
    · cases h

theorem collectIndexValues_length {doc : Document} {idx : IndexDefinition} {values : List Value}
    (h : collectIndexValues doc idx = some values) :
    values.length = idx.fields.length ∧ 0 < idx.fields.length := by
  rw [collectIndexValues] at h
  split at h
  · cases h
  · rename_i hne
    refine ⟨collectValues_length h, List.length_pos_of_ne_nil ?_⟩
    simpa using hne

/-- The key of a document's entry in an index, for a complete tuple. -/
def entryKey (ns db table indexName : String) (values : List Value) (id : String) : Bytes :=
  Key.indexPrefix ns db table indexName ++ tupleCode values ++ asBytes id

/-- Every B-tree index has fields, and the tuples the document has for them can be indexed. -/
def CanIndex (doc : Document) (indexes : List IndexDefinition) : Prop :=
  ∀ idx ∈ indexes, idx.isBtree = true → idx.fields ≠ [] ∧
    ∀ values, collectIndexValues doc idx = some values → ∀ v ∈ values, Indexable v

/-- The entries of a document, one for each B-tree index it has a complete tuple for. -/
def entriesOf (ns db table : String) (doc : Document) (indexes : List IndexDefinition) : List PutOp :=
  indexes.filterMap fun idx =>
    if idx.isBtree then
      (collectIndexValues doc idx).map fun values => (entryKey ns db table idx.name values doc.id.id, [])
    else none

theorem buildIndexEntries_of_canIndex {doc : Document} {indexes : List IndexDefinition}
    (ns db table : String) (h : CanIndex doc indexes) :
    buildIndexEntries doc ns db table indexes = .ok (entriesOf ns db table doc indexes) := by
  induction indexes with
  | nil => rfl
  | cons idx indexes ih =>
    obtain ⟨hidx, hrest⟩ := List.forall_mem_cons.mp h
    have ih := ih hrest
    rw [buildIndexEntries]
    by_cases hbtree : idx.isBtree = true
    · obtain ⟨hne, hall⟩ := hidx hbtree
      have hempty : idx.fields.isEmpty = false := by simpa using hne
      simp only [hbtree, Bool.not_true, Bool.false_eq_true, ↓reduceIte, hempty]
      cases hvalues : collectIndexValues doc idx with
      | none => simpa [entriesOf, hbtree, hvalues] using ih
      | some values =>
        simp only [encodeCompositeKeyPart_of_indexable (hall values hvalues), ih]
        simp [entriesOf, hbtree, hvalues, bind, Except.bind, pure, Except.pure]
        rfl
    · simpa [entriesOf, hbtree] using ih

theorem canIndex_of_buildIndexEntries {doc : Document} {indexes : List IndexDefinition}
    {ns db table : String} {entries : List PutOp}
    (h : buildIndexEntries doc ns db table indexes = .ok entries) :
    CanIndex doc indexes ∧ entries = entriesOf ns db table doc indexes := by
  have hcan : CanIndex doc indexes := by
    induction indexes generalizing entries with
    | nil => simp [CanIndex]
    | cons idx indexes ih =>
      rw [buildIndexEntries] at h
      refine List.forall_mem_cons.mpr ⟨?_, ?_⟩
      · intro hbtree
        simp only [hbtree, Bool.not_true, Bool.false_eq_true, ↓reduceIte] at h
        split at h
        · cases h
        · rename_i hne
          refine ⟨by simpa using hne, ?_⟩
          intro values hvalues
          simp only [hvalues] at h
          cases hpart : encodeCompositeKeyPart values with
          | ok part => exact (indexable_of_encodeCompositeKeyPart hpart).1
          | error e => rw [hpart] at h; cases h
      · split at h
        · exact ih h
        · split at h
          · cases h
          · split at h
            · rename_i values _
              cases hpart : encodeCompositeKeyPart values with
              | error e => rw [hpart] at h; cases h
              | ok part =>
                cases hrest : buildIndexEntries doc ns db table indexes with
                | error e => rw [hpart, hrest] at h; cases h
                | ok rest => exact ih hrest
            · exact ih h
  rw [buildIndexEntries_of_canIndex ns db table hcan] at h
  exact ⟨hcan, (Except.ok.inj h).symm⟩

theorem mem_entriesOf_iff {ns db table : String} {doc : Document} {indexes : List IndexDefinition}
    {op : PutOp} :
    op ∈ entriesOf ns db table doc indexes ↔
      ∃ idx ∈ indexes, idx.isBtree = true ∧ ∃ values, collectIndexValues doc idx = some values ∧
        op = (entryKey ns db table idx.name values doc.id.id, []) := by
  rw [entriesOf, List.mem_filterMap]
  refine exists_congr fun idx => and_congr_right fun _ => ?_
  split
  · rename_i hbtree
    simp [hbtree, eq_comm]
  · rename_i hbtree
    simp [hbtree]

end Index

/-! ## Places, contents and scopes -/

namespace Key

/-- A string without the separator byte. -/
abbrev Segment := { s : String // NulFree s }

structure Place where
  ns : Segment
  db : Segment
  table : Segment
  deriving DecidableEq

def Place.start (p : Place) (tagByte : UInt8) : Bytes := tablePrefix p.ns p.db p.table tagByte

/-- What a key is about: the arguments of its builder. What follows the index name in an entry is
the tuple with the record id. -/
inductive Content where
  | document (id : String)
  | outgoing (src edgeType : Segment) (dst : String)
  | incoming (dst edgeType : Segment) (src : String)
  | catalog (indexName : Segment)
  | entry (indexName : Segment) (rest : Bytes)
  deriving DecidableEq

namespace Content

def key (p : Place) : Content → Bytes
  | document id => documentKey p.ns p.db p.table id
  | outgoing src edgeType dst => graphOutgoingKey p.ns p.db p.table src edgeType dst
  | incoming dst edgeType src => graphIncomingKey p.ns p.db p.table dst edgeType src
  | catalog indexName => indexCatalogKey p.ns p.db p.table indexName
  | entry indexName rest => indexPrefix p.ns p.db p.table indexName ++ rest

def tag : Content → UInt8
  | document _ => Tag.document
  | outgoing _ _ _ => Tag.graphEdge
  | incoming _ _ _ => Tag.graphEdge
  | catalog _ => Tag.metadata
  | entry _ _ => Tag.index

def remainder : Content → Bytes
  | document id => asBytes id
  | outgoing src edgeType dst =>
    asBytes src ++ separator :: Dir.outgoing :: (asBytes edgeType ++ separator :: asBytes dst)
  | incoming dst edgeType src =>
    asBytes dst ++ separator :: Dir.incoming :: (asBytes edgeType ++ separator :: asBytes src)
  | catalog indexName => idx ++ separator :: asBytes indexName
  | entry indexName rest => asBytes indexName ++ separator :: rest

theorem key_eq (p : Place) (c : Content) : c.key p = p.start c.tag ++ c.remainder := by
  cases c with
  | document id => exact documentKey_eq ..
  | outgoing src edgeType dst => exact graphOutgoingKey_eq ..
  | incoming dst edgeType src => exact graphIncomingKey_eq ..
  | catalog indexName => simp [key, indexCatalogKey_eq, indexCatalogPrefix_eq, remainder, tag, Place.start]
  | entry indexName rest => simp [key, indexPrefix_eq, remainder, tag, Place.start]

end Content

/-- The scopes of the prefix builders. -/
inductive Scope where
  | table (tagByte : UInt8)
  | vertexOutgoing (vertexId : Segment)
  | vertexIncoming (vertexId : Segment)
  | vertexOutgoingTyped (vertexId edgeType : Segment)
  | vertexIncomingTyped (vertexId edgeType : Segment)
  | index (indexName : Segment)
  | indexCatalog

namespace Scope

def start (p : Place) : Scope → Bytes
  | table tagByte => tablePrefix p.ns p.db p.table tagByte
  | vertexOutgoing vertexId => vertexOutgoingPrefix p.ns p.db p.table vertexId
  | vertexIncoming vertexId => vertexIncomingPrefix p.ns p.db p.table vertexId
  | vertexOutgoingTyped vertexId edgeType =>
    vertexOutgoingTypedPrefix p.ns p.db p.table vertexId edgeType
  | vertexIncomingTyped vertexId edgeType =>
    vertexIncomingTypedPrefix p.ns p.db p.table vertexId edgeType
  | index indexName => indexPrefix p.ns p.db p.table indexName
  | indexCatalog => indexCatalogPrefix p.ns p.db p.table

def Holds : Scope → Content → Prop
  | table tagByte, c => c.tag = tagByte
  | vertexOutgoing v, .outgoing src _ _ => src = v
  | vertexIncoming v, .incoming dst _ _ => dst = v
  | vertexOutgoingTyped v t, .outgoing src edgeType _ => src = v ∧ edgeType = t
  | vertexIncomingTyped v t, .incoming dst edgeType _ => dst = v ∧ edgeType = t
  | index n, .entry indexName _ => indexName = n
  | indexCatalog, .catalog _ => True
  | _, _ => False

def tag : Scope → UInt8
  | table tagByte => tagByte
  | vertexOutgoing _ => Tag.graphEdge
  | vertexIncoming _ => Tag.graphEdge
  | vertexOutgoingTyped _ _ => Tag.graphEdge
  | vertexIncomingTyped _ _ => Tag.graphEdge
  | index _ => Tag.index
  | indexCatalog => Tag.metadata

/-- The prefix behind the tag. -/
def rest : Scope → Bytes
  | table _ => []
  | vertexOutgoing v => asBytes v ++ [separator, Dir.outgoing]
  | vertexIncoming v => asBytes v ++ [separator, Dir.incoming]
  | vertexOutgoingTyped v t => asBytes v ++ separator :: Dir.outgoing :: (asBytes t ++ [separator])
  | vertexIncomingTyped v t => asBytes v ++ separator :: Dir.incoming :: (asBytes t ++ [separator])
  | index n => asBytes n ++ [separator]
  | indexCatalog => idx ++ [separator]

theorem start_eq (p : Place) (scope : Scope) : scope.start p = p.start scope.tag ++ scope.rest := by
  cases scope with
  | table tagByte => simp [start, rest, tag, Place.start]
  | vertexOutgoing v => exact vertexOutgoingPrefix_eq ..
  | vertexIncoming v => exact vertexIncomingPrefix_eq ..
  | vertexOutgoingTyped v t => exact vertexOutgoingTypedPrefix_eq ..
  | vertexIncomingTyped v t => exact vertexIncomingTypedPrefix_eq ..
  | index n => exact indexPrefix_eq ..
  | indexCatalog => exact indexCatalogPrefix_eq ..

end Scope

/-! ## Reading a key back -/

theorem separator_notMem_idx : separator ∉ idx := by decide

theorem asBytes_segment_inj {a b : Segment} : asBytes a = asBytes b ↔ a = b := by
  rw [asBytes_inj, Subtype.ext_iff]

theorem start_append_prefix_iff (p q : Place) (t u : UInt8) (r s : Bytes) :
    p.start t ++ r <+: q.start u ++ s ↔ p = q ∧ t = u ∧ r <+: s := by
  simp only [Place.start, tablePrefix_eq, List.append_assoc, List.cons_append]
  rw [segment_append_prefix_iff p.ns.2 q.ns.2, segment_append_prefix_iff p.db.2 q.db.2,
    segment_append_prefix_iff p.table.2 q.table.2]
  simp only [List.nil_append, List.cons_prefix_cons, asBytes_segment_inj]
  obtain ⟨_, _, _⟩ := p
  obtain ⟨_, _, _⟩ := q
  simp only [Place.mk.injEq]
  tauto

theorem start_append_inj (p q : Place) (t u : UInt8) (r s : Bytes) :
    p.start t ++ r = q.start u ++ s ↔ p = q ∧ t = u ∧ r = s := by
  constructor
  · intro h
    obtain ⟨rfl, rfl, _⟩ := (start_append_prefix_iff p q t u r s).mp (h ▸ List.prefix_rfl)
    exact ⟨rfl, rfl, List.append_cancel_left h⟩
  · rintro ⟨rfl, rfl, rfl⟩
    rfl

theorem parseKey_key (p : Place) (c : Content) :
    parseKey (c.key p) = .ok ⟨asBytes p.ns, asBytes p.db, asBytes p.table, c.tag, c.remainder⟩ := by
  rw [c.key_eq]
  exact parseKey_tablePrefix_append p.ns.2 p.db.2 p.table.2 c.tag c.remainder

theorem Content.remainder_injective {c d : Content} (htag : c.tag = d.tag)
    (h : c.remainder = d.remainder) : c = d := by
  cases c with
  | document id =>
    cases d with
    | document id' => simpa [remainder] using h
    | _ => simp [tag, Tag.document, Tag.graphEdge, Tag.metadata, Tag.index] at htag
  | outgoing src edgeType dst =>
    cases d with
    | outgoing src' edgeType' dst' =>
      rw [remainder, remainder, segment_append_inj src.2 src'.2, List.cons.injEq,
        segment_append_inj edgeType.2 edgeType'.2] at h
      simpa [Subtype.ext_iff] using h
    | incoming dst' edgeType' src' =>
      rw [remainder, remainder, segment_append_inj src.2 dst'.2, List.cons.injEq] at h
      exact absurd h.2.1 (by decide)
    | _ => simp [tag, Tag.document, Tag.graphEdge, Tag.metadata, Tag.index] at htag
  | incoming dst edgeType src =>
    cases d with
    | outgoing src' edgeType' dst' =>
      rw [remainder, remainder, segment_append_inj dst.2 src'.2, List.cons.injEq] at h
      exact absurd h.2.1 (by decide)
    | incoming dst' edgeType' src' =>
      rw [remainder, remainder, segment_append_inj dst.2 dst'.2, List.cons.injEq,
        segment_append_inj edgeType.2 edgeType'.2] at h
      simpa [Subtype.ext_iff] using h
    | _ => simp [tag, Tag.document, Tag.graphEdge, Tag.metadata, Tag.index] at htag
  | catalog indexName =>
    cases d with
    | catalog indexName' => simpa [remainder, Subtype.ext_iff] using h
    | _ => simp [tag, Tag.document, Tag.graphEdge, Tag.metadata, Tag.index] at htag
  | entry indexName rest =>
    cases d with
    | entry indexName' rest' =>
      rw [remainder, remainder, segment_append_inj indexName.2 indexName'.2] at h
      simpa [Subtype.ext_iff] using h
    | _ => simp [tag, Tag.document, Tag.graphEdge, Tag.metadata, Tag.index] at htag

theorem key_injective {p q : Place} {c d : Content} (h : c.key p = d.key q) : p = q ∧ c = d := by
  rw [c.key_eq, d.key_eq, start_append_inj] at h
  exact ⟨h.1, Content.remainder_injective h.2.1 h.2.2⟩

theorem edge_prefix_iff (v w : Segment) (d e : UInt8) (r s : Bytes) :
    asBytes v ++ separator :: d :: r <+: asBytes w ++ separator :: e :: s ↔ w = v ∧ d = e ∧ r <+: s := by
  rw [segment_append_prefix_iff v.2 w.2, List.cons_prefix_cons, asBytes_segment_inj, eq_comm]

theorem segment_prefix_iff (v w : Segment) (s : Bytes) :
    asBytes v ++ [separator] <+: asBytes w ++ separator :: s ↔ w = v := by
  rw [segment_append_prefix_iff v.2 w.2, asBytes_segment_inj, eq_comm]
  exact and_iff_left List.nil_prefix

theorem Scope.rest_prefix_iff (scope : Scope) (c : Content) :
    scope.tag = c.tag ∧ scope.rest <+: c.remainder ↔ scope.Holds c := by
  cases scope with
  | table tagByte => simp [tag, rest, Holds, eq_comm]
  | vertexOutgoing v =>
    cases c <;> simp [tag, Content.tag, Tag.graphEdge, Tag.document, Tag.metadata, Tag.index, rest,
      Content.remainder, edge_prefix_iff, Dir.outgoing, Dir.incoming, Holds]
  | vertexIncoming v =>
    cases c <;> simp [tag, Content.tag, Tag.graphEdge, Tag.document, Tag.metadata, Tag.index, rest,
      Content.remainder, edge_prefix_iff, Dir.outgoing, Dir.incoming, Holds]
  | vertexOutgoingTyped v t =>
    cases c <;> simp [tag, Content.tag, Tag.graphEdge, Tag.document, Tag.metadata, Tag.index, rest,
      Content.remainder, edge_prefix_iff, segment_prefix_iff, Dir.outgoing, Dir.incoming, Holds]
  | vertexIncomingTyped v t =>
    cases c <;> simp [tag, Content.tag, Tag.graphEdge, Tag.document, Tag.metadata, Tag.index, rest,
      Content.remainder, edge_prefix_iff, segment_prefix_iff, Dir.outgoing, Dir.incoming, Holds]
  | index n =>
    cases c <;> simp [tag, Content.tag, Tag.graphEdge, Tag.document, Tag.metadata, Tag.index, rest,
      Content.remainder, segment_prefix_iff, Holds]
  | indexCatalog =>
    cases c <;> simp [tag, Content.tag, Tag.graphEdge, Tag.document, Tag.metadata, Tag.index, rest,
      Content.remainder, Holds]

/-- The scan of a prefix meets exactly the keys of its scope. -/
theorem mem_scope_iff (p q : Place) (scope : Scope) (c : Content) :
    scope.start p ≤ c.key q ∧ c.key q < prefixEnd (scope.start p) ↔ p = q ∧ scope.Holds c := by
  have hend : prefixEnd (scope.start p) ≠ [] := by
    rw [scope.start_eq]
    exact prefixEnd_tablePrefix_append_ne_nil p.ns p.db p.table scope.tag scope.rest
  rw [mem_range_prefixEnd_iff hend, scope.start_eq, c.key_eq, start_append_prefix_iff,
    scope.rest_prefix_iff]

/-- The keys of `buildIndexEntries` are entries of the indexes they are built for. -/
theorem exists_content_of_buildIndexEntries (p : Place) {doc : Document} {indexes : List IndexDefinition}
    {entries : List PutOp} (h : Index.buildIndexEntries doc p.ns p.db p.table indexes = .ok entries)
    (hnames : ∀ idx ∈ indexes, NulFree idx.name) {op : PutOp} (hop : op ∈ entries) :
    ∃ idx ∈ indexes, ∃ (hname : NulFree idx.name) (values : List Value) (part : Bytes),
      Index.collectIndexValues doc idx = some values ∧
      Index.encodeCompositeKeyPart values = .ok part ∧
      op.1 = (Content.entry ⟨idx.name, hname⟩ (part ++ asBytes doc.id.id)).key p := by
  obtain ⟨hcan, rfl⟩ := Index.canIndex_of_buildIndexEntries h
  obtain ⟨idx, hidx, hbtree, values, hvalues, rfl⟩ := Index.mem_entriesOf_iff.mp hop
  refine ⟨idx, hidx, hnames idx hidx, values, Index.tupleCode values, hvalues, ?_, ?_⟩
  · exact Index.encodeCompositeKeyPart_of_indexable ((hcan idx hidx hbtree).2 values hvalues)
  · simp [Content.key, Index.entryKey]

/-- Isolation: `parseKey` inverts every builder, keys of different places or contents differ, and a
prefix scan meets a built key exactly when the key belongs to the scope. -/
theorem key_space_isolated :
    (∀ (p : Place) (c : Content), parseKey (c.key p) =
      .ok ⟨asBytes p.ns, asBytes p.db, asBytes p.table, c.tag, c.remainder⟩) ∧
    (∀ (p : Place) (doc : Document) (indexes : List IndexDefinition) (entries : List PutOp),
      Index.buildIndexEntries doc p.ns p.db p.table indexes = .ok entries →
      (∀ idx ∈ indexes, NulFree idx.name) → ∀ op ∈ entries,
        ∃ idx ∈ indexes, ∃ (hname : NulFree idx.name) (values : List Value) (part : Bytes),
          Index.collectIndexValues doc idx = some values ∧
          Index.encodeCompositeKeyPart values = .ok part ∧
          op.1 = (Content.entry ⟨idx.name, hname⟩ (part ++ asBytes doc.id.id)).key p) ∧
    (∀ (p q : Place) (c d : Content), c.key p = d.key q → p = q ∧ c = d) ∧
    (∀ (p q : Place) (scope : Scope) (c : Content),
      scope.start p ≤ c.key q ∧ c.key q < prefixEnd (scope.start p) ↔ p = q ∧ scope.Holds c) :=
  ⟨parseKey_key, fun p _ _ _ h hnames _ hop => exists_content_of_buildIndexEntries p h hnames hop,
    fun _ _ _ _ h => key_injective h, mem_scope_iff⟩

end Key

end Dllb
