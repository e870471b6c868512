import Mathlib
import Dllb.Query.CacheTransparent

/-! # The edges a request writes

A `RELATE`, alone or in a batch, puts the two entries of its edge. Requests put
no other edge entries and take none away.
-/

namespace Dllb

set_option autoImplicit false

open Key

structure Written where
  table : TableKey
  src : String
  dst : String

namespace Written

def key (w : Written) : Bytes := graphOutgoingKey w.table.ns w.table.db w.table.table w.src w.table.table w.dst

def inKey (w : Written) : Bytes :=
  graphIncomingKey w.table.ns w.table.db w.table.table w.dst w.table.table w.src

/-- The store holds the edge. -/
def In (w : Written) (s : Store) : Prop := w.key ∈ s

instance (w : Written) (s : Store) : Decidable (w.In s) := inferInstanceAs (Decidable (w.key ∈ s))

/-- The names of the table have no separator in them. -/
def Placed (w : Written) : Prop := ∃ q : Place, w.table = q.tableKey

theorem Placed.key_eq {w : Written} (h : w.Placed) :
    ∃ (q : Place) (r : Bytes), w.key = q.start Tag.graphEdge ++ r := by
  obtain ⟨q, hq⟩ := h
  have hkey := graphOutgoingKey_eq q.ns q.db q.table w.src q.table w.dst
  rw [key, hq]
  exact ⟨q, _, hkey⟩

end Written

namespace QueryExecutor

/-- The edge of a statement. -/
def edge (ex : QueryExecutor) (i : Issued) : Option Written :=
  match i.stmt with
  | .relate src edgeType dst _ => some ⟨ex.tableKey edgeType, src.id, dst.id⟩
  | _ => none

/-- The edges of a request, in the order in which they are counted. -/
def edges (ex : QueryExecutor) : Request → List Written
  | .statement i => (ex.edge i).toList
  | .batch stmts => stmts.filterMap ex.edge

theorem edge_eq_some {ex : QueryExecutor} {i : Issued} {w : Written} (h : ex.edge i = some w) :
    ∃ src edgeType dst fields, i.stmt = .relate src edgeType dst fields ∧
      w = ⟨ex.tableKey edgeType, src.id, dst.id⟩ := by
  obtain ⟨uuid, stmt⟩ := i
  cases stmt with
  | relate src edgeType dst fields =>
    cases h
    exact ⟨src, edgeType, dst, fields, rfl, rfl⟩
  | _ => cases h

theorem placed_of_edge {ex : QueryExecutor} (hex : ex.Regular) {i : Issued} (hnamed : i.stmt.Named)
    {w : Written} (h : ex.edge i = some w) : w.Placed := by
  obtain ⟨src, edgeType, dst, fields, hstmt, rfl⟩ := edge_eq_some h
  rw [hstmt] at hnamed
  exact ⟨ex.place hex edgeType hnamed, rfl⟩

theorem placed_of_mem_edges {ex : QueryExecutor} (hex : ex.Regular) {r : Request} (hnamed : r.Named)
    {w : Written} (h : w ∈ ex.edges r) : w.Placed := by
  cases r with
  | statement i => exact placed_of_edge hex hnamed (Option.mem_toList.mp h)
  | batch stmts =>
    obtain ⟨i, hi, hw⟩ := List.mem_filterMap.mp h
    exact placed_of_edge hex (hnamed i hi) hw

theorem edges_ne_nil {ex : QueryExecutor} {q : Place} {r : Request} (h : ex.Touches q r) :
    ex.edges r ≠ [] := by
  have hrelates : ∀ i : Issued, ex.Relates q i.stmt → ∃ w, ex.edge i = some w := by
    rintro ⟨uuid, stmt⟩ hrel
    cases stmt with
    | relate src edgeType dst fields => exact ⟨_, rfl⟩
    | _ => exact hrel.elim
  cases r with
  | statement i =>
    obtain ⟨w, hw⟩ := hrelates i h
    rw [edges, hw]
    exact List.cons_ne_nil _ _
  | batch stmts =>
    obtain ⟨i, hi, hrel⟩ := h
    obtain ⟨w, hw⟩ := hrelates i hrel
    exact List.ne_nil_of_mem (List.mem_filterMap.mpr ⟨i, hi, hw⟩)

section Edges

variable [Rmp]

/-- What a statement of a batch puts for its edge. -/
theorem Adds.edge_puts {ex : QueryExecutor} {s : Store} {i : Issued} {a : BatchState} (h : Adds ex s i a)
    {w : Written} (hw : ex.edge i = some w) : a.puts.map Prod.fst = [w.key, w.inKey] := by
  obtain ⟨src, edgeType, dst, fields, hstmt, rfl⟩ := edge_eq_some hw
  cases h with
  | record names =>
    rw [recordOf, hstmt] at names
    cases names
  | relate stmt puts deletes created updated =>
    rw [hstmt] at stmt
    cases stmt
    obtain ⟨hsrc, htype, hdst⟩ := edgeOf_ends src edgeType dst fields
    unfold EdgeStore.relateToOps at puts
    cases hprops : EdgeStore.serializeProps (edgeOf src edgeType dst fields).properties with
    | error e =>
      rw [hprops] at puts
      cases puts
    | ok props =>
      rw [hprops] at puts
      rw [← Except.ok.inj puts, hsrc, htype, hdst]
      rfl

/-- A statement without an edge puts none. -/
theorem Adds.puts_outside {ex : QueryExecutor} (hex : ex.Regular) {s : Store} {i : Issued}
    {a : BatchState} (h : Adds ex s i a) (hnamed : i.stmt.Named) (hedge : ex.edge i = none) (q : Place) :
    ∀ k ∈ a.puts.map Prod.fst, Outside q k := by
  intro k hk
  cases h with
  | @record ref defs names load held writes created updated =>
    have htable := nulFree_of_recordOf hnamed names
    have hentry : ∀ held, k ∈ (ex.collection ref.table defs).entryKeys ref.id held → Outside q k := by
      intro held hmem
      obtain ⟨_, _, _, _, hentry⟩ := Collection.mem_entryKeys hmem
      obtain ⟨r, rfl⟩ := hentry.eq_append
      exact outside_of_tag (p := ex.place hex ref.table htable) (by decide) r
    rcases writes.mem_keys (.inl hk) with rfl | hmem | hmem
    · exact Collection.At.outside_docKey (p := ex.place hex ref.table htable) ⟨rfl, rfl, rfl⟩ q ref.id
    · exact hentry _ hmem
    · exact hentry _ hmem
  | relate stmt puts deletes created updated =>
    rw [edge, stmt] at hedge
    cases hedge

/-- A statement of a batch deletes no edge. -/
theorem Adds.deletes_outside {ex : QueryExecutor} (hex : ex.Regular) {s : Store} {i : Issued}
    {a : BatchState} (h : Adds ex s i a) (hnamed : i.stmt.Named) (q : Place) :
    ∀ k ∈ a.deletes, Outside q k := by
  intro k hk
  cases h with
  | record names load held writes created updated =>
    rename_i ref defs
    have htable := nulFree_of_recordOf hnamed names
    rw [writes.deletes] at hk
    obtain ⟨_, _, _, _, hentry⟩ := Collection.mem_entryKeys hk
    obtain ⟨r, rfl⟩ := hentry.eq_append
    exact outside_of_tag (p := ex.place hex ref.table htable) (by decide) r
  | relate stmt puts deletes created updated =>
    rw [deletes] at hk
    cases hk

/-- The edge entries a batch puts are those of its edges. -/
theorem Collects.edge_puts {ex : QueryExecutor} (hex : ex.Regular) {s : Store} {stmts : List Issued}
    {st : BatchState} (h : Collects ex s stmts st) (hnamed : ∀ i ∈ stmts, i.stmt.Named) {q : Place}
    {k : Bytes} (hk : q.start Tag.graphEdge <+: k) :
    k ∈ st.puts.map Prod.fst ↔ ∃ w ∈ stmts.filterMap ex.edge, k = w.key ∨ k = w.inKey := by
  induction h with
  | nil => simp [BatchState.empty]
  | @cons i stmts a rest st head tail follows ih =>
    obtain ⟨hi, hrest⟩ := List.forall_mem_cons.mp hnamed
    have hadds := adds_of_alone head
    rw [follows.puts, List.map_append, List.mem_append, ih hrest]
    cases hedge : ex.edge i with
    | none =>
      rw [List.filterMap_cons_none hedge, or_iff_right]
      exact fun hmem => hadds.puts_outside hex hi hedge q k hmem hk
    | some w =>
      rw [List.filterMap_cons_some hedge, hadds.edge_puts hedge, List.exists_mem_cons_iff]
      simp

/-- A batch deletes no edge. -/
theorem Collects.deletes_outside {ex : QueryExecutor} (hex : ex.Regular) {s : Store} {stmts : List Issued}
    {st : BatchState} (h : Collects ex s stmts st) (hnamed : ∀ i ∈ stmts, i.stmt.Named) (q : Place) :
    ∀ k ∈ st.deletes, Outside q k := by
  induction h with
  | nil => exact fun _ hk => absurd hk List.not_mem_nil
  | @cons i stmts a rest st head tail follows ih =>
    obtain ⟨hi, hrest⟩ := List.forall_mem_cons.mp hnamed
    intro k hk
    rw [follows.deletes] at hk
    rcases List.mem_append.mp hk with hk | hk
    · exact (adds_of_alone head).deletes_outside hex hi q k hk
    · exact ih hrest k hk

variable [CodeIntel]

/-- A request that writes edges writes them in one batch, or nothing. -/
theorem collects_of_edges {ex : QueryExecutor} {r : Request} (hnamed : r.Named) (hedges : ex.edges r ≠ [])
    {p : Db QueryResult} (hp : ex.prog r = some p) {s s' : Store} {result : Result QueryResult}
    (h : p.run s = (result, s')) :
    (∃ e, result = .error e ∧ s' = s) ∨
      ∃ stmts st, (∀ i ∈ stmts, i.stmt.Named) ∧ ex.edges r = stmts.filterMap ex.edge ∧
        Collects ex s stmts st ∧ result.toBool = true ∧ s' = s.writeBatch st.puts st.deletes := by
  cases r with
  | statement i =>
    cases hedge : ex.edge i with
    | none =>
      rw [edges, hedge] at hedges
      exact absurd rfl hedges
    | some w =>
      obtain ⟨src, edgeType, dst, fields, hstmt, rfl⟩ := edge_eq_some hedge
      have hrelate : ex.execRelate src edgeType dst fields = p := by
        rw [prog, execute, hstmt] at hp
        exact Option.some.inj hp
      subst hrelate
      cases result with
      | error e => exact .inl ⟨e, rfl, (ex.writesLast_execRelate src edgeType dst fields).run_error h⟩
      | ok result =>
        obtain ⟨a, ha, _, hs', _⟩ := (execRelate_eq_ok_iff hstmt).mp h
        refine .inr ⟨[i], a, List.forall_mem_singleton.mpr hnamed, ?_, collects_singleton ha, rfl, hs'⟩
        rw [edges, hedge, List.filterMap_cons_some hedge]
        rfl
  | batch stmts =>
    cases hp
    cases result with
    | error e => exact .inl ⟨e, rfl, run_executeBatch_error h⟩
    | ok result =>
      obtain ⟨st, hst, hs', _⟩ := run_executeBatch h
      exact .inr ⟨stmts, st, hnamed, rfl, hst, rfl, hs'⟩

/-- The edge entries of a table that a request leaves in the store: those that were there, and if
it succeeded those of its edges. -/
theorem mem_edges_request {ex : QueryExecutor} (hex : ex.Regular) {r : Request} (hnamed : r.Named)
    {p : Db QueryResult} (hp : ex.prog r = some p) {s s' : Store} {result : Result QueryResult}
    (h : p.run s = (result, s')) {q : Place} {k : Bytes} (hk : q.start Tag.graphEdge <+: k) :
    k ∈ s' ↔ k ∈ s ∨ result.toBool = true ∧ ∃ w ∈ ex.edges r, k = w.key ∨ k = w.inKey := by
  by_cases hedges : ex.edges r = []
  · have hnot : ¬ ex.Touches q r := fun htouch => edges_ne_nil htouch hedges
    have hsame := sameEdges_request hex hnamed hnot hp s k hk
    rw [h] at hsame
    rw [mem_congr hsame, hedges]
    simp
  · rcases collects_of_edges hnamed hedges hp h with ⟨e, rfl, rfl⟩ | ⟨stmts, st, hstmts, heq, hst, hok, rfl⟩
    · simp [Except.toBool]
    · have hkept : k ∉ st.deletes := fun hmem => hst.deletes_outside hex hstmts q k hmem hk
      rw [Store.mem_writeBatch_iff, hst.edge_puts hex hstmts hk, heq, or_comm]
      exact or_congr (and_iff_right hkept) (and_iff_right hok).symm

/-- A request that succeeds leaves its edges in the store. -/
theorem edges_in {ex : QueryExecutor} (hex : ex.Regular) {r : Request} (hnamed : r.Named)
    {p : Db QueryResult} (hp : ex.prog r = some p) {s s' : Store} {result : QueryResult}
    (h : p.run s = (.ok result, s')) : ∀ w ∈ ex.edges r, w.In s' := by
  intro w hw
  obtain ⟨q, rest, hkey⟩ := (placed_of_mem_edges hex hnamed hw).key_eq
  have hk : q.start Tag.graphEdge <+: w.key := hkey ▸ List.prefix_append ..
  exact (mem_edges_request hex hnamed hp h hk).mpr (.inr ⟨rfl, w, hw, .inl rfl⟩)

/-- No request takes an edge away. -/
theorem in_request {ex : QueryExecutor} (hex : ex.Regular) {r : Request} (hnamed : r.Named)
    {p : Db QueryResult} (hp : ex.prog r = some p) {w : Written} (hw : w.Placed) {s : Store} (h : w.In s) :
    w.In (p.run s).2 := by
  obtain ⟨q, rest, hkey⟩ := hw.key_eq
  have hk : q.start Tag.graphEdge <+: w.key := hkey ▸ List.prefix_append ..
  exact (mem_edges_request hex hnamed hp rfl hk).mpr (.inl h)

end Edges

end QueryExecutor

end Dllb
