import Mathlib
import Dllb.Query.IndexDdl

/-! # Two connections taking turns

A statement on one record, and `DEFINE INDEX`, read in several transactions and
write in one, their last. Two of them that take turns come to the same as one
after the other if no commit falls between the reads and the commit of the other
and changes them.
-/

namespace Dllb

set_option autoImplicit false

/-- The table of a statement that writes one record. -/
def Statement.recordTable : Statement → Option String
  | .create table _ _ _ => some table
  | .update (.record r) _ _ => some r.table
  | .delete table _ => some table
  | _ => none

namespace QueryExecutor

variable [Rmp] [CodeIntel]

theorem writesLast_recordWrite {ex : QueryExecutor} {i : Issued} {table : String}
    (hi : i.stmt.recordTable = some table) {p : Db QueryResult} (hp : ex.execute i = some p) :
    Prog.WritesLast p := by
  rcases i with ⟨uuid, stmt⟩
  cases stmt with
  | create table id fields onConflict =>
    cases hp
    exact ex.writesLast_execCreate uuid table id fields onConflict
  | delete table id =>
    cases hp
    exact ex.writesLast_execDelete table id
  | update target fields filter =>
    cases hp
    cases target with
    | record r => exact ex.writesLast_execUpdate_record r fields filter
    | table table => cases hi
  | _ => cases hi

/-- Two statements that each write one record, issued on two connections: if no commit disturbs the
other statement, the store and the answers are those of one of the two orders. -/
theorem record_writes_serial {ex ex' : QueryExecutor} {i j : Issued} {table table' : String}
    (hi : i.stmt.recordTable = some table) (hj : j.stmt.recordTable = some table')
    {p q : Db QueryResult} (hp : ex.execute i = some p) (hq : ex'.execute j = some q) (s : Store)
    (turns : List Bool) (hclean : Prog.Clean p q turns p q s)
    {a b : Result QueryResult} (ha : Prog.result (Prog.interleave turns p q s).1 = some a)
    (hb : Prog.result (Prog.interleave turns p q s).2.1 = some b) :
    Prog.Serial p q s a b (Prog.interleave turns p q s).2.2 :=
  Prog.serial_of_clean turns (.refl p) (.refl q) (writesLast_recordWrite hi hp)
    (writesLast_recordWrite hj hq) hclean ha hb

/-! ## `DEFINE INDEX` beside a write -/

theorem record_write_steps {ex : QueryExecutor} {i : Issued} {table : String}
    (hi : i.stmt.recordTable = some table) {p : Db QueryResult} (hp : ex.execute i = some p)
    {defs : List IndexDefinition} {s s' : Store} {r : Result QueryResult}
    (hload : (Collection.load ex.ns ex.db table).run s = (.ok (ex.collection table defs), s))
    (h : p.run s = (r, s')) : (ex.collection table defs).Steps (fun _ _ _ => True) s s' := by
  rcases i with ⟨uuid, stmt⟩
  cases stmt with
  | create table id fields onConflict =>
    cases hp
    cases hi
    exact execCreate_steps hload h
  | delete table id =>
    cases hp
    cases hi
    exact (execDelete_steps hload h).mono fun _ _ _ _ => trivial
  | update target fields filter =>
    cases hp
    cases target with
    | record ref =>
      cases hi
      have hload : (Collection.load ex.ns ex.db (targetTable (.record ref))).run s =
          (.ok (ex.collection (targetTable (.record ref)) defs), s) := hload
      exact (execUpdate_steps hload h).mono fun _ _ _ _ => trivial
    | table table => cases hi
  | _ => cases hi

omit [CodeIntel] in
theorem writesLast_execDefineIndex (ex : QueryExecutor) (name table : String) (fields : List String)
    (unique : Bool) : Prog.WritesLast (ex.execDefineIndex name table fields unique) := by
  unfold execDefineIndex
  split
  · trivial
  · exact (Collection.readOnly_scanAll _).writesLast_bind fun _ =>
      (Prog.readOnly_lift _).writesLast_bind fun _ => (Prog.readOnly_lift _).writesLast_bind fun _ =>
        Prog.writesLast_bind_ret (Prog.writesLast_commit _) fun _ => QueryResult.ok

omit [CodeIntel] in
/-- A definition that succeeds comes to a write. -/
theorem replays_execDefineIndex {ex : QueryExecutor} {name table : String} {fields : List String}
    {unique : Bool} {s s' : Store} {q : QueryResult}
    (h : (ex.execDefineIndex name table fields unique).run s = (.ok q, s')) :
    ∃ f k, Prog.Replays s (ex.execDefineIndex name table fields unique) (.write f k) := by
  rcases run_execDefineIndex h with ⟨_, he, _⟩ | ⟨_, hne, docs, puts, b, hdocs, hputs, hb, _⟩
  · cases he
  · have hempty : ¬ fields.isEmpty = true := by simpa using hne
    refine ⟨fun s => s.writeBatch ((Key.indexCatalogKey ex.ns ex.db table name, b) :: puts) [], .ret .ok, ?_⟩
    rw [execDefineIndex, if_neg hempty]
    have hkv : Index.indexDefinitionKv ex.ns ex.db table (.btree name fields unique) =
        .ok (Key.indexCatalogKey ex.ns ex.db table name, b) := by
      rw [Index.indexDefinitionKv, hb]
      rfl
    have hwrite : (Prog.lift (backfill ex.ns ex.db table (.btree name fields unique) docs []) >>=
        fun entryPuts => Prog.lift (Index.indexDefinitionKv ex.ns ex.db table (.btree name fields unique)) >>=
          fun kv => Db.writeBatch (kv :: entryPuts) [] >>= fun _ => (pure .ok : Db QueryResult)) =
        .write (fun s => s.writeBatch ((Key.indexCatalogKey ex.ns ex.db table name, b) :: puts) []) (.ret .ok) := by
      rw [hputs, hkv]
      rfl
    rw [← hwrite]
    exact (Collection.readOnly_scanAll _).replays_bind hdocs

/-- `DEFINE INDEX` beside a statement that writes a record of the table: if no commit disturbs the
other statement and the definition finds nothing in the region that it does not give itself, the
region holds exactly the entries of the documents then stored. -/
theorem define_exact_beside_write {ex : QueryExecutor} (hex : ex.Regular) {s : Store}
    (hs : ex.Reachable (fun _ _ => True) s) {name table : String} (hname : Key.NulFree name)
    (htable : Key.NulFree table)
    (hconsistent : ∀ c, (Collection.load ex.ns ex.db table).run s = (.ok c, s) → c.Consistent s)
    {fields : List String} {unique : Bool} {i : Issued} (hi : i.stmt.recordTable = some table)
    {p q : Db QueryResult} (hp : ex.execDefineIndex name table fields unique = p)
    (hq : ex.execute i = some q) (turns : List Bool) (hclean : Prog.Clean p q turns p q s)
    (hfits : Prog.CommitsOn (ex.RegionFits table (.btree name fields unique)) turns p q s)
    {a b : QueryResult} (ha : Prog.result (Prog.interleave turns p q s).1 = some (.ok a))
    (hb : Prog.result (Prog.interleave turns p q s).2.1 = some (.ok b)) :
    ex.RegionExact table (.btree name fields unique) (Prog.interleave turns p q s).2.2 := by
  have wp : Prog.WritesLast p := hp ▸ ex.writesLast_execDefineIndex name table fields unique
  rcases Prog.serial_of_clean_commitsOn turns (.refl p) (.refl q) wp (writesLast_recordWrite hi hq)
    hclean hfits ha hb with ⟨s₁, hdefine, hon, hwrite⟩ | ⟨s₁, _, hdefine, hon⟩
  · subst hp
    obtain ⟨f, k, hreplays⟩ := replays_execDefineIndex hdefine
    rcases run_execDefineIndex hdefine with ⟨_, he, _⟩ | ⟨_, hne, docs, puts, v, hdocs, hputs, hv, rfl⟩
    · cases he
    -- The record is written on top of the definition: both keep the invariant of the table.
    have hcatalogs := hs.catalogsOk hex
    obtain ⟨defs, _, hload, hc⟩ := hcatalogs.load hex htable
    obtain ⟨defs', _, hload', hc'⟩ := (hcatalogs.define hname htable hne hputs hv).load hex htable
    have hexact := (define_region_iff hname htable hdocs hputs (b := v)).mpr (hon f k hreplays)
    have hinv := inv_define hname htable hdocs hputs hv hc ((hconsistent _ hload).inv hc.regular) hc' hexact
    have hsteps := record_write_steps hi hq hload' hwrite
    have hmem : .btree name fields unique ∈ defs' :=
      (hc'.mem_iff _).mpr ((inCatalog_define htable hputs hv s _).mpr (.inl rfl))
    exact regionExact_of_inv hc'.regular (hinv.steps hc'.regular hsteps) hmem (hexact.blank.steps hsteps)
  · subst hp
    obtain ⟨f, k, hreplays⟩ := replays_execDefineIndex hdefine
    rcases run_execDefineIndex hdefine with ⟨_, he, _⟩ | ⟨_, _, docs, puts, v, hdocs, hputs, _, hs'⟩
    · cases he
    · rw [hs']
      exact (define_region_iff hname htable hdocs hputs).mpr (hon f k hreplays)

end QueryExecutor

/-! ## A lost update, and a schedule that loses none -/

/-- `UPDATE t:x SET field = n` -/
def setX (field : String) (n : Int64) : Issued := ⟨"", .update (.record ⟨"t", "x"⟩) [(field, .int n)] none⟩

def updateX [Rmp] [CodeIntel] (field : String) (n : Int64) : Db QueryResult :=
  accounts.execUpdate (.record ⟨"t", "x"⟩) [(field, .int n)] none

/-- Both updates read before either writes. -/
def crossed : List Bool := [true, true, true, false, false, false, true, false]

/-- The second update reads the catalog before the first writes, and the record after it. -/
def apart : List Bool := [true, true, false, true, true, false, false, false]

/-- The definition scans the documents, then the update runs, then the definition writes. -/
def around : List Bool := [true, false, false, false, false, true]

def defineA [Rmp] : Db QueryResult := accounts.execDefineIndex "by_a" "t" ["a"] false

section Runs

open QueryExecutor Concrete

theorem reachable_createAt : accounts.Reachable (fun _ _ => True) (accounts.after [createAt "x" 1]) :=
  Reachable.concat [] .empty (by decide : Key.NulFree "t") trivial rfl

/-- The second of the two commits overwrites what the first has set. -/
theorem update_lost :
    ¬ ∀ s, accounts.Reachable (fun _ _ => True) s → ∀ i j : Issued,
      i.stmt.recordTable.isSome = true → j.stmt.recordTable.isSome = true → ∀ p q, accounts.execute i = some p → accounts.execute j = some q →
      ∀ turns a b, Prog.result (Prog.interleave turns p q s).1 = some a →
        Prog.result (Prog.interleave turns p q s).2.1 = some b →
        Prog.Serial p q s a b (Prog.interleave turns p q s).2.2 := by
  intro h
  have ha : Prog.result (Prog.interleave crossed (updateX "b" 2) (updateX "c" 3)
      (accounts.after [createAt "x" 1])).1 = some (.ok (.update 1)) := rfl
  have hb : Prog.result (Prog.interleave crossed (updateX "b" 2) (updateX "c" 3)
      (accounts.after [createAt "x" 1])).2.1 = some (.ok (.update 1)) := rfl
  have hlost : accounts.stored (Prog.interleave crossed (updateX "b" 2) (updateX "c" 3)
      (accounts.after [createAt "x" 1])).2.2 ⟨"t", "x"⟩ =
        some (assigned [("a", .int 1), ("c", .int 3)]) := rfl
  have hbc : accounts.stored ((updateX "c" 3).run ((updateX "b" 2).run
      (accounts.after [createAt "x" 1])).2).2 ⟨"t", "x"⟩ =
        some (assigned [("a", .int 1), ("b", .int 2), ("c", .int 3)]) := rfl
  have hcb : accounts.stored ((updateX "b" 2).run ((updateX "c" 3).run
      (accounts.after [createAt "x" 1])).2).2 ⟨"t", "x"⟩ =
        some (assigned [("a", .int 1), ("b", .int 2), ("c", .int 3)]) := rfl
  have hne : assigned [("a", .int 1), ("c", .int 3)] ≠
      assigned [("a", .int 1), ("b", .int 2), ("c", .int 3)] := by
    intro heq
    have hfield := congrArg (fun fields : Fields => fields["b"]?.isSome) heq
    exact absurd hfield (by decide)
  have hserial : Prog.Serial (updateX "b" 2) (updateX "c" 3) (accounts.after [createAt "x" 1])
      (.ok (.update 1)) (.ok (.update 1)) (Prog.interleave crossed (updateX "b" 2) (updateX "c" 3)
        (accounts.after [createAt "x" 1])).2.2 :=
    h _ reachable_createAt (setX "b" 2) (setX "c" 3) rfl rfl _ _ rfl rfl crossed _ _ ha hb
  rcases hserial with ⟨s₁, hp, hq⟩ | ⟨s₁, hq, hp⟩
  · rw [hp, hq] at hbc
    exact hne (Option.some.inj (hlost.symm.trans hbc))
  · rw [hq, hp] at hcb
    exact hne (Option.some.inj (hlost.symm.trans hcb))

theorem record_writes_serial_apart :
    Prog.Serial (updateX "b" 2) (updateX "c" 3) (accounts.after [createAt "x" 1])
      (.ok (.update 1)) (.ok (.update 1)) (Prog.interleave apart (updateX "b" 2) (updateX "c" 3)
        (accounts.after [createAt "x" 1])).2.2 := by
  have hclean : Prog.Clean (updateX "b" 2) (updateX "c" 3) apart (updateX "b" 2) (updateX "c" 3)
      (accounts.after [createAt "x" 1]) := by
    refine ⟨nofun, nofun, nofun, nofun, ?_, nofun, nofun, ?_, trivial⟩
    · intro f k h
      cases h
      exact .inr (.read (.refl _))
    · intro f k h
      left
      trivial
  exact record_writes_serial (i := setX "b" 2) (j := setX "c" 3) rfl rfl rfl rfl _ apart hclean rfl rfl

theorem consistent_createAt (c : Collection)
    (h : (Collection.load "n" "d" "t").run (accounts.after [createAt "x" 1]) =
      (.ok c, accounts.after [createAt "x" 1])) : c.Consistent (accounts.after [createAt "x" 1]) := by
  have hload : (Collection.load "n" "d" "t").run (accounts.after [createAt "x" 1]) =
      (.ok (accounts.collection "t" []), accounts.after [createAt "x" 1]) := rfl
  have hscan : (accounts.collection "t" []).scanAll.run (accounts.after [createAt "x" 1]) =
      (.ok [⟨⟨"t", "x"⟩, assigned [("a", .int 1)]⟩], accounts.after [createAt "x" 1]) := rfl
  obtain rfl := Except.ok.inj (congrArg Prod.fst (hload.symm.trans h))
  exact ⟨_, hscan, fun _ _ => ⟨[], rfl⟩, fun idx hidx => by cases hidx⟩

/-- The update gives the record a new tuple after the definition has scanned the old one. -/
theorem define_misses_update :
    ¬ ∀ s, accounts.Reachable (fun _ _ => True) s → ∀ name table, Key.NulFree name → Key.NulFree table →
      (∀ c, (Collection.load accounts.ns accounts.db table).run s = (.ok c, s) → c.Consistent s) →
      ∀ fields unique, ∀ i : Issued, i.stmt.recordTable = some table → ∀ q, accounts.execute i = some q →
      ∀ turns a b,
        Prog.result (Prog.interleave turns (accounts.execDefineIndex name table fields unique) q s).1 =
          some (.ok a) →
        Prog.result (Prog.interleave turns (accounts.execDefineIndex name table fields unique) q s).2.1 =
          some (.ok b) →
        accounts.RegionExact table (.btree name fields unique)
          (Prog.interleave turns (accounts.execDefineIndex name table fields unique) q s).2.2 := by
  intro h
  have ha : Prog.result (Prog.interleave around defineA (updateX "a" 2)
      (accounts.after [createAt "x" 1])).1 = some (.ok .ok) := rfl
  have hb : Prog.result (Prog.interleave around defineA (updateX "a" 2)
      (accounts.after [createAt "x" 1])).2.1 = some (.ok (.update 1)) := rfl
  have hexact : accounts.RegionExact "t" (.btree "by_a" ["a"] false)
      (Prog.interleave around defineA (updateX "a" 2) (accounts.after [createAt "x" 1])).2.2 :=
    h _ reachable_createAt "by_a" "t" (by decide) (by decide) consistent_createAt ["a"] false
      (setX "a" 2) rfl _ rfl around _ _ ha hb
  have hdocs : (Collection.new "n" "d" "t").scanAll.run
      (Prog.interleave around defineA (updateX "a" 2) (accounts.after [createAt "x" 1])).2.2 =
        (.ok [⟨⟨"t", "x"⟩, assigned [("a", .int 2)]⟩],
          (Prog.interleave around defineA (updateX "a" 2) (accounts.after [createAt "x" 1])).2.2) := rfl
  have hregion : (Prog.interleave around defineA (updateX "a" 2)
      (accounts.after [createAt "x" 1])).2.2.prefixScan (Key.indexPrefix "n" "d" "t" "by_a") =
        [(Index.entryKey "n" "d" "t" "by_a" [.int 1] "x", [])] := rfl
  have hbuild : Index.buildIndexEntries ⟨⟨"t", "x"⟩, assigned [("a", .int 2)]⟩ "n" "d" "t"
      [.btree "by_a" ["a"] false] = .ok [(Index.entryKey "n" "d" "t" "by_a" [.int 2] "x", [])] := rfl
  obtain ⟨docs, hscan, hiff⟩ := hexact
  obtain rfl := Except.ok.inj (congrArg Prod.fst (hdocs.symm.trans hscan))
  have hnew := (hiff (Index.entryKey "n" "d" "t" "by_a" [.int 2] "x", [])).mpr
    ⟨_, List.mem_singleton.mpr rfl, _, hbuild, List.mem_singleton.mpr rfl⟩
  rw [show Key.indexPrefix accounts.ns accounts.db "t" (IndexDefinition.btree "by_a" ["a"] false).name =
    Key.indexPrefix "n" "d" "t" "by_a" from rfl, hregion] at hnew
  exact absurd (congrArg Prod.fst (List.mem_singleton.mp hnew)) (by decide)

/-- An update of another field, made around the same definition, does no harm. -/
theorem define_exact_beside_write_around :
    accounts.RegionExact "t" (.btree "by_a" ["a"] false)
      (Prog.interleave around defineA (updateX "b" 2) (accounts.after [createAt "x" 1])).2.2 := by
  have hclean : Prog.Clean defineA (updateX "b" 2) around defineA (updateX "b" 2)
      (accounts.after [createAt "x" 1]) := by
    refine ⟨nofun, nofun, nofun, nofun, ?_, ?_, trivial⟩
    · intro f k h
      cases h
      exact .inr (.read (.refl _))
    · intro f k h
      exact .inl trivial
  have hfits : Prog.CommitsOn (accounts.RegionFits "t" (.btree "by_a" ["a"] false)) around defineA
      (updateX "b" 2) (accounts.after [createAt "x" 1]) := by
    refine ⟨nofun, ?_, trivial⟩
    intro f k _
    refine ⟨_, rfl, ?_⟩
    intro k hk
    cases hk
  exact define_exact_beside_write regular_accounts reachable_createAt (by decide : Key.NulFree "by_a")
    (by decide : Key.NulFree "t") consistent_createAt (i := setX "b" 2) rfl rfl rfl around hclean hfits rfl rfl

end Runs

end Dllb
