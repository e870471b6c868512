import Mathlib
import Dllb.Query.MirrorWrites

/-! # A rebuild and a write that take turns

A task fills a vector index from a scan while another one writes a record. Each
entry is filled by the one who holds its lock, and the record's vector is inserted
only when the entry is loaded. To say so, the world is watched: who holds a lock,
who has made an entry, and whether the record is written.
-/

namespace Dllb

set_option autoImplicit false

/-- A world with what no answer depends on. The reader is `true`, the writer is `false`. -/
structure Watched where
  world : World
  holder : String → Option Bool
  maker : String → Option Bool
  written : Bool

namespace Watched

abbrev entryUnder (t : Watched) (name : String) : Option VectorEntry := t.world.services.entryUnder name

def after (b : Bool) (t : Watched) (w : World) : Instr → Watched
  | .lock r => { t with world := w, holder := Function.update t.holder r.name (some b) }
  | .unlock r => { t with world := w, holder := Function.update t.holder r.name none }
  | .getOrCreateVector name _ _ =>
    { t with
      world := w
      maker := if (t.entryUnder name).isSome then t.maker else Function.update t.maker name (some b) }
  | .commit _ => { t with world := w, written := true }
  | _ => { t with world := w }

variable (D : Type) [LinearOrder D] [Distance F32 D] [BeamHeaps D]

def machine (b : Bool) : Proc.Machine (Instr.Ans D) Watched := fun i t =>
  (World.machine D i t.world).map fun x => (x.1, t.after b x.2 i)

end Watched

/-- In the one entry `f` has been done. -/
structure World.Changes (name : String) (f : VectorEntry → VectorEntry) (w w' : World) : Prop where
  store : w'.store = w.store
  vectors : w'.services.vectors = w.services.vectors
  entries : ∀ name', w'.services.entryUnder name' =
    if name' = name then (w.services.entryUnder name').map f else w.services.entryUnder name'

theorem World.Changes.self {name : String} {f : VectorEntry → VectorEntry} {w w' : World}
    (h : w.Changes name f w') {e : VectorEntry} (he : w.services.entryUnder name = some e) :
    w'.services.entryUnder name = some (f e) := by
  rw [h.entries, if_pos rfl, he]
  rfl

theorem World.Changes.other {name : String} {f : VectorEntry → VectorEntry} {w w' : World}
    (h : w.Changes name f w') {name' : String} (hne : name' ≠ name) :
    w'.services.entryUnder name' = w.services.entryUnder name' := by
  rw [h.entries, if_neg hne]

variable [Rmp]

/-- One record is written: `s₁` is `s₀` with another document for `r`, which takes no vector out of
any index. -/
structure QueryExecutor.Rewrites (ex : QueryExecutor) (owner : String → String) (r : RecordRef)
    (s₀ s₁ : Store) : Prop where
  readable : ex.Readable s₀
  catalogs : ex.VectorCatalogs owner s₀
  nulFree : Key.NulFree r.table
  writes : ex.WritesIn (· = r) s₀ s₁
  keeps : ∀ {d field dim metric}, ex.VectorIndex s₀ r.table d field dim metric →
    ex.vectorsIn s₁ r.table field dim r.id = none → ex.vectorsIn s₀ r.table field dim r.id = none

namespace Watched

variable (ex : QueryExecutor) (r : RecordRef) (s₀ s₁ : Store)

/-- What an entry holds comes from the documents before or after the write, and once the entry is
loaded only the written record may be wrong. -/
structure EntryFits (written : Bool) (table field : String) (dim : Nat) (metric : DistanceMetric)
    (e : VectorEntry) : Prop where
  part : ∀ id, e.index.find id = none ∨ e.index.find id = ex.vectorsIn s₀ table field dim id ∨
    written = true ∧ e.index.find id = ex.vectorsIn s₁ table field dim id
  full : e.loaded = true → ∀ id, written = true ∧ r = ⟨table, id⟩ ∨
    e.index.find id = ex.vectorsIn s₀ table field dim id
  dim : e.dim = dim
  metric : e.index.index.metric = metric

structure Inv (t : Watched) : Prop where
  store : t.world.store = if t.written then s₁ else s₀
  locked : ∀ name e, t.entryUnder name = some e → e.locked = (t.holder name).isSome
  held : ∀ name, (t.holder name).isSome → (t.entryUnder name).isSome
  made : ∀ name, (t.maker name).isSome → (t.entryUnder name).isSome
  unloaded : ∀ name e, t.entryUnder name = some e → e.loaded = false → (t.maker name).isSome
  entries : ∀ {table d field dim metric}, ex.VectorIndex s₀ table d field dim metric →
    ∀ e, t.entryUnder d.name = some e → EntryFits ex r s₀ s₁ t.written table field dim metric e

/-- The index is right about the written record. -/
def Settled (idx : IndexDefinition) (t : Watched) : Prop :=
  ∀ field dim metric, ex.VectorIndex s₀ r.table idx field dim metric →
    ex.vectorsIn s₁ r.table field dim r.id = none ∨ ∃ e, t.entryUnder idx.name = some e ∧ e.loaded = true ∧
      e.index.find r.id = ex.vectorsIn s₁ r.table field dim r.id

/-- What a move of the other side leaves to `b`: the locks that `b` holds and the entries under
them, and that an entry once loaded stays so. The reader never writes. -/
structure Spares (b : Bool) (t t' : Watched) : Prop where
  inv : Inv ex r s₀ s₁ t → Inv ex r s₀ s₁ t'
  holder : ∀ name, t'.holder name = some b ↔ t.holder name = some b
  maker : ∀ name, t'.maker name = some b → t.maker name = some b
  vectors : ∀ name n, t.world.services.vectors name = some n → t'.world.services.vectors name = some n
  written : t.written = true → t'.written = true
  unwritten : b = false → t'.written = t.written
  loaded : ∀ name e, t.entryUnder name = some e → e.loaded = true →
    ∃ e', t'.entryUnder name = some e' ∧ e'.loaded = true ∧ (b = false → e'.index.find = e.index.find)
  filled : ∀ name e, t.entryUnder name = some e → e.loaded = false → t.holder name = some b →
    ∃ e', t'.entryUnder name = some e' ∧ e'.loaded = false ∧ e'.index.find = e.index.find
  settled : ∀ idx, Settled ex r s₀ s₁ idx t → Settled ex r s₀ s₁ idx t'

variable {ex r s₀ s₁} {b : Bool} {t t' t'' : Watched}

theorem Spares.refl (b : Bool) (t : Watched) : Spares ex r s₀ s₁ b t t :=
  ⟨fun h => h, fun _ => Iff.rfl, fun _ h => h, fun _ _ h => h, fun h => h, fun _ => rfl,
    fun _ e he hload => ⟨e, he, hload, fun _ => rfl⟩, fun _ e he hload _ => ⟨e, he, hload, rfl⟩,
    fun _ h => h⟩

theorem Spares.trans (h : Spares ex r s₀ s₁ b t t') (h' : Spares ex r s₀ s₁ b t' t'') :
    Spares ex r s₀ s₁ b t t'' where
  inv hinv := h'.inv (h.inv hinv)
  holder name := (h'.holder name).trans (h.holder name)
  maker name hname := h.maker name (h'.maker name hname)
  vectors name n hn := h'.vectors name n (h.vectors name n hn)
  written hw := h'.written (h.written hw)
  unwritten hb := (h'.unwritten hb).trans (h.unwritten hb)
  loaded name e he hload := by
    obtain ⟨e', he', hload', hfind⟩ := h.loaded name e he hload
    obtain ⟨e'', he'', hload'', hfind'⟩ := h'.loaded name e' he' hload'
    exact ⟨e'', he'', hload'', fun hb => (hfind' hb).trans (hfind hb)⟩
  filled name e he hload hheld := by
    obtain ⟨e', he', hload', hfind⟩ := h.filled name e he hload hheld
    obtain ⟨e'', he'', hload'', hfind'⟩ := h'.filled name e' he' hload' ((h.holder name).mpr hheld)
    exact ⟨e'', he'', hload'', hfind'.trans hfind⟩
  settled idx hidx := h'.settled idx (h.settled idx hidx)

/-- One entry has changed, and perhaps who holds its lock. -/
theorem Inv.changes (h : Inv ex r s₀ s₁ t) {name : String} {f : VectorEntry → VectorEntry} {w : World}
    (hw : t.world.Changes name f w) {g : String → Option Bool}
    (hholder : ∀ name', name' ≠ name → g name' = t.holder name')
    (hheld : (g name).isSome → (t.entryUnder name).isSome)
    (hentry : ∀ e, t.entryUnder name = some e → (f e).locked = (g name).isSome ∧
      ((f e).loaded = false → e.loaded = false) ∧
      ∀ {table d field dim metric}, ex.VectorIndex s₀ table d field dim metric → d.name = name →
        EntryFits ex r s₀ s₁ t.written table field dim metric (f e)) :
    Inv ex r s₀ s₁ { t with world := w, holder := g } := by
  have hself : ∀ e', w.services.entryUnder name = some e' → ∃ e, t.entryUnder name = some e ∧ f e = e' := by
    intro e' he'
    rw [hw.entries, if_pos rfl] at he'
    exact Option.map_eq_some_iff.mp he'
  have hsome : ∀ name', (t.entryUnder name').isSome → (w.services.entryUnder name').isSome := by
    intro name' hsome
    rw [hw.entries]
    split
    · rwa [Option.isSome_map]
    · exact hsome
  refine ⟨hw.store.trans h.store, ?_, ?_, fun name' hname => hsome name' (h.made name' hname), ?_, ?_⟩
  · intro name' e' he'
    by_cases hname : name' = name
    · subst hname
      obtain ⟨e, he, rfl⟩ := hself e' he'
      exact (hentry e he).1
    · change _ = (g name').isSome
      rw [hholder name' hname]
      exact h.locked name' e' ((hw.other hname).symm.trans he')
  · intro name' hname'
    change (g name').isSome at hname'
    by_cases hname : name' = name
    · subst hname
      exact hsome _ (hheld hname')
    · rw [hholder name' hname] at hname'
      exact hsome name' (h.held name' hname')
  · intro name' e' he' hload
    by_cases hname : name' = name
    · subst hname
      obtain ⟨e, he, rfl⟩ := hself e' he'
      exact h.unloaded _ e he ((hentry e he).2.1 hload)
    · exact h.unloaded name' e' ((hw.other hname).symm.trans he') hload
  · intro table d field dim metric hd e' he'
    by_cases hname : d.name = name
    · obtain ⟨e, he, rfl⟩ := hself e' (hname ▸ he')
      exact (hentry e he).2.2 hd hname
    · exact h.entries hd e' ((hw.other hname).symm.trans he')

/-- A change to one entry spares the other side if that one neither holds its lock nor sees it loaded. -/
theorem Spares.changes {name : String} {f : VectorEntry → VectorEntry} {w : World}
    (hw : t.world.Changes name f w) {g : String → Option Bool}
    (hinv : Inv ex r s₀ s₁ t → Inv ex r s₀ s₁ { t with world := w, holder := g })
    (hholder : ∀ name, g name = some b ↔ t.holder name = some b)
    (hheld : t.holder name ≠ some b ∨ ∀ e, t.entryUnder name = some e → e.loaded = false →
      (f e).loaded = false ∧ (f e).index.find = e.index.find)
    (hentry : ∀ e, t.entryUnder name = some e → e.loaded = true → (f e).loaded = true ∧
      (b = false → (f e).index.find = e.index.find))
    (hsettled : ∀ e, t.entryUnder name = some e → e.loaded = true → ∀ {d field dim metric},
      ex.VectorIndex s₀ r.table d field dim metric → d.name = name →
      e.index.find r.id = ex.vectorsIn s₁ r.table field dim r.id →
      (f e).index.find r.id = ex.vectorsIn s₁ r.table field dim r.id) :
    Spares ex r s₀ s₁ b t { t with world := w, holder := g } := by
  refine ⟨hinv, hholder, fun _ h => h, fun name' n hn => hw.vectors ▸ hn, fun h => h, fun _ => rfl, ?_, ?_, ?_⟩
  · intro name' e he hload
    by_cases hname : name' = name
    · subst hname
      obtain ⟨hload', hfind⟩ := hentry e he hload
      exact ⟨f e, hw.self he, hload', hfind⟩
    · exact ⟨e, (hw.other hname).trans he, hload, fun _ => rfl⟩
  · intro name' e he hload hheld'
    by_cases hname : name' = name
    · subst hname
      obtain ⟨hload', hfind⟩ := hheld.resolve_left (fun h => h hheld') e he hload
      exact ⟨f e, hw.self he, hload', hfind⟩
    · exact ⟨e, (hw.other hname).trans he, hload, rfl⟩
  · intro idx hidx field dim metric hd
    refine (hidx field dim metric hd).imp_right ?_
    rintro ⟨e, he, hload, hfind⟩
    by_cases hname : idx.name = name
    · have he' : t.world.services.entryUnder name = some e := hname ▸ he
      exact ⟨f e, hname ▸ hw.self he', (hentry e he' hload).1, hsettled e he' hload hd hname hfind⟩
    · exact ⟨e, (hw.other hname).trans he, hload, hfind⟩

/-! ## What a side knows between its steps -/

/-- Every entry that `b` has made is loaded, but for the one of a name. -/
def Loads (b : Bool) (name : String) (t : Watched) : Prop :=
  ∀ name' e, name' ≠ name → t.entryUnder name' = some e → t.maker name' = some b → e.loaded = true

/-- `b` holds no lock, and what it has made is loaded. -/
structure Idle (ex : QueryExecutor) (r : RecordRef) (s₀ s₁ : Store) (b : Bool) (t : Watched) : Prop where
  inv : Inv ex r s₀ s₁ t
  free : ∀ name, t.holder name ≠ some b
  loads : ∀ name e, t.entryUnder name = some e → t.maker name = some b → e.loaded = true

/-- `b` is about to load the entry of a name, or to see that it is loaded. -/
structure Meets (ex : QueryExecutor) (r : RecordRef) (s₀ s₁ : Store) (b : Bool) (name : String) (n : Nat)
    (t : Watched) : Prop where
  inv : Inv ex r s₀ s₁ t
  vectors : t.world.services.vectors name = some n
  loads : Loads b name t

/-- `b` holds the lock of the entry, and no other one. -/
structure Holds (ex : QueryExecutor) (r : RecordRef) (s₀ s₁ : Store) (b : Bool) (name : String) (n : Nat)
    (t : Watched) : Prop extends Meets ex r s₀ s₁ b name n t where
  holder : ∀ name', t.holder name' = some b ↔ name' = name

theorem Loads.spares {name : String} (h : Loads b name t) (hinv : Inv ex r s₀ s₁ t)
    (hspares : Spares ex r s₀ s₁ b t t') : Loads b name t' := by
  intro name' e' hne he' hmaker
  have hmade := hspares.maker name' hmaker
  obtain ⟨e, he⟩ := Option.isSome_iff_exists.mp (hinv.made name' (by rw [hmade]; rfl))
  obtain ⟨e'', he'', hload, -⟩ := hspares.loaded name' e he (h name' e hne he hmade)
  cases he'.symm.trans he''
  exact hload

theorem Idle.spares (h : Idle ex r s₀ s₁ b t) (hspares : Spares ex r s₀ s₁ b t t') :
    Idle ex r s₀ s₁ b t' where
  inv := hspares.inv h.inv
  free name hname := h.free name ((hspares.holder name).mp hname)
  loads name e' he' hmaker := by
    have hmade := hspares.maker name hmaker
    obtain ⟨e, he⟩ := Option.isSome_iff_exists.mp (h.inv.made name (by rw [hmade]; rfl))
    obtain ⟨e'', he'', hload, -⟩ := hspares.loaded name e he (h.loads name e he hmade)
    cases he'.symm.trans he''
    exact hload

theorem Meets.spares {name : String} {n : Nat} (h : Meets ex r s₀ s₁ b name n t)
    (hspares : Spares ex r s₀ s₁ b t t') : Meets ex r s₀ s₁ b name n t' :=
  ⟨hspares.inv h.inv, hspares.vectors name n h.vectors, h.loads.spares h.inv hspares⟩

theorem Holds.spares {name : String} {n : Nat} (h : Holds ex r s₀ s₁ b name n t)
    (hspares : Spares ex r s₀ s₁ b t t') : Holds ex r s₀ s₁ b name n t' :=
  ⟨h.toMeets.spares hspares, fun name' => (hspares.holder name').trans (h.holder name')⟩

/-- The entry that is met is in the map. -/
theorem Meets.entry {name : String} {n : Nat} (h : Meets ex r s₀ s₁ b name n t) :
    ∃ e, t.entryUnder name = some e ∧ t.world.services.deref ⟨name, n⟩ = some e := by
  obtain ⟨e, he⟩ : ∃ e, t.world.services.entryUnder name = some e := by
    rw [← Option.isSome_iff_exists, SearchServices.isSome_entryUnder, h.vectors]
    rfl
  exact ⟨e, he, (SearchServices.deref_of_vectors h.vectors).trans he⟩

/-- When the entry is loaded, nothing is left to be loaded. -/
theorem Meets.idle {name : String} {n : Nat} (h : Meets ex r s₀ s₁ b name n t)
    (hfree : ∀ name', t.holder name' ≠ some b) (hload : ∀ e, t.entryUnder name = some e → e.loaded = true) :
    Idle ex r s₀ s₁ b t where
  inv := h.inv
  free := hfree
  loads name' e he hmaker := by
    by_cases hname : name' = name
    · exact hload e (hname ▸ he)
    · exact h.loads name' e hname he hmaker

/-! ## Steps -/

section Steps

variable {D : Type} [LinearOrder D] [Distance F32 D] [BeamHeaps D] {α : Type}
  {Q : Except Error α → Watched → Prop}

/-- Nothing has to be put right for the id but what the writer itself will put right. -/
def Good (ex : QueryExecutor) (r : RecordRef) (s₀ : Store) (table field : String) (dim : Nat) (t : Watched)
    (e : VectorEntry) (id : String) : Prop :=
  t.written = true ∧ r = ⟨table, id⟩ ∨ e.index.find id = ex.vectorsIn s₀ table field dim id

/-- The contents of the index in the store before or after the write, whichever was scanned. -/
def Scanned (ex : QueryExecutor) (s₀ s₁ : Store) (table field : String) (dim : Nat) (t : Watched)
    (contents : Contents F32) : Prop :=
  contents = ex.vectorsIn s₀ table field dim ∨ t.written = true ∧ contents = ex.vectorsIn s₁ table field dim

theorem Rewrites.vectorsIn_eq {owner : String → String} (hw : ex.Rewrites owner r s₀ s₁) {table id : String}
    (htable : Key.NulFree table) (hr : r ≠ ⟨table, id⟩) (field : String) (dim : Nat) :
    ex.vectorsIn s₁ table field dim id = ex.vectorsIn s₀ table field dim id := by
  have hstored := hw.writes.stored ⟨table, id⟩ htable fun h => hr h.symm
  rw [QueryExecutor.vectorsIn, hstored]
  rfl

/-- What was scanned is right about every id that nobody else will put right, and the entry holds
nothing else for it. -/
theorem Scanned.right {owner : String → String} (hw : ex.Rewrites owner r s₀ s₁) {table field : String}
    (htable : Key.NulFree table) {dim : Nat} {metric : DistanceMetric} {contents : Contents F32}
    (h : Scanned ex s₀ s₁ table field dim t contents) {e : VectorEntry}
    (he : EntryFits ex r s₀ s₁ t.written table field dim metric e) {id : String}
    (hid : ¬ (t.written = true ∧ r = ⟨table, id⟩)) :
    contents id = ex.vectorsIn s₀ table field dim id ∧
      (e.index.find id = none ∨ e.index.find id = ex.vectorsIn s₀ table field dim id) := by
  rw [not_and] at hid
  refine ⟨?_, ?_⟩
  · rcases h with rfl | ⟨hwritten, rfl⟩
    · rfl
    · exact Rewrites.vectorsIn_eq hw htable (hid hwritten) field dim
  · rcases he.part id with hnone | hbefore | ⟨hwritten, hafter⟩
    · exact .inl hnone
    · exact .inr hbefore
    · exact .inr (hafter.trans (Rewrites.vectorsIn_eq hw htable (hid hwritten) field dim))

/-- The lock is held, and the entry is being filled: an id that was good is good again. -/
structure Fills (ex : QueryExecutor) (r : RecordRef) (s₀ s₁ : Store) (b : Bool) (table field name : String)
    (dim n : Nat) (good : String → Prop) (t : Watched) : Prop extends Holds ex r s₀ s₁ b name n t where
  filling : ∃ e, t.entryUnder name = some e ∧ e.loaded = false ∧ ∀ id, good id → Good ex r s₀ table field dim t e id

theorem Good.spares {table field : String} {dim : Nat} {e e' : VectorEntry} {id : String}
    (h : Good ex r s₀ table field dim t e id) (hspares : Spares ex r s₀ s₁ b t t')
    (hfind : e'.index.find = e.index.find) : Good ex r s₀ table field dim t' e' id := by
  rcases h with ⟨hwritten, hr⟩ | h
  · exact .inl ⟨hspares.written hwritten, hr⟩
  · exact .inr (hfind ▸ h)

theorem Fills.spares {table field name : String} {dim n : Nat} {good : String → Prop}
    (h : Fills ex r s₀ s₁ b table field name dim n good t) (hspares : Spares ex r s₀ s₁ b t t') :
    Fills ex r s₀ s₁ b table field name dim n good t' := by
  obtain ⟨e, he, hload, hgood⟩ := h.filling
  obtain ⟨e', he', hload', hfind⟩ := hspares.filled name e he hload ((h.holder name).mpr rfl)
  exact ⟨h.toHolds.spares hspares, e', he', hload', fun id hid => (hgood id hid).spares hspares hfind⟩

/-- The one who holds the lock changes the entry. -/
theorem Holds.changes {owner : String → String} (hw : ex.Rewrites owner r s₀ s₁) {table field : String}
    {d : IndexDefinition} {dim n : Nat} {metric : DistanceMetric}
    (hd : ex.VectorIndex s₀ table d field dim metric) (h : Holds ex r s₀ s₁ b d.name n t) {e : VectorEntry}
    (he : t.entryUnder d.name = some e) (hload : e.loaded = false) {f : VectorEntry → VectorEntry} {w : World}
    (hchanges : t.world.Changes d.name f w) (hlocked : (f e).locked = e.locked)
    (hfits : EntryFits ex r s₀ s₁ t.written table field dim metric (f e)) :
    Spares ex r s₀ s₁ (!b) t { t with world := w } ∧ Holds ex r s₀ s₁ b d.name n { t with world := w } := by
  have hheld : t.holder d.name = some b := (h.holder d.name).mpr rfl
  have hinv : Inv ex r s₀ s₁ { t with world := w } := by
    refine h.inv.changes (g := t.holder) hchanges (fun _ _ => rfl) (h.inv.held d.name) fun e' he' => ?_
    cases he.symm.trans he'
    refine ⟨hlocked.trans (h.inv.locked _ _ he), fun _ => hload, fun hd' hname => ?_⟩
    obtain ⟨rfl, rfl, rfl, rfl, rfl⟩ := hw.catalogs.unique hd hd' hname.symm
    exact hfits
  refine ⟨Spares.changes (g := t.holder) hchanges (fun _ => hinv) (fun _ => Iff.rfl) (.inl ?_) ?_ ?_,
    ⟨hinv, ?_, ?_⟩, h.holder⟩
  · rw [hheld]
    cases b <;> decide
  · intro e' he' hload'
    cases he.symm.trans he'
    rw [hload] at hload'
    cases hload'
  · intro e' he' hload'
    cases he.symm.trans he'
    rw [hload] at hload'
    cases hload'
  · change w.services.vectors d.name = some n
    rw [hchanges.vectors, h.vectors]
  · intro name e' hne he' hmaker
    exact h.loads name e' hne ((hchanges.other hne).symm.trans he') hmaker

theorem Scanned.spares {table field : String} {dim : Nat} {contents : Contents F32}
    (h : Scanned ex s₀ s₁ table field dim t contents) (hspares : Spares ex r s₀ s₁ b t t') :
    Scanned ex s₀ s₁ table field dim t' contents := h.imp_right fun h => ⟨hspares.written h.1, h.2⟩

/-- An id of which the scan has no vector is good, whether anything was inserted or not. -/
theorem Scanned.good {owner : String → String} (hw : ex.Rewrites owner r s₀ s₁) {table field : String}
    (htable : Key.NulFree table) {dim : Nat} {metric : DistanceMetric} {contents : Contents F32}
    (h : Scanned ex s₀ s₁ table field dim t contents) {e : VectorEntry}
    (he : EntryFits ex r s₀ s₁ t.written table field dim metric e) {id : String}
    (hid : contents id = none ∨ e.index.find id = contents id) : Good ex r s₀ table field dim t e id := by
  by_cases hexempt : t.written = true ∧ r = ⟨table, id⟩
  · exact .inl hexempt
  · obtain ⟨hcontents, hfind⟩ := h.right hw htable he hexempt
    refine .inr ?_
    rcases hid with hnone | heq
    · rw [hnone] at hcontents
      exact hfind.elim (fun h => h.trans hcontents) fun h => h
    · exact heq.trans hcontents

/-- The entry after a scanned document has been inserted. -/
theorem Scanned.insert {owner : String → String} (hw : ex.Rewrites owner r s₀ s₁) {table field : String}
    (htable : Key.NulFree table) {dim : Nat} {metric : DistanceMetric} {contents : Contents F32}
    (h : Scanned ex s₀ s₁ table field dim t contents) {e : VectorEntry} (hload : e.loaded = false)
    (he : EntryFits ex r s₀ s₁ t.written table field dim metric e) {id : String} {v : List F32} (draw : Nat)
    (hv : contents id = if v.length = dim then some v else none) :
    EntryFits ex r s₀ s₁ t.written table field dim metric (e.insert D id v draw) ∧
      Good ex r s₀ table field dim t (e.insert D id v draw) id ∧
      ∀ id', Good ex r s₀ table field dim t e id' →
        Good ex r s₀ table field dim t (e.insert D id v draw) id' := by
  obtain ⟨hdim, hloaded, -, hmetric, hfind⟩ := e.insert_spec (D := D) id v draw
  rw [he.dim] at hfind
  have hfits : EntryFits ex r s₀ s₁ t.written table field dim metric (e.insert D id v draw) := by
    refine ⟨fun id' => ?_, fun hload' => ?_, hdim.trans he.dim, hmetric.trans he.metric⟩
    · rw [hfind]
      split
      · rename_i hlen
        rw [if_pos hlen] at hv
        by_cases hid : id' = id
        · subst hid
          rw [Function.update_self]
          rcases h with rfl | ⟨hwritten, rfl⟩
          · exact .inr (.inl hv.symm)
          · exact .inr (.inr ⟨hwritten, hv.symm⟩)
        · rw [Function.update_of_ne hid]
          exact he.part id'
      · exact he.part id'
    · rw [hloaded, hload] at hload'
      cases hload'
  have hgood : Good ex r s₀ table field dim t (e.insert D id v draw) id := by
    refine h.good hw htable hfits ?_
    rw [hfind]
    split
    · rename_i hlen
      rw [if_pos hlen] at hv
      exact .inr ((Function.update_self ..).trans hv.symm)
    · rename_i hlen
      rw [if_neg hlen] at hv
      exact .inl hv
  refine ⟨hfits, hgood, fun id' hid' => ?_⟩
  by_cases hid : id' = id
  · exact hid ▸ hgood
  · refine hid'.imp_right fun hold => ?_
    rw [hfind]
    split
    · rw [Function.update_of_ne hid, hold]
    · exact hold

theorem Fills.mono {table field name : String} {dim n : Nat} {good good' : String → Prop}
    (h : Fills ex r s₀ s₁ b table field name dim n good t) (hgood : ∀ id, good' id → good id) :
    Fills ex r s₀ s₁ b table field name dim n good' t where
  toHolds := h.toHolds
  filling := by
    obtain ⟨e, he, hload, hold⟩ := h.filling
    exact ⟨e, he, hload, fun id hid => hold id (hgood id hid)⟩

/-- When every id is good, the entry can be marked as loaded. -/
theorem EntryFits.loaded {table field : String} {dim : Nat} {metric : DistanceMetric} {e : VectorEntry}
    (h : EntryFits ex r s₀ s₁ t.written table field dim metric e)
    (hgood : ∀ id, Good ex r s₀ table field dim t e id) :
    EntryFits ex r s₀ s₁ t.written table field dim metric { e with loaded := true } :=
  ⟨h.part, fun _ id => hgood id, h.dim, h.metric⟩

theorem Inv.readable {owner : String → String} (hw : ex.Rewrites owner r s₀ s₁) (h : Inv ex r s₀ s₁ t) :
    ex.Readable t.world.store := by
  rw [h.store]
  split
  · exact hw.writes.readable hw.readable
  · exact hw.readable

theorem Inv.scanned (h : Inv ex r s₀ s₁ t) (table field : String) (dim : Nat) :
    Scanned ex s₀ s₁ table field dim t (ex.vectorsIn t.world.store table field dim) := by
  rw [Scanned, h.store]
  cases t.written with
  | true => exact .inr ⟨rfl, rfl⟩
  | false => exact .inl rfl

end Steps

end Watched

end Dllb
