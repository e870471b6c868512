import Dllb.Lib.Toml

/-! # The tables of TOML

What the statements of a document build. A value is closed, dotted keys extend
only what dotted keys have made, and a header opens a table once, unless it is
there just for the tables below it.
-/

namespace Dllb.Toml

set_option autoImplicit false

/-- How a table has come about. -/
inductive Kind where
  | implicit
  | header
  | dotted
  deriving DecidableEq

inductive Node where
  | value (v : Toml)
  | table (kind : Kind) (entries : List (String × Node))
  | tables (items : List (List (String × Node)))

abbrev Entries := List (String × Node)

inductive Statement where
  | pair (path : List String) (v : Toml)
  | header (path : List String)
  | arrayHeader (path : List String)

def setEntry (key : String) (node : Node) (entries : Entries) : Entries :=
  entries.map fun e => if e.1 = key then (key, node) else e

/-! ## One statement -/

def insertPair : List String → Toml → Entries → Option Entries
  | [], _, _ => none
  | [key], v, entries =>
    match entries.lookup key with
    | none => some (entries ++ [(key, .value v)])
    | some _ => none
  | key :: path, v, entries =>
    match entries.lookup key with
    | none => (insertPair path v []).map fun sub => entries ++ [(key, .table .dotted sub)]
    | some (.table .dotted sub) => (insertPair path v sub).map fun sub => setEntry key (.table .dotted sub) entries
    | some _ => none

def openTable (key : String) (entries : Entries) : Option Entries :=
  match entries.lookup key with
  | none => some (entries ++ [(key, .table .header [])])
  | some (.table .implicit sub) => some (setEntry key (.table .header sub) entries)
  | some _ => none

def openItem (key : String) (entries : Entries) : Option Entries :=
  match entries.lookup key with
  | none => some (entries ++ [(key, .tables [[]])])
  | some (.tables items) => some (setEntry key (.tables (items ++ [[]])) entries)
  | some _ => none

/-- Below a key, in the last of several tables. -/
def descend (key : String) (f : Entries → Option Entries) (entries : Entries) : Option Entries :=
  match entries.lookup key with
  | none => (f []).map fun sub => entries ++ [(key, .table .implicit sub)]
  | some (.table kind sub) => (f sub).map fun sub => setEntry key (.table kind sub) entries
  | some (.tables items) =>
    (f (items.getLastD [])).map fun sub => setEntry key (.tables (items.dropLast ++ [sub])) entries
  | some (.value _) => none

def within : List String → (Entries → Option Entries) → Entries → Option Entries
  | [], f => f
  | key :: path, f => descend key (within path f)

/-- The section that is open, and all tables. -/
structure State where
  current : List String
  root : Entries

def execute (st : State) : Statement → Option State
  | .pair path v => (within st.current (insertPair path v) st.root).map fun root => { st with root }
  | .header path =>
    (within path.dropLast (openTable (path.getLastD "")) st.root).map fun root => { current := path, root }
  | .arrayHeader path =>
    (within path.dropLast (openItem (path.getLastD "")) st.root).map fun root => { current := path, root }

/-! ## All statements -/

mutual

def Node.toToml : Node → Toml
  | .value v => v
  | .table _ entries => .table (tomlEntries entries)
  | .tables items => .array (tomlTables items)

def tomlEntries : List (String × Node) → List (String × Toml)
  | [] => []
  | (key, node) :: entries => (key, node.toToml) :: tomlEntries entries

def tomlTables : List (List (String × Node)) → List Toml
  | [] => []
  | entries :: items => .table (tomlEntries entries) :: tomlTables items

end

def run (statements : List Statement) : Option State :=
  statements.foldlM execute { current := [], root := [] }

/-- The pairs of an inline table make one closed table. -/
def inlineTable (pairs : List (List String × Toml)) : Option (List (String × Toml)) :=
  (pairs.foldlM (fun entries p => insertPair p.1 p.2 entries) []).map tomlEntries

/-! ## Looking up -/

theorem lookup_cons_ite {β : Type} (key : String) (b : β) (entries : List (String × β)) (other : String) :
    ((key, b) :: entries).lookup other = if other = key then some b else entries.lookup other := by
  rw [List.lookup_cons]
  by_cases h : other = key
  · simp [h]
  · simp [beq_eq_false_iff_ne.mpr h, h]

theorem lookup_setEntry (key : String) (node : Node) (entries : Entries) (other : String) :
    (setEntry key node entries).lookup other =
      if other = key then (entries.lookup key).map fun _ => node else entries.lookup other := by
  induction entries with
  | nil => simp [setEntry]
  | cons e entries ih =>
    obtain ⟨k, n⟩ := e
    rw [setEntry, List.map_cons, ← setEntry, lookup_cons_ite k n, lookup_cons_ite k n]
    by_cases hk : k = key
    · subst hk
      rw [if_pos rfl, lookup_cons_ite, ih, if_pos rfl]
      split <;> rfl
    · rw [if_neg hk, lookup_cons_ite, ih, if_neg (Ne.symm hk)]
      by_cases hother : other = k
      · rw [if_pos hother, if_pos hother, if_neg (hother ▸ hk)]
      · rw [if_neg hother, if_neg hother]

theorem lookup_append_singleton {entries : Entries} {key : String} (h : entries.lookup key = none) (node : Node)
    (other : String) : (entries ++ [(key, node)]).lookup other =
      if other = key then some node else entries.lookup other := by
  rw [List.lookup_append, lookup_cons_ite]
  by_cases hother : other = key
  · subst hother
    simp [h]
  · simp [hother]

theorem lookup_tomlEntries (entries : Entries) (key : String) :
    (tomlEntries entries).lookup key = (entries.lookup key).map Node.toToml := by
  induction entries with
  | nil => rfl
  | cons e entries ih =>
    obtain ⟨k, n⟩ := e
    rw [tomlEntries, lookup_cons_ite, lookup_cons_ite, ih]
    split <;> rfl

theorem tomlTables_eq (items : List Entries) : tomlTables items = items.map fun entries => .table (tomlEntries entries) := by
  induction items with
  | nil => rfl
  | cons entries items ih => rw [tomlTables, ih, List.map_cons]

/-! ## What statements keep -/

/-- Keys stay, and what values they have been given. -/
structure Keeps (before after : Entries) : Prop where
  present : ∀ key, (before.lookup key).isSome → (after.lookup key).isSome
  value : ∀ key v, before.lookup key = some (.value v) → after.lookup key = some (.value v)

/-- A table becomes a table, and several tables stay in their places. -/
inductive Grown : Node → Node → Prop
  | table (kind kind' : Kind) (entries entries' : Entries) : Grown (.table kind entries) (.table kind' entries')
  | tables {items items' : List Entries}
      (h : ∀ (i : Nat) (before : Entries), items[i]? = some before → ∃ after, items'[i]? = some after ∧ Keeps before after) :
      Grown (.tables items) (.tables items')

/-- One entry is new, or has grown. -/
inductive Changes : Entries → Entries → Prop
  | added {entries : Entries} {key : String} (h : entries.lookup key = none) (node : Node) :
    Changes entries (entries ++ [(key, node)])
  | grown {entries : Entries} {key : String} {before after : Node} (h : entries.lookup key = some before)
      (hgrown : Grown before after) : Changes entries (setEntry key after entries)

theorem Keeps.refl (entries : Entries) : Keeps entries entries := ⟨fun _ h => h, fun _ _ h => h⟩

theorem Changes.keeps {before after : Entries} (h : Changes before after) : Keeps before after := by
  cases h with
  | added hnone node =>
    refine ⟨fun other hother => ?_, fun other v hother => ?_⟩
    · rw [lookup_append_singleton hnone]
      split
      · rfl
      · exact hother
    · rw [lookup_append_singleton hnone, if_neg]
      · exact hother
      · rintro rfl
        rw [hnone] at hother
        cases hother
  | grown hbefore hgrown =>
    refine ⟨fun other hother => ?_, fun other v hother => ?_⟩
    · rw [lookup_setEntry, hbefore]
      split
      · rfl
      · exact hother
    · rw [lookup_setEntry, if_neg]
      · exact hother
      · rintro rfl
        rw [hbefore] at hother
        cases hother
        cases hgrown

/-- Several tables are never fewer, and each keeps what it has. -/
theorem Changes.tables {before after : Entries} (h : Changes before after) {key : String} {items : List Entries}
    (hitems : before.lookup key = some (.tables items)) : ∃ items', after.lookup key = some (.tables items') ∧
      ∀ (i : Nat) (b : Entries), items[i]? = some b → ∃ a, items'[i]? = some a ∧ Keeps b a := by
  have hsame : ∀ (i : Nat) (b : Entries), items[i]? = some b → ∃ a, items[i]? = some a ∧ Keeps b a :=
    fun i b hb => ⟨b, hb, .refl b⟩
  cases h with
  | added hnone node =>
    refine ⟨items, ?_, hsame⟩
    rw [lookup_append_singleton hnone, if_neg]
    · exact hitems
    · rintro rfl
      rw [hnone] at hitems
      cases hitems
  | @grown other _ _ hbefore hgrown =>
    by_cases hother : key = other
    · subst hother
      rw [hitems] at hbefore
      cases hbefore
      cases hgrown with
      | @tables _ items' hgrown => exact ⟨items', by rw [lookup_setEntry, if_pos rfl, hitems]; rfl, hgrown⟩
    · refine ⟨items, ?_, hsame⟩
      rw [lookup_setEntry, if_neg hother]
      exact hitems

theorem insertPair_changes {path : List String} {v : Toml} {before after : Entries}
    (h : insertPair path v before = some after) : Changes before after := by
  unfold insertPair at h
  split at h
  · cases h
  · split at h
    · cases h
      exact .added ‹_› _
    · cases h
  · split at h
    · obtain ⟨sub, -, rfl⟩ := Option.map_eq_some_iff.mp h
      exact .added ‹_› _
    · obtain ⟨sub, -, rfl⟩ := Option.map_eq_some_iff.mp h
      exact .grown ‹_› (.table _ _ _ _)
    · cases h

theorem openTable_changes {key : String} {before after : Entries} (h : openTable key before = some after) :
    Changes before after := by
  unfold openTable at h
  split at h
  · cases h
    exact .added ‹_› _
  · cases h
    exact .grown ‹_› (.table _ _ _ _)
  · cases h

theorem openItem_changes {key : String} {before after : Entries} (h : openItem key before = some after) :
    Changes before after := by
  unfold openItem at h
  split at h
  · cases h
    exact .added ‹_› _
  · cases h
    refine .grown ‹_› (.tables fun i b hb => ⟨b, ?_, .refl b⟩)
    rw [List.getElem?_append_left (List.getElem?_eq_some_iff.mp hb).1]
    exact hb
  · cases h

theorem descend_changes {key : String} {f : Entries → Option Entries}
    (hf : ∀ before after, f before = some after → Changes before after) {before after : Entries}
    (h : descend key f before = some after) : Changes before after := by
  unfold descend at h
  split at h
  · obtain ⟨sub, -, rfl⟩ := Option.map_eq_some_iff.mp h
    exact .added ‹_› _
  · obtain ⟨sub, -, rfl⟩ := Option.map_eq_some_iff.mp h
    exact .grown ‹_› (.table _ _ _ _)
  · rename_i items hitems
    obtain ⟨sub, hsub, rfl⟩ := Option.map_eq_some_iff.mp h
    refine .grown hitems (.tables fun i b hb => ?_)
    obtain ⟨hi, rfl⟩ := List.getElem?_eq_some_iff.mp hb
    by_cases hlast : i < items.dropLast.length
    · refine ⟨items[i], ?_, .refl _⟩
      rw [List.getElem?_append_left hlast, List.getElem?_eq_getElem hlast, List.getElem_dropLast]
    · rw [List.length_dropLast] at hlast
      have hlength : i = items.dropLast.length := by
        rw [List.length_dropLast]
        omega
      have hget : items.getLastD [] = items[i] := by
        rw [List.getLastD_eq_getLast?, List.getLast?_eq_getElem?, ← List.length_dropLast, ← hlength, hb]
        rfl
      refine ⟨sub, ?_, hget ▸ (hf _ _ hsub).keeps⟩
      rw [hlength, List.getElem?_concat_length]
  · cases h

theorem within_changes {f : Entries → Option Entries}
    (hf : ∀ before after, f before = some after → Changes before after) (path : List String) {before after : Entries}
    (h : within path f before = some after) : Changes before after := by
  induction path generalizing before after with
  | nil => exact hf before after h
  | cons key path ih => exact descend_changes (fun _ _ => ih) h

/-- Every statement changes the tables in one place. -/
theorem execute_changes {st st' : State} {statement : Statement} (h : execute st statement = some st') :
    Changes st.root st'.root := by
  cases statement with
  | pair path v =>
    obtain ⟨root, hroot, rfl⟩ := Option.map_eq_some_iff.mp h
    exact within_changes (fun _ _ => insertPair_changes) _ hroot
  | header path =>
    obtain ⟨root, hroot, rfl⟩ := Option.map_eq_some_iff.mp h
    exact within_changes (fun _ _ => openTable_changes) _ hroot
  | arrayHeader path =>
    obtain ⟨root, hroot, rfl⟩ := Option.map_eq_some_iff.mp h
    exact within_changes (fun _ _ => openItem_changes) _ hroot

theorem Keeps.trans {a b c : Entries} (hab : Keeps a b) (hbc : Keeps b c) : Keeps a c :=
  ⟨fun key h => hbc.present key (hab.present key h), fun key v h => hbc.value key v (hab.value key v h)⟩

/-- Whatever statements follow, a table of several keeps its place and what it has. -/
theorem tables_of_execute {statements : List Statement} {st st' : State} (h : statements.foldlM execute st = some st')
    {key : String} {items : List Entries} (hitems : st.root.lookup key = some (.tables items)) {i : Nat} {b : Entries}
    (hb : items[i]? = some b) :
    ∃ items' a, st'.root.lookup key = some (.tables items') ∧ items'[i]? = some a ∧ Keeps b a := by
  induction statements generalizing st items b with
  | nil =>
    cases h
    exact ⟨items, b, hitems, hb, .refl b⟩
  | cons statement statements ih =>
    obtain ⟨next, hnext, hrest⟩ := Option.bind_eq_some_iff.mp ((List.foldlM_cons ..).symm.trans h)
    obtain ⟨items', hitems', hkeeps⟩ := (execute_changes hnext).tables hitems
    obtain ⟨a, ha, hba⟩ := hkeeps i b hb
    obtain ⟨items'', c, hitems'', hc, hac⟩ := ih hrest hitems' ha
    exact ⟨items'', c, hitems'', hc, hba.trans hac⟩

/-! ## Pairs -/

theorem insertPair_new {entries : Entries} {key : String} (h : entries.lookup key = none) (v : Toml) :
    insertPair [key] v entries = some (entries ++ [(key, .value v)]) := by
  rw [insertPair, h]

/-- A value is not extended and not given twice. -/
theorem insertPair_closed {entries : Entries} {key : String} {v : Toml} (h : entries.lookup key = some (.value v))
    (path : List String) (w : Toml) : insertPair (key :: path) w entries = none := by
  cases path with
  | nil => rw [insertPair, h]
  | cons next path =>
    rw [insertPair, h]
    exact List.cons_ne_nil _ _

theorem insertPair_present {key : String} {path : List String} {v : Toml} {before after : Entries}
    (h : insertPair (key :: path) v before = some after) : (after.lookup key).isSome := by
  cases path with
  | nil =>
    rw [insertPair] at h
    split at h
    · cases h
      rw [lookup_append_singleton ‹_›, if_pos rfl]
      rfl
    · cases h
  | cons next path =>
    rw [insertPair] at h
    · split at h
      · obtain ⟨sub, -, rfl⟩ := Option.map_eq_some_iff.mp h
        rw [lookup_append_singleton ‹_›, if_pos rfl]
        rfl
      · rename_i hlookup
        obtain ⟨sub, -, rfl⟩ := Option.map_eq_some_iff.mp h
        rw [lookup_setEntry, if_pos rfl, hlookup]
        rfl
      · cases h
    · exact List.cons_ne_nil _ _

theorem insertPair_value {key : String} {v : Toml} {before after : Entries}
    (h : insertPair [key] v before = some after) : after.lookup key = some (.value v) := by
  rw [insertPair] at h
  split at h
  · cases h
    rw [lookup_append_singleton ‹_›, if_pos rfl]
  · cases h

theorem keeps_of_insertPairs {pairs : List (List String × Toml)} {before after : Entries}
    (h : pairs.foldlM (fun entries p => insertPair p.1 p.2 entries) before = some after) : Keeps before after := by
  induction pairs generalizing before with
  | nil =>
    cases h
    exact .refl _
  | cons p pairs ih =>
    obtain ⟨next, hnext, hrest⟩ := Option.bind_eq_some_iff.mp ((List.foldlM_cons ..).symm.trans h)
    exact (insertPair_changes hnext).keeps.trans (ih hrest)

end Dllb.Toml
