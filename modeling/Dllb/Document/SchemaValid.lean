import Mathlib
import Dllb.Document.ReadPaths

/-! # Tables with a schema

Every document that is written has been validated as it will be stored: the
merged one where fields are merged. So a table stays valid whatever is called on
it, also where operations are computed first and written later.
-/

namespace Dllb

set_option autoImplicit false

/-! ## Validity -/

inductive HasType : Value → FieldType → Prop where
  | string (s : String) : HasType (.string s) .string
  | int (n : Int64) : HasType (.int n) .int
  | float (f : F64) : HasType (.float f) .float
  | bool (b : Bool) : HasType (.bool b) .bool
  | bytes (b : Bytes) : HasType (.bytes b) .bytes
  | array (items : List Value) : HasType (.array items) .array
  | object (entries : List (String × Value)) : HasType (.object entries) .object
  | recordId (r : RecordId) : HasType (.recordId r) .recordId
  | vector (v : List F32) : HasType (.vector v) (.vector v.length)

/-- What a schema asks of the fields of a document. -/
structure TableDefinition.Admits (schema : TableDefinition) (fields : Fields) : Prop where
  required : ∀ fieldDef ∈ schema.fields, fieldDef.required = true → fieldDef.name ∈ fields
  known : ∀ name ∈ fields, ∃ fieldDef ∈ schema.fields, fieldDef.name = name
  typed : ∀ fieldDef ∈ schema.fields, ∀ value, fields[fieldDef.name]? = some value → value ≠ .none →
    HasType value fieldDef.fieldType

theorem validateField_eq_ok_iff {value : Value} {expected : FieldType} {fieldName : String} :
    validateField value expected fieldName = .ok () ↔ (value ≠ .none → HasType value expected) := by
  constructor
  · intro h hne
    unfold validateField at h
    split at h
    case h_1 => exact absurd rfl hne
    case h_10 =>
      split at h
      · rename_i hlength
        exact hlength ▸ .vector _
      · cases h
    case h_11 => cases h
    all_goals constructor
  · intro h
    by_cases hne : value = .none
    · subst hne
      rfl
    · cases h hne
      case vector => exact if_pos rfl
      all_goals rfl

theorem checkRequired_eq_ok_iff {doc : Document} {defs : List FieldDefinition} :
    checkRequired doc defs = .ok () ↔ ∀ fieldDef ∈ defs, fieldDef.required = true → fieldDef.name ∈ doc.fields := by
  induction defs with
  | nil => simp [checkRequired]
  | cons fieldDef defs ih =>
    rw [checkRequired, List.forall_mem_cons, Std.ExtTreeMap.mem_iff_contains]
    cases hrequired : fieldDef.required with
    | false => simp [ih]
    | true =>
      cases hcontains : doc.fields.contains fieldDef.name with
      | false => simp
      | true => simp [ih]

theorem checkKnown_eq_ok_iff {defs : List FieldDefinition} {names : List String} :
    checkKnown defs names = .ok () ↔ ∀ name ∈ names, ∃ fieldDef ∈ defs, fieldDef.name = name := by
  induction names with
  | nil => simp [checkKnown]
  | cons name names ih =>
    rw [checkKnown, List.forall_mem_cons]
    split
    · rename_i hknown
      simp only [List.any_eq_true, decide_eq_true_eq] at hknown
      simp only [ih, hknown, true_and]
    · rename_i hunknown
      simp only [List.any_eq_true, decide_eq_true_eq] at hunknown
      simp [hunknown]

theorem checkTypes_eq_ok_iff {doc : Document} {defs : List FieldDefinition} :
    checkTypes doc defs = .ok () ↔ ∀ fieldDef ∈ defs, ∀ value, doc.fields[fieldDef.name]? = some value →
      value ≠ .none → HasType value fieldDef.fieldType := by
  induction defs with
  | nil => simp [checkTypes]
  | cons fieldDef defs ih =>
    rw [checkTypes, List.forall_mem_cons]
    split
    · rename_i value hvalue
      have hfield := @validateField_eq_ok_iff value fieldDef.fieldType fieldDef.name
      cases hcheck : validateField value fieldDef.fieldType fieldDef.name with
      | ok u =>
        rw [hcheck] at hfield
        have htyped := hfield.mp rfl
        dsimp only
        rw [ih]
        refine ⟨fun hrest => ⟨?_, hrest⟩, fun hall => hall.2⟩
        rintro _ hvalue'
        obtain rfl := Option.some.inj (hvalue.symm.trans hvalue')
        exact htyped
      | error e =>
        rw [hcheck] at hfield
        simp only [reduceCtorEq, false_iff] at hfield
        simp [hvalue, hfield]
    · rename_i hnone
      simp [hnone, ih]

theorem validateDocument_eq_ok_iff {doc : Document} {schema : TableDefinition} (h : schema.schemaMode = .schemafull) :
    validateDocument doc schema = .ok () ↔ schema.Admits doc.fields := by
  have hmode : ¬ schema.schemaMode = .schemaless := by
    rw [h]
    decide
  rw [validateDocument, if_neg hmode]
  constructor
  · intro hvalid
    cases hrequired : checkRequired doc schema.fields with
    | error e =>
      rw [hrequired] at hvalid
      cases hvalid
    | ok u =>
      cases hknown : checkKnown schema.fields doc.fields.keys with
      | error e =>
        rw [hrequired, hknown] at hvalid
        cases hvalid
      | ok u =>
        rw [hrequired, hknown] at hvalid
        refine ⟨checkRequired_eq_ok_iff.mp hrequired, fun name hname => ?_, checkTypes_eq_ok_iff.mp hvalid⟩
        exact checkKnown_eq_ok_iff.mp hknown name (Std.ExtTreeMap.mem_keys.mpr hname)
  · rintro ⟨hrequired, hknown, htyped⟩
    have hnames : checkKnown schema.fields doc.fields.keys = .ok () :=
      checkKnown_eq_ok_iff.mpr fun name hname => hknown name (Std.ExtTreeMap.mem_keys.mp hname)
    rw [checkRequired_eq_ok_iff.mpr hrequired, hnames]
    exact checkTypes_eq_ok_iff.mpr htyped

/-! ## What is stored -/

namespace Collection

variable [Rmp]

/-- An entry among the documents of the table holds fields that the schema admits. -/
def Conforms (c : Collection) (schema : TableDefinition) (k v : Bytes) : Prop :=
  c.documents <+: k → ∃ fields, Rmp.fromSlice v = .ok fields ∧ schema.Admits fields

/-- Every stored document of the table is one that the schema admits. -/
def Valid (c : Collection) (schema : TableDefinition) (s : Store) : Prop :=
  ∀ k v, s[k]? = some v → c.Conforms schema k v

theorem Writes.conforms {c : Collection} {schema : TableDefinition} (hschema : c.schema = some schema)
    (hmode : schema.schemaMode = .schemafull) {k v : Bytes} (h : c.Writes k v) : c.Conforms schema k v := by
  intro hpre
  cases h with
  | document id hvalid hb =>
    refine ⟨_, Rmp.fromSlice_toVec (serialize_eq_ok hb), ?_⟩
    rw [validate, hschema] at hvalid
    exact (validateDocument_eq_ok_iff hmode).mp hvalid
  | entry r =>
    rw [← List.append_nil c.documents, documents, Key.tablePrefix_append_prefix_iff] at hpre
    exact absurd hpre.1 (by decide)

/-! ## Sessions -/

/-- The store, and the batches that have been computed for later. -/
structure Session where
  store : Store
  computed : List (List PutOp × List Bytes)

/-- A call, a batch that is computed, or computed batches that are written as one. -/
inductive Step where
  | run (call : Call)
  | createToOps (id : String) (doc : Document)
  | upsertToOps (id : String) (doc : Document) (updateFields : Fields)
  | writeBatch (picked : List Nat)

def Step.exec (c : Collection) (st : Session) : Step → Session
  | run call => { st with store := call.exec c st.store }
  | createToOps id doc =>
    match c.createToOps id doc with
    | .ok (_, puts) => { st with computed := st.computed ++ [(puts, [])] }
    | .error _ => st
  | upsertToOps id doc updateFields =>
    match ((c.upsertToOps id doc updateFields).run st.store).1 with
    | .ok (_, _, puts, deletes) => { st with computed := st.computed ++ [(puts, deletes)] }
    | .error _ => st
  | writeBatch picked =>
    let batches := picked.filterMap fun i => st.computed[i]?
    { st with store := st.store.writeBatch (batches.flatMap Prod.fst) (batches.flatMap Prod.snd) }

/-- The steps are made on collections of one table with one schema, and with any indexes. -/
def Step.execAll (c : Collection) (schema : TableDefinition) (st : Session)
    (steps : List (List IndexDefinition × Step)) : Session :=
  steps.foldl (fun st step => step.2.exec { c with schema := some schema, indexes := step.1 } st) st

/-- What is stored conforms, and so does what waits to be stored. -/
structure Session.Ok (c : Collection) (schema : TableDefinition) (st : Session) : Prop where
  valid : c.Valid schema st.store
  computed : ∀ batch ∈ st.computed, ∀ op ∈ batch.1, c.Conforms schema op.1 op.2

theorem Session.Ok.exec {c : Collection} {schema : TableDefinition} (hmode : schema.schemaMode = .schemafull)
    {st : Session} (h : st.Ok c schema) (indexes : List IndexDefinition) (step : Step) :
    (step.exec { c with schema := some schema, indexes } st).Ok c schema := by
  have hwrites : ∀ k v, Writes { c with schema := some schema, indexes } k v → c.Conforms schema k v :=
    fun k v hkv => Writes.conforms (c := { c with schema := some schema, indexes }) rfl hmode hkv
  cases step with
  | run call => exact ⟨fun k v => ((call.grows_writes _ st.store).mono hwrites).all h.valid, h.computed⟩
  | createToOps id doc =>
    rw [Step.exec]
    split
    · rename_i rid puts hputs
      refine ⟨h.valid, List.forall_mem_append.mpr ⟨h.computed, List.forall_mem_singleton.mpr fun op hop => ?_⟩⟩
      exact hwrites _ _ (writes_createToOps hputs op hop)
    · exact h
  | upsertToOps id doc updateFields =>
    rw [Step.exec]
    split
    · rename_i rid created puts deletes hrun
      refine ⟨h.valid, List.forall_mem_append.mpr ⟨h.computed, List.forall_mem_singleton.mpr fun op hop => ?_⟩⟩
      exact hwrites _ _ ((returns_upsertToOps _ id doc updateFields).run (Prod.ext hrun rfl) op hop)
    · exact h
  | writeBatch picked =>
    refine ⟨fun k v => Store.Grows.all (Store.grows_writeBatch (fun op hop => ?_) _ _) h.valid, h.computed⟩
    obtain ⟨batch, hbatch, hop⟩ := List.mem_flatMap.mp hop
    obtain ⟨i, -, hi⟩ := List.mem_filterMap.mp hbatch
    exact h.computed batch (List.mem_of_getElem? hi) op hop

theorem Session.Ok.execAll {c : Collection} {schema : TableDefinition} (hmode : schema.schemaMode = .schemafull)
    {st : Session} (h : st.Ok c schema) (steps : List (List IndexDefinition × Step)) :
    (Step.execAll c schema st steps).Ok c schema := by
  induction steps generalizing st with
  | nil => exact h
  | cons step steps ih => exact ih (h.exec hmode step.1 step.2)

theorem Valid.admits {c : Collection} {schema : TableDefinition} {s s' : Store} (h : c.Valid schema s) {id : String}
    {doc : Document} (hget : (c.get id).run s = (.ok (some doc), s')) : schema.Admits doc.fields := by
  obtain ⟨-, ⟨-, hr⟩ | ⟨fields, ⟨b, hb, hfields⟩, hr⟩ | ⟨_, _, _, _, hr⟩⟩ := run_get_cases hget
  · cases hr
  · cases hr
    have hpre : c.documents <+: c.docKey id := by
      rw [docKey, Key.documentKey_eq]
      exact List.prefix_append ..
    obtain ⟨fields', hfields', hadmits⟩ := h _ b hb hpre
    cases hfields.symm.trans hfields'
    exact hadmits
  · cases hr

/-- From an empty table, after any steps, failed ones included, every stored document is one that the
schema admits. -/
theorem schemafull_stays_valid (c : Collection) (schema : TableDefinition) (hmode : schema.schemaMode = .schemafull)
    (s : Store) (hs : ∀ k, c.documents <+: k → s[k]? = none) (steps : List (List IndexDefinition × Step)) :
    c.Valid schema (Step.execAll c schema ⟨s, []⟩ steps).store := by
  have hempty : Session.Ok c schema ⟨s, []⟩ := by
    refine ⟨fun k v hv hpre => ?_, List.forall_mem_nil _⟩
    rw [hs k hpre] at hv
    cases hv
  exact (Session.Ok.execAll hmode hempty steps).valid

/-- People have a name, and a place in a space of two dimensions if they have one. -/
def people : TableDefinition where
  name := "person"
  schemaMode := .schemafull
  fields := [⟨"name", .string, true⟩, ⟨"place", .vector 2, false⟩]

omit [Rmp] in
/-- The merge of a place of one dimension fails, and the batch is written after the record is gone. -/
theorem schemafull_stays_valid_people :
    @Valid MsgPack.codec users people (@Step.execAll MsgPack.codec users people ⟨∅, []⟩
      [([], .run (.createWithId "a" ((Document.new ⟨"t", "a"⟩).set "name" (.string "Ann")))),
        ([], .run (.merge "a" ((∅ : Fields).insert "place" (.vector [⟨0⟩])))),
        ([], .upsertToOps "a" (Document.new ⟨"t", "a"⟩) ((∅ : Fields).insert "place" (.vector [⟨0⟩, ⟨0⟩]))),
        ([], .run (.delete "a")), ([], .writeBatch [0])]).store :=
  @schemafull_stays_valid MsgPack.codec users people rfl ∅ (fun _ _ => Std.ExtTreeMap.getElem?_empty) _

end Collection

end Dllb
