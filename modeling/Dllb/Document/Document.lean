import Mathlib
import Dllb.Storage.Kv

/-! # Documents, index definitions, schemas and their serialization

MessagePack is not part of the repository: `Rmp` stands for the two entry
points of the codec the code calls, with the round trip it relies on.
-/

namespace Dllb

set_option autoImplicit false

/-- Strings order by their UTF-8 bytes. -/
def cmpString (a b : String) : Ordering := cmpBytes (asBytes a) (asBytes b)

instance : Std.TransCmp cmpString where
  eq_swap := by
    intro a b
    exact @Std.OrientedCmp.eq_swap _ cmpBytes _ (asBytes a) (asBytes b)
  isLE_trans := by
    intro a b c
    exact @Std.TransCmp.isLE_trans _ cmpBytes _ (asBytes a) (asBytes b) (asBytes c)

instance : Std.LawfulEqCmp cmpString where
  compare_self := by
    intro a
    exact @Std.ReflCmp.compare_self _ cmpBytes _ (asBytes a)
  eq_of_compare h := asBytes_injective (@Std.LawfulEqCmp.eq_of_compare _ cmpBytes _ _ _ h)

abbrev Fields := Std.ExtTreeMap String Value cmpString

structure Document where
  id : RecordId
  fields : Fields

namespace Document

def new (id : RecordId) : Document := { id, fields := ∅ }

def set (doc : Document) (field : String) (value : Value) : Document :=
  { doc with fields := doc.fields.insert field value }

end Document

theorem getElem?_insert_string {V : Type} (m : Std.ExtTreeMap String V cmpString) (k k' : String) (v : V) :
    (m.insert k v)[k']? = if k = k' then some v else m[k']? := by
  simp [Std.ExtTreeMap.getElem?_insert, Std.LawfulEqCmp.compare_eq_iff_eq]

/-! ## Index definitions -/

inductive IndexKind where
  | bTree
  | fullText (analyzer : String)
  | vector (dim : Nat) (metric : String)
  deriving DecidableEq

structure IndexDefinition where
  name : String
  fields : List String
  unique : Bool
  kind : IndexKind
  deriving DecidableEq

namespace IndexDefinition

def btree (name : String) (fields : List String) (unique : Bool) : IndexDefinition :=
  { name, fields, unique, kind := .bTree }

def isBtree (idx : IndexDefinition) : Bool :=
  match idx.kind with
  | .bTree => true
  | _ => false

end IndexDefinition

/-! ## Serialization -/

/-- The MessagePack codec, at the two types the code stores. -/
class Rmp where
  toVec : Fields → Except String Bytes
  fromSlice : Bytes → Except String Fields
  fromSlice_toVec : ∀ {f b}, toVec f = .ok b → fromSlice b = .ok f
  definitionToVec : IndexDefinition → Except String Bytes
  definitionFromSlice : Bytes → Except String IndexDefinition
  definitionFromSlice_toVec : ∀ {d b}, definitionToVec d = .ok b → definitionFromSlice b = .ok d

section Serde

variable [Rmp]

def serialize (doc : Document) : Result Bytes :=
  (Rmp.toVec doc.fields).mapError fun e => .serialization [.text e]

def deserialize (id : RecordId) (bytes : Bytes) : Result Document :=
  match Rmp.fromSlice bytes with
  | .ok fields => .ok { id, fields }
  | .error e => .error (.serialization [.text e])

theorem serialize_eq_ok {doc : Document} {b : Bytes} (h : serialize doc = .ok b) :
    Rmp.toVec doc.fields = .ok b := by
  unfold serialize at h
  cases hv : Rmp.toVec doc.fields with
  | ok b' =>
    rw [hv] at h
    cases h
    rfl
  | error e =>
    rw [hv] at h
    cases h

/-- A stored document comes back under whatever identifier its key carries. -/
theorem deserialize_of_serialize {doc : Document} {b : Bytes} (h : serialize doc = .ok b)
    (id : RecordId) : deserialize id b = .ok { id, fields := doc.fields } := by
  unfold deserialize
  rw [Rmp.fromSlice_toVec (serialize_eq_ok h)]

end Serde

/-! ## Schemas -/

inductive FieldType where
  | string | int | float | bool | bytes | array | object | recordId
  | vector (dim : Nat)
  deriving DecidableEq

inductive SchemaMode where
  | schemaless | schemafull
  deriving DecidableEq

structure FieldDefinition where
  name : String
  fieldType : FieldType
  required : Bool
  deriving DecidableEq

structure TableDefinition where
  name : String
  schemaMode : SchemaMode
  fields : List FieldDefinition
  deriving DecidableEq

/-- The debug form of a field type. -/
def FieldType.debug : FieldType → String
  | string => "String"
  | int => "Int"
  | float => "Float"
  | bool => "Bool"
  | bytes => "Bytes"
  | array => "Array"
  | object => "Object"
  | recordId => "RecordId"
  | vector dim => "Vector(" ++ toString dim ++ ")"

def validateField (value : Value) (expected : FieldType) (fieldName : String) : Result Unit :=
  match value, expected with
  | .none, _ => .ok ()
  | .string _, .string => .ok ()
  | .int _, .int => .ok ()
  | .float _, .float => .ok ()
  | .bool _, .bool => .ok ()
  | .bytes _, .bytes => .ok ()
  | .array _, .array => .ok ()
  | .object _, .object => .ok ()
  | .recordId _, .recordId => .ok ()
  | .vector v, .vector dim =>
    if v.length = dim then .ok () else .error (.dimensionMismatch dim v.length)
  | value, expected =>
    .error (.schema [.text ("field '" ++ fieldName ++ "': expected " ++ expected.debug ++ ", got "),
      .debug value])

def checkRequired (doc : Document) : List FieldDefinition → Result Unit
  | [] => .ok ()
  | fieldDef :: defs =>
    if fieldDef.required && !doc.fields.contains fieldDef.name then
      .error (.schema [.text ("missing required field: '" ++ fieldDef.name ++ "'")])
    else checkRequired doc defs

def checkKnown (defs : List FieldDefinition) : List String → Result Unit
  | [] => .ok ()
  | fieldName :: names =>
    if defs.any (fun f => f.name = fieldName) then checkKnown defs names
    else .error (.schema [.text ("unknown field: '" ++ fieldName ++ "'")])

def checkTypes (doc : Document) : List FieldDefinition → Result Unit
  | [] => .ok ()
  | fieldDef :: defs =>
    match doc.fields[fieldDef.name]? with
    | some value =>
      match validateField value fieldDef.fieldType fieldDef.name with
      | .ok () => checkTypes doc defs
      | .error e => .error e
    | none => checkTypes doc defs

def validateDocument (doc : Document) (schema : TableDefinition) : Result Unit :=
  if schema.schemaMode = .schemaless then .ok ()
  else do
    checkRequired doc schema.fields
    checkKnown schema.fields doc.fields.keys
    checkTypes doc schema.fields

end Dllb
