import Mathlib
import Dllb.Document.Document

/-! # Secondary B-tree indexes

An index entry is a key with an empty value: the region of the index, one
order-preserving part per field, and the record id. This module is the code:
the encoding, the entries of a document, the range scan and the catalog.
-/

namespace Dllb.Index

set_option autoImplicit false

/-! ## Sort-preserving value encoding -/

def encodeI64 (n : Int64) : Bytes := toBeBytes (n.toUInt64 ^^^ ((1 : UInt64) <<< 63))

def encodeF64 (f : F64) : Bytes :=
  toBeBytes (if f.isSignNegative then ~~~f.bits else f.bits ^^^ ((1 : UInt64) <<< 63))

def encodeIndexValue : Value → Result Bytes
  | .string s => .ok (asBytes s)
  | .int n => .ok (encodeI64 n)
  | .float f => .ok (encodeF64 f)
  | .bool b => .ok [if b then 0x01 else 0x00]
  | other => .error (.index [.text "type not indexable: ", .debug other])

/-! ## Order-preserving, self-delimiting key part -/

def term : Bytes := [0x00, 0x01]

def escapeInto (raw : Bytes) : Bytes := Lex.escape 0x00 0xFF raw

def encodeIndexValueEscaped (value : Value) : Result Bytes := do
  let raw ← encodeIndexValue value
  return escapeInto raw

def encodeIndexKeyPart (value : Value) : Result Bytes := do
  let out ← encodeIndexValueEscaped value
  return out ++ term

/-- The walk of `idFromEntry` over what follows the region. -/
def walkTerms (fieldCount : Nat) : Bytes → Nat → Option String
  | a :: b :: rest, seenTerms =>
    if a = 0x00 then
      if b = 0xFF then walkTerms fieldCount rest seenTerms
      else if b = 0x01 then
        if seenTerms + 1 = fieldCount then fromUtf8 rest
        else walkTerms fieldCount rest (seenTerms + 1)
      else none
    else walkTerms fieldCount (b :: rest) seenTerms
  | _, _ => none

def idFromEntry (key : Bytes) (regionLen fieldCount : Nat) : Option String :=
  walkTerms fieldCount (key.drop regionLen) 0

def collectValues (doc : Document) : List String → Option (List Value)
  | [] => some []
  | field :: fields =>
    match doc.fields[field]? with
    | some v => if v.isNone then none else (collectValues doc fields).map (v :: ·)
    | none => none

def collectIndexValues (doc : Document) (index : IndexDefinition) : Option (List Value) :=
  if index.fields.isEmpty then none else collectValues doc index.fields

def encodeCompositeKeyPart : List Value → Result Bytes
  | [] => .ok []
  | v :: vs => do
    let part ← encodeIndexKeyPart v
    let rest ← encodeCompositeKeyPart vs
    return part ++ rest

/-! ## Index entry construction -/

def buildIndexEntries (doc : Document) (ns db table : String) : List IndexDefinition → Result (List PutOp)
  | [] => .ok []
  | idx :: indexes =>
    if !idx.isBtree then buildIndexEntries doc ns db table indexes
    else if idx.fields.isEmpty then .error (.index [.text "index has no fields"])
    else
      match collectIndexValues doc idx with
      | some values => do
        let keyPart ← encodeCompositeKeyPart values
        let k := Key.KeyBuilder.new.nameSpace ns |>.database db |>.table table |>.tag Key.Tag.index
          |>.segment (asBytes idx.name) |>.raw keyPart |>.raw (asBytes doc.id.id) |>.build
        let entries ← buildIndexEntries doc ns db table indexes
        return (k, []) :: entries
      | none => buildIndexEntries doc ns db table indexes

/-! ## Lookup -/

/-- The comparison value and whether it is inclusive. -/
abbrev RangeBound := Value × Bool

/-- Inclusive start of the half-open scan. -/
def scanStart (base : Bytes) : Option RangeBound → Result Bytes
  | none => .ok base
  | some (v, inclusive) => do
    let escaped ← encodeIndexValueEscaped v
    if inclusive then return base ++ escaped
    else return Key.prefixEnd (base ++ escaped ++ term)

/-- Exclusive end of the half-open scan. -/
def scanStop (base : Bytes) : Option RangeBound → Result Bytes
  | none => .ok (Key.prefixEnd base)
  | some (v, inclusive) => do
    let escaped ← encodeIndexValueEscaped v
    if inclusive then return Key.prefixEnd (base ++ escaped ++ term)
    else return base ++ escaped

def findIds (ns db table indexName : String) (eq : List Value) (lower upper : Option RangeBound)
    (fieldCount : Nat) : Db (List String) := do
  let region := Key.indexPrefix ns db table indexName
  let parts ← .lift (encodeCompositeKeyPart eq)
  let base := region ++ parts
  let start ← .lift (scanStart base lower)
  let stop ← .lift (scanStop base upper)
  if stop ≤ start then return []
  else
    let entries ← Db.scan start stop
    return entries.filterMap fun (k, _) => idFromEntry k region.length fieldCount

/-! ## Catalog -/

section Catalog

variable [Rmp]

def indexDefinitionKv (ns db table : String) (definition : IndexDefinition) : Result PutOp :=
  match Rmp.definitionToVec definition with
  | .ok bytes => .ok (Key.indexCatalogKey ns db table definition.name, bytes)
  | .error e => .error (.serialization [.text e])

def decodeDefinitions : List PutOp → Result (List IndexDefinition)
  | [] => .ok []
  | (_, v) :: entries =>
    match Rmp.definitionFromSlice v with
    | .ok definition => do
      let definitions ← decodeDefinitions entries
      return definition :: definitions
    | .error e => .error (.serialization [.text e])

def loadIndexDefinitions (ns db table : String) : Db (List IndexDefinition) := do
  let entries ← Db.prefixScan (Key.indexCatalogPrefix ns db table)
  .lift (decodeDefinitions entries)

end Catalog

/-! ## Unique constraints -/

def checkUniqueConstraint (ns db table : String) (index : IndexDefinition) (values : List Value)
    (excludeId : String) : Db Unit :=
  if !index.unique then return ()
  else do
    let ids ← findIds ns db table index.name values none none index.fields.length
    match ids.find? (· ≠ excludeId) with
    | some id =>
      .fail (.schema [.text ("unique constraint violated on index '" ++ index.name ++
        "': value already exists for record '" ++ id ++ "'")])
    | none => return ()

end Dllb.Index
