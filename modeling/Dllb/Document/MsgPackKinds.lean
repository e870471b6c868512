import Mathlib
import Dllb.Document.MsgPack

/-! # The codec with definitions of every kind

A kind with data is a map from its name to the array of the data. Dimensions are
written in one byte; larger ones are outside the fragment.
-/

namespace Dllb.MsgPack

set_option autoImplicit false

def putKind : IndexKind → Option Bytes
  | .bTree => putStr "BTree"
  | .fullText analyzer => (putStr analyzer).bind fun b => putVariant "FullText" (0x91 :: b)
  | .vector dim metric =>
    if dim < 128 then (putStr metric).bind fun b => putVariant "Vector" (0x92 :: UInt8.ofNat dim :: b)
    else none

def putKindedDefinition (d : IndexDefinition) : Option Bytes := do
  let name ← putStr d.name
  let fields ← putStrs d.fields
  let kind ← putKind d.kind
  if d.fields.length < 16 then
    return 0x94 :: name ++ UInt8.ofNat (0x90 + d.fields.length) :: fields ++ putBool d.unique :: kind
  else none

def takeKindPayload (name : String) (b : Bytes) : Option (IndexKind × Bytes) :=
  match b with
  | 0x91 :: b =>
    if name = "FullText" then (takeStr b).map fun x => (.fullText x.1, x.2) else none
  | 0x92 :: dim :: b =>
    if name = "Vector" ∧ dim < 128 then (takeStr b).map fun x => (.vector dim.toNat x.1, x.2) else none
  | _ => none

def takeKind (b : Bytes) : Option (IndexKind × Bytes) :=
  match b with
  | 0x81 :: b => (takeStr b).bind fun x => takeKindPayload x.1 x.2
  | b => (takeStr b).bind fun x => if x.1 = "BTree" then some (.bTree, x.2) else none

/-- Definitions of four parts, of any kind. -/
def takeKindedDefinition : Bytes → Option IndexDefinition
  | 0x94 :: b => do
    let (name, b) ← takeStr b
    let (fields, b) ← match b with
      | n :: b => if 0x90 ≤ n ∧ n < 0xA0 then takeStrs (n.toNat - 0x90) b else none
      | [] => none
    let (unique, b) ← takeBool b
    let (kind, b) ← takeKind b
    if b = [] then return ⟨name, fields, unique, kind⟩ else none
  | _ => none

def kindedFromSlice (b : Bytes) : Except String IndexDefinition :=
  match takeKindedDefinition b with
  | some d => .ok d
  | none => definitionFromSlice b

def kindedToVec (d : IndexDefinition) : Except String Bytes :=
  match putKindedDefinition d with
  | some b => if takeKindedDefinition b = some d then .ok b else .error "outside the fragment"
  | none => .error "outside the fragment"

theorem kindedFromSlice_toVec {d : IndexDefinition} {b : Bytes} (h : kindedToVec d = .ok b) :
    kindedFromSlice b = .ok d := by
  unfold kindedToVec at h
  split at h
  · split at h
    · rename_i hd
      cases h
      rw [kindedFromSlice, hd]
    · cases h
  · cases h

@[reducible] def kindedCodec : Rmp where
  toVec := toVec
  fromSlice := fromSlice
  fromSlice_toVec := fromSlice_toVec
  definitionToVec := kindedToVec
  definitionFromSlice := kindedFromSlice
  definitionFromSlice_toVec := kindedFromSlice_toVec

end Dllb.MsgPack
