import Mathlib
import Dllb.Document.Document

/-! # A fragment of the MessagePack codec

The bytes the codec writes for small documents and for B-tree definitions:
short maps and strings, one-byte integers, floats, booleans, short arrays of
these, enum variants by name, structures as arrays. Outside the fragment encoding is refused, and what
is encoded is checked to read back, which gives an instance of `Rmp`.
-/

namespace Dllb.MsgPack

set_option autoImplicit false

/-! ## Writing -/

def putStr (s : String) : Option Bytes :=
  let b := asBytes s
  if b.length < 32 then some (UInt8.ofNat (0xA0 + b.length) :: b) else none

/-- A variant with one payload is a map of one pair. -/
def putVariant (name : String) (payload : Bytes) : Option Bytes :=
  (putStr name).map fun b => 0x81 :: b ++ payload

def putBool (b : Bool) : UInt8 := if b then 0xC3 else 0xC2

def putScalar : Value → Option Bytes
  | .none => putStr "None"
  | .bool b => putVariant "Bool" [putBool b]
  | .int n =>
    if -32 ≤ n ∧ n < 128 then putVariant "Int" [n.toUInt64.toUInt8] else none
  | .float f => putVariant "Float" (0xCB :: toBeBytes f.bits)
  | .string s => (putStr s).bind (putVariant "String")
  | _ => none

def putScalars : List Value → Option Bytes
  | [] => some []
  | v :: rest => do
    let value ← putScalar v
    let rest ← putScalars rest
    return value ++ rest

def putValue : Value → Option Bytes
  | .array xs =>
    if xs.length < 16 then
      (putScalars xs).bind fun b => putVariant "Array" (UInt8.ofNat (0x90 + xs.length) :: b)
    else none
  | v => putScalar v

def putPairs : List (String × Value) → Option Bytes
  | [] => some []
  | (k, v) :: rest => do
    let key ← putStr k
    let value ← putValue v
    let rest ← putPairs rest
    return key ++ value ++ rest

def putFields (f : Fields) : Option Bytes :=
  if f.size < 16 then (putPairs f.toList).map (UInt8.ofNat (0x80 + f.size) :: ·) else none

def putStrs : List String → Option Bytes
  | [] => some []
  | s :: rest => do
    let b ← putStr s
    let rest ← putStrs rest
    return b ++ rest

def putDefinition (d : IndexDefinition) : Option Bytes := do
  let name ← putStr d.name
  let fields ← putStrs d.fields
  let kind ← if d.isBtree then putStr "BTree" else none
  if d.fields.length < 16 then
    return 0x94 :: name ++ UInt8.ofNat (0x90 + d.fields.length) :: fields ++ putBool d.unique :: kind
  else none

/-! ## Reading -/

def takeStr : Bytes → Option (String × Bytes)
  | [] => none
  | m :: rest =>
    let n := m.toNat - 0xA0
    if 0xA0 ≤ m ∧ m < 0xC0 ∧ n ≤ rest.length then
      (fromUtf8 (rest.take n)).map fun s => (s, rest.drop n)
    else none

def takeBool : Bytes → Option (Bool × Bytes)
  | [] => none
  | m :: rest => if m = 0xC3 then some (true, rest) else if m = 0xC2 then some (false, rest) else none

def takeInt : Bytes → Option (Int64 × Bytes)
  | [] => none
  | m :: rest =>
    if m < 0x80 then some (Int64.ofNat m.toNat, rest)
    else if 0xE0 ≤ m then some (Int64.ofInt (m.toNat - 256), rest)
    else none

def takeFloat : Bytes → Option (F64 × Bytes)
  | [] => none
  | m :: rest =>
    if m = 0xCB ∧ 8 ≤ rest.length then
      some (⟨UInt64.ofNat (beValue (rest.take 8))⟩, rest.drop 8)
    else none

def takePayload (name : String) (b : Bytes) : Option (Value × Bytes) :=
  if name = "Bool" then (takeBool b).map fun (x, rest) => (.bool x, rest)
  else if name = "Int" then (takeInt b).map fun (x, rest) => (.int x, rest)
  else if name = "Float" then (takeFloat b).map fun (x, rest) => (.float x, rest)
  else if name = "String" then (takeStr b).map fun (x, rest) => (.string x, rest)
  else none

def takeScalar : Bytes → Option (Value × Bytes)
  | [] => none
  | m :: rest =>
    if m = 0x81 then do
      let (name, payload) ← takeStr rest
      takePayload name payload
    else do
      let (name, rest) ← takeStr (m :: rest)
      if name = "None" then return (.none, rest) else none

def takeScalars : Nat → Bytes → Option (List Value × Bytes)
  | 0, b => some ([], b)
  | n + 1, b => do
    let (v, b) ← takeScalar b
    let (rest, b) ← takeScalars n b
    return (v :: rest, b)

def takeArray : Bytes → Option (Value × Bytes)
  | [] => none
  | m :: rest =>
    if 0x90 ≤ m ∧ m < 0xA0 then (takeScalars (m.toNat - 0x90) rest).map fun (xs, rest) => (.array xs, rest)
    else none

def takeValue (b : Bytes) : Option (Value × Bytes) :=
  match b with
  | 0x81 :: rest => do
    let (name, payload) ← takeStr rest
    if name = "Array" then takeArray payload else takeScalar b
  | _ => takeScalar b

def takePairs : Nat → Bytes → Option (List (String × Value) × Bytes)
  | 0, b => some ([], b)
  | n + 1, b => do
    let (k, b) ← takeStr b
    let (v, b) ← takeValue b
    let (rest, b) ← takePairs n b
    return ((k, v) :: rest, b)

def takeFields : Bytes → Option Fields
  | [] => none
  | m :: rest =>
    if 0x80 ≤ m ∧ m < 0x90 then
      match takePairs (m.toNat - 0x80) rest with
      | some (pairs, []) => some (pairs.foldl (fun f kv => f.insert kv.1 kv.2) ∅)
      | _ => none
    else none

def takeStrs : Nat → Bytes → Option (List String × Bytes)
  | 0, b => some ([], b)
  | n + 1, b => do
    let (s, b) ← takeStr b
    let (rest, b) ← takeStrs n b
    return (s :: rest, b)

/-- Definitions written before there were kinds are arrays of three. -/
def takeDefinition : Bytes → Option IndexDefinition
  | [] => none
  | m :: b => do
    let (name, b) ← takeStr b
    let (fields, b) ← match b with
      | n :: b => if 0x90 ≤ n ∧ n < 0xA0 then takeStrs (n.toNat - 0x90) b else none
      | [] => none
    let (unique, b) ← takeBool b
    if m = 0x93 then
      if b = [] then return ⟨name, fields, unique, .bTree⟩ else none
    else if m = 0x94 then do
      let (kind, b) ← takeStr b
      if kind = "BTree" ∧ b = [] then return ⟨name, fields, unique, .bTree⟩ else none
    else none

/-! ## The codec -/

/-- Equality of values of the fragment, bit by bit. -/
def sameScalar : Value → Value → Bool
  | .none, .none => true
  | .bool a, .bool b => a == b
  | .int a, .int b => a == b
  | .float a, .float b => a == b
  | .string a, .string b => a == b
  | _, _ => false

def sameScalars : List Value → List Value → Bool
  | [], [] => true
  | a :: as, b :: bs => sameScalar a b && sameScalars as bs
  | _, _ => false

def same : Value → Value → Bool
  | .array as, .array bs => sameScalars as bs
  | a, b => sameScalar a b

def samePairs : List (String × Value) → List (String × Value) → Bool
  | [], [] => true
  | (k, a) :: as, (l, b) :: bs => k == l && same a b && samePairs as bs
  | _, _ => false

theorem eq_of_sameScalar {a b : Value} (h : sameScalar a b = true) : a = b := by
  unfold sameScalar at h
  split at h <;> simp_all

theorem eq_of_sameScalars {as bs : List Value} (h : sameScalars as bs = true) : as = bs := by
  induction as generalizing bs with
  | nil =>
    cases bs with
    | nil => rfl
    | cons => simp [sameScalars] at h
  | cons a as ih =>
    cases bs with
    | nil => simp [sameScalars] at h
    | cons b bs =>
      simp only [sameScalars, Bool.and_eq_true] at h
      rw [eq_of_sameScalar h.1, ih h.2]

theorem eq_of_same {a b : Value} (h : same a b = true) : a = b := by
  unfold same at h
  split at h
  · rw [eq_of_sameScalars h]
  · exact eq_of_sameScalar h

theorem eq_of_samePairs {as bs : List (String × Value)} (h : samePairs as bs = true) : as = bs := by
  induction as generalizing bs with
  | nil =>
    cases bs with
    | nil => rfl
    | cons => simp [samePairs] at h
  | cons a as ih =>
    cases bs with
    | nil => simp [samePairs] at h
    | cons b bs =>
      simp only [samePairs, Bool.and_eq_true, beq_iff_eq] at h
      rw [Prod.ext h.1.1 (eq_of_same h.1.2), ih h.2]

def fromSlice (b : Bytes) : Except String Fields :=
  match takeFields b with
  | some f => .ok f
  | none => .error "outside the fragment"

def definitionFromSlice (b : Bytes) : Except String IndexDefinition :=
  match takeDefinition b with
  | some d => .ok d
  | none => .error "outside the fragment"

def toVec (f : Fields) : Except String Bytes :=
  match putFields f with
  | some b =>
    match takeFields b with
    | some g => if samePairs g.toList f.toList then .ok b else .error "outside the fragment"
    | none => .error "outside the fragment"
  | none => .error "outside the fragment"

def definitionToVec (d : IndexDefinition) : Except String Bytes :=
  match putDefinition d with
  | some b => if takeDefinition b = some d then .ok b else .error "outside the fragment"
  | none => .error "outside the fragment"

theorem fromSlice_toVec {f : Fields} {b : Bytes} (h : toVec f = .ok b) : fromSlice b = .ok f := by
  unfold toVec at h
  split at h
  · split at h
    · rename_i g hg
      split at h
      · rename_i hsame
        cases h
        have hgf : g = f := Std.ExtTreeMap.ext_toList (eq_of_samePairs hsame ▸ List.Perm.refl _)
        rw [fromSlice, hg, hgf]
      · cases h
    · cases h
  · cases h

theorem definitionFromSlice_toVec {d : IndexDefinition} {b : Bytes} (h : definitionToVec d = .ok b) :
    definitionFromSlice b = .ok d := by
  unfold definitionToVec at h
  split at h
  · split at h
    · rename_i hd
      cases h
      rw [definitionFromSlice, hd]
    · cases h
  · cases h

@[reducible] def codec : Rmp where
  toVec := toVec
  fromSlice := fromSlice
  fromSlice_toVec := fromSlice_toVec
  definitionToVec := definitionToVec
  definitionFromSlice := definitionFromSlice
  definitionFromSlice_toVec := definitionFromSlice_toVec

end Dllb.MsgPack
