import Mathlib
import Dllb.Core.Value

/-! # Binary keys of the shared keyspace

Keys read `namespace 00 database 00 table 00 tag remainder`. The builders
below follow the source segment by segment; every one of them is a table
prefix followed by a remainder.
-/

namespace Dllb.Key

set_option autoImplicit false

namespace Tag

def metadata : UInt8 := 0x21
def document : UInt8 := 0x2A
def index : UInt8 := 0x2B
def graphEdge : UInt8 := 0x7E

end Tag

namespace Dir

def incoming : UInt8 := 0x3C
def outgoing : UInt8 := 0x3E

end Dir

def separator : UInt8 := 0x00

/-- Segments must not contain the separator byte. -/
def NulFree (s : String) : Prop := separator ∉ asBytes s

instance (s : String) : Decidable (NulFree s) := inferInstanceAs (Decidable (¬ _))

structure KeyBuilder where
  buf : Bytes

namespace KeyBuilder

def new : KeyBuilder := ⟨[]⟩

def segment (b : KeyBuilder) (data : Bytes) : KeyBuilder := ⟨b.buf ++ data ++ [separator]⟩

def nameSpace (b : KeyBuilder) (ns : String) : KeyBuilder := b.segment (asBytes ns)

def database (b : KeyBuilder) (db : String) : KeyBuilder := b.segment (asBytes db)

def table (b : KeyBuilder) (table : String) : KeyBuilder := b.segment (asBytes table)

def tag (b : KeyBuilder) (tag : UInt8) : KeyBuilder := ⟨b.buf ++ [tag]⟩

def raw (b : KeyBuilder) (data : Bytes) : KeyBuilder := ⟨b.buf ++ data⟩

def build (b : KeyBuilder) : Bytes := b.buf

end KeyBuilder

open KeyBuilder

/-! ## Builders -/

def documentKey (ns db table id : String) : Bytes :=
  new.nameSpace ns |>.database db |>.table table |>.tag Tag.document |>.raw (asBytes id) |>.build

def graphOutgoingKey (ns db table src edgeType dst : String) : Bytes :=
  new.nameSpace ns |>.database db |>.table table |>.tag Tag.graphEdge |>.segment (asBytes src)
    |>.segment (Dir.outgoing :: asBytes edgeType) |>.raw (asBytes dst) |>.build

def graphIncomingKey (ns db table dst edgeType src : String) : Bytes :=
  new.nameSpace ns |>.database db |>.table table |>.tag Tag.graphEdge |>.segment (asBytes dst)
    |>.segment (Dir.incoming :: asBytes edgeType) |>.raw (asBytes src) |>.build

def vertexOutgoingPrefix (ns db table vertexId : String) : Bytes :=
  new.nameSpace ns |>.database db |>.table table |>.tag Tag.graphEdge |>.segment (asBytes vertexId)
    |>.raw [Dir.outgoing] |>.build

def vertexIncomingPrefix (ns db table vertexId : String) : Bytes :=
  new.nameSpace ns |>.database db |>.table table |>.tag Tag.graphEdge |>.segment (asBytes vertexId)
    |>.raw [Dir.incoming] |>.build

def vertexOutgoingTypedPrefix (ns db table vertexId edgeType : String) : Bytes :=
  new.nameSpace ns |>.database db |>.table table |>.tag Tag.graphEdge |>.segment (asBytes vertexId)
    |>.segment (Dir.outgoing :: asBytes edgeType) |>.build

def vertexIncomingTypedPrefix (ns db table vertexId edgeType : String) : Bytes :=
  new.nameSpace ns |>.database db |>.table table |>.tag Tag.graphEdge |>.segment (asBytes vertexId)
    |>.segment (Dir.incoming :: asBytes edgeType) |>.build

/-- The bytes of `idx`, the catalog's segment below the metadata tag. -/
def idx : Bytes := [0x69, 0x64, 0x78]

def indexCatalogKey (ns db table indexName : String) : Bytes :=
  new.nameSpace ns |>.database db |>.table table |>.tag Tag.metadata |>.segment idx
    |>.raw (asBytes indexName) |>.build

def indexCatalogPrefix (ns db table : String) : Bytes :=
  new.nameSpace ns |>.database db |>.table table |>.tag Tag.metadata |>.segment idx |>.build

def indexPrefix (ns db table indexName : String) : Bytes :=
  new.nameSpace ns |>.database db |>.table table |>.tag Tag.index |>.segment (asBytes indexName)
    |>.build

def tablePrefix (ns db table : String) (tagByte : UInt8) : Bytes :=
  new.nameSpace ns |>.database db |>.table table |>.tag tagByte |>.build

/-! Every key of a table is its prefix followed by the remainder. -/

section Remainders

variable (ns db table : String)

theorem tablePrefix_eq (tagByte : UInt8) :
    tablePrefix ns db table tagByte =
      asBytes ns ++ separator :: (asBytes db ++ separator :: (asBytes table ++ [separator, tagByte])) := by
  simp [tablePrefix, build, tag, KeyBuilder.table, database, nameSpace, KeyBuilder.segment, new]

theorem documentKey_eq (id : String) :
    documentKey ns db table id = tablePrefix ns db table Tag.document ++ asBytes id := rfl

theorem graphOutgoingKey_eq (src edgeType dst : String) :
    graphOutgoingKey ns db table src edgeType dst =
      tablePrefix ns db table Tag.graphEdge ++
        (asBytes src ++ separator :: Dir.outgoing :: (asBytes edgeType ++ separator :: asBytes dst)) := by
  simp [graphOutgoingKey, tablePrefix, build, tag, raw, KeyBuilder.segment]

theorem graphIncomingKey_eq (dst edgeType src : String) :
    graphIncomingKey ns db table dst edgeType src =
      tablePrefix ns db table Tag.graphEdge ++
        (asBytes dst ++ separator :: Dir.incoming :: (asBytes edgeType ++ separator :: asBytes src)) := by
  simp [graphIncomingKey, tablePrefix, build, tag, raw, KeyBuilder.segment]

theorem vertexOutgoingPrefix_eq (vertexId : String) :
    vertexOutgoingPrefix ns db table vertexId =
      tablePrefix ns db table Tag.graphEdge ++ (asBytes vertexId ++ [separator, Dir.outgoing]) := by
  simp [vertexOutgoingPrefix, tablePrefix, build, tag, raw, KeyBuilder.segment]

theorem vertexIncomingPrefix_eq (vertexId : String) :
    vertexIncomingPrefix ns db table vertexId =
      tablePrefix ns db table Tag.graphEdge ++ (asBytes vertexId ++ [separator, Dir.incoming]) := by
  simp [vertexIncomingPrefix, tablePrefix, build, tag, raw, KeyBuilder.segment]

theorem vertexOutgoingTypedPrefix_eq (vertexId edgeType : String) :
    vertexOutgoingTypedPrefix ns db table vertexId edgeType =
      tablePrefix ns db table Tag.graphEdge ++
        (asBytes vertexId ++ separator :: Dir.outgoing :: (asBytes edgeType ++ [separator])) := by
  simp [vertexOutgoingTypedPrefix, tablePrefix, build, tag, KeyBuilder.segment]

theorem vertexIncomingTypedPrefix_eq (vertexId edgeType : String) :
    vertexIncomingTypedPrefix ns db table vertexId edgeType =
      tablePrefix ns db table Tag.graphEdge ++
        (asBytes vertexId ++ separator :: Dir.incoming :: (asBytes edgeType ++ [separator])) := by
  simp [vertexIncomingTypedPrefix, tablePrefix, build, tag, KeyBuilder.segment]

theorem indexCatalogPrefix_eq :
    indexCatalogPrefix ns db table = tablePrefix ns db table Tag.metadata ++ (idx ++ [separator]) := by
  simp [indexCatalogPrefix, tablePrefix, build, tag, KeyBuilder.segment]

theorem indexCatalogKey_eq (indexName : String) :
    indexCatalogKey ns db table indexName = indexCatalogPrefix ns db table ++ asBytes indexName := rfl

theorem indexPrefix_eq (indexName : String) :
    indexPrefix ns db table indexName =
      tablePrefix ns db table Tag.index ++ (asBytes indexName ++ [separator]) := by
  simp [indexPrefix, tablePrefix, build, tag, KeyBuilder.segment]

end Remainders

/-! ## Ends of prefix scans -/

/-- The loop of `prefixEnd`, last byte first. -/
def incrementLast : Bytes → Bytes
  | [] => []
  | last :: rest => if last < 0xFF then (last + 1) :: rest else incrementLast rest

/-- The exclusive end of the scan of a prefix, empty when all its bytes are `FF`. -/
def prefixEnd (p : Bytes) : Bytes := (incrementLast p.reverse).reverse

theorem incrementLast_append (a b : Bytes) :
    incrementLast (a ++ b) = if incrementLast a = [] then incrementLast b else incrementLast a ++ b := by
  induction a with
  | nil => simp [incrementLast]
  | cons x a ih =>
    simp only [List.cons_append, incrementLast]
    split
    · simp
    · exact ih

theorem prefixEnd_cons (x : UInt8) (p : Bytes) :
    prefixEnd (x :: p) =
      if prefixEnd p = [] then if x < 0xFF then [x + 1] else [] else x :: prefixEnd p := by
  simp only [prefixEnd, List.reverse_cons, incrementLast_append, List.reverse_eq_nil_iff]
  split
  · simp only [incrementLast]
    split <;> rfl
  · simp

theorem prefixEnd_append {a b : Bytes} (h : prefixEnd b ≠ []) : prefixEnd (a ++ b) = a ++ prefixEnd b := by
  induction a with
  | nil => rfl
  | cons x a ih =>
    rw [List.cons_append, prefixEnd_cons, ih, if_neg (by simp [h]), List.cons_append]

theorem prefixEnd_ne_nil_of_mem {x : UInt8} {p : Bytes} (hx : x < 0xFF) (h : x ∈ p) :
    prefixEnd p ≠ [] := by
  induction p with
  | nil => cases h
  | cons y p ih =>
    rw [prefixEnd_cons]
    rcases List.mem_cons.mp h with rfl | h
    · rw [if_pos hx]
      split <;> simp
    · simp [ih h]

theorem lt_singleton_succ_iff {x : UInt8} (hx : x < 0xFF) (y : UInt8) (k : Bytes) :
    y :: k < [x + 1] ↔ y ≤ x := by
  rw [List.cons_lt_cons_iff]
  simp only [List.not_lt_nil, and_false, or_false]
  have hx : x.toNat < 255 := UInt8.lt_iff_toNat_lt.mp hx
  rw [UInt8.lt_iff_toNat_lt, UInt8.le_iff_toNat_le, UInt8.toNat_add]
  simp only [UInt8.reduceToNat]
  omega

theorem le_iff_prefix_of_prefixEnd_eq_nil {p : Bytes} (h : prefixEnd p = []) (k : Bytes) :
    p ≤ k ↔ p <+: k := by
  induction p generalizing k with
  | nil => exact iff_of_true (not_lt.mp (List.not_lt_nil k)) List.nil_prefix
  | cons x p ih =>
    rw [prefixEnd_cons] at h
    split at h
    · rename_i hp
      split at h
      · cases h
      · rename_i hx
        cases k with
        | nil => simp
        | cons y k =>
          have hyx : y ≤ x := by
            have hx : ¬ x.toNat < 255 := fun h => hx (UInt8.lt_iff_toNat_lt.mpr h)
            have hy := y.toNat_lt
            rw [UInt8.le_iff_toNat_le]
            omega
          rw [← not_lt, List.cons_lt_cons_iff, List.cons_prefix_cons, ← ih hp k, ← not_lt]
          constructor
          · intro hno
            have hxy : x = y := le_antisymm (not_lt.mp fun h => hno (.inl h)) hyx
            exact ⟨hxy, fun hlt => hno (.inr ⟨hxy.symm, hlt⟩)⟩
          · rintro ⟨rfl, hno⟩ (hlt | ⟨_, hlt⟩)
            · exact lt_irrefl _ hlt
            · exact hno hlt
    · cases h

/-- The half-open range from a prefix to its end holds exactly the extensions of the prefix. -/
theorem mem_range_prefixEnd_iff {p : Bytes} (h : prefixEnd p ≠ []) (k : Bytes) :
    p ≤ k ∧ k < prefixEnd p ↔ p <+: k := by
  induction p generalizing k with
  | nil => exact absurd rfl h
  | cons x p ih =>
    cases k with
    | nil => simp
    | cons y k =>
      rw [prefixEnd_cons] at h ⊢
      rw [List.cons_prefix_cons, ← not_lt, List.cons_lt_cons_iff]
      by_cases hp : prefixEnd p = []
      · rw [if_pos hp] at h ⊢
        split at h
        · rename_i hx
          rw [if_pos hx, lt_singleton_succ_iff hx, ← le_iff_prefix_of_prefixEnd_eq_nil hp k]
          constructor
          · rintro ⟨hno, hyx⟩
            have hxy : x = y := le_antisymm (not_lt.mp fun h => hno (.inl h)) hyx
            exact ⟨hxy, not_lt.mp fun hlt => hno (.inr ⟨hxy.symm, hlt⟩)⟩
          · rintro ⟨rfl, hpk⟩
            exact ⟨by simp [hpk], le_refl x⟩
        · exact absurd rfl h
      · rw [if_neg hp, List.cons_lt_cons_iff, ← ih hp k, ← not_lt]
        constructor
        · rintro ⟨hno, hyx | ⟨rfl, hlt⟩⟩
          · exact absurd (.inl hyx) hno
          · exact ⟨rfl, fun h => hno (.inr ⟨rfl, h⟩), hlt⟩
        · rintro ⟨rfl, hno, hlt⟩
          exact ⟨by simp [hno], .inr ⟨rfl, hlt⟩⟩

theorem prefixEnd_tablePrefix_append_ne_nil (ns db table : String) (tagByte : UInt8) (r : Bytes) :
    prefixEnd (tablePrefix ns db table tagByte ++ r) ≠ [] :=
  prefixEnd_ne_nil_of_mem (x := separator) (by decide) (by simp [tablePrefix_eq])

/-! ## Parsing -/

structure KeyParts where
  nameSpace : Bytes
  database : Bytes
  table : Bytes
  tag : UInt8
  remainder : Bytes
  deriving DecidableEq

/-- At most `n` pieces between separators; the last keeps the separators left in it. -/
def splitn : Nat → Bytes → List Bytes
  | 0, _ => []
  | 1, b => [b]
  | n + 2, b =>
    match b.dropWhile (· ≠ separator) with
    | [] => [b]
    | _ :: rest => b.takeWhile (· ≠ separator) :: splitn (n + 1) rest

def parseKey (key : Bytes) : Result KeyParts :=
  match splitn 4 key with
  | [] => .error (.storage [.text "key too short: missing namespace"])
  | [_] => .error (.storage [.text "key too short: missing database"])
  | [_, _] => .error (.storage [.text "key too short: missing table"])
  | [_, _, _] => .error (.storage [.text "key too short: missing tag"])
  | nameSpace :: database :: table :: afterTable :: _ =>
    match afterTable with
    | [] => .error (.storage [.text "key too short: empty after table"])
    | tag :: remainder => .ok { nameSpace, database, table, tag, remainder }

theorem splitn_append {a : Bytes} (h : separator ∉ a) (n : Nat) (b : Bytes) :
    splitn (n + 2) (a ++ separator :: b) = a :: splitn (n + 1) b := by
  have hall : ∀ x ∈ a, decide (x ≠ separator) = true := by
    intro x hx
    simpa using fun he : x = separator => h (he ▸ hx)
  rw [splitn, List.dropWhile_append_of_pos hall, List.takeWhile_append_of_pos hall]
  simp

theorem parseKey_tablePrefix_append {ns db table : String} (hns : NulFree ns) (hdb : NulFree db)
    (ht : NulFree table) (tagByte : UInt8) (r : Bytes) :
    parseKey (tablePrefix ns db table tagByte ++ r) =
      .ok ⟨asBytes ns, asBytes db, asBytes table, tagByte, r⟩ := by
  have hsplit : splitn 4 (tablePrefix ns db table tagByte ++ r) =
      [asBytes ns, asBytes db, asBytes table, tagByte :: r] := by
    simp only [tablePrefix_eq, List.append_assoc, List.cons_append]
    rw [splitn_append hns, splitn_append hdb, splitn_append ht]
    rfl
  rw [parseKey, hsplit]

/-- A segment followed by its separator can be cancelled from both sides of an equation. -/
theorem segment_append_inj {a b s t : Bytes} (ha : separator ∉ a) (hb : separator ∉ b) :
    a ++ separator :: s = b ++ separator :: t ↔ a = b ∧ s = t := by
  constructor
  · intro h
    have hsplit := congrArg (splitn 2) h
    rw [splitn_append ha 0, splitn_append hb 0] at hsplit
    simpa [splitn] using hsplit
  · rintro ⟨rfl, rfl⟩
    rfl

/-- Likewise for prefixes: a closed segment is a prefix of a closed segment only when they agree. -/
theorem segment_append_prefix_iff {a b s t : Bytes} (ha : separator ∉ a) (hb : separator ∉ b) :
    a ++ separator :: s <+: b ++ separator :: t ↔ a = b ∧ s <+: t := by
  constructor
  · rintro ⟨u, hu⟩
    rw [List.append_assoc, List.cons_append, segment_append_inj ha hb] at hu
    exact ⟨hu.1, u, hu.2⟩
  · rintro ⟨rfl, u, rfl⟩
    exact ⟨u, by simp⟩

end Dllb.Key
