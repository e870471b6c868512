import Mathlib
import Dllb.Core.Arithmetic
import Dllb.Query.Reads
import Dllb.Vector.SearchSound

/-! # The vector indexes of the search services

They are in memory, and found by name alone. An entry outlives its place in the
map for those who still hold it.
-/

namespace Dllb

set_option autoImplicit false

def toLowercase (s : String) : String := .ofList (s.toList.map Char.toLower)

def parseMetric (name : String) : Result DistanceMetric :=
  let lower := toLowercase name
  if lower = "" ∨ lower = "cosine" then .ok .cosine
  else if lower = "euclidean" ∨ lower = "l2" then .ok .euclidean
  else if lower = "dot" ∨ lower = "dotproduct" ∨ lower = "dot_product" then .ok .dotProduct
  else .error (.query [.text ("unknown metric '" ++ lower ++ "'; expected cosine, euclidean, or dot")])

inductive Language where
  | english | spanish | french | german | italian | portuguese | russian

inductive AnalyzerConfig where
  | standard
  | simple
  | language (language : Language)

def analyzers : List (String × AnalyzerConfig) :=
  [("", .standard), ("default", .standard), ("simple", .simple), ("english", .language .english),
    ("spanish", .language .spanish), ("french", .language .french), ("german", .language .german),
    ("italian", .language .italian), ("portuguese", .language .portuguese), ("russian", .language .russian)]

def parseAnalyzer (name : String) : Result AnalyzerConfig :=
  let lower := toLowercase name
  match analyzers.lookup lower with
  | some config => .ok config
  | none => .error (.query [.text ("unknown analyzer '" ++ lower ++
      "'; expected default, simple, or a language")])

/-- `as f64` of an `f32`, which is exact. -/
def F32.toF64 (f : F32) : F64 :=
  let e := f.magnitude / 2 ^ 23
  let frac := f.magnitude % 2 ^ 23
  let units := if e = 0 then frac else (2 ^ 23 + frac) * 2 ^ (e - 1)
  if f.isNan then .ofMagnitude f.isSignNegative (0x7FF8000000000000 + frac % 2 ^ 22 * 2 ^ 29)
  else if e = 255 then .ofMagnitude f.isSignNegative F64.infinity
  else .ofMagnitude f.isSignNegative (F64.magnitudeOfRatio units (2 ^ 149))

def numbers : List Value → Option (List F32)
  | [] => some []
  | .float f :: items => (numbers items).map (F32.ofF64 f :: ·)
  | .int n :: items => (numbers items).map (F32.ofInt64 n :: ·)
  | _ :: _ => none

def valueToVector : Value → Option (List F32)
  | .vector v => some v
  | .array items => numbers items
  | _ => none

def IndexKind.isVector : IndexKind → Bool
  | .vector _ _ => true
  | _ => false

/-! ## An index that can be relied on -/

def HnswConfig.standard : HnswConfig := { m := 16, efConstruction := 200, maxLayers := 16 }

/-- An index in which no call panics and every live node can be looked up. -/
structure LiveIndex (F : Type) where
  index : HnswIndex F
  exact : index.Exact
  maxLayers : 1 ≤ index.config.maxLayers

namespace LiveIndex

variable {F D : Type}

def new (dim : Nat) (metric : DistanceMetric) : LiveIndex F where
  index := .new dim metric .standard
  exact := .new dim metric .standard
  maxLayers := by change 1 ≤ 16; omega

def find (ix : LiveIndex F) : Contents F := ix.index.find

def live (ix : LiveIndex F) : List (String × List F) := ix.index.live

theorem find_new (dim : Nat) (metric : DistanceMetric) :
    (new dim metric : LiveIndex F).find = fun _ => none := HnswIndex.find_new dim metric .standard

theorem isSome_remove (ix : LiveIndex F) (id : String) : (ix.index.remove id).isSome := by
  obtain ⟨ix', hrun, -⟩ := ix.exact.remove id
  rw [hrun]
  rfl

def remove (ix : LiveIndex F) (id : String) : LiveIndex F where
  index := ((ix.index.remove id).get (ix.isSome_remove id)).2
  exact := by
    obtain ⟨ix', hrun, hexact, -⟩ := ix.exact.remove id
    simpa only [hrun, Option.get_some] using hexact
  maxLayers := by
    obtain ⟨ix', hrun, -, hconfig, -⟩ := ix.exact.remove id
    simpa only [hrun, Option.get_some, hconfig] using ix.maxLayers

theorem find_remove (ix : LiveIndex F) (id : String) :
    (ix.remove id).find = Function.update ix.find id none := by
  obtain ⟨ix', hrun, -, -, -, hfind⟩ := ix.exact.remove id
  simpa only [remove, find, hrun, Option.get_some] using hfind

theorem metric_remove (ix : LiveIndex F) (id : String) : (ix.remove id).index.metric = ix.index.metric := by
  obtain ⟨ix', hrun, -, -, hmetric, -⟩ := ix.exact.remove id
  simpa only [remove, hrun, Option.get_some] using hmetric

variable [LinearOrder D] [Distance F D] [BeamHeaps D]

theorem isSome_insert (ix : LiveIndex F) (id : String) (vector : List F) (draw : Nat) :
    (HnswIndex.insert D ix.index id vector draw).isSome := by
  obtain ⟨ix', hrun, -⟩ := ix.exact.toInv.insert (D := D) ix.maxLayers id vector draw
  rw [hrun]
  rfl

/-- `remove` and then `insert`: what the services do to replace a vector. -/
def replace (D : Type) [LinearOrder D] [Distance F D] [BeamHeaps D] (ix : LiveIndex F) (id : String)
    (vector : List F) (draw : Nat) : LiveIndex F where
  index := (HnswIndex.insert D (ix.remove id).index id vector draw).get ((ix.remove id).isSome_insert ..)
  exact := by
    obtain ⟨ix', hrun⟩ := Option.isSome_iff_exists.mp ((ix.remove id).isSome_insert (D := D) id vector draw)
    have hnone : (ix.remove id).index.find id = none := by
      have hfind := congrFun (ix.find_remove id) id
      rwa [Function.update_self] at hfind
    simpa only [hrun, Option.get_some] using ((ix.remove id).exact.insert hnone hrun).1
  maxLayers := by
    obtain ⟨ix', hrun, -, hconfig⟩ :=
      (ix.remove id).exact.toInv.insert (D := D) (ix.remove id).maxLayers id vector draw
    simpa only [hrun, Option.get_some, hconfig] using (ix.remove id).maxLayers

theorem replace_spec (ix : LiveIndex F) (id : String) (vector : List F) (draw : Nat) :
    (ix.replace D id vector draw).find = Function.update ix.find id (some vector) ∧
      (ix.replace D id vector draw).index.metric = ix.index.metric := by
  obtain ⟨ix', hrun⟩ := Option.isSome_iff_exists.mp ((ix.remove id).isSome_insert (D := D) id vector draw)
  have hnone : (ix.remove id).index.find id = none := by
    have hfind := congrFun (ix.find_remove id) id
    rwa [Function.update_self] at hfind
  obtain ⟨-, -, hmetric, hfind⟩ := (ix.remove id).exact.insert hnone hrun
  simp only [replace, find, hrun, Option.get_some]
  refine ⟨?_, hmetric.trans (ix.metric_remove id)⟩
  rw [hfind]
  change Function.update (ix.remove id).find id (some vector) = _
  rw [find_remove, Function.update_idem]
  rfl

theorem isSome_search (ix : LiveIndex F) (query : List F) (k : Nat) :
    (ix.index.search query k : Option (List (VectorHit D))).isSome := by
  obtain ⟨hits, hrun⟩ := ix.exact.toInv.searchEf (D := D) query k ix.index.config.efConstruction
  rw [HnswIndex.search, hrun]
  rfl

def search (D : Type) [LinearOrder D] [Distance F D] [BeamHeaps D] (ix : LiveIndex F) (query : List F)
    (k : Nat) : List (VectorHit D) :=
  (ix.index.search query k).get (ix.isSome_search query k)

/-- The hits are live, each once, nearest first, with the distances of their vectors. -/
theorem search_spec (ix : LiveIndex F) (query : List F) (k : Nat) :
    (ix.search D query k).length ≤ k ∧ ((ix.search D query k).map VectorHit.id).Nodup ∧
      (∀ hit ∈ ix.search D query k, ∃ v, ix.find hit.id = some v ∧
        hit.distance = Distance.distance query v ix.index.metric) ∧
      (ix.search D query k).Pairwise fun a b => a.distance ≤ b.distance := by
  obtain ⟨hits, hrun, hspec⟩ := ix.exact.searchEf (D := D) query k ix.index.config.efConstruction
  have heq : ix.search D query k = hits := by
    simp only [search, HnswIndex.search, hrun, Option.get_some]
  rw [heq]
  exact hspec

end LiveIndex

structure VectorEntry where
  dim : Nat
  index : LiveIndex F32
  locked : Bool
  loaded : Bool

def VectorEntry.new (dim : Nat) (metric : DistanceMetric) : VectorEntry :=
  { dim, index := .new dim metric, locked := false, loaded := false }

/-- A vector of another length is skipped. -/
def VectorEntry.insert (D : Type) [LinearOrder D] [Distance F32 D] [BeamHeaps D] (e : VectorEntry)
    (id : String) (vector : List F32) (draw : Nat) : VectorEntry :=
  if vector.length = e.dim then { e with index := e.index.replace D id vector draw } else e

def VectorEntry.remove (e : VectorEntry) (id : String) : VectorEntry :=
  { e with index := e.index.remove id }

/-- An entry that was made for a name. Who holds one keeps it, also when the map has moved on. -/
structure EntryRef where
  name : String
  nth : Nat
  deriving DecidableEq

/-- All entries made for each name, and the map `vectors` from names to entries. -/
structure SearchServices where
  made : String → List VectorEntry
  vectors : String → Option Nat
  valid : ∀ name n, vectors name = some n → n < (made name).length

namespace SearchServices

def new : SearchServices where
  made _ := []
  vectors _ := none
  valid _ _ h := nomatch h

/-- The entry that the map has for the name. -/
def entryUnder (sv : SearchServices) (name : String) : Option VectorEntry :=
  (sv.vectors name).bind fun n => (sv.made name)[n]?

def deref (sv : SearchServices) (r : EntryRef) : Option VectorEntry := (sv.made r.name)[r.nth]?

def modify (sv : SearchServices) (r : EntryRef) (f : VectorEntry → VectorEntry) : SearchServices where
  made := Function.update sv.made r.name ((sv.made r.name).modify r.nth f)
  vectors := sv.vectors
  valid name n h := by
    rw [Function.update_apply]
    split
    · rename_i heq
      rw [List.length_modify, ← heq]
      exact sv.valid name n h
    · exact sv.valid name n h

/-- A fresh entry in the map, in the place of any other. -/
def register (sv : SearchServices) (name : String) (e : VectorEntry) : SearchServices where
  made := Function.update sv.made name (sv.made name ++ [e])
  vectors := Function.update sv.vectors name (some (sv.made name).length)
  valid name' n h := by
    rw [Function.update_apply] at h ⊢
    split at h
    · rename_i heq
      cases h
      simp [heq]
    · rename_i hne
      rw [if_neg hne]
      exact sv.valid name' n h

def vectorExists (sv : SearchServices) (name : String) : Bool := (sv.vectors name).isSome

def defineVector (sv : SearchServices) (name : String) (dim : Nat) (metric : DistanceMetric) :
    SearchServices := sv.register name (.new dim metric)

def getOrCreateVector (sv : SearchServices) (name : String) (dim : Nat) (metric : DistanceMetric) :
    EntryRef × SearchServices :=
  match sv.vectors name with
  | some n => (⟨name, n⟩, sv)
  | none => (⟨name, (sv.made name).length⟩, sv.register name (.new dim metric))

/-- Changes the entry that the map has for the name. -/
def modifyNamed (sv : SearchServices) (name : String) (f : VectorEntry → VectorEntry) : SearchServices :=
  match sv.vectors name with
  | some n => sv.modify ⟨name, n⟩ f
  | none => sv

def setVectorLoaded (sv : SearchServices) (name : String) (loaded : Bool) : SearchServices :=
  sv.modifyNamed name fun e => { e with loaded }

def isLoaded (sv : SearchServices) (r : EntryRef) : Bool := (sv.deref r).any (·.loaded)

def isLocked (sv : SearchServices) (r : EntryRef) : Bool := (sv.deref r).any (·.locked)

def vectorInsert (D : Type) [LinearOrder D] [Distance F32 D] [BeamHeaps D] (sv : SearchServices)
    (name id : String) (vector : List F32) (draw : Nat) : SearchServices :=
  sv.modifyNamed name fun e => e.insert D id vector draw

def vectorRemove (sv : SearchServices) (name id : String) : SearchServices :=
  sv.modifyNamed name fun e => e.remove id

def vectorSearch (D : Type) [LinearOrder D] [Distance F32 D] [BeamHeaps D] (sv : SearchServices)
    (name : String) (query : List F32) (k : Nat) : Result (List (VectorHit D)) :=
  match sv.entryUnder name with
  | none => .error (.index [.text ("vector index '" ++ name ++ "' is not loaded")])
  | some e =>
    if query.length = e.dim then .ok (e.index.search D query k)
    else .error (.query [.text ("query vector has dimension " ++ toString query.length ++ ", index '" ++
      name ++ "' expects " ++ toString e.dim)])

def dropVector (sv : SearchServices) (name : String) : SearchServices where
  made := sv.made
  vectors := Function.update sv.vectors name none
  valid name' n h := by
    rw [Function.update_apply] at h
    split at h
    · cases h
    · exact sv.valid name' n h

/-! ## What an operation does to the entries -/

theorem deref_of_vectors {sv : SearchServices} {name : String} {n : Nat} (h : sv.vectors name = some n) :
    sv.deref ⟨name, n⟩ = sv.entryUnder name := by
  rw [entryUnder, h]
  rfl

theorem isSome_entryUnder (sv : SearchServices) (name : String) :
    (sv.entryUnder name).isSome = (sv.vectors name).isSome := by
  cases hn : sv.vectors name with
  | none => simp [entryUnder, hn]
  | some n =>
    have hlt := sv.valid name n hn
    simp [entryUnder, hn, hlt]

@[simp] theorem entryUnder_new (name : String) : new.entryUnder name = none := rfl

@[simp] theorem vectors_modify (sv : SearchServices) (r : EntryRef) (f : VectorEntry → VectorEntry) :
    (sv.modify r f).vectors = sv.vectors := rfl

end SearchServices

end Dllb
