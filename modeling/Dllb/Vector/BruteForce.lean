import Mathlib
import Dllb.Vector.SearchSound

/-! # The exact index

It keeps the pairs of ids and vectors in one list and replaces a pair at once, so
every id occurs once in it whatever is inserted. The HNSW index keeps the old
node of an id that is inserted again: the two hold the same vectors as long as no
id is.
-/

namespace Dllb

set_option autoImplicit false

structure BruteForceIndex (F : Type) where
  vectors : List (String × List F)
  metric : DistanceMetric

namespace BruteForceIndex

variable {F : Type}

def new (metric : DistanceMetric) : BruteForceIndex F := { vectors := [], metric }

def insert (bf : BruteForceIndex F) (id : String) (vector : List F) : BruteForceIndex F :=
  { bf with vectors := (bf.vectors.filter fun entry => entry.1 ≠ id) ++ [(id, vector)] }

def remove (bf : BruteForceIndex F) (id : String) : Bool × BruteForceIndex F :=
  let vectors := bf.vectors.filter fun entry => entry.1 ≠ id
  (vectors.length < bf.vectors.length, { bf with vectors })

def search (D : Type) [LinearOrder D] [Distance F D] (bf : BruteForceIndex F) (query : List F) (k : Nat) :
    List (VectorHit D) :=
  let scored := bf.vectors.map fun entry => (⟨entry.1, Distance.distance query entry.2 bf.metric⟩ : VectorHit D)
  (scored.insertionSort fun a b => a.distance ≤ b.distance).take k

def len (bf : BruteForceIndex F) : Nat := bf.vectors.length

end BruteForceIndex

/-! ## Lists of ids and vectors -/

/-- The list holds the vectors in `contents`, each once. -/
structure Contents.Listed {F : Type} (contents : Contents F) (l : List (String × List F)) : Prop where
  nodup : (l.map Prod.fst).Nodup
  mem : ∀ id v, (id, v) ∈ l ↔ contents id = some v

namespace Contents.Listed

variable {F : Type} {contents : Contents F} {l l' : List (String × List F)}

theorem nil : Contents.Listed (fun _ => none) ([] : List (String × List F)) :=
  ⟨List.nodup_nil, fun _ _ => ⟨nofun, nofun⟩⟩

theorem remove (h : contents.Listed l) (id : String) :
    Contents.Listed (Function.update contents id none) (l.filter fun entry => entry.1 ≠ id) where
  nodup := h.nodup.sublist (List.filter_sublist.map _)
  mem id' v := by
    rw [List.mem_filter, decide_eq_true_iff, h.mem, Function.update_apply]
    split
    · exact ⟨fun hmem => absurd ‹id' = id› hmem.2, nofun⟩
    · exact and_iff_left ‹id' ≠ id›

theorem insert (h : contents.Listed l) (id : String) (v : List F) :
    Contents.Listed (Function.update contents id (some v)) ((l.filter fun entry => entry.1 ≠ id) ++ [(id, v)]) where
  nodup := by
    rw [List.map_append, List.nodup_append]
    refine ⟨(h.remove id).nodup, List.nodup_singleton _, fun a ha b hb hab => ?_⟩
    obtain ⟨entry, hentry, rfl⟩ := List.mem_map.mp ha
    have hne := of_decide_eq_true (List.mem_filter.mp hentry).2
    exact hne (hab.trans (List.mem_singleton.mp hb))
  mem id' v' := by
    rw [List.mem_append, (h.remove id).mem, Function.update_apply, Function.update_apply, List.mem_singleton,
      Prod.mk.injEq]
    split
    · rename_i hid
      rw [Option.some_inj, or_iff_right nofun, and_iff_right hid, eq_comm]
    · rename_i hid
      exact or_iff_left fun hmem => hid hmem.1

end Contents.Listed

namespace HnswIndex

variable {F D : Type}

theorem Holds.listed {ix : HnswIndex F} {contents : Contents F} (h : ix.Holds contents) :
    contents.Listed ix.live where
  nodup := h.toExact.nodup_live
  mem id v := by rw [h.toExact.mem_live_iff, h.find]

theorem len_eq_countP (ix : HnswIndex F) : ix.len = (ix.nodes.map shape).countP fun node => !node.deleted := by
  rw [len, ← List.countP_eq_length_filter, List.countP_map]
  rfl

theorem SameNodes.len {ix ix' : HnswIndex F} (h : SameNodes ix ix') : ix'.len = ix.len := by
  rw [len_eq_countP, len_eq_countP, h.nodes]

/-- A call of the trait and what it returns, `remove` alone returning something. -/
def call (D : Type) [LinearOrder D] [Distance F D] [BeamHeaps D] (ix : HnswIndex F) :
    Op F → Option (Option Bool × HnswIndex F)
  | .insert id vector draw => (insert D ix id vector draw).map fun ix => (none, ix)
  | .remove id => (ix.remove id).map fun r => (some r.1, r.2)

end HnswIndex

open HnswIndex

def BruteForceIndex.call {F : Type} (bf : BruteForceIndex F) : Op F → Option Bool × BruteForceIndex F
  | .insert id vector _ => (none, bf.insert id vector)
  | .remove id => (some (bf.remove id).1, (bf.remove id).2)

theorem Contents.Listed.call {F : Type} {contents : Contents F} {bf : BruteForceIndex F}
    (h : contents.Listed bf.vectors) (op : Op F) : (op.apply contents).Listed (bf.call op).2.vectors := by
  cases op with
  | insert id vector draw => exact h.insert id vector
  | remove id => exact h.remove id

variable {F D : Type} [LinearOrder D] [Distance F D] [BeamHeaps D]

/-- The two hold the same vectors. -/
structure Paired (ix : HnswIndex F) (bf : BruteForceIndex F) (contents : Contents F) : Prop where
  holds : ix.Holds contents
  listed : contents.Listed bf.vectors

namespace Paired

variable {ix : HnswIndex F} {bf : BruteForceIndex F} {contents : Contents F}

theorem call (h : Paired ix bf contents) {op : Op F} (hop : op.Fresh contents) {r : Option Bool}
    {ix' : HnswIndex F} (hcall : ix.call D op = some (r, ix')) :
    Paired ix' (bf.call op).2 (op.apply contents) ∧ ix'.config = ix.config := by
  have hrun : exec D ix op = some ix' := by
    cases op with
    | insert id vector draw =>
      obtain ⟨ix₁, hinsert, heq⟩ := Option.map_eq_some_iff.mp hcall
      obtain ⟨-, rfl⟩ := Prod.mk.inj heq
      exact hinsert
    | remove id =>
      obtain ⟨r', hremove, heq⟩ := Option.map_eq_some_iff.mp hcall
      rw [HnswIndex.exec, hremove, Option.map_some, (Prod.mk.inj heq).2]
  obtain ⟨hholds, hconfig, -⟩ := h.holds.exec hop hrun
  exact ⟨⟨hholds, h.listed.call op⟩, hconfig⟩

end Paired

end Dllb
