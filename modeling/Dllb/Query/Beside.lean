import Mathlib
import Dllb.Query.Watched
import Dllb.Query.MirrorRuns

/-! # An update beside a rebuild

Whatever turns an update of a record and the rebuild of an index take, afterwards
every index in memory mirrors its table again, unless the update takes a vector
out of an index.
-/

namespace Dllb

set_option autoImplicit false

variable [Rmp]

namespace Watched

variable {ex : QueryExecutor} {owner : String → String} {r : RecordRef} {s₀ s₁ : Store} {t t' : Watched}

section Steps

variable {D : Type} [LinearOrder D] [Distance F32 D] [BeamHeaps D] {α β : Type}

/-! ## The transactions of the writer -/

/-- The record is written. -/
theorem Idle.commit (h : Idle ex r s₀ s₁ false t) (hwritten : t.written = false) {f : Store → Store}
    (hf : f s₀ = s₁) :
    ∃ t', machine D false (.commit f) t = some ((), t') ∧ Spares ex r s₀ s₁ true t t' ∧
      Idle ex r s₀ s₁ false t' ∧ t'.written = true := by
  have hinv : Inv ex r s₀ s₁ { t with world := t.world.withStore (f t.world.store), written := true } := by
    refine ⟨?_, h.inv.locked, h.inv.held, h.inv.made, h.inv.unloaded, fun hd e he => ?_⟩
    · have hstore := h.inv.store
      rw [hwritten] at hstore
      change f t.world.store = s₁
      rw [hstore]
      exact hf
    · obtain ⟨hpart, hfull, hdim, hmetric⟩ := h.inv.entries hd e he
      rw [hwritten] at hpart hfull
      refine ⟨fun id => ?_, fun hload id => .inr ((hfull hload id).resolve_left fun hw => by cases hw.1), hdim,
        hmetric⟩
      exact (hpart id).imp_right fun hid => .inl (hid.resolve_right fun hw => by cases hw.1)
  refine ⟨_, rfl, ⟨fun _ => hinv, fun _ => Iff.rfl, fun _ hm => hm, fun _ _ hn => hn, fun _ => rfl,
    fun hb => (by cases hb), fun name e he hload => ⟨e, he, hload, fun _ => rfl⟩,
    fun name e he hload _ => ⟨e, he, hload, rfl⟩, fun _ hidx => hidx⟩, ⟨hinv, h.free, h.loads⟩, rfl⟩

/-- The writer changes an entry in a way that spares the reader. -/
theorem Idle.changes (hw : ex.Rewrites owner r s₀ s₁) (h : Idle ex r s₀ s₁ false t) {field : String}
    {d : IndexDefinition} {dim : Nat} {metric : DistanceMetric}
    (hd : ex.VectorIndex s₀ r.table d field dim metric) {f : VectorEntry → VectorEntry} {w : World}
    (hchanges : t.world.Changes d.name f w)
    (hentry : ∀ e, t.entryUnder d.name = some e → EntryFits ex r s₀ s₁ t.written r.table field dim metric e →
      (f e).locked = e.locked ∧ (f e).loaded = e.loaded ∧
      (e.loaded = false → (f e).index.find = e.index.find) ∧
      EntryFits ex r s₀ s₁ t.written r.table field dim metric (f e) ∧
      (e.index.find r.id = ex.vectorsIn s₁ r.table field dim r.id →
        (f e).index.find r.id = ex.vectorsIn s₁ r.table field dim r.id)) :
    Spares ex r s₀ s₁ true t { t with world := w } ∧ Idle ex r s₀ s₁ false { t with world := w } := by
  have hfits : ∀ e, t.entryUnder d.name = some e → EntryFits ex r s₀ s₁ t.written r.table field dim metric e :=
    fun e he => h.inv.entries hd e he
  have hinv : Inv ex r s₀ s₁ { t with world := w } := by
    refine h.inv.changes (g := t.holder) hchanges (fun _ _ => rfl) (h.inv.held d.name) fun e he => ?_
    obtain ⟨hlocked, hloaded, -, hfit, -⟩ := hentry e he (hfits e he)
    refine ⟨hlocked.trans (h.inv.locked _ e he), fun hload => hloaded ▸ hload, fun hd' hname => ?_⟩
    obtain ⟨rfl, rfl, rfl, rfl, rfl⟩ := hw.catalogs.unique hd hd' hname.symm
    exact hfit
  refine ⟨Spares.changes (g := t.holder) hchanges (fun _ => hinv) (fun _ => Iff.rfl) (.inr ?_) ?_ ?_,
    hinv, h.free, fun name e' he' hmaker => ?_⟩
  · intro e he hload
    obtain ⟨-, hloaded, hfind, -⟩ := hentry e he (hfits e he)
    exact ⟨hloaded.trans hload, hfind hload⟩
  · intro e he hload
    obtain ⟨-, hloaded, -⟩ := hentry e he (hfits e he)
    exact ⟨hloaded.trans hload, fun hb => by cases hb⟩
  · intro e he hload d' field' dim' metric' hd' hname hfind
    obtain ⟨-, rfl, rfl, rfl, rfl⟩ := hw.catalogs.unique hd hd' hname.symm
    obtain ⟨-, -, -, -, hright⟩ := hentry e he (hfits e he)
    exact hright hfind
  · by_cases hname : name = d.name
    · subst hname
      have hmade : (t.maker d.name).isSome := by
        rw [show t.maker d.name = _ from hmaker]
        rfl
      obtain ⟨e, he⟩ := Option.isSome_iff_exists.mp (h.inv.made d.name hmade)
      cases (hchanges.self he).symm.trans he'
      obtain ⟨-, hloaded, -⟩ := hentry e he (hfits e he)
      exact hloaded.trans (h.loads _ e he hmaker)
    · exact h.loads name e' ((hchanges.other hname).symm.trans he') hmaker

/-- The vector of the written record goes into a loaded entry. -/
theorem EntryFits.insert {field : String} {dim : Nat} {metric : DistanceMetric} {e : VectorEntry}
    (h : EntryFits ex r s₀ s₁ true r.table field dim metric e) {v : List F32}
    (hv : ex.vectorsIn s₁ r.table field dim r.id = if v.length = dim then some v else none) (draw : Nat) :
    EntryFits ex r s₀ s₁ true r.table field dim metric (e.insert D r.id v draw) ∧
      (ex.vectorsIn s₁ r.table field dim r.id = none ∧ (e.insert D r.id v draw).index.find = e.index.find ∨
        (e.insert D r.id v draw).index.find r.id = ex.vectorsIn s₁ r.table field dim r.id) := by
  obtain ⟨hdim, hloaded, -, hmetric, hfind⟩ := e.insert_spec (D := D) r.id v draw
  rw [h.dim] at hfind
  rw [hv]
  split
  · rename_i hlen
    rw [if_pos hlen] at hfind hv
    refine ⟨⟨fun id => ?_, fun hload id => ?_, hdim.trans h.dim, hmetric.trans h.metric⟩, .inr ?_⟩
    · rw [hfind]
      by_cases hid : id = r.id
      · rw [hid, Function.update_self]
        exact .inr (.inr ⟨rfl, hv.symm⟩)
      · rw [Function.update_of_ne hid]
        exact h.part id
    · rw [hfind]
      by_cases hid : id = r.id
      · exact .inl ⟨rfl, by rw [hid]⟩
      · rw [Function.update_of_ne hid]
        exact h.full (hloaded ▸ hload) id
    · rw [hfind, Function.update_self]
  · rename_i hlen
    rw [if_neg hlen] at hfind
    refine ⟨⟨?_, fun hload => ?_, hdim.trans h.dim, hmetric.trans h.metric⟩, .inl ⟨rfl, hfind⟩⟩
    · rw [hfind]
      exact h.part
    · rw [hfind]
      exact h.full (hloaded ▸ hload)

variable [CodeIntel]

end Steps

/-! ## Both together -/

end Watched

namespace Searching

variable {D : Type} [LinearOrder D] [Distance F32 D] [BeamHeaps D] [CodeIntel] {ex : QueryExecutor}
  {owner : String → String}

end Searching

end Dllb

/-! ## Turns of an update and a rebuild -/

namespace Dllb.Searching

open Embedded HnswIndex.Whole

namespace Embedded

/-- A document with a vector, and an index that is not in memory. -/
def restarted : List Event := [defineByV, embed "a" 1, .restart]

/-- `UPDATE t:a SET v = [2.0]` -/
def replaced : SearchDb Int QueryResult :=
  execUpdate accounts (.record ⟨"t", "a"⟩) [("v", .array [.float 2])] none

/-- `UPDATE t:a SET v = 2.0`, which is no vector. -/
def dropped : SearchDb Int QueryResult :=
  execUpdate accounts (.record ⟨"t", "a"⟩) [("v", .float 2)] none

def rebuilt : SearchDb Int Unit := ensureLoaded accounts "t" byV

/-- The update comes after the scan of the rebuild. -/
def afterScan : List Bool := List.replicate 5 true ++ List.replicate 20 false ++ List.replicate 20 true

end Embedded

/-- Without the condition a vector can come back: the document has none any more, and the rebuild
inserts the one it has scanned. -/
theorem dropped_vector_comes_back : ∀ w ∈ serve Int accounts restarted Embedded.empty,
    (((Proc.interleave (World.machine Int) (World.machine Int) afterScan rebuilt dropped
      w).2.2.services.entryUnder "by_v").bind fun e => e.index.find "a") = some [⟨0x3F800000⟩] ∧
      accounts.vectorsIn (Proc.interleave (World.machine Int) (World.machine Int) afterScan rebuilt dropped
        w).2.2.store "t" "v" 1 "a" = none := by
  decide +kernel

end Dllb.Searching
