import Mathlib
import Dllb.Query.MirrorWrites

/-! # What a search finds

The hits of a mirrored index are records of the table, with the distances of
their own vectors. A search looks up their documents in the same order.
-/

namespace Dllb

set_option autoImplicit false

variable [CodeIntel]

namespace Searching

/-! ## The rows of ranked hits -/

end Searching

variable [Rmp]

namespace QueryExecutor

omit [CodeIntel] in
theorem Readable.getMany {ex : QueryExecutor} {s : Store} (h : ex.Readable s) {table : String}
    (htable : Key.NulFree table) (ids : List String) :
    ∃ docs, ((Collection.new ex.ns ex.db table).getMany ids).run s = (.ok docs, s) ∧
      ∀ doc, doc ∈ docs ↔ doc.id.id ∈ ids ∧ doc.id.table = table ∧
        ex.stored s ⟨table, doc.id.id⟩ = some doc.fields := by
  obtain ⟨docs, hrun, hmem⟩ := (h.documents table htable).getMany_eq_ok ids
  refine ⟨docs, hrun, ?_⟩
  rintro ⟨⟨table', id⟩, fields⟩
  rw [hmem, stored_eq_some_iff []]
  refine and_congr_right fun _ => and_congr_left fun _ => ?_
  simp [Collection.recordId, collection]

end QueryExecutor

namespace Searching

variable {D : Type} [LinearOrder D] [Distance F32 D] [BeamHeaps D] {ex : QueryExecutor}
  {owner : String → String} {P : Instr → World → Prop} {w : World}

/-- What an index answers about the contents that it mirrors. -/
structure Hits (contents : Contents F32) (query : List F32) (metric : DistanceMetric) (k : Nat)
    (hits : List (VectorHit D)) : Prop where
  length : hits.length ≤ k
  distinct : (hits.map VectorHit.id).Nodup
  vectors : ∀ hit ∈ hits, ∃ v, contents hit.id = some v ∧ hit.distance = Distance.distance query v metric
  nearest : hits.Pairwise fun a b => a.distance ≤ b.distance

omit [Rmp] [CodeIntel] [BeamHeaps D] in
theorem Hits.sublist {contents : Contents F32} {query : List F32} {metric : DistanceMetric} {k : Nat}
    {hits found : List (VectorHit D)} (h : Hits contents query metric k hits) (hsub : found.Sublist hits) :
    Hits contents query metric found.length found where
  length := le_rfl
  distinct := h.distinct.sublist (hsub.map _)
  vectors hit hhit := h.vectors hit (hsub.subset hhit)
  nearest := h.nearest.sublist hsub

end Searching

end Dllb
