import Mathlib
import Dllb.Document.ReadPaths
import Dllb.Query.Debug
import Dllb.Query.IndexReads
import Dllb.Query.Reads

/-! # Counting by the values of a field

`COUNT ... GROUP BY` files every matching document under a text made of the
value of the field. The rows are those of the values if the texts tell the values
apart and the two columns of a row are not the same one.
-/

namespace Dllb

set_option autoImplicit false

/-! ## Sorting by counts -/

section Texts

variable [Texts]

variable [DebugFormat]

omit [DebugFormat] in
/-- A value is counted in the bucket of its text, which is made if there is none. -/
theorem bucketAdd_cases (v : Value) (bs : List (String × Value × Nat)) :
    (groupKey v ∉ bs.map Prod.fst ∧ bucketAdd v bs = bs ++ [(groupKey v, v, 1)]) ∨
      ∃ front u n back, bs = front ++ (groupKey v, u, n) :: back ∧
        bucketAdd v bs = front ++ (groupKey v, u, n + 1) :: back := by
  induction bs with
  | nil => exact .inl ⟨List.not_mem_nil, rfl⟩
  | cons b bs ih =>
    rw [bucketAdd]
    split
    · rename_i hb
      refine .inr ⟨[], b.2.1, b.2.2, bs, ?_, ?_⟩
      · rw [← hb]
        rfl
      · rw [hb]
        rfl
    · rename_i hb
      obtain ⟨hfresh, heq⟩ | ⟨front, u, n, back, hbs, heq⟩ := ih
      · refine .inl ⟨?_, by rw [heq]; rfl⟩
        rw [List.map_cons, List.mem_cons, not_or]
        exact ⟨fun h => hb h.symm, hfresh⟩
      · exact .inr ⟨b :: front, u, n, back, by rw [hbs]; rfl, by rw [heq]; rfl⟩

/-- The buckets hold the values seen so far. -/
structure Tallied (seen : List Value) (bs : List (String × Value × Nat)) : Prop where
  distinct : (bs.map Prod.fst).Nodup
  key : ∀ b ∈ bs, b.1 = groupKey b.2.1
  value : ∀ b ∈ bs, b.2.1 ∈ seen
  count : ∀ b ∈ bs, b.2.2 = seen.countP fun v => groupKey v = b.1
  covers : ∀ v ∈ seen, groupKey v ∈ bs.map Prod.fst
  total : (bs.map fun b => b.2.2).sum = seen.length

omit [DebugFormat] in
theorem Tallied.add {seen : List Value} {bs : List (String × Value × Nat)} (h : Tallied seen bs) (v : Value) :
    Tallied (seen ++ [v]) (bucketAdd v bs) := by
  have hcount : ∀ k, (seen ++ [v]).countP (fun u => groupKey u = k) =
      (seen.countP fun u => groupKey u = k) + if groupKey v = k then 1 else 0 := by
    intro k
    rw [List.countP_append, List.countP_singleton]
    simp
  obtain ⟨hfresh, heq⟩ | ⟨front, u, n, back, rfl, heq⟩ := bucketAdd_cases v bs
  · rw [heq]
    have hnone : (seen.countP fun u => groupKey u = groupKey v) = 0 := by
      refine List.countP_eq_zero.mpr fun u hu hkey => hfresh ?_
      rw [← of_decide_eq_true hkey]
      exact h.covers u hu
    refine ⟨?_, ?_, ?_, ?_, ?_, ?_⟩
    · rw [List.map_append]
      exact h.distinct.append (List.nodup_singleton _) (List.disjoint_singleton.mpr hfresh)
    · exact List.forall_mem_append.mpr ⟨h.key, List.forall_mem_singleton.mpr rfl⟩
    · exact List.forall_mem_append.mpr ⟨fun b hb => List.mem_append_left _ (h.value b hb),
        List.forall_mem_singleton.mpr List.mem_concat_self⟩
    · refine List.forall_mem_append.mpr ⟨fun b hb => ?_, List.forall_mem_singleton.mpr ?_⟩
      · have hne : groupKey v ≠ b.1 := fun hk => hfresh (hk ▸ List.mem_map_of_mem hb)
        rw [hcount, if_neg hne, h.count b hb]
        rfl
      · rw [hcount, if_pos rfl, hnone]
    · rw [List.map_append]
      exact List.forall_mem_append.mpr ⟨fun u hu => List.mem_append_left _ (h.covers u hu),
        List.forall_mem_singleton.mpr List.mem_concat_self⟩
    · rw [List.map_append, List.sum_append, h.total, List.length_append]
      rfl
  · rw [heq]
    have hkeys : (front ++ (groupKey v, u, n + 1) :: back).map Prod.fst =
        (front ++ (groupKey v, u, n) :: back).map Prod.fst := by
      rw [List.map_append, List.map_append]
      rfl
    have hdistinct := h.distinct
    rw [List.map_append, List.map_cons, List.nodup_middle, List.nodup_cons] at hdistinct
    -- The other buckets are those of other texts.
    have hne : ∀ b ∈ front ++ back, groupKey v ≠ b.1 := by
      intro b hb hk
      refine hdistinct.1 ?_
      change groupKey v ∈ front.map Prod.fst ++ back.map Prod.fst
      rw [hk, ← List.map_append]
      exact List.mem_map_of_mem hb
    have hother : ∀ b ∈ front ++ back, b ∈ front ++ (groupKey v, u, n) :: back := by
      intro b hb
      obtain hb | hb := List.mem_append.mp hb
      · exact List.mem_append_left _ hb
      · exact List.mem_append_right _ (List.mem_cons_of_mem _ hb)
    have hthis : (groupKey v, u, n) ∈ front ++ (groupKey v, u, n) :: back :=
      List.mem_append_right _ List.mem_cons_self
    have hall : ∀ P : String × Value × Nat → Prop, P (groupKey v, u, n + 1) → (∀ b ∈ front ++ back, P b) →
        ∀ b ∈ front ++ (groupKey v, u, n + 1) :: back, P b := by
      intro P hP hrest b hb
      obtain rfl | hb := List.mem_cons.mp (List.perm_middle.mem_iff.mp hb)
      · exact hP
      · exact hrest b hb
    refine ⟨hkeys ▸ h.distinct, ?_, ?_, ?_, ?_, ?_⟩
    · have hkey : groupKey v = groupKey u := h.key _ hthis
      exact hall _ hkey fun b hb => h.key b (hother b hb)
    · have hvalue : u ∈ seen := h.value _ hthis
      exact hall _ (List.mem_append_left _ hvalue) fun b hb => List.mem_append_left _ (h.value b (hother b hb))
    · refine hall _ ?_ fun b hb => ?_
      · rw [hcount, if_pos rfl, ← h.count _ hthis]
      · rw [hcount, if_neg (hne b hb), h.count b (hother b hb)]
        rfl
    · rw [hkeys]
      refine List.forall_mem_append.mpr ⟨h.covers, List.forall_mem_singleton.mpr ?_⟩
      exact List.mem_map_of_mem hthis
    · have htotal := h.total
      simp only [List.map_append, List.map_cons, List.sum_append, List.sum_cons] at htotal ⊢
      rw [List.length_append, List.length_singleton]
      omega

end Texts

section Statement

variable [Rmp] [CodeIntel]

omit [CodeIntel] in
theorem readsAgree {c : Collection} (hc : c.Regular) {s : Store} {docs : List Document}
    (hscan : c.scanAll.run s = (.ok docs, s)) : c.ReadsAgree s := by
  obtain ⟨hreadable, -⟩ := hc.mem_of_scanAll hscan
  exact Collection.readsAgree_of_readable (p := ⟨⟨c.ns, hc.ns⟩, ⟨c.db, hc.db⟩, ⟨c.table, hc.table⟩⟩)
    c.schema c.indexes hreadable

omit [CodeIntel] in
/-- Distinct ids give distinct documents. -/
theorem nodup_getMany {c : Collection} (hc : c.Regular) {s : Store} {docs found : List Document}
    (hscan : c.scanAll.run s = (.ok docs, s)) {ids : List String} (hids : ids.Nodup)
    (hfound : (c.getMany ids).run s = (.ok found, s)) : found.Nodup := by
  obtain ⟨-, -, -, -, -, -, hmany⟩ := readsAgree hc hscan
  obtain ⟨rs, hrs, hfound'⟩ := hmany ids
  obtain rfl : found = rs.flatMap Option.toList :=
    Except.ok.inj (congrArg Prod.fst (hfound.symm.trans hfound'))
  have hsublist : ((rs.flatMap Option.toList).map fun doc => doc.id.id).Sublist ids := by
    clear hfound hfound' hids
    induction hrs with
    | nil => exact .slnil
    | @cons id r ids rs hr _ ih =>
      obtain ⟨-, ⟨-, heq⟩ | ⟨fields, -, heq⟩ | ⟨b, e, -, -, heq⟩⟩ := Collection.run_get_cases hr
      · obtain rfl := Except.ok.inj heq
        exact ih.cons id
      · obtain rfl := Except.ok.inj heq
        exact ih.cons_cons id
      · cases heq
  exact (hids.sublist hsublist).of_map

variable [Texts] [DebugFormat]

end Statement

/-! ## A table to count -/

namespace Concrete

end Concrete

/-- A table without an index whose one record has a field `count`. -/
def counted : Collection := { ns := "n", db := "d", table := "t", schema := none, indexes := [] }

end Dllb
