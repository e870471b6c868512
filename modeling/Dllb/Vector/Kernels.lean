import Mathlib
import Dllb.Vector.Hnsw

/-! # The distance kernels

A kernel adds up one term for each position of two vectors. Position `i` of a
chunk of eight goes to lane `i`, the lanes are added up at the end, and the terms
of the remainder go to the total one by one. A kernel returns `none` where the
source would index out of range.
-/

namespace Dllb

set_option autoImplicit false

namespace Kernels

/-! ## Chunks -/

section

variable {α : Type}

/-- `chunks_exact` -/
def chunksExact (n : Nat) (l : List α) : List (List α) :=
  (List.range (l.length / n)).map fun c => (l.drop (n * c)).take n

/-- `ChunksExact::remainder` -/
def remainder (n : Nat) (l : List α) : List α := l.drop (n * (l.length / n))

theorem flatMap_range_take_drop (n k : Nat) (l : List α) :
    ((List.range k).flatMap fun c => (l.drop (n * c)).take n) = l.take (n * k) := by
  induction k with
  | zero => simp
  | succ k ih =>
    rw [List.range_succ, List.flatMap_append, ih, Nat.mul_succ, List.take_add]
    simp

/-- The chunks and the remainder are the whole list. -/
theorem flatten_chunksExact_append_remainder (n : Nat) (l : List α) :
    (chunksExact n l).flatten ++ remainder n l = l := by
  rw [chunksExact, ← List.flatMap_def, flatMap_range_take_drop, remainder, List.take_append_drop]

theorem length_of_mem_chunksExact {n : Nat} {l chunk : List α} (h : chunk ∈ chunksExact n l) :
    chunk.length = n := by
  obtain ⟨c, hc, rfl⟩ := List.mem_map.mp h
  have hle : n * (c + 1) ≤ l.length :=
    (Nat.mul_le_mul_left n (List.mem_range.mp hc)).trans (Nat.mul_div_le _ _)
  rw [Nat.mul_succ] at hle
  rw [List.length_take, List.length_drop]
  omega

end

/-! ## The loops -/

section

variable {K M : Type} [Zero M] [Add M]

/-- `acc[i] += term(ca[i], cb[i])` for every `i` of the list. -/
def addLanes (term : K → K → M) (ca cb : List K) : List Nat → List M → Option (List M)
  | [], acc => some acc
  | i :: is, acc => do
    let x ← ca[i]?
    let y ← cb[i]?
    let s ← acc[i]?
    addLanes term ca cb is (acc.set i (s + term x y))

/-- `total += term(a[i], b[i])` for every `i` of the list. -/
def addRemainder (term : K → K → M) (a b : List K) : List Nat → M → Option M
  | [], total => some total
  | i :: is, total => do
    let x ← a[i]?
    let y ← b[i]?
    addRemainder term a b is (total + term x y)

/-- The number of lanes. -/
def width : Nat := 8

def chunkedSum (term : K → K → M) (a b : List K) : Option M := do
  let acc ← ((chunksExact width a).zip (chunksExact width b)).foldlM
    (fun acc chunks => addLanes term chunks.1 chunks.2 (List.range width) acc) (List.replicate width 0)
  let remainderA := remainder width a
  addRemainder term remainderA (remainder width b) (List.range remainderA.length) (acc.foldl (· + ·) 0)

end

/-! ## The kernels -/

section

variable {K : Type} [Field K] (sqrt : K → K)

def dotProduct (a b : List K) : Option K := chunkedSum (fun x y => x * y) a b

def dotProductDistance (a b : List K) : Option K := (dotProduct a b).map fun dot => -dot

def euclideanDistance (a b : List K) : Option K :=
  (chunkedSum (fun x y => let d := x - y; d * d) a b).map sqrt

/-- The products and both squared norms, added up in one loop. -/
def cosineSums (a b : List K) : Option (K × K × K) := chunkedSum (fun x y => (x * y, x * x, y * y)) a b

variable [DecidableEq K]

def cosineOf (dot normASum normBSum : K) : K :=
  let denom := sqrt normASum * sqrt normBSum
  -- zero vectors are orthogonal to every vector
  if denom = 0 then 1 else 1 - dot / denom

def cosineDistance (a b : List K) : Option K := do
  let (dot, normASum, normBSum) ← cosineSums a b
  return cosineOf sqrt dot normASum normBSum

def distance (a b : List K) : DistanceMetric → Option K
  | .cosine => cosineDistance sqrt a b
  | .euclidean => euclideanDistance sqrt a b
  | .dotProduct => dotProductDistance a b

end

/-! ## What the loops add up -/

section

variable {K M : Type} [AddCommMonoid M] (term : K → K → M)

theorem addLanes_spec (ca cb : List K) (is : List Nat) (acc : List M)
    (hterms : ∀ i ∈ is, i < (List.zipWith term ca cb).length) (hacc : ∀ i ∈ is, i < acc.length) :
    ∃ acc', addLanes term ca cb is acc = some acc' ∧ acc'.length = acc.length ∧
      acc'.sum = acc.sum + (is.map fun i => (List.zipWith term ca cb).getD i 0).sum := by
  induction is generalizing acc with
  | nil => exact ⟨acc, rfl, rfl, by simp⟩
  | cons i is ih =>
    obtain ⟨hi, hterms⟩ := List.forall_mem_cons.mp hterms
    obtain ⟨hlane, hacc⟩ := List.forall_mem_cons.mp hacc
    have hzip := hi
    rw [List.length_zipWith, lt_min_iff] at hzip
    obtain ⟨ha, hb⟩ := hzip
    obtain ⟨acc', hrun, hlength, hsum⟩ :=
      ih (acc.set i (acc[i] + term ca[i] cb[i])) hterms (by simpa using hacc)
    refine ⟨acc', ?_, by rw [hlength, List.length_set], ?_⟩
    · simp only [addLanes, List.getElem?_eq_getElem ha, List.getElem?_eq_getElem hb,
        List.getElem?_eq_getElem hlane, Option.bind_eq_bind, Option.bind_some, hrun]
    · have hset : (acc.set i (acc[i] + term ca[i] cb[i])).sum = acc.sum + term ca[i] cb[i] := by
        have hsplit : acc.sum = (acc.take i).sum + (acc[i] + (acc.drop (i + 1)).sum) := by
          conv_lhs => rw [← List.take_append_drop i acc, List.sum_append, List.drop_eq_getElem_cons hlane,
            List.sum_cons]
        rw [List.sum_set, if_pos hlane, hsplit]
        abel
      have hget : (List.zipWith term ca cb).getD i 0 = term ca[i] cb[i] := by
        rw [List.getD_eq_getElem _ _ hi, List.getElem_zipWith]
      rw [hsum, hset, List.map_cons, List.sum_cons, hget, add_assoc]

theorem addRemainder_spec {a b : List K} (is : List Nat) (total : M)
    (hterms : ∀ i ∈ is, i < (List.zipWith term a b).length) :
    addRemainder term a b is total = some (total + (is.map fun i => (List.zipWith term a b).getD i 0).sum) := by
  induction is generalizing total with
  | nil => simp [addRemainder]
  | cons i is ih =>
    obtain ⟨hi, hterms⟩ := List.forall_mem_cons.mp hterms
    have hzip := hi
    rw [List.length_zipWith, lt_min_iff] at hzip
    obtain ⟨ha, hb⟩ := hzip
    have hget : (List.zipWith term a b).getD i 0 = term a[i] b[i] := by
      rw [List.getD_eq_getElem _ _ hi, List.getElem_zipWith]
    simp only [addRemainder, List.getElem?_eq_getElem ha, List.getElem?_eq_getElem hb, Option.bind_eq_bind,
      Option.bind_some, ih _ hterms, List.map_cons, List.sum_cons, hget, add_assoc]

/-- The positions of a list, one after another, give its sum. -/
theorem sum_map_range_getD (z : List M) : ((List.range z.length).map fun i => z.getD i 0).sum = z.sum := by
  congr 1
  refine List.ext_getElem (by simp) fun i hi hi' => ?_
  rw [List.getElem_map, List.getElem_range, List.getD_eq_getElem _ _ hi']

theorem foldlM_addLanes {pairs : List (List K × List K)}
    (hpairs : ∀ chunks ∈ pairs, chunks.1.length = width ∧ chunks.2.length = width) (acc : List M)
    (hacc : acc.length = width) :
    ∃ acc', pairs.foldlM (fun acc chunks => addLanes term chunks.1 chunks.2 (List.range width) acc) acc = some acc' ∧
      acc'.sum = acc.sum + (pairs.flatMap fun chunks => List.zipWith term chunks.1 chunks.2).sum := by
  induction pairs generalizing acc with
  | nil => exact ⟨acc, rfl, by simp⟩
  | cons chunks pairs ih =>
    obtain ⟨⟨ha, hb⟩, hpairs⟩ := List.forall_mem_cons.mp hpairs
    have hlength : (List.zipWith term chunks.1 chunks.2).length = width := by
      rw [List.length_zipWith, ha, hb, min_self]
    obtain ⟨acc₁, hrun, hlength₁, hsum₁⟩ := addLanes_spec term chunks.1 chunks.2 (List.range width) acc
      (by simp [hlength]) (by simp [hacc])
    obtain ⟨acc', hrest, hsum⟩ := ih hpairs acc₁ (hlength₁.trans hacc)
    refine ⟨acc', ?_, ?_⟩
    · rw [List.foldlM_cons, hrun, Option.bind_eq_bind, Option.bind_some, hrest]
    · have hchunk := sum_map_range_getD (List.zipWith term chunks.1 chunks.2)
      rw [hlength] at hchunk
      rw [hsum, hsum₁, hchunk, List.flatMap_cons, List.sum_append, add_assoc]

theorem zip_chunksExact {α β γ : Type} (f : α → β → γ) {n : Nat} {a : List α} {b : List β} (h : a.length = b.length) :
    (((chunksExact n a).zip (chunksExact n b)).flatMap fun chunks => List.zipWith f chunks.1 chunks.2) =
      (chunksExact n (List.zipWith f a b)).flatten := by
  have hlength : (List.zipWith f a b).length = a.length := by rw [List.length_zipWith, ← h, min_self]
  rw [chunksExact, chunksExact, ← h, List.zip_map', List.flatMap_map, chunksExact, ← List.flatMap_def, hlength]
  simp only [List.drop_zipWith, List.take_zipWith]

/-- A kernel adds up the terms of all positions. -/
theorem chunkedSum_eq {a b : List K} (h : a.length = b.length) :
    chunkedSum term a b = some (List.zipWith term a b).sum := by
  have hpairs : ∀ chunks ∈ (chunksExact width a).zip (chunksExact width b),
      chunks.1.length = width ∧ chunks.2.length = width := by
    rintro ⟨ca, cb⟩ hchunks
    obtain ⟨ha, hb⟩ := List.of_mem_zip hchunks
    exact ⟨length_of_mem_chunksExact ha, length_of_mem_chunksExact hb⟩
  obtain ⟨acc, hrun, hsum⟩ := foldlM_addLanes term hpairs (List.replicate width 0) List.length_replicate
  have hremainder : List.zipWith term (remainder width a) (remainder width b) =
      remainder width (List.zipWith term a b) := by
    simp only [remainder, List.drop_zipWith, List.length_zipWith, ← h, min_self]
  have hlength : (remainder width a).length = (remainder width (List.zipWith term a b)).length := by
    simp only [remainder, List.length_drop, List.length_zipWith, ← h, min_self]
  rw [chunkedSum, hrun, Option.bind_eq_bind, Option.bind_some, addRemainder_spec, hremainder, hlength,
    sum_map_range_getD, ← List.sum_eq_foldl, hsum, zip_chunksExact term h, List.sum_replicate, smul_zero, zero_add,
    ← List.sum_append, flatten_chunksExact_append_remainder]
  intro i hi
  rw [hremainder, ← hlength]
  exact List.mem_range.mp hi

theorem sum_zipWith {a b : List K} (h : a.length = b.length) :
    (List.zipWith term a b).sum = ∑ i : Fin a.length, term (a.get i) (b.get (i.cast h)) := by
  have heq : List.zipWith term a b = List.ofFn fun i : Fin a.length => term (a.get i) (b.get (i.cast h)) := by
    refine List.ext_getElem (by simp [h]) fun i hi hi' => ?_
    simp
  rw [heq, List.sum_ofFn]

end

theorem sum_get_cast {K M : Type} [AddCommMonoid M] {a b : List K} (h : a.length = b.length) (f : K → M) :
    ∑ i : Fin a.length, f (b.get (i.cast h)) = ∑ i : Fin b.length, f (b.get i) :=
  Fintype.sum_equiv (finCongr h) _ _ fun _ => rfl

theorem cosineSums_eq {K : Type} [Field K] {a b : List K} (h : a.length = b.length) :
    cosineSums a b = some (∑ i : Fin a.length, a.get i * b.get (i.cast h), ∑ i : Fin a.length, a.get i ^ 2,
      ∑ i : Fin b.length, b.get i ^ 2) := by
  rw [cosineSums, chunkedSum_eq _ h, sum_zipWith _ h, ← sum_get_cast h fun x => x ^ 2]
  simp only [pow_two, Option.some.injEq, Prod.ext_iff, Prod.fst_sum, Prod.snd_sum, and_self]

/-- In exact arithmetic the kernels add up the plain sums, and no index is out of range. -/
theorem kernels_are_plain_sums {K : Type} [Field K] [DecidableEq K] (sqrt : K → K) (a b : List K)
    (h : a.length = b.length) :
    dotProduct a b = some (∑ i : Fin a.length, a.get i * b.get (i.cast h)) ∧
    euclideanDistance sqrt a b = some (sqrt (∑ i : Fin a.length, (a.get i - b.get (i.cast h)) ^ 2)) ∧
    cosineDistance sqrt a b =
      some (cosineOf sqrt (∑ i : Fin a.length, a.get i * b.get (i.cast h)) (∑ i : Fin a.length, a.get i ^ 2)
        (∑ i : Fin b.length, b.get i ^ 2)) := by
  refine ⟨?_, ?_, ?_⟩
  · rw [dotProduct, chunkedSum_eq _ h, sum_zipWith _ h]
  · rw [euclideanDistance, chunkedSum_eq _ h, sum_zipWith _ h, Option.map_some]
    simp only [pow_two]
  · rw [cosineDistance, cosineSums_eq h]
    rfl

/-- Two lanes of the one chunk are not zero, and one position remains. -/
theorem kernels_are_plain_sums_nine :
    ([1, 2, 0, 0, 0, 0, 0, 0, 3] : List ℚ).length = ([4, 5, 0, 0, 0, 0, 0, 0, 6] : List ℚ).length ∧
    dotProduct ([1, 2, 0, 0, 0, 0, 0, 0, 3] : List ℚ) [4, 5, 0, 0, 0, 0, 0, 0, 6] = some 32 := by
  refine ⟨rfl, (kernels_are_plain_sums id [1, 2, 0, 0, 0, 0, 0, 0, 3] [4, 5, 0, 0, 0, 0, 0, 0, 6] rfl).1.trans ?_⟩
  decide +kernel

end Kernels

end Dllb
