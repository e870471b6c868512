import Mathlib

/-! # Modularity

How much more weight lies inside the parts of a network than the degrees of its
nodes let expect. Moving one node to another part changes it by twice what the
node gains, in units of the total degree.
-/

namespace Dllb

set_option autoImplicit false

namespace Modularity

variable {V C K : Type} [DecidableEq V] [DecidableEq C] [Field K]

/-- Weights between nodes, without a direction and without loops. -/
structure Network (V K : Type) [Field K] where
  nodes : Finset V
  weight : V → V → K
  symm : ∀ u v, weight u v = weight v u
  loopless : ∀ v, weight v v = 0

namespace Network

variable (N : Network V K) (part : V → C)

def degree (v : V) : K := ∑ u ∈ N.nodes, N.weight v u

/-- Every weight counts at both of its ends. -/
def total : K := ∑ v ∈ N.nodes, N.degree v

/-- The sum over all pairs of nodes of one part, in both directions. -/
def inside (f : V → V → K) : K := ∑ u ∈ N.nodes, ∑ v ∈ N.nodes, if part u = part v then f u v else 0

/-- What a weight exceeds its expectation by. -/
def excess (resolution : K) (u v : V) : K :=
  N.weight u v / N.total - resolution * N.degree u * N.degree v / N.total ^ 2

def modularity (resolution : K) : K := N.inside part (N.excess resolution)

/-- The weight between a node and a part. -/
def into (v : V) (c : C) : K := ∑ u ∈ N.nodes, if part u = c then N.weight v u else 0

/-- The degrees in a part. -/
def volume (c : C) : K := ∑ u ∈ N.nodes, if part u = c then N.degree u else 0

/-- What a node has of a part with the given volume. -/
def share (resolution : K) (v : V) (c : C) (vol : K) : K :=
  N.into part v c - resolution * vol * N.degree v / N.total

/-- A part against the node's own part without the node. -/
def gain (resolution : K) (v : V) (c : C) : K :=
  N.share part resolution v c (N.volume part c) -
    N.share part resolution v (part v) (N.volume part (part v) - N.degree v)

variable {N part} {v : V} {c : C}

omit [DecidableEq V] [DecidableEq C] in
theorem excess_symm (resolution : K) (u v : V) : N.excess resolution u v = N.excess resolution v u := by
  rw [excess, excess, N.symm u v]
  ring

/-- The pairs with one node apart. -/
theorem inside_eq {f : V → V → K} (hf : ∀ u v, f u v = f v u) (hv : v ∈ N.nodes) :
    N.inside part f = f v v + 2 * (∑ u ∈ N.nodes.erase v, if part u = part v then f v u else 0) +
      ∑ u ∈ N.nodes.erase v, ∑ w ∈ N.nodes.erase v, if part u = part w then f u w else 0 := by
  have hrow : ∀ u, (∑ w ∈ N.nodes, if part u = part w then f u w else 0) =
      (if part u = part v then f v u else 0) +
        ∑ w ∈ N.nodes.erase v, if part u = part w then f u w else 0 := by
    intro u
    rw [← Finset.add_sum_erase _ _ hv, hf u v]
  have hfirst : (∑ w ∈ N.nodes.erase v, if part v = part w then f v w else 0) =
      ∑ u ∈ N.nodes.erase v, if part u = part v then f v u else 0 :=
    Finset.sum_congr rfl fun u _ => by simp only [eq_comm]
  rw [inside, ← Finset.add_sum_erase _ _ hv]
  simp only [hrow, Finset.sum_add_distrib, hfirst, if_true]
  ring

theorem sum_erase (f : V → K) (hv : v ∈ N.nodes) (c : C) :
    (∑ u ∈ N.nodes.erase v, if part u = c then f u else 0) =
      (∑ u ∈ N.nodes, if part u = c then f u else 0) - if part v = c then f v else 0 := by
  rw [← Finset.add_sum_erase _ _ hv, add_sub_cancel_left]

theorem sum_erase_excess (resolution : K) (hv : v ∈ N.nodes) (c : C) :
    (∑ u ∈ N.nodes.erase v, if part u = c then N.excess resolution v u else 0) =
      N.share part resolution v c (N.volume part c - if part v = c then N.degree v else 0) / N.total := by
  have hsplit : ∀ u, (if part u = c then N.excess resolution v u else 0) =
      (if part u = c then N.weight v u else 0) / N.total -
        resolution * N.degree v / N.total ^ 2 * if part u = c then N.degree u else 0 := by
    intro u
    split
    · rw [excess]
      ring
    · ring
  simp only [hsplit, Finset.sum_sub_distrib, ← Finset.sum_div, ← Finset.mul_sum, sum_erase _ hv, N.loopless, ite_self,
    sub_zero]
  rw [share, into, volume]
  ring

/-- Moving one node changes modularity by what the node gains. -/
theorem modularity_update (resolution : K) (hv : v ∈ N.nodes) (hc : c ≠ part v) :
    N.modularity (Function.update part v c) resolution =
      N.modularity part resolution + 2 * N.gain part resolution v c / N.total := by
  have hrest : ∀ u ∈ N.nodes.erase v, Function.update part v c u = part u :=
    fun u hu => Function.update_of_ne (Finset.ne_of_mem_erase hu) _ _
  have hmoved : (∑ u ∈ N.nodes.erase v, if Function.update part v c u = Function.update part v c v
      then N.excess resolution v u else 0) = ∑ u ∈ N.nodes.erase v, if part u = c then N.excess resolution v u else 0 :=
    Finset.sum_congr rfl fun u hu => by rw [hrest u hu, Function.update_self]
  have hothers : (∑ u ∈ N.nodes.erase v, ∑ w ∈ N.nodes.erase v, if Function.update part v c u =
      Function.update part v c w then N.excess resolution u w else 0) =
        ∑ u ∈ N.nodes.erase v, ∑ w ∈ N.nodes.erase v, if part u = part w then N.excess resolution u w else 0 :=
    Finset.sum_congr rfl fun u hu => Finset.sum_congr rfl fun w hw => by rw [hrest u hu, hrest w hw]
  rw [modularity, modularity, inside_eq (excess_symm resolution) hv, inside_eq (excess_symm resolution) hv,
    hmoved, hothers, sum_erase_excess resolution hv, sum_erase_excess resolution hv, if_neg (Ne.symm hc), if_pos rfl,
    sub_zero, gain]
  ring

theorem volume_update (hv : v ∈ N.nodes) (c d : C) :
    N.volume (Function.update part v c) d =
      N.volume part d - (if part v = d then N.degree v else 0) + if c = d then N.degree v else 0 := by
  have hrest : (∑ u ∈ N.nodes.erase v, if Function.update part v c u = d then N.degree u else 0) =
      ∑ u ∈ N.nodes.erase v, if part u = d then N.degree u else 0 :=
    Finset.sum_congr rfl fun u hu => by rw [Function.update_of_ne (Finset.ne_of_mem_erase hu)]
  rw [volume, volume, ← Finset.add_sum_erase _ _ hv, hrest, sum_erase _ hv, Function.update_self]
  ring

end Network

end Modularity

end Dllb
