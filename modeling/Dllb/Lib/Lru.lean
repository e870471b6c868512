import Mathlib.Data.List.Basic

/-! # Least-recently-used maps

The entries stand in the order of their last use, the latest first.
-/

namespace Dllb

set_option autoImplicit false

structure LruCache (K V : Type) where
  entries : List (K × V)
  cap : Nat

namespace LruCache

variable {K V : Type} [DecidableEq K]

def without (c : LruCache K V) (k : K) : List (K × V) := c.entries.filter fun e => e.1 ≠ k

def find (c : LruCache K V) (k : K) : Option (K × V) := c.entries.find? fun e => e.1 = k

/-- A hit becomes the latest entry. -/
def get (c : LruCache K V) (k : K) : Option V × LruCache K V :=
  match c.find k with
  | some e => (some e.2, { c with entries := e :: c.without k })
  | none => (none, c)

def pop (c : LruCache K V) (k : K) : Option V × LruCache K V :=
  ((c.find k).map Prod.snd, { c with entries := c.without k })

def popLru (c : LruCache K V) : Option (K × V) × LruCache K V :=
  (c.entries.getLast?, { c with entries := c.entries.dropLast })

/-- A new key evicts the entry used least recently when the map is full. -/
def put (c : LruCache K V) (k : K) (v : V) : LruCache K V :=
  let rest := c.without k
  { c with entries := (k, v) :: if rest.length < c.cap then rest else rest.dropLast }

def len (c : LruCache K V) : Nat := c.entries.length

theorem mem_without {c : LruCache K V} {k : K} {e : K × V} :
    e ∈ c.without k ↔ e ∈ c.entries ∧ e.1 ≠ k := by
  simp [without]

theorem mem_of_get {c : LruCache K V} {k : K} {v : V} (h : (c.get k).1 = some v) : (k, v) ∈ c.entries := by
  unfold get at h
  split at h
  · rename_i e he
    cases h
    have hk : e.1 = k := by simpa using List.find?_some he
    rw [← hk]
    exact List.mem_of_find?_eq_some he
  · cases h

theorem mem_get {c : LruCache K V} {k : K} {e : K × V} (h : e ∈ (c.get k).2.entries) : e ∈ c.entries := by
  unfold get at h
  split at h
  · rename_i found hfound
    rcases List.mem_cons.mp h with rfl | h
    · exact List.mem_of_find?_eq_some hfound
    · exact (mem_without.mp h).1
  · exact h

theorem mem_pop {c : LruCache K V} {k : K} {e : K × V} :
    e ∈ (c.pop k).2.entries ↔ e ∈ c.entries ∧ e.1 ≠ k := mem_without

omit [DecidableEq K] in
theorem mem_popLru {c : LruCache K V} {e : K × V} (h : e ∈ c.popLru.2.entries) : e ∈ c.entries :=
  List.dropLast_subset _ h

theorem mem_put {c : LruCache K V} {k : K} {v : V} {e : K × V} (h : e ∈ (c.put k v).entries) :
    e = (k, v) ∨ e ∈ c.entries ∧ e.1 ≠ k := by
  rcases List.mem_cons.mp h with rfl | h
  · exact .inl rfl
  · right
    apply mem_without.mp
    split at h
    · exact h
    · exact List.dropLast_subset _ h

end LruCache

end Dllb
