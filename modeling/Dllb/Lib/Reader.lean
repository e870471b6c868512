import Mathlib.Tactic.Common
import Mathlib.Tactic.Ring
import Dllb.Lib.Bytes

/-! # Readers of binary formats

A reader takes a value off the front of its input. What a writer puts there is
read back whatever follows, and this passes from the parts of a format to the
whole.
-/

namespace Dllb

set_option autoImplicit false

/-! ## Little-endian words -/

/-- The lowest `k` bytes of a number, least significant byte first. -/
def leBytes : Nat → Nat → Bytes
  | 0, _ => []
  | k + 1, n => UInt8.ofNat n :: leBytes k (n / 256)

def leValue : Bytes → Nat
  | [] => 0
  | x :: b => x.toNat + 256 * leValue b

@[simp] theorem length_leBytes (k n : Nat) : (leBytes k n).length = k := by
  induction k generalizing n with
  | zero => rfl
  | succ k ih => rw [leBytes, List.length_cons, ih]

theorem leValue_leBytes {k n : Nat} (h : n < 256 ^ k) : leValue (leBytes k n) = n := by
  induction k generalizing n with
  | zero =>
    rw [pow_zero] at h
    rw [leBytes, leValue]
    omega
  | succ k ih =>
    have hrest : n / 256 < 256 ^ k := by
      rw [pow_succ] at h
      omega
    rw [leBytes, leValue, ih hrest, UInt8.toNat_ofNat']
    omega

def Reader (ε α : Type) := Bytes → Except ε (α × Bytes)

namespace Reader

variable {ε α β : Type}

instance : Monad (Reader ε) where
  pure a := fun b => .ok (a, b)
  bind r f := fun b =>
    match r b with
    | .ok (a, rest) => f a rest
    | .error e => .error e

def fail (e : ε) : Reader ε α := fun _ => .error e

/-- Exactly `n` bytes, or the error. -/
def readExact (n : Nat) (e : ε) : Reader ε Bytes := fun b =>
  if n ≤ b.length then .ok (b.take n, b.drop n) else .error e

def times (n : Nat) (r : Reader ε α) : Reader ε (List α) :=
  match n with
  | 0 => pure []
  | n + 1 => do
    let a ← r
    let rest ← times n r
    return a :: rest

/-- Of the written bytes the reader makes the value, and it leaves what follows. -/
def Reads (r : Reader ε α) (b : Bytes) (a : α) : Prop := ∀ rest, r (b ++ rest) = .ok (a, rest)

theorem reads_pure (a : α) : Reads (pure a : Reader ε α) [] a := fun _ => rfl

theorem Reads.bind {r : Reader ε α} {f : α → Reader ε β} {b b' : Bytes} {a : α} {c : β}
    (h : Reads r b a) (h' : Reads (f a) b' c) : Reads (r >>= f) (b ++ b') c := by
  intro rest
  change (match r (b ++ b' ++ rest) with | .ok (a, rest) => f a rest | .error e => .error e) = _
  rw [List.append_assoc, h]
  exact h' rest

/-- The last reader of a format, and then something that takes no more bytes. -/
theorem Reads.last {r : Reader ε α} {f : α → Reader ε β} {b : Bytes} {a : α} {c : β} (h : Reads r b a)
    (h' : Reads (f a) [] c) : Reads (r >>= f) b c := by
  have hbind := h.bind h'
  rwa [List.append_nil] at hbind

theorem reads_readExact {n : Nat} {b : Bytes} (e : ε) (h : b.length = n) : Reads (readExact n e) b b := by
  intro rest
  have hle : n ≤ (b ++ rest).length := by
    rw [List.length_append]
    omega
  rw [readExact, if_pos hle, List.take_left' h, List.drop_left' h]

theorem reads_times_map {γ : Type} {r : Reader ε α} {w : γ → Bytes} {f : γ → α} {xs : List γ}
    (h : ∀ x ∈ xs, Reads r (w x) (f x)) : Reads (times xs.length r) (xs.flatMap w) (xs.map f) := by
  induction xs with
  | nil => exact reads_pure []
  | cons x xs ih =>
    obtain ⟨hx, hxs⟩ := List.forall_mem_cons.mp h
    rw [List.flatMap_cons, List.length_cons]
    exact hx.bind ((ih hxs).last (reads_pure _))

theorem reads_times {r : Reader ε α} {w : α → Bytes} {as : List α} (h : ∀ a ∈ as, Reads r (w a) a) :
    Reads (times as.length r) (as.flatMap w) as := by
  have hmap := reads_times_map (f := id) h
  rwa [List.map_id] at hmap

/-! ## What a reader has taken -/

/-- The value that the reader returns stood at the front of the input in a form that `G` gives it. -/
def Takes (r : Reader ε α) (G : Bytes → α → Prop) : Prop :=
  ∀ b a rest, r b = .ok (a, rest) → ∃ w, b = w ++ rest ∧ G w a

variable {r : Reader ε α} {G H : Bytes → α → Prop}

theorem Takes.mono (h : Takes r G) (hGH : ∀ w a, G w a → H w a) : Takes r H := by
  intro b a rest hr
  obtain ⟨w, hw, hG⟩ := h b a rest hr
  exact ⟨w, hw, hGH w a hG⟩

theorem takes_pure (a : α) : Takes (pure a : Reader ε α) fun w a' => w = [] ∧ a' = a := by
  rintro b a' rest ⟨⟩
  exact ⟨[], rfl, rfl, rfl⟩

theorem Takes.bind {f : α → Reader ε β} {K : α → Bytes → β → Prop} (h : Takes r G)
    (hf : ∀ a, Takes (f a) (K a)) :
    Takes (r >>= f) fun w c => ∃ a w₁ w₂, w = w₁ ++ w₂ ∧ G w₁ a ∧ K a w₂ c := by
  intro b c rest hbind
  change (match r b with | .ok (a, rest) => f a rest | .error e => .error e) = _ at hbind
  cases hr : r b with
  | error e =>
    rw [hr] at hbind
    cases hbind
  | ok p =>
    rw [hr] at hbind
    obtain ⟨w₁, hb, hG⟩ := h b p.1 p.2 hr
    obtain ⟨w₂, hp, hK⟩ := hf p.1 p.2 c rest hbind
    exact ⟨w₁ ++ w₂, by rw [hb, hp, List.append_assoc], p.1, w₁, w₂, rfl, hG, hK⟩

/-- Of values that were each written from something, a list of them was. -/
theorem Takes.times {γ : Type} {w : γ → Bytes} {f : γ → α} {P : γ → Prop}
    (h : Takes r fun b a => ∃ x, b = w x ∧ f x = a ∧ P x) (n : Nat) :
    Takes (times n r) fun b as => ∃ xs : List γ, b = xs.flatMap w ∧ xs.map f = as ∧ xs.length = n ∧
      ∀ x ∈ xs, P x := by
  induction n with
  | zero =>
    refine (takes_pure []).mono ?_
    rintro b as ⟨rfl, rfl⟩
    exact ⟨[], rfl, rfl, rfl, nofun⟩
  | succ n ih =>
    refine (h.bind fun a => ih.bind fun as => takes_pure (a :: as)).mono ?_
    rintro b as ⟨a, b₁, b₂, rfl, ⟨x, rfl, rfl, hx⟩, as', b₃, b₄, rfl, ⟨xs, rfl, rfl, rfl, hxs⟩, rfl, rfl⟩
    exact ⟨x :: xs, by rw [List.append_nil, List.flatMap_cons], rfl, rfl, List.forall_mem_cons.mpr ⟨hx, hxs⟩⟩

end Reader

end Dllb
