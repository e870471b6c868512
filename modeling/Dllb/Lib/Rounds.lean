import Mathlib

/-! # Rounds

A round visits the elements of a list one after the other, and a visit may change
the state. Rounds are made until one of them changes nothing, and no more than a
given number of them. A visit can fail.
-/

namespace Dllb

set_option autoImplicit false

namespace Rounds

variable {α σ : Type}

/-- The state after one round, and whether some visit changed it. -/
def once (visit : α → σ → Option (σ × Bool)) : List α → σ → Option (σ × Bool)
  | [], st => some (st, false)
  | a :: as, st => do
    let (st, now) ← visit a st
    let (st, later) ← once visit as st
    return (st, now || later)

/-- Rounds `n`, `n + 1`, … -/
def run (visit : Nat → α → σ → Option (σ × Bool)) (as : List α) : Nat → Nat → σ → Option σ
  | 0, _, st => some st
  | left + 1, n, st => do
    let (st, changed) ← once (visit n) as st
    if changed then run visit as left (n + 1) st else return st

/-! ## The visits of a run -/

structure Visit (α σ : Type) where
  round : Nat
  element : α
  before : σ
  after : σ
  changed : Bool

/-- A visit, seen through a view of the states. -/
def Visit.map {τ : Type} (f : σ → τ) (v : Visit α σ) : Visit α τ := { v with before := f v.before, after := f v.after }

def onceTrace (visit : α → σ → Option (σ × Bool)) (n : Nat) : List α → σ → List (Visit α σ)
  | [], _ => []
  | a :: as, st =>
    match visit a st with
    | some (st', changed) =>
      { round := n, element := a, before := st, after := st', changed } :: onceTrace visit n as st'
    | none => []

def trace (visit : Nat → α → σ → Option (σ × Bool)) (as : List α) : Nat → Nat → σ → List (Visit α σ)
  | 0, _, _ => []
  | left + 1, n, st =>
    onceTrace (visit n) n as st ++
      match once (visit n) as st with
      | some (st', true) => trace visit as left (n + 1) st'
      | _ => []

/-- The visits lead from one state to the other. -/
inductive Leads (visit : Nat → α → σ → Option (σ × Bool)) (as : List α) : σ → List (Visit α σ) → σ → Prop where
  | nil (st : σ) : Leads visit as st [] st
  | cons {v : Visit α σ} {vs : List (Visit α σ)} {st : σ} (hmem : v.element ∈ as)
      (hvisit : visit v.round v.element v.before = some (v.after, v.changed)) (rest : Leads visit as v.after vs st) :
      Leads visit as v.before (v :: vs) st

variable {visit : Nat → α → σ → Option (σ × Bool)} {as : List α} {st st' : σ} {vs : List (Visit α σ)}

theorem Leads.append {ws : List (Visit α σ)} {st'' : σ} (h : Leads visit as st vs st')
    (h' : Leads visit as st' ws st'') : Leads visit as st (vs ++ ws) st'' := by
  induction h with
  | nil => exact h'
  | cons hmem hvisit _ ih => exact .cons hmem hvisit (ih h')

theorem Leads.visit_eq (h : Leads visit as st vs st') : ∀ v ∈ vs,
    v.element ∈ as ∧ visit v.round v.element v.before = some (v.after, v.changed) := by
  induction h with
  | nil => exact fun v hv => absurd hv List.not_mem_nil
  | cons hmem hvisit _ ih => exact List.forall_mem_cons.mpr ⟨⟨hmem, hvisit⟩, ih⟩

/-- What every visit keeps holds throughout. -/
theorem Leads.keeps {P : σ → Prop} (h : Leads visit as st vs st') (hst : P st)
    (hvisit : ∀ v ∈ vs, P v.before → P v.after) : (∀ v ∈ vs, P v.before ∧ P v.after) ∧ P st' := by
  induction h with
  | nil => exact ⟨fun v hv => absurd hv List.not_mem_nil, hst⟩
  | @cons v vs st' _ _ _ ih =>
    obtain ⟨hhead, hvisit⟩ := List.forall_mem_cons.mp hvisit
    obtain ⟨hrest, hend⟩ := ih (hhead hst) hvisit
    exact ⟨List.forall_mem_cons.mpr ⟨⟨hst, hhead hst⟩, hrest⟩, hend⟩

/-- The states that a run goes through, each one once. -/
def states (st : σ) (vs : List (Visit α σ)) : List σ := st :: (vs.filter Visit.changed).map Visit.after

/-- A measure that every change increases orders the states, and the last one is the result. -/
theorem Leads.ascends {D : Type} [Preorder D] {f : σ → D} (h : Leads visit as st vs st')
    (hstay : ∀ v ∈ vs, v.changed = false → v.after = v.before)
    (hmove : ∀ v ∈ vs, v.changed = true → f v.before < f v.after) :
    (states st vs).Pairwise (fun s t => f s < f t) ∧ (states st vs).getLast? = some st' := by
  induction h with
  | nil st => exact ⟨List.pairwise_singleton _ _, rfl⟩
  | @cons v vs st' _ _ _ ih =>
    obtain ⟨hstay₁, hstay⟩ := List.forall_mem_cons.mp hstay
    obtain ⟨hmove₁, hmove⟩ := List.forall_mem_cons.mp hmove
    obtain ⟨hpair, hlast⟩ := ih hstay hmove
    cases hchanged : v.changed with
    | false =>
      have hsame : states v.before (v :: vs) = states v.after vs := by
        simp [states, hchanged, hstay₁ hchanged]
      rw [hsame]
      exact ⟨hpair, hlast⟩
    | true =>
      have hmore : states v.before (v :: vs) = v.before :: states v.after vs := by simp [states, hchanged]
      have hlt := hmove₁ hchanged
      rw [hmore]
      refine ⟨List.pairwise_cons.mpr ⟨fun t ht => ?_, hpair⟩, ?_⟩
      · obtain rfl | ht := List.mem_cons.mp ht
        · exact hlt
        · exact hlt.trans ((List.pairwise_cons.mp hpair).1 t ht)
      · rw [List.getLast?_cons, hlast]
        rfl

theorem once_leads {n : Nat} {bs : List α} (hbs : bs ⊆ as) {changed : Bool}
    (h : once (visit n) bs st = some (st', changed)) :
    Leads visit as st (onceTrace (visit n) n bs st) st' := by
  induction bs generalizing st changed with
  | nil =>
    cases h
    exact .nil _
  | cons b bs ih =>
    obtain ⟨hb, hbs⟩ := List.cons_subset.mp hbs
    simp only [once, Option.bind_eq_bind, Option.bind_eq_some_iff, Option.pure_def, Option.some.injEq] at h
    obtain ⟨⟨st₁, now⟩, hnow, ⟨st₂, later⟩, hlater, heq⟩ := h
    cases heq
    rw [onceTrace, hnow]
    exact .cons (v := { round := n, element := b, before := st, after := st₁, changed := now }) hb hnow
      (ih hbs hlater)

/-- A run is the visits of its trace. -/
theorem run_leads {left n : Nat} (h : run visit as left n st = some st') :
    Leads visit as st (trace visit as left n st) st' := by
  induction left generalizing n st with
  | zero =>
    cases h
    exact .nil _
  | succ left ih =>
    simp only [run, Option.bind_eq_bind, Option.bind_eq_some_iff] at h
    obtain ⟨⟨st₁, changed⟩, hround, h⟩ := h
    have hfirst := once_leads (fun a ha => ha) hround
    rw [trace, hround]
    cases changed with
    | false =>
      cases h
      simpa using hfirst
    | true => exact hfirst.append (ih h)

/-! ## Rules -/

theorem once_spec {visit : α → σ → Option (σ × Bool)} {P : σ → Prop}
    (hvisit : ∀ a ∈ as, ∀ st, P st → ∃ st' changed, visit a st = some (st', changed) ∧ P st')
    (h : P st) : ∃ st' changed, once visit as st = some (st', changed) ∧ P st' := by
  induction as generalizing st with
  | nil => exact ⟨st, false, rfl, h⟩
  | cons a as ih =>
    obtain ⟨hhead, htail⟩ := List.forall_mem_cons.mp hvisit
    obtain ⟨st₁, now, hnow, h₁⟩ := hhead st h
    obtain ⟨st₂, later, hlater, h₂⟩ := ih htail h₁
    refine ⟨st₂, now || later, ?_, h₂⟩
    simp only [once, hnow, hlater, Option.bind_eq_bind, Option.bind_some, Option.pure_def]

/-- What every visit keeps, the rounds keep. -/
theorem run_spec {P : σ → Prop}
    (hvisit : ∀ n, ∀ a ∈ as, ∀ st, P st → ∃ st' changed, visit n a st = some (st', changed) ∧ P st')
    (left n : Nat) (h : P st) : ∃ st', run visit as left n st = some st' ∧ P st' := by
  induction left generalizing n st with
  | zero => exact ⟨st, rfl, h⟩
  | succ left ih =>
    obtain ⟨st₁, changed, hround, h₁⟩ := once_spec (hvisit n) h
    cases changed with
    | false =>
      refine ⟨st₁, ?_, h₁⟩
      simp [run, hround]
    | true =>
      obtain ⟨st₂, hrest, h₂⟩ := ih (n + 1) h₁
      refine ⟨st₂, ?_, h₂⟩
      simp [run, hround, hrest]

variable {visit' : Nat → α → σ → Option (σ × Bool)}

theorem once_congr {n : Nat} {bs : List α} {result : σ × Bool} (h : once (visit n) bs st = some result)
    (hsame : ∀ v ∈ onceTrace (visit n) n bs st, visit' v.round v.element v.before = some (v.after, v.changed)) :
    once (visit' n) bs st = some result ∧ onceTrace (visit' n) n bs st = onceTrace (visit n) n bs st := by
  induction bs generalizing st result with
  | nil => exact ⟨h, rfl⟩
  | cons b bs ih =>
    simp only [once, Option.bind_eq_bind, Option.bind_eq_some_iff, Option.pure_def, Option.some.injEq] at h
    obtain ⟨⟨st₁, now⟩, hnow, ⟨st₂, later⟩, hlater, rfl⟩ := h
    rw [onceTrace, hnow] at hsame
    obtain ⟨hhead, hsame⟩ := List.forall_mem_cons.mp hsame
    simp only at hhead
    obtain ⟨hrun, htrace⟩ := ih hlater hsame
    constructor
    · simp only [once, hhead, hrun, Option.bind_eq_bind, Option.bind_some, Option.pure_def]
    · simp only [onceTrace, hhead, hnow, htrace]

/-- A run is another one's if each of its visits is. -/
theorem run_congr {left n : Nat} (h : run visit as left n st = some st')
    (hsame : ∀ v ∈ trace visit as left n st, visit' v.round v.element v.before = some (v.after, v.changed)) :
    run visit' as left n st = some st' ∧ trace visit' as left n st = trace visit as left n st := by
  induction left generalizing n st with
  | zero => exact ⟨h, rfl⟩
  | succ left ih =>
    simp only [run, Option.bind_eq_bind, Option.bind_eq_some_iff] at h
    obtain ⟨⟨st₁, changed⟩, hround, h⟩ := h
    rw [trace, hround] at hsame
    obtain ⟨hfirst, hsame⟩ := List.forall_mem_append.mp hsame
    obtain ⟨honce, htrace⟩ := once_congr hround hfirst
    simp only [run, trace, honce, htrace, hround, Option.bind_eq_bind, Option.bind_some]
    cases changed with
    | false => exact ⟨h, rfl⟩
    | true =>
      obtain ⟨hrun, hrest⟩ := ih h hsame
      exact ⟨hrun, congrArg _ hrest⟩

end Rounds

end Dllb
