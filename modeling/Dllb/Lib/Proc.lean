import Mathlib.Logic.Basic
import Mathlib.Tactic.Common

/-! # Programs of instructions

An instruction is one atomic step on a shared state. It gives an answer, and it
may have to wait. What a program does is shown by rely and guarantee: between two
of its steps the others only move the state along the rely, and each of its own
steps moves it along the guarantee.
-/

namespace Dllb

set_option autoImplicit false

inductive Proc {ι : Type} (Ans : ι → Type) (ε α : Type) where
  | ret (a : α)
  | fail (e : ε)
  | act (i : ι) (k : Ans i → Proc Ans ε α)

namespace Proc

variable {ι : Type} {Ans : ι → Type} {ε α β σ τ : Type}

def bind : Proc Ans ε α → (α → Proc Ans ε β) → Proc Ans ε β
  | ret a, g => g a
  | fail e, _ => fail e
  | act i k, g => act i fun a => bind (k a) g

instance : Monad (Proc Ans ε) where
  pure := ret
  bind := bind

/-- The program of one instruction. -/
def perform (i : ι) : Proc Ans ε (Ans i) := act i ret

def lift : Except ε α → Proc Ans ε α
  | .ok a => ret a
  | .error e => fail e

/-- Runs the last program whether the first one fails or not. -/
def ensuring : Proc Ans ε α → Proc Ans ε Unit → Proc Ans ε α
  | ret a, last => last.bind fun _ => ret a
  | fail e, last => last.bind fun _ => fail e
  | act i k, last => act i fun a => ensuring (k a) last

/-- What an instruction answers and where it leads; `none` as long as it has to wait. -/
abbrev Machine (Ans : ι → Type) (σ : Type) := (i : ι) → σ → Option (Ans i × σ)

/-! ## Running alone -/

def run (M : Machine Ans σ) : Proc Ans ε α → σ → Option (Except ε α × σ)
  | ret a, s => some (.ok a, s)
  | fail e, s => some (.error e, s)
  | act i k, s => (M i s).bind fun x => run M (k x.1) x.2

/-- The instructions that a run comes to are all allowed. -/
def Along (M : Machine Ans σ) (P : ι → σ → Prop) : Proc Ans ε α → σ → Prop
  | ret _, _ => True
  | fail _, _ => True
  | act i k, s => P i s ∧ ∀ x, M i s = some x → Along M P (k x.1) x.2

instance decidableAlong (M : Machine Ans σ) (P : ι → σ → Prop) [∀ i s, Decidable (P i s)] :
    (p : Proc Ans ε α) → (s : σ) → Decidable (Along M P p s)
  | ret _, _ => isTrue trivial
  | fail _, _ => isTrue trivial
  | act i k, s =>
    match hx : M i s with
    | none => decidable_of_iff (P i s) ⟨fun h => ⟨h, fun x hx' => by cases hx.symm.trans hx'⟩, And.left⟩
    | some x =>
      have := decidableAlong M P (k x.1) x.2
      decidable_of_iff (P i s ∧ Along M P (k x.1) x.2) (and_congr_right fun _ =>
        ⟨fun h y hy => by cases hx.symm.trans hy; exact h, fun h => h x hx⟩)

/-! ## Taking turns -/

/-- One instruction of a program. A finished program, or one that has to wait, stays as it is. -/
def step (M : Machine Ans σ) : Proc Ans ε α → σ → Proc Ans ε α × σ
  | ret a, s => (ret a, s)
  | fail e, s => (fail e, s)
  | act i k, s =>
    match M i s with
    | some x => (k x.1, x.2)
    | none => (act i k, s)

def result : Proc Ans ε α → Option (Except ε α)
  | ret a => some (.ok a)
  | fail e => some (.error e)
  | act _ _ => none

/-- A schedule says at each turn whether the left program moves. -/
def interleave (M N : Machine Ans σ) :
    List Bool → Proc Ans ε α → Proc Ans ε β → σ → Proc Ans ε α × Proc Ans ε β × σ
  | [], p, q, s => (p, q, s)
  | true :: turns, p, q, s => interleave M N turns (step M p s).1 q (step M p s).2
  | false :: turns, p, q, s => interleave M N turns p (step N q s).1 (step N q s).2

/-- The next instruction of a program is allowed. -/
def Next (P : ι → σ → Prop) (p : Proc Ans ε α) (s : σ) : Prop := ∀ i k, p = act i k → P i s

/-- Along the schedule every instruction is allowed when its turn comes: `P` on the left, `Q` on
the right. -/
def AlongBoth (M N : Machine Ans σ) (P Q : ι → σ → Prop) :
    List Bool → Proc Ans ε α → Proc Ans ε β → σ → Prop
  | [], _, _, _ => True
  | true :: turns, p, q, s => Next P p s ∧ AlongBoth M N P Q turns (step M p s).1 q (step M p s).2
  | false :: turns, p, q, s => Next Q q s ∧ AlongBoth M N P Q turns p (step N q s).1 (step N q s).2

/-- What a program runs on, which of its instructions are allowed and which may have to wait, what
it may expect of the others, and what it owes them. -/
structure Setting (Ans : ι → Type) (σ : Type) where
  machine : Machine Ans σ
  allowed : ι → σ → Prop
  waits : ι → σ → Prop
  rely : σ → σ → Prop
  guarantee : σ → σ → Prop

/-- Nothing else runs, so that there is nobody to wait for. -/
def Setting.alone (M : Machine Ans σ) (P : ι → σ → Prop) : Setting Ans σ where
  machine := M
  allowed := P
  waits _ _ := False
  rely := Eq
  guarantee _ _ := True

structure Setting.Ok (E : Setting Ans σ) : Prop where
  refl : ∀ s, E.rely s s
  trans : ∀ {s t u}, E.rely s t → E.rely t u → E.rely s u

/-- As long as its instructions are allowed, the program keeps the guarantee and waits only where it
may, and it ends with `Q`. -/
def Safe (E : Setting Ans σ) (Q : Except ε α → σ → Prop) : Proc Ans ε α → σ → Prop
  | ret a, s => ∀ t, E.rely s t → Q (.ok a) t
  | fail e, s => ∀ t, E.rely s t → Q (.error e) t
  | act i k, s => ∀ t, E.rely s t → E.allowed i t → (E.machine i t = none → E.waits i t) ∧
      ∀ x, E.machine i t = some x → E.guarantee t x.2 ∧ Safe E Q (k x.1) x.2

variable {E : Setting Ans σ} {Q Q' : Except ε α → σ → Prop}

theorem Safe.mono {p : Proc Ans ε α} {s : σ} (h : Safe E Q p s) (hQ : ∀ r t, Q r t → Q' r t) :
    Safe E Q' p s := by
  induction p generalizing s with
  | ret a => exact fun t ht => hQ _ t (h t ht)
  | fail e => exact fun t ht => hQ _ t (h t ht)
  | act i k ih =>
    intro t ht hallowed
    obtain ⟨hwaits, hgoes⟩ := h t ht hallowed
    exact ⟨hwaits, fun x hx => ⟨(hgoes x hx).1, ih x.1 (hgoes x hx).2⟩⟩

/-- What is safe stays so while the others move. -/
theorem Safe.stable (hE : E.Ok) {p : Proc Ans ε α} {s t : σ} (h : Safe E Q p s) (hst : E.rely s t) :
    Safe E Q p t := by
  cases p with
  | ret a => exact fun u hu => h u (hE.trans hst hu)
  | fail e => exact fun u hu => h u (hE.trans hst hu)
  | act i k => exact fun u hu => h u (hE.trans hst hu)

/-- What holds at the end keeps holding while the others move. -/
theorem Safe.settled (hE : E.Ok) {p : Proc Ans ε α} {s : σ} (h : Safe E Q p s) :
    Safe E (fun r t => ∀ u, E.rely t u → Q r u) p s := by
  induction p generalizing s with
  | ret a => exact fun t ht u hu => h u (hE.trans ht hu)
  | fail e => exact fun t ht u hu => h u (hE.trans ht hu)
  | act i k ih =>
    intro t ht hallowed
    obtain ⟨hwaits, hgoes⟩ := h t ht hallowed
    exact ⟨hwaits, fun x hx => ⟨(hgoes x hx).1, ih x.1 (hgoes x hx).2⟩⟩

/-- What neither side destroys is still there at the end. -/
theorem Safe.frame {I : σ → Prop} (hrely : ∀ s t, E.rely s t → I s → I t)
    (hguarantee : ∀ s t, E.guarantee s t → I s → I t) {p : Proc Ans ε α} {s : σ} (h : Safe E Q p s)
    (hs : I s) : Safe E (fun r t => Q r t ∧ I t) p s := by
  induction p generalizing s with
  | ret a => exact fun t ht => ⟨h t ht, hrely s t ht hs⟩
  | fail e => exact fun t ht => ⟨h t ht, hrely s t ht hs⟩
  | act i k ih =>
    intro t ht hallowed
    obtain ⟨hwaits, hgoes⟩ := h t ht hallowed
    refine ⟨hwaits, fun x hx => ⟨(hgoes x hx).1, ih x.1 (hgoes x hx).2 ?_⟩⟩
    exact hguarantee t x.2 (hgoes x hx).1 (hrely s t ht hs)

/-- The answer of the first program is passed on to the second. -/
def Then (E : Setting Ans σ) (Q : Except ε β → σ → Prop) (g : α → Proc Ans ε β) :
    Except ε α → σ → Prop
  | .ok a, s => Safe E Q (g a) s
  | .error e, s => ∀ t, E.rely s t → Q (.error e) t

theorem Safe.bind (hE : E.Ok) {Q : Except ε β → σ → Prop} {p : Proc Ans ε α} {g : α → Proc Ans ε β}
    {s : σ} (h : Safe E (Then E Q g) p s) : Safe E Q (p >>= g) s := by
  change Safe E Q (Proc.bind p g) s
  induction p generalizing s with
  | ret a => exact h s (hE.refl s)
  | fail e => exact h s (hE.refl s)
  | act i k ih =>
    intro t ht hallowed
    obtain ⟨hwaits, hgoes⟩ := h t ht hallowed
    exact ⟨hwaits, fun x hx => ⟨(hgoes x hx).1, ih x.1 (hgoes x hx).2⟩⟩

/-- The first program succeeds, and the second goes on from there. -/
theorem Safe.bind_ok (hE : E.Ok) {Q : Except ε β → σ → Prop} {p : Proc Ans ε α}
    {g : α → Proc Ans ε β} {s : σ} (h : Safe E (fun r t => ∃ a, r = .ok a ∧ Safe E Q (g a) t) p s) :
    Safe E Q (p >>= g) s := by
  refine Safe.bind hE (h.mono fun r t => ?_)
  rintro ⟨a, rfl, hg⟩
  exact hg

/-- The last program succeeds in any case, and what it leaves is what is asked for. -/
theorem Safe.ensuring (hE : E.Ok) {p : Proc Ans ε α} {last : Proc Ans ε Unit} {s : σ}
    (h : Safe E (fun r t => Safe E (fun r' u => r' = .ok () ∧ Q r u) last t) p s) :
    Safe E Q (p.ensuring last) s := by
  induction p generalizing s with
  | ret a =>
    refine Safe.bind hE (((h s (hE.refl s)).settled hE).mono fun r t hr => ?_)
    obtain ⟨rfl, -⟩ := hr t (hE.refl t)
    exact fun u hu => (hr u hu).2
  | fail e =>
    refine Safe.bind hE (((h s (hE.refl s)).settled hE).mono fun r t hr => ?_)
    obtain ⟨rfl, -⟩ := hr t (hE.refl t)
    exact fun u hu => (hr u hu).2
  | act i k ih =>
    intro t ht hallowed
    obtain ⟨hwaits, hgoes⟩ := h t ht hallowed
    exact ⟨hwaits, fun x hx => ⟨(hgoes x hx).1, ih x.1 (hgoes x hx).2⟩⟩

/-! ## What it means for runs -/

theorem Safe.run {M : Machine Ans σ} {P : ι → σ → Prop} {p : Proc Ans ε α} {s : σ}
    (h : Safe (.alone M P) Q p s) (halong : Along M P p s) :
    ∃ r s', run M p s = some (r, s') ∧ Q r s' := by
  induction p generalizing s with
  | ret a => exact ⟨.ok a, s, rfl, h s rfl⟩
  | fail e => exact ⟨.error e, s, rfl, h s rfl⟩
  | act i k ih =>
    obtain ⟨hallowed, halong⟩ := halong
    obtain ⟨hwaits, hgoes⟩ := h s rfl hallowed
    cases hx : M i s with
    | none => exact (hwaits hx).elim
    | some x =>
      obtain ⟨r, s', hrun, hQ⟩ := ih x.1 (hgoes x hx).2 (halong x hx)
      exact ⟨r, s', by rw [Proc.run, hx]; exact hrun, hQ⟩

theorem Safe.step (hE : E.Ok) {p : Proc Ans ε α} {s : σ} (h : Safe E Q p s) (hnext : Next E.allowed p s) :
    Safe E Q (step E.machine p s).1 (step E.machine p s).2 ∧
      (E.guarantee s (step E.machine p s).2 ∨ (step E.machine p s).2 = s) := by
  cases p with
  | ret a => exact ⟨h, .inr rfl⟩
  | fail e => exact ⟨h, .inr rfl⟩
  | act i k =>
    cases hx : E.machine i s with
    | none =>
      simp only [Proc.step, hx]
      exact ⟨h, .inr trivial⟩
    | some x =>
      simp only [Proc.step, hx]
      obtain ⟨hguarantee, hrest⟩ := (h s (hE.refl s) (hnext i k rfl)).2 x hx
      exact ⟨hrest, .inl hguarantee⟩

theorem Safe.result {p : Proc Ans ε α} {s : σ} (hE : E.Ok) (h : Safe E Q p s) {r : Except ε α}
    (hr : result p = some r) : Q r s := by
  cases p with
  | ret a =>
    cases hr
    exact h s (hE.refl s)
  | fail e =>
    cases hr
    exact h s (hE.refl s)
  | act i k => cases hr

/-- Two programs that each rely on what the other guarantees. -/
theorem Safe.interleave {E F : Setting Ans σ} (hE : E.Ok) (hF : F.Ok)
    (hEF : ∀ {s t}, E.guarantee s t → F.rely s t) (hFE : ∀ {s t}, F.guarantee s t → E.rely s t)
    {Q : Except ε α → σ → Prop} {Q' : Except ε β → σ → Prop} (turns : List Bool) {p : Proc Ans ε α}
    {q : Proc Ans ε β} {s : σ} (hp : Safe E Q p s) (hq : Safe F Q' q s)
    (halong : AlongBoth E.machine F.machine E.allowed F.allowed turns p q s) {p' : Proc Ans ε α}
    {q' : Proc Ans ε β} {s' : σ} (hend : Proc.interleave E.machine F.machine turns p q s = (p', q', s')) :
    Safe E Q p' s' ∧ Safe F Q' q' s' := by
  induction turns generalizing p q s with
  | nil =>
    cases hend
    exact ⟨hp, hq⟩
  | cons turn turns ih =>
    cases turn with
    | true =>
      obtain ⟨hnext, halong⟩ := halong
      obtain ⟨hp', hmove⟩ := hp.step hE hnext
      refine ih hp' (hq.stable hF ?_) halong hend
      rcases hmove with hmove | hmove
      · exact hEF hmove
      · rw [hmove]
        exact hF.refl s
    | false =>
      obtain ⟨hnext, halong⟩ := halong
      obtain ⟨hq', hmove⟩ := hq.step hF hnext
      refine ih (hp.stable hE ?_) hq' halong hend
      rcases hmove with hmove | hmove
      · exact hFE hmove
      · rw [hmove]
        exact hE.refl s

/-! ## Ghost state -/

/-- `M'` is `M` with more state to look at, which no answer depends on. -/
def Instruments (π : τ → σ) (M' : Machine Ans τ) (M : Machine Ans σ) : Prop :=
  ∀ i t, (M' i t).map (fun x => (x.1, π x.2)) = M i (π t)

theorem Instruments.step {π : τ → σ} {M' : Machine Ans τ} {M : Machine Ans σ} (h : Instruments π M' M)
    (p : Proc Ans ε α) (t : τ) :
    Proc.step M p (π t) = ((Proc.step M' p t).1, π (Proc.step M' p t).2) := by
  cases p with
  | ret a => rfl
  | fail e => rfl
  | act i k =>
    simp only [Proc.step, ← h i t]
    cases M' i t <;> rfl

theorem Instruments.interleave {π : τ → σ} {M' N' : Machine Ans τ} {M N : Machine Ans σ}
    (hM : Instruments π M' M) (hN : Instruments π N' N) (turns : List Bool) (p : Proc Ans ε α)
    (q : Proc Ans ε β) (t : τ) :
    Proc.interleave M N turns p q (π t) =
      ((Proc.interleave M' N' turns p q t).1, (Proc.interleave M' N' turns p q t).2.1,
        π (Proc.interleave M' N' turns p q t).2.2) := by
  induction turns generalizing p q t with
  | nil => rfl
  | cons turn turns ih =>
    cases turn with
    | true => simp only [Proc.interleave, hM.step, ih]
    | false => simp only [Proc.interleave, hN.step, ih]

end Proc

end Dllb
