import Mathlib.Logic.Basic
import Mathlib.Tactic.Common

/-! # Programs made of atomic transactions

A program over a shared state reads the whole state in one transaction or
replaces it in one transaction. Run alone it is a state transformer; two
programs run side by side take turns, one transaction at a time.
-/

namespace Dllb

set_option autoImplicit false

inductive Prog (σ ε α : Type) where
  | ret (a : α)
  | fail (e : ε)
  | read (k : σ → Prog σ ε α)
  | write (f : σ → σ) (k : Prog σ ε α)

namespace Prog

variable {σ ε α β : Type}

def bind : Prog σ ε α → (α → Prog σ ε β) → Prog σ ε β
  | ret a, g => g a
  | fail e, _ => fail e
  | read k, g => read fun s => bind (k s) g
  | write f k, g => write f (bind k g)

instance : Monad (Prog σ ε) where
  pure := ret
  bind := bind

/-- One read transaction answering `f`. -/
def query (f : σ → α) : Prog σ ε α := read fun s => ret (f s)

/-- One write transaction. -/
def commit (f : σ → σ) : Prog σ ε Unit := write f (ret ())

def lift : Except ε α → Prog σ ε α
  | .ok a => ret a
  | .error e => fail e

/-! ## Running alone -/

def run : Prog σ ε α → σ → Except ε α × σ
  | ret a, s => (.ok a, s)
  | fail e, s => (.error e, s)
  | read k, s => run (k s) s
  | write f k, s => run k (f s)

@[simp] theorem run_ret (a : α) (s : σ) : run (ret a : Prog σ ε α) s = (.ok a, s) := rfl

@[simp] theorem run_pure (a : α) (s : σ) : run (pure a : Prog σ ε α) s = (.ok a, s) := rfl

@[simp] theorem run_fail (e : ε) (s : σ) : run (fail e : Prog σ ε α) s = (.error e, s) := rfl

@[simp] theorem run_query (f : σ → α) (s : σ) : run (query f : Prog σ ε α) s = (.ok (f s), s) := rfl

@[simp] theorem run_commit (f : σ → σ) (s : σ) : run (commit f : Prog σ ε Unit) s = (.ok (), f s) := rfl

@[simp] theorem run_lift (x : Except ε α) (s : σ) : run (lift x : Prog σ ε α) s = (x, s) := by
  cases x <;> rfl

theorem run_bind (p : Prog σ ε α) (g : α → Prog σ ε β) (s : σ) :
    run (p >>= g) s =
      match run p s with
      | (.ok a, s') => run (g a) s'
      | (.error e, s') => (.error e, s') := by
  change run (bind p g) s = _
  induction p generalizing s with
  | ret a => rfl
  | fail e => rfl
  | read k ih => exact ih s s
  | write f k ih => exact ih (f s)

theorem run_bind_ok {p : Prog σ ε α} {g : α → Prog σ ε β} {s s' : σ} {a : α}
    (h : run p s = (.ok a, s')) : run (p >>= g) s = run (g a) s' := by
  rw [run_bind, h]

theorem run_bind_error {p : Prog σ ε α} {g : α → Prog σ ε β} {s s' : σ} {e : ε}
    (h : run p s = (.error e, s')) : run (p >>= g) s = (.error e, s') := by
  rw [run_bind, h]

/-- A run of a sequence fails in its first program or passes the answer on to the second. -/
theorem run_bind_cases {p : Prog σ ε α} {g : α → Prog σ ε β} {s s' : σ} {r : Except ε β}
    (h : run (p >>= g) s = (r, s')) :
    (∃ e, run p s = (.error e, s') ∧ r = .error e) ∨
      ∃ a s₁, run p s = (.ok a, s₁) ∧ run (g a) s₁ = (r, s') := by
  rw [run_bind] at h
  rcases hp : run p s with ⟨x | a, s₁⟩
  · rw [hp] at h
    cases h
    exact .inl ⟨x, rfl, rfl⟩
  · rw [hp] at h
    exact .inr ⟨a, s₁, rfl, h⟩

@[simp] theorem run_query_bind (f : σ → α) (g : α → Prog σ ε β) (s : σ) :
    run (query f >>= g) s = run (g (f s)) s := rfl

@[simp] theorem run_commit_bind (f : σ → σ) (g : Unit → Prog σ ε β) (s : σ) :
    run (commit f >>= g) s = run (g ()) (f s) := rfl

@[simp] theorem run_lift_ok_bind (a : α) (g : α → Prog σ ε β) (s : σ) :
    run (lift (.ok a) >>= g) s = run (g a) s := rfl

@[simp] theorem run_lift_error_bind (e : ε) (g : α → Prog σ ε β) (s : σ) :
    run (lift (.error e) >>= g) s = (.error e, s) := rfl

/-! ## Programs that only read, and programs whose single write is their last transaction -/

def ReadOnly : Prog σ ε α → Prop
  | ret _ => True
  | fail _ => True
  | read k => ∀ s, ReadOnly (k s)
  | write _ _ => False

theorem ReadOnly.run_snd {p : Prog σ ε α} (h : ReadOnly p) (s : σ) : (run p s).2 = s := by
  induction p with
  | ret a => rfl
  | fail e => rfl
  | read k ih => exact ih s (h s)
  | write f k => exact h.elim

theorem ReadOnly.run_eq {p : Prog σ ε α} (h : ReadOnly p) (s : σ) : run p s = ((run p s).1, s) :=
  Prod.ext rfl (h.run_snd s)

theorem ReadOnly.run_bind_cases {p : Prog σ ε α} (hp : ReadOnly p) {g : α → Prog σ ε β} {s s' : σ}
    {r : Except ε β} (h : run (p >>= g) s = (r, s')) :
    (∃ e, run p s = (.error e, s) ∧ r = .error e ∧ s' = s) ∨
      ∃ a, run p s = (.ok a, s) ∧ run (g a) s = (r, s') := by
  have hs := hp.run_snd s
  rcases Prog.run_bind_cases h with ⟨e, he, hr⟩ | ⟨a, s₁, ha, hg⟩
  · rw [he] at hs
    subst hs
    exact .inl ⟨e, he, hr, rfl⟩
  · rw [ha] at hs
    subst hs
    exact .inr ⟨a, ha, hg⟩

theorem ReadOnly.bind {p : Prog σ ε α} {g : α → Prog σ ε β} (hp : ReadOnly p)
    (hg : ∀ a, ReadOnly (g a)) : ReadOnly (p >>= g) := by
  change ReadOnly (Prog.bind p g)
  induction p with
  | ret a => exact hg a
  | fail e => trivial
  | read k ih => exact fun s => ih s (hp s)
  | write f k => exact hp.elim

theorem readOnly_query (f : σ → α) : ReadOnly (query f : Prog σ ε α) := fun _ => trivial

theorem readOnly_lift (x : Except ε α) : ReadOnly (lift x : Prog σ ε α) := by
  cases x <;> trivial

/-- Every write transaction relates the state it finds to the one it leaves. -/
def Keeps (R : σ → σ → Prop) : Prog σ ε α → Prop
  | ret _ => True
  | fail _ => True
  | read k => ∀ s, Keeps R (k s)
  | write f k => (∀ s, R s (f s)) ∧ Keeps R k

theorem ReadOnly.keeps {p : Prog σ ε α} (h : ReadOnly p) (R : σ → σ → Prop) : Keeps R p := by
  induction p with
  | ret a => trivial
  | fail e => trivial
  | read k ih => exact fun s => ih s (h s)
  | write f k => exact h.elim

theorem Keeps.bind {R : σ → σ → Prop} {p : Prog σ ε α} {g : α → Prog σ ε β} (hp : Keeps R p)
    (hg : ∀ a, Keeps R (g a)) : Keeps R (p >>= g) := by
  change Keeps R (Prog.bind p g)
  induction p with
  | ret a => exact hg a
  | fail e => trivial
  | read k ih => exact fun s => ih s (hp s)
  | write f k ih => exact ⟨hp.1, ih hp.2⟩

/-- Every answer the program can give meets `Q`. -/
def Returns (Q : α → Prop) : Prog σ ε α → Prop
  | ret a => Q a
  | fail _ => True
  | read k => ∀ s, Returns Q (k s)
  | write _ k => Returns Q k

theorem returns_true (p : Prog σ ε α) : Returns (fun _ => True) p := by
  induction p with
  | ret a => trivial
  | fail e => trivial
  | read k ih => exact ih
  | write f k ih => exact ih

theorem returns_lift {Q : α → Prop} {x : Except ε α} (h : ∀ a, x = .ok a → Q a) :
    Returns Q (lift x : Prog σ ε α) := by
  cases x with
  | ok a => exact h a rfl
  | error e => trivial

theorem Returns.bind {Q : α → Prop} {Q' : β → Prop} {p : Prog σ ε α} {g : α → Prog σ ε β}
    (hp : Returns Q p) (hg : ∀ a, Q a → Returns Q' (g a)) : Returns Q' (p >>= g) := by
  change Returns Q' (Prog.bind p g)
  induction p with
  | ret a => exact hg a hp
  | fail e => trivial
  | read k ih => exact fun s => ih s (hp s)
  | write f k ih => exact ih hp

theorem returns_bind {Q : β → Prop} (p : Prog σ ε α) {g : α → Prog σ ε β} (hg : ∀ a, Returns Q (g a)) :
    Returns Q (p >>= g) :=
  (returns_true p).bind fun a _ => hg a

theorem Returns.run {Q : α → Prop} {p : Prog σ ε α} (h : Returns Q p) {s s' : σ} {a : α}
    (hrun : run p s = (.ok a, s')) : Q a := by
  induction p generalizing s with
  | ret b =>
    cases hrun
    exact h
  | fail e => cases hrun
  | read k ih => exact ih s (h s) hrun
  | write f k ih => exact ih h hrun

theorem Keeps.bind_returns {R : σ → σ → Prop} {Q : α → Prop} {p : Prog σ ε α} {g : α → Prog σ ε β}
    (hp : Keeps R p) (hQ : Returns Q p) (hg : ∀ a, Q a → Keeps R (g a)) : Keeps R (p >>= g) := by
  change Keeps R (Prog.bind p g)
  induction p with
  | ret a => exact hg a hQ
  | fail e => trivial
  | read k ih => exact fun s => ih s (hp s) (hQ s)
  | write f k ih => exact ⟨hp.1, ih hp.2 hQ⟩

theorem keeps_commit {R : σ → σ → Prop} {f : σ → σ} (h : ∀ s, R s (f s)) :
    Keeps R (commit f : Prog σ ε Unit) := ⟨h, trivial⟩

theorem Keeps.run {R : σ → σ → Prop} (hrefl : ∀ s, R s s) (htrans : ∀ {a b c}, R a b → R b c → R a c)
    {p : Prog σ ε α} (h : Keeps R p) (s : σ) : R s (Prog.run p s).2 := by
  induction p generalizing s with
  | ret a => exact hrefl s
  | fail e => exact hrefl s
  | read k ih => exact ih s (h s) s
  | write f k ih => exact htrans (h.1 s) (ih h.2 (f s))

def Finished : Prog σ ε α → Prop
  | ret _ => True
  | fail _ => True
  | _ => False

/-- The only write, if any, is followed by the answer. -/
def WritesLast : Prog σ ε α → Prop
  | ret _ => True
  | fail _ => True
  | read k => ∀ s, WritesLast (k s)
  | write _ k => ∃ a, k = ret a

theorem ReadOnly.writesLast {p : Prog σ ε α} (h : ReadOnly p) : WritesLast p := by
  induction p with
  | ret a => trivial
  | fail e => trivial
  | read k ih => exact fun s => ih s (h s)
  | write f k => exact h.elim

theorem ReadOnly.writesLast_bind {p : Prog σ ε α} {g : α → Prog σ ε β} (hp : ReadOnly p)
    (hg : ∀ a, WritesLast (g a)) : WritesLast (p >>= g) := by
  change WritesLast (Prog.bind p g)
  induction p with
  | ret a => exact hg a
  | fail e => trivial
  | read k ih => exact fun s => ih s (hp s)
  | write f k => exact hp.elim

theorem writesLast_bind_ret {p : Prog σ ε α} (hp : WritesLast p) (g : α → β) :
    WritesLast (p >>= fun a => (ret (g a) : Prog σ ε β)) := by
  change WritesLast (Prog.bind p _)
  induction p with
  | ret a => trivial
  | fail e => trivial
  | read k ih => exact fun s => ih s (hp s)
  | write f k =>
    obtain ⟨a, rfl⟩ := hp
    exact ⟨g a, rfl⟩

theorem writesLast_commit (f : σ → σ) : WritesLast (commit f : Prog σ ε Unit) := ⟨(), rfl⟩

/-- A run that fails has written nothing. -/
theorem WritesLast.run_error {p : Prog σ ε α} (h : WritesLast p) {s s' : σ} {e : ε}
    (hrun : run p s = (.error e, s')) : s' = s := by
  induction p with
  | ret a => cases hrun
  | fail e =>
    cases hrun
    rfl
  | read k ih => exact ih s (h s) hrun
  | write f k =>
    obtain ⟨a, rfl⟩ := h
    cases hrun

/-! ## Two programs taking turns -/

/-- One transaction of a program; a finished program stays as it is. -/
def step : Prog σ ε α → σ → Prog σ ε α × σ
  | ret a, s => (ret a, s)
  | fail e, s => (fail e, s)
  | read k, s => (k s, s)
  | write f k, s => (k, f s)

/-- A schedule says at each turn whether the left program moves. -/
def interleave : List Bool → Prog σ ε α → Prog σ ε β → σ → Prog σ ε α × Prog σ ε β × σ
  | [], p, q, s => (p, q, s)
  | true :: turns, p, q, s => interleave turns (step p s).1 q (step p s).2
  | false :: turns, p, q, s => interleave turns p (step q s).1 (step q s).2

def result : Prog σ ε α → Option (Except ε α)
  | ret a => some (.ok a)
  | fail e => some (.error e)
  | _ => none

/-- `p` run on the constant state `s` comes by read transactions to `p'`. -/
inductive Replays (s : σ) : Prog σ ε α → Prog σ ε α → Prop
  | refl (p : Prog σ ε α) : Replays s p p
  | read {k : σ → Prog σ ε α} {p : Prog σ ε α} (h : Replays s (k s) p) : Replays s (.read k) p

/-- A write leaves the other program undisturbed when that program has finished, or would have
come to the same point had it read the new state from its start. -/
def Undisturbed (p₀ p : Prog σ ε α) (s : σ) : Prop := Finished p ∨ Replays s p₀ p

/-- Along the schedule every write leaves the other program undisturbed. -/
def Clean (p₀ : Prog σ ε α) (q₀ : Prog σ ε β) :
    List Bool → Prog σ ε α → Prog σ ε β → σ → Prop
  | [], _, _, _ => True
  | true :: turns, p, q, s =>
    (∀ f k, p = .write f k → Undisturbed q₀ q (f s)) ∧
      Clean p₀ q₀ turns (step p s).1 q (step p s).2
  | false :: turns, p, q, s =>
    (∀ f k, q = .write f k → Undisturbed p₀ p (f s)) ∧
      Clean p₀ q₀ turns p (step q s).1 (step q s).2

/-- The outcome of running the two programs one after the other, in one of the two orders. -/
def Serial (p : Prog σ ε α) (q : Prog σ ε β) (s : σ)
    (a : Except ε α) (b : Except ε β) (s' : σ) : Prop :=
  (∃ s₁, run p s = (a, s₁) ∧ run q s₁ = (b, s')) ∨ (∃ s₁, run q s = (b, s₁) ∧ run p s₁ = (a, s'))

theorem Replays.run_eq {s : σ} {p p' : Prog σ ε α} (h : Replays s p p') : run p s = run p' s := by
  induction h with
  | refl => rfl
  | read _ ih => exact ih

theorem Replays.step {s : σ} {p : Prog σ ε α} {k : σ → Prog σ ε α} (h : Replays s p (.read k)) :
    Replays s p (k s) := by
  generalize hq : Prog.read k = q at h
  induction h with
  | refl p =>
    subst hq
    exact .read (.refl _)
  | read _ ih => exact .read (ih hq)

theorem ReadOnly.replays_bind {p : Prog σ ε α} (hp : ReadOnly p) {g : α → Prog σ ε β} {s s' : σ} {a : α}
    (h : run p s = (.ok a, s')) : Replays s (p >>= g) (g a) := by
  change Replays s (Prog.bind p g) (g a)
  induction p with
  | ret a =>
    cases h
    exact .refl _
  | fail e => cases h
  | read k ih => exact .read (ih s (hp s) h)
  | write f k => exact hp.elim

theorem run_step (p : Prog σ ε α) (s : σ) : run (step p s).1 (step p s).2 = run p s := by
  cases p <;> rfl

theorem Finished.step_eq {p : Prog σ ε α} (h : Finished p) (s : σ) : step p s = (p, s) := by
  cases p <;> first | rfl | exact h.elim

theorem Finished.run_snd {p : Prog σ ε α} (h : Finished p) (s : σ) : (run p s).2 = s := by
  cases p <;> first | rfl | exact h.elim

theorem Finished.run_fst {p : Prog σ ε α} (h : Finished p) (s s' : σ) : (run p s).1 = (run p s').1 := by
  cases p <;> first | rfl | exact h.elim

theorem run_of_result {p : Prog σ ε α} {a : Except ε α} (h : result p = some a) (s : σ) :
    run p s = (a, s) := by
  cases p with
  | ret _ => cases h; rfl
  | fail _ => cases h; rfl
  | read _ => cases h
  | write _ _ => cases h

/-- Beside a finished program the other one runs alone. -/
theorem run_interleave_of_left_finished (turns : List Bool) {p : Prog σ ε α} (hp : Finished p)
    (q : Prog σ ε β) (s : σ) :
    (interleave turns p q s).1 = p ∧
      run (interleave turns p q s).2.1 (interleave turns p q s).2.2 = run q s := by
  induction turns generalizing q s with
  | nil => exact ⟨rfl, rfl⟩
  | cons turn turns ih =>
    cases turn with
    | true =>
      simp only [interleave, hp.step_eq]
      exact ih q s
    | false =>
      simp only [interleave]
      rw [← run_step q s]
      exact ih _ _

theorem run_interleave_of_right_finished (turns : List Bool) (p : Prog σ ε α)
    {q : Prog σ ε β} (hq : Finished q) (s : σ) :
    (interleave turns p q s).2.1 = q ∧
      run (interleave turns p q s).1 (interleave turns p q s).2.2 = run p s := by
  induction turns generalizing p s with
  | nil => exact ⟨rfl, rfl⟩
  | cons turn turns ih =>
    cases turn with
    | true =>
      simp only [interleave]
      rw [← run_step p s]
      exact ih _ _
    | false =>
      simp only [interleave, hq.step_eq]
      exact ih p s

/-- What holds once one of the programs has committed: the other, if undisturbed, ran wholly
before or runs wholly after the commit. -/
theorem run_of_undisturbed {q₀ q : Prog σ ε β} {s s₁ s' : σ} {b : Except ε β}
    (hq : Replays s q₀ q) (hu : Undisturbed q₀ q s₁) (hrun : run q s₁ = (b, s')) :
    run q₀ s₁ = (b, s') ∨ run q₀ s = (b, s) ∧ s' = s₁ := by
  rcases hu with hfin | hrep
  · right
    have hs : s' = s₁ := (congrArg Prod.snd hrun).symm.trans (hfin.run_snd s₁)
    have hb : (run q s).1 = b := (hfin.run_fst s s₁).trans (congrArg Prod.fst hrun)
    exact ⟨hq.run_eq.trans (Prod.ext hb (hfin.run_snd s)), hs⟩
  · left
    rw [hrep.run_eq, hrun]

/-! ## The states on which a program commits -/

/-- If the program, run on `s`, comes to a write, then `P s`. -/
def OnCommit (P : σ → Prop) (p : Prog σ ε α) (s : σ) : Prop :=
  ∀ f k, Replays s p (.write f k) → P s

/-- Along the schedule the left program commits on states with `P` only. -/
def CommitsOn (P : σ → Prop) : List Bool → Prog σ ε α → Prog σ ε β → σ → Prop
  | [], _, _, _ => True
  | true :: turns, p, q, s =>
    (∀ f k, p = .write f k → P s) ∧ CommitsOn P turns (step p s).1 q (step p s).2
  | false :: turns, p, q, s => CommitsOn P turns p (step q s).1 (step q s).2

theorem commitsOn_true (turns : List Bool) (p : Prog σ ε α) (q : Prog σ ε β) (s : σ) :
    CommitsOn (fun _ => True) turns p q s := by
  induction turns generalizing p q s with
  | nil => trivial
  | cons turn turns ih =>
    cases turn with
    | true => exact ⟨fun _ _ _ => trivial, ih _ _ _⟩
    | false => exact ih _ _ _

theorem Replays.comparable {s : σ} {p p' : Prog σ ε α} (h : Replays s p p') {f : σ → σ}
    {k : Prog σ ε α} (hw : Replays s p (.write f k)) : Replays s p' (.write f k) := by
  induction h with
  | refl => exact hw
  | read _ ih =>
    cases hw with
    | read hw => exact ih hw

theorem Finished.not_replays_write {s : σ} {p : Prog σ ε α} (h : Finished p) {f : σ → σ}
    {k : Prog σ ε α} : ¬ Replays s p (.write f k) := by
  intro hw
  cases hw <;> exact h

/-- Beside a finished program, the left one commits on the state it finds. -/
theorem CommitsOn.onCommit {P : σ → Prop} {turns : List Bool} {p : Prog σ ε α} {q : Prog σ ε β} {s : σ}
    (h : CommitsOn P turns p q s) (hq : Finished q) {a : Except ε α}
    (ha : result (interleave turns p q s).1 = some a) : OnCommit P p s := by
  induction turns generalizing p with
  | nil =>
    intro f k hw
    cases hw <;> cases ha
  | cons turn turns ih =>
    cases turn with
    | true =>
      intro f k hw
      cases hw with
      | refl => exact h.1 f k rfl
      | read hw => exact ih h.2 ha f k hw
    | false =>
      rw [CommitsOn, hq.step_eq] at h
      rw [interleave, hq.step_eq] at ha
      exact ih h ha

/-- Programs whose write comes last and that no commit disturbs end as in one of the two orders, and
in that order the left one commits on a state with `P`. -/
theorem serial_of_clean_commitsOn {P : σ → Prop} {p₀ : Prog σ ε α} {q₀ : Prog σ ε β} (turns : List Bool)
    {p : Prog σ ε α} {q : Prog σ ε β} {s : σ} (hp : Replays s p₀ p) (hq : Replays s q₀ q)
    (wp : WritesLast p) (wq : WritesLast q) (hclean : Clean p₀ q₀ turns p q s)
    (hon : CommitsOn P turns p q s)
    {a : Except ε α} {b : Except ε β} (ha : result (interleave turns p q s).1 = some a)
    (hb : result (interleave turns p q s).2.1 = some b) :
    (∃ s₁, run p₀ s = (a, s₁) ∧ OnCommit P p₀ s ∧ run q₀ s₁ = (b, (interleave turns p q s).2.2)) ∨
      ∃ s₁, run q₀ s = (b, s₁) ∧ run p₀ s₁ = (a, (interleave turns p q s).2.2) ∧ OnCommit P p₀ s₁ := by
  induction turns generalizing p q with
  | nil =>
    refine .inl ⟨s, hp.run_eq.trans (run_of_result ha s), ?_, hq.run_eq.trans (run_of_result hb s)⟩
    intro f k hw
    cases hp.comparable hw <;> cases ha
  | cons turn turns ih =>
    cases turn with
    | true =>
      obtain ⟨hw, hclean⟩ := hclean
      obtain ⟨hPs, hon⟩ := hon
      cases p with
      | ret x => exact ih hp hq wp wq hclean hon ha hb
      | fail e => exact ih hp hq wp wq hclean hon ha hb
      | read k => exact ih hp.step hq (wp s) wq hclean hon ha hb
      | write f k =>
        -- The left program commits; from here on it is finished and the right one runs alone.
        simp only [interleave, step] at ha hb ⊢
        have hfin : Finished k := by
          obtain ⟨x, rfl⟩ := wp
          trivial
        obtain ⟨hk, hrun⟩ := run_interleave_of_left_finished turns hfin q (f s)
        rw [hk] at ha
        rw [run_of_result hb] at hrun
        have hpa : run p₀ s = (a, f s) := hp.run_eq.trans (run_of_result ha (f s))
        have hP : OnCommit P p₀ s := fun _ _ _ => hPs f k rfl
        rcases run_of_undisturbed hq (hw f k rfl) hrun.symm with hq₁ | ⟨hq₁, hs⟩
        · exact .inl ⟨f s, hpa, hP, hq₁⟩
        · exact .inr ⟨s, hq₁, hpa.trans (by rw [hs]), hP⟩
    | false =>
      obtain ⟨hw, hclean⟩ := hclean
      cases q with
      | ret x => exact ih hp hq wp wq hclean hon ha hb
      | fail e => exact ih hp hq wp wq hclean hon ha hb
      | read k => exact ih hp hq.step wp (wq s) hclean hon ha hb
      | write f k =>
        simp only [interleave, step] at ha hb ⊢
        have hfin : Finished k := by
          obtain ⟨x, rfl⟩ := wq
          trivial
        obtain ⟨hk, hrun⟩ := run_interleave_of_right_finished turns p hfin (f s)
        have hP : OnCommit P p (f s) := CommitsOn.onCommit hon hfin ha
        rw [hk] at hb
        rw [run_of_result ha] at hrun
        have hqb : run q₀ s = (b, f s) := hq.run_eq.trans (run_of_result hb (f s))
        rcases hw f k rfl with hpfin | hrep
        · have hs : (interleave turns p k (f s)).2.2 = f s :=
            (congrArg Prod.snd hrun).trans (hpfin.run_snd (f s))
          have hpa : (run p s).1 = a := (hpfin.run_fst s (f s)).trans (congrArg Prod.fst hrun).symm
          refine .inl ⟨s, hp.run_eq.trans (Prod.ext hpa (hpfin.run_snd s)), ?_, hqb.trans (by rw [hs])⟩
          intro f' k' hw'
          exact absurd (hp.comparable hw') hpfin.not_replays_write
        · refine .inr ⟨f s, hqb, hrep.run_eq.trans hrun.symm, ?_⟩
          intro f' k' hw'
          exact hP f' k' (hrep.comparable hw')

/-- Programs whose write comes last and that no commit disturbs end as in one of the two orders. -/
theorem serial_of_clean {p₀ : Prog σ ε α} {q₀ : Prog σ ε β} (turns : List Bool)
    {p : Prog σ ε α} {q : Prog σ ε β} {s : σ} (hp : Replays s p₀ p) (hq : Replays s q₀ q)
    (wp : WritesLast p) (wq : WritesLast q) (hclean : Clean p₀ q₀ turns p q s)
    {a : Except ε α} {b : Except ε β} (ha : result (interleave turns p q s).1 = some a)
    (hb : result (interleave turns p q s).2.1 = some b) :
    Serial p₀ q₀ s a b (interleave turns p q s).2.2 := by
  rcases serial_of_clean_commitsOn turns hp hq wp wq hclean (commitsOn_true turns p q s) ha hb with
    ⟨s₁, hp₁, _, hq₁⟩ | ⟨s₁, hq₁, hp₁, _⟩
  · exact .inl ⟨s₁, hp₁, hq₁⟩
  · exact .inr ⟨s₁, hq₁, hp₁⟩

end Prog

end Dllb
