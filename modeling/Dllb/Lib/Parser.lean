import Mathlib.Tactic.Common

/-! # Parsers over tokens

A parser takes a value off the front of a list of tokens, and may look at the
next token before it decides. A loop has as many turns, and a recursion as many
levels, as there are tokens: every one of them takes a token first.
-/

namespace Dllb

set_option autoImplicit false

def Parser (τ ε α : Type) := List τ → Except ε (α × List τ)

namespace Parser

variable {τ ε α β σ : Type}

instance : Monad (Parser τ ε) where
  pure a := fun ts => .ok (a, ts)
  bind p f := fun ts =>
    match p ts with
    | .ok (a, rest) => f a rest
    | .error e => .error e

def fail (e : ε) : Parser τ ε α := fun _ => .error e

/-- The next token, left where it is. -/
def peek : Parser τ ε (Option τ) := fun ts => .ok (ts.head?, ts)

def skip : Parser τ ε Unit := fun ts => .ok ((), ts.tail)

@[simp] theorem pure_apply (a : α) (ts : List τ) : (pure a : Parser τ ε α) ts = .ok (a, ts) := rfl

@[simp] theorem peek_apply (ts : List τ) : (peek : Parser τ ε (Option τ)) ts = .ok (ts.head?, ts) := rfl

@[simp] theorem skip_apply (t : τ) (ts : List τ) : (skip : Parser τ ε Unit) (t :: ts) = .ok ((), ts) := rfl

theorem bind_ok {p : Parser τ ε α} {f : α → Parser τ ε β} {ts rest : List τ} {a : α} (h : p ts = .ok (a, rest)) :
    (p >>= f) ts = f a rest := by
  change (match p ts with | .ok (a, rest) => f a rest | .error e => .error e) = _
  rw [h]

@[simp] theorem bind_apply (p : Parser τ ε α) (f : α → Parser τ ε β) (ts : List τ) :
    (p >>= f) ts = match p ts with
      | .ok (a, rest) => f a rest
      | .error e => .error e := rfl

theorem bind_eq_ok {p : Parser τ ε α} {f : α → Parser τ ε β} {ts rest : List τ} {b : β} :
    (p >>= f) ts = .ok (b, rest) ↔ ∃ a ts', p ts = .ok (a, ts') ∧ f a ts' = .ok (b, rest) := by
  constructor
  · intro h
    cases hp : p ts with
    | error e =>
      rw [bind_apply, hp] at h
      cases h
    | ok r =>
      obtain ⟨a, ts'⟩ := r
      rw [bind_ok hp] at h
      exact ⟨a, ts', rfl, h⟩
  · rintro ⟨a, ts', hp, hf⟩
    rw [bind_ok hp, hf]

/-! ## Recursion -/

def fixAt (tooDeep : ε) (body : Parser τ ε α → Parser τ ε α) : Nat → Parser τ ε α
  | 0 => fail tooDeep
  | n + 1 => body (fixAt tooDeep body n)

/-- A parser that calls itself. -/
def fix (tooDeep : ε) (body : Parser τ ε α → Parser τ ε α) : Parser τ ε α :=
  fun ts => fixAt tooDeep body (ts.length + 1) ts

/-! ## Loops -/

def iterateAt (step : σ → Parser τ ε (Option σ)) : Nat → σ → Parser τ ε σ
  | 0, s => pure s
  | n + 1, s => do
    match ← step s with
    | some s => iterateAt step n s
    | none => return s

/-- Turns of `step` until it stops. -/
def iterate (step : σ → Parser τ ε (Option σ)) (s : σ) : Parser τ ε σ :=
  fun ts => iterateAt step (ts.length + 1) s ts

/-- From `s` at `ts`, turns of `step` come to `s'` at `ts'` and stop there. -/
inductive Turns (step : σ → Parser τ ε (Option σ)) : σ → List τ → σ → List τ → Prop
  | stop {s : σ} {ts rest : List τ} (h : step s ts = .ok (none, rest)) : Turns step s ts s rest
  | next {s s' s'' : σ} {ts ts' rest : List τ} (h : step s ts = .ok (some s', ts')) (hLess : ts'.length < ts.length)
      (hTurns : Turns step s' ts' s'' rest) : Turns step s ts s'' rest

theorem iterateAt_of_turns {step : σ → Parser τ ε (Option σ)} {s s' : σ} {ts rest : List τ}
    (h : Turns step s ts s' rest) {n : Nat} (hn : ts.length < n) : iterateAt step n s ts = .ok (s', rest) := by
  induction h generalizing n with
  | stop h =>
    obtain ⟨n, rfl⟩ := Nat.exists_eq_add_of_lt hn
    exact bind_ok h
  | next h hLess _ ih =>
    obtain ⟨n, rfl⟩ := Nat.exists_eq_add_of_lt hn
    exact (bind_ok h).trans (ih (Nat.lt_of_lt_of_le hLess (Nat.le_add_right _ n)))

theorem iterate_of_turns {step : σ → Parser τ ε (Option σ)} {s s' : σ} {ts rest : List τ}
    (h : Turns step s ts s' rest) : iterate step s ts = .ok (s', rest) :=
  iterateAt_of_turns h (Nat.lt_succ_self _)

/-! ## Lists with a separator -/

/-- One more item, if the separator is next. -/
def nextItem (isSep : τ → Bool) (p : Parser τ ε α) (items : List α) : Parser τ ε (Option (List α)) := do
  match ← peek with
  | some t =>
    if isSep t then do
      skip
      let item ← p
      return some (items ++ [item])
    else return none
  | none => return none

/-- At least one item. -/
def separated (isSep : τ → Bool) (p : Parser τ ε α) : Parser τ ε (List α) := do
  let item ← p
  iterate (nextItem isSep p) [item]

/-- The separator in front of each item but the first. -/
def joinTokens (sep : τ) (write : α → List τ) : List α → List τ
  | [] => []
  | a :: as => write a ++ as.flatMap fun a => sep :: write a

section

variable {isSep : τ → Bool} {sep : τ} {p : Parser τ ε α} {write : α → List τ} {rest : List τ} {as : List α}

/-- What follows an item is the separator or what follows the list. -/
theorem rest_or_sep (as : List α) : as.flatMap (fun a => sep :: write a) ++ rest = rest ∨
    (as.flatMap (fun a => sep :: write a) ++ rest).head? = some sep := by
  cases as with
  | nil => exact .inl rfl
  | cons _ _ => exact .inr rfl

theorem turns_nextItem (hSep : isSep sep = true) (hRest : ∀ t ∈ rest.head?, isSep t = false)
    (hItem : ∀ a ∈ as, ∀ ts, (ts = rest ∨ ts.head? = some sep) → p (write a ++ ts) = .ok (a, ts)) (items : List α) :
    Turns (nextItem isSep p) items (as.flatMap (fun a => sep :: write a) ++ rest) (items ++ as) rest := by
  induction as generalizing items with
  | nil =>
    rw [List.append_nil]
    refine .stop ?_
    cases rest with
    | nil => rfl
    | cons t rest => simp [nextItem, hRest t rfl]
  | cons a as ih =>
    obtain ⟨hA, hAs⟩ := List.forall_mem_cons.mp hItem
    rw [List.append_cons items a as]
    refine .next ?_ ?_ (ih hAs (items ++ [a]))
    · simp [nextItem, hSep, hA _ (rest_or_sep as)]
    · simp only [List.flatMap_cons, List.cons_append, List.append_assoc, List.length_cons, List.length_append]
      omega

/-- A list is read back when each item is, before a separator and before what follows the list. -/
theorem separated_joinTokens (hSep : isSep sep = true) (hRest : ∀ t ∈ rest.head?, isSep t = false) (hNe : as ≠ [])
    (hItem : ∀ a ∈ as, ∀ ts, (ts = rest ∨ ts.head? = some sep) → p (write a ++ ts) = .ok (a, ts)) :
    separated isSep p (joinTokens sep write as ++ rest) = .ok (as, rest) := by
  obtain ⟨a, as, rfl⟩ := List.exists_cons_of_ne_nil hNe
  obtain ⟨hA, hAs⟩ := List.forall_mem_cons.mp hItem
  rw [joinTokens, List.append_assoc]
  exact (bind_ok (hA _ (rest_or_sep as))).trans (iterate_of_turns (turns_nextItem hSep hRest hAs [a]))

end

end Parser

end Dllb
