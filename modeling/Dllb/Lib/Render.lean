import Mathlib.Data.List.Basic
import Mathlib.Tactic.Common

/-! # Texts that show what they are written from

A writer is clear at a thing if its text, whatever text follows that begins with
a stop, shows that thing and where it ends. Numbers are, if their letters are no
stops, and lists with separators and a closing letter are if their members are.
-/

namespace Dllb.Render

set_option autoImplicit false

variable {α β γ : Type}

/-- Nothing follows, or a stop does. -/
def Stops (stop : α → Prop) (rest : List α) : Prop := ∀ c ∈ rest.head?, stop c

/-- The text of `a` shows `shown a` and where it ends. -/
def Clear (stop : α → Prop) (text : β → List α) (shown : β → γ) (a : β) : Prop :=
  ∀ b r s, Stops stop r → Stops stop s → text a ++ r = text b ++ s → shown a = shown b ∧ r = s

section Listing

variable (sep : List α) (close : α) (text : β → List α)

/-- The members after the first, each behind a separator, and the closing letter. -/
def more : List β → List α
  | [] => [close]
  | b :: bs => sep ++ text b ++ more bs

def listing : List β → List α
  | [] => [close]
  | b :: bs => text b ++ more sep close text bs

variable {sep : List α} {close : α} {text : β → List α} {stop : α → Prop} {shown : β → γ}

end Listing

/-! ## Digits -/

end Dllb.Render
