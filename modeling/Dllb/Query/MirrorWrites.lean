import Mathlib
import Dllb.Query.Mirror

/-! # Writes keep the vector indexes

Each handler writes, and then mends what it has written. The condition is on the
insertions alone: no vector takes the place of one of another length.
-/

namespace Dllb

set_option autoImplicit false

variable [Rmp]

namespace World

variable {ex : QueryExecutor} {owner : String → String} {X : String → RecordRef → Prop} {w : World}

abbrev Mirrored (ex : QueryExecutor) (owner : String → String) (w : World) : Prop :=
  w.MirrorsBut ex owner fun _ _ => False

/-- A restart empties the services, and there is nothing left to be wrong. -/
theorem MirrorsBut.restart (h : w.MirrorsBut ex owner X) : w.restart.MirrorsBut ex owner X where
  readable := h.readable
  catalogs := h.catalogs
  ready _ _ he := by cases he
  mirrors _ _ he := by cases he

end World

/-! ## The statements that write documents -/

namespace QueryExecutor

end QueryExecutor

namespace Searching

variable {D : Type} [LinearOrder D] [Distance F32 D] [BeamHeaps D] [CodeIntel] {ex : QueryExecutor}
  {owner : String → String} {X : String → RecordRef → Prop} {w : World}

end Searching

end Dllb
