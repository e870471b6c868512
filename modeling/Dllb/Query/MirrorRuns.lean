import Mathlib
import Dllb.Core.Rounding
import Dllb.Query.Hybrid
import Dllb.Document.MsgPackKinds

/-! # Every run of requests and restarts keeps the vector indexes

Index DDL makes, fills and drops indexes, and a search fills one that a restart
has emptied.
-/

namespace Dllb

set_option autoImplicit false

variable [Rmp]

namespace Searching

variable {D : Type} [LinearOrder D] [Distance F32 D] [BeamHeaps D] {ex : QueryExecutor}
  {owner : String → String} {P : Instr → World → Prop} {w : World}

/-! ## Index DDL -/

variable [CodeIntel]

end Searching

/-! ## Requests -/

/-- The names of tables are free of separators, and a vector index is defined in the table that its
name is for. -/
def Statement.Owned (owner : String → String) : Statement → Prop
  | .defineFulltextIndex _ table _ _ => Key.NulFree table
  | .defineVectorIndex name table _ _ _ => Key.NulFree table ∧ owner name = table
  | .search table _ _ _ _ => Key.NulFree table
  | .vectorSearch table _ _ _ _ => Key.NulFree table
  | .hybridSearch table _ _ _ _ _ _ _ => Key.NulFree table
  | stmt => stmt.Named

omit [Rmp] in
theorem Statement.Owned.named {owner : String → String} {stmt : Statement} (h : stmt.Owned owner) :
    stmt.Named := by
  cases stmt with
  | defineFulltextIndex name table field analyzer => trivial
  | defineVectorIndex name table field dim metric => trivial
  | search table field query filter limit => trivial
  | vectorSearch table field vector filter k => trivial
  | hybridSearch table textField query vectorField vector alpha filter limit => trivial
  | _ => exact h

def Request.Owned (owner : String → String) : Request → Prop
  | statement i => i.stmt.Owned owner
  | batch stmts => ∀ i ∈ stmts, i.stmt.Owned owner

namespace Searching

variable {D : Type} [LinearOrder D] [Distance F32 D] [BeamHeaps D] [CodeIntel] {ex : QueryExecutor}
  {owner : String → String} {w : World}

/-- A request that is served to its end, or a restart of the process. -/
inductive Event where
  | request (r : Request)
  | restart

def Event.Owned (owner : String → String) : Event → Prop
  | request r => r.Owned owner
  | restart => True

section Runs

variable (D : Type) [LinearOrder D] [Distance F32 D] [BeamHeaps D] [Score D] (ex : QueryExecutor)

/-- `none` if the request waits for a lock that nobody gives back. -/
def serveEvent (w : World) : Event → Option World
  | .restart => some w.restart
  | .request r =>
    match prog (D := D) ex r with
    | some p => (p.run (World.machine D) w).map Prod.snd
    | none => some w

def serve (events : List Event) (w : World) : Option World := events.foldlM (serveEvent D ex) w

/-- The request puts no vector in the place of one of another length. -/
def FitsEvent (w : World) : Event → Prop
  | .restart => True
  | .request r => ∀ p ∈ prog (D := D) ex r, p.Along (World.machine D) World.Fits w

def FitsEvents : List Event → World → Prop
  | [], _ => True
  | event :: events, w => FitsEvent D ex w event ∧ ∀ w' ∈ serveEvent D ex w event, FitsEvents events w'

instance (w : World) (event : Event) : Decidable (FitsEvent D ex w event) :=
  match event with
  | .restart => isTrue trivial
  | .request r => inferInstanceAs (Decidable (∀ p ∈ prog (D := D) ex r, p.Along (World.machine D) World.Fits w))

instance decidableFitsEvents : (events : List Event) → (w : World) → Decidable (FitsEvents D ex events w)
  | [], _ => isTrue trivial
  | event :: events, w =>
    have := decidableFitsEvents events
    inferInstanceAs (Decidable (FitsEvent D ex w event ∧ ∀ w' ∈ serveEvent D ex w event, FitsEvents D ex events w'))

end Runs

variable [Score D]

/-- A process that starts on an empty store. -/
def start (draws : Nat → Nat) (texts : Nat → List (String × F32)) : World := ⟨∅, .new, draws, texts⟩

end Searching

end Dllb

/-! ## A run with a restart -/

namespace Dllb.Searching

namespace Embedded

/-- The vectors below all have one direction. -/
scoped instance parallel : Distance F32 Int where
  distance _ _ _ := 0

scoped instance whole : Score Int where
  toF64 n := .ofInt64 (.ofInt n)

scoped instance kinded : Rmp := MsgPack.kindedCodec

scoped instance noIntel : CodeIntel := noCodeIntel

/-- `CREATE t:id SET v = [x]` -/
def embed (id : String) (x : F64) : Event :=
  .request (.statement ⟨"", .create "t" (some id) [("v", .array [.float x])] none⟩)

/-- `DEFINE VECTOR INDEX by_v ON t FIELDS v DIMENSION 1` -/
def defineByV : Event := .request (.statement ⟨"", .defineVectorIndex "by_v" "t" "v" 1 none⟩)

/-- The last request fills the index anew. -/
def events : List Event := [defineByV, embed "a" 1, .restart, embed "b" 2]

def byV : IndexDefinition := { name := "by_v", fields := ["v"], unique := false, kind := .vector 1 "cosine" }

def empty : World := start (fun _ => 0) fun _ => []

end Embedded

section Embedded

open Embedded HnswIndex.Whole

end Embedded

end Dllb.Searching
