import Mathlib
import Dllb.Query.Cache
import Dllb.Query.CacheTransparent

/-! # Responses of one line

Rows in JSON are escaped. Names, algorithms and error messages are not, the
other two formats put most answers on several lines, and a payload of the cache
is sent as it is.
-/

namespace Dllb

set_option autoImplicit false

def OneLine (s : String) : Prop := '\n' ∉ s.toList

instance (s : String) : Decidable (OneLine s) := inferInstanceAs (Decidable (¬ _))

/-- What it takes of a result to be one line. -/
def FitsLine (outcome : OutcomeFormat) : QueryResult → Prop
  | .cachedResponse payload => OneLine payload
  | .ok => outcome ≠ .csv
  | .created id => outcome = .json ∧ OneLine id.display
  | .updated id => outcome = .json ∧ OneLine id.display
  | .communities algorithm _ => outcome = .json ∧ OneLine algorithm
  | _ => outcome = .json

section

variable [Texts]

end

/-! ## Answers -/

/-- Whether the answer to a statement is one line. -/
def Issued.AnswerFits (i : Issued) (outcome : OutcomeFormat) : Prop :=
  match i.stmt with
  | .create table id _ _ => outcome = .json ∧ OneLine table ∧ OneLine (id.getD i.uuid)
  | .relate .. | .defineIndex .. | .removeIndex .. | .compact => outcome ≠ .csv
  | .defineFulltextIndex .. | .defineVectorIndex .. => outcome ≠ .csv
  | _ => outcome = .json

def Issued.Answers (i : Issued) (result : QueryResult) : Prop :=
  ∀ outcome, FitsLine outcome result ↔ i.AnswerFits outcome

namespace QueryExecutor

variable [Rmp]

variable [CodeIntel]

variable [Texts] [GraphAlgorithms]

end QueryExecutor

end Dllb
