import Mathlib
import Dllb.Query.Ast
import Dllb.Document.Collection

/-! # Evaluation of WHERE clauses and index planning -/

namespace Dllb

set_option autoImplicit false

/-- The `ast::` functions of the code-intelligence crate, by name and argument values. -/
class CodeIntel where
  call : String → List Value → Option Value

section Eval

variable [CodeIntel]

mutual

def evalSelectItem (doc : Document) : SelectItem → Option Value
  | .field name => doc.fields[name]?
  | .literal lit => some lit.toValue
  | .functionCall name args =>
    match evalArgs doc args with
    | some argVals => CodeIntel.call name argVals
    | none => none

def evalArgs (doc : Document) : List SelectItem → Option (List Value)
  | [] => some []
  | arg :: args =>
    match evalSelectItem doc arg with
    | some v => (evalArgs doc args).map (v :: ·)
    | none => none

end

/-- Incomparable type combinations have no order; Int and Float compare as floats. -/
def cmpValues : Value → Value → Option Ordering
  | .int x, .int y => some (compare x.toInt y.toInt)
  | .float x, .float y => x.partialCmp y
  | .int x, .float y => (F64.ofInt64 x).partialCmp y
  | .float x, .int y => x.partialCmp (F64.ofInt64 y)
  | .string x, .string y => some (cmpString x y)
  | _, _ => none

def cmpHolds (op : CmpOp) (docVal target : Value) : Bool :=
  match op with
  | .eq => docVal.eq target
  | .ne => !docVal.eq target
  | .gt => cmpValues docVal target == some .gt
  | .lt => cmpValues docVal target == some .lt
  | .gte => cmpValues docVal target == some .gt || cmpValues docVal target == some .eq
  | .lte => cmpValues docVal target == some .lt || cmpValues docVal target == some .eq

def matchesWhere (doc : Document) : WhereClause → Bool
  | .cmp field op value =>
    match evalSelectItem doc field with
    | some docVal => cmpHolds op docVal value.toValue
    | none => false
  | .and left right => matchesWhere doc left && matchesWhere doc right
  | .isNull field negated =>
    let isSet := match doc.fields[field]? with
      | some v => !v.isNone
      | none => false
    if negated then isSet else !isSet

end Eval

/-! ## Index planning -/

structure IndexPlan where
  indexName : String
  eq : List Value
  lower : Option Index.RangeBound
  upper : Option Index.RangeBound
  fieldCount : Nat
  covers : Bool

inductive AtomKind where
  | eq (v : Value)
  | lower (v : Value) (inclusive : Bool)
  | upper (v : Value) (inclusive : Bool)

def runIndexPlan (coll : Collection) (plan : IndexPlan) : Db (List String) :=
  coll.findIdsForScan plan.indexName plan.eq plan.lower plan.upper plan.fieldCount

def collectConjuncts : WhereClause → List WhereClause
  | .and left right => collectConjuncts left ++ collectConjuncts right
  | other => [other]

/-- `!=`, `IS NONE`, arrays and NONE are not indexable. -/
def atomOf : WhereClause → Option (String × AtomKind)
  | .cmp (.field fieldName) op value =>
    match value.toValue, op with
    | .array _, _ => none
    | .none, _ => none
    | v, .eq => some (fieldName, .eq v)
    | v, .gt => some (fieldName, .lower v false)
    | v, .gte => some (fieldName, .lower v true)
    | v, .lt => some (fieldName, .upper v false)
    | v, .lte => some (fieldName, .upper v true)
    | _, .ne => none
  | _ => none

def makePlan (idx : IndexDefinition) (eq : List Value) (lower upper : Option Index.RangeBound) :
    IndexPlan :=
  { indexName := idx.name, eq, lower, upper, fieldCount := idx.fields.length, covers := false }

/-- The first equality on the field among the unused conjuncts, which it leaves out. -/
def takeEq (field : String) : List WhereClause → Option (Value × List WhereClause)
  | [] => none
  | c :: rest =>
    match atomOf c with
    | some (f, .eq v) =>
      if f = field then some (v, rest) else (takeEq field rest).map fun (w, cs) => (w, c :: cs)
    | _ => (takeEq field rest).map fun (w, cs) => (w, c :: cs)

/-- Bounds found so far and how many conjuncts they consume. -/
structure RangeAtoms where
  lower : Option Index.RangeBound
  upper : Option Index.RangeBound
  consumed : Nat

/-- Up to one lower and one upper bound on the field, the first of each. -/
def takeRange (field : String) : List WhereClause → RangeAtoms → RangeAtoms
  | [], acc => acc
  | c :: rest, acc =>
    match atomOf c with
    | some (f, .lower v inclusive) =>
      if f = field ∧ acc.lower.isNone then
        takeRange field rest { acc with lower := some (v, inclusive), consumed := acc.consumed + 1 }
      else takeRange field rest acc
    | some (f, .upper v inclusive) =>
      if f = field ∧ acc.upper.isNone then
        takeRange field rest { acc with upper := some (v, inclusive), consumed := acc.consumed + 1 }
      else takeRange field rest acc
    | _ => takeRange field rest acc

/-- The loop over the fields of the index, with the conjuncts that are still unused. -/
def planFields (idx : IndexDefinition) :
    List String → List WhereClause → List Value → Nat → Option (IndexPlan × Nat)
  | [], _, eq, consumed =>
    if eq.isEmpty then none else some (makePlan idx eq none none, consumed)
  | field :: fields, unused, eq, consumed =>
    match takeEq field unused with
    | some (v, unused) => planFields idx fields unused (eq ++ [v]) (consumed + 1)
    | none =>
      let range := takeRange field unused ⟨none, none, 0⟩
      if range.lower.isSome || range.upper.isSome then
        some (makePlan idx eq range.lower range.upper, consumed + range.consumed)
      else if eq.isEmpty then none
      else some (makePlan idx eq none none, consumed)

def planForIndex (idx : IndexDefinition) (conjuncts : List WhereClause) : Option (IndexPlan × Nat) :=
  planFields idx idx.fields conjuncts [] 0

/-- More consumed conjuncts first, then the longer equality prefix. -/
def better (plan : IndexPlan) (consumed : Nat) : Option (IndexPlan × Nat) → Bool
  | none => true
  | some (bestPlan, bestConsumed) =>
    bestConsumed < consumed || bestConsumed == consumed && bestPlan.eq.length < plan.eq.length

def bestPlan (conjuncts : List WhereClause) :
    List IndexDefinition → Option (IndexPlan × Nat) → Option (IndexPlan × Nat)
  | [], best => best
  | idx :: indexes, best =>
    if !idx.isBtree then bestPlan conjuncts indexes best
    else
      match planForIndex idx conjuncts with
      | some (plan, consumed) =>
        bestPlan conjuncts indexes (if better plan consumed best then some (plan, consumed) else best)
      | none => bestPlan conjuncts indexes best

def planIndexLookup (indexes : List IndexDefinition) (clause : WhereClause) : Option IndexPlan :=
  if indexes.isEmpty then none
  else
    let conjuncts := collectConjuncts clause
    (bestPlan conjuncts indexes none).map fun (plan, consumed) =>
      { plan with covers := consumed == conjuncts.length }

/-! ## Reading through an index -/

section Candidates

variable [Rmp]

/-- The documents `SELECT`, `DELETE ... WHERE` and `COUNT ... GROUP BY` read before they apply the
full clause: through an index where one applies, else all of them. -/
def candidates (coll : Collection) (filter : Option WhereClause) : Db (List Document) :=
  match filter.bind (planIndexLookup coll.indexes) with
  | some plan => do
    let ids ← runIndexPlan coll plan
    coll.getMany ids
  | none => coll.scanAll

end Candidates

end Dllb
