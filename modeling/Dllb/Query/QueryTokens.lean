import Mathlib
import Dllb.Query.Parser

/-! # Queries as tokens

A query is written as tokens with every optional keyword. The clauses that may
be missing begin with a token of their own, by which the parser knows them.
-/

namespace Dllb

set_option autoImplicit false

open Dllb.Parser

/-! ## Literals as tokens -/

mutual

def Literal.tokens : Literal → List Token
  | .string s => [.stringLit s]
  | .int n => [.intLit n]
  | .float f => [.floatLit f]
  | .bool b => [if b then .true else .false]
  | .none => [.none]
  | .array [] => [.lBracket, .rBracket]
  | .array (item :: items) => .lBracket :: (item.tokens ++ (Literal.moreTokens items ++ [.rBracket]))

/-- Items of an array behind the first one. -/
def Literal.moreTokens : List Literal → List Token
  | [] => []
  | item :: items => .comma :: (item.tokens ++ Literal.moreTokens items)

end

/-! ## Select items as tokens -/

/-- The parts of a name between any two of which `::` stands. -/
def nameParts : List Char → List Char × List (List Char)
  | [] => ([], [])
  | ':' :: ':' :: chars => ([], (nameParts chars).1 :: (nameParts chars).2)
  | c :: chars => (c :: (nameParts chars).1, (nameParts chars).2)

def partTokens (part : List Char) : List Token := [.colon, .colon, .ident (String.ofList part)]

def nameTokens (name : String) : List Token :=
  .ident (String.ofList (nameParts name.toList).1) :: (nameParts name.toList).2.flatMap partTokens

mutual

def SelectItem.tokens : SelectItem → List Token
  | .field name => nameTokens name
  | .literal lit => lit.tokens
  | .functionCall name [] => nameTokens name ++ [.lParen, .rParen]
  | .functionCall name (arg :: args) =>
    nameTokens name ++ .lParen :: (arg.tokens ++ (SelectItem.moreTokens args ++ [.rParen]))

/-- Arguments of a call behind the first one. -/
def SelectItem.moreTokens : List SelectItem → List Token
  | [] => []
  | arg :: args => .comma :: (arg.tokens ++ SelectItem.moreTokens args)

end

/-! ## Clauses as tokens -/

def CmpOp.token : CmpOp → Token
  | .eq => .eq
  | .ne => .ne
  | .gt => .gt
  | .lt => .lt
  | .gte => .gte
  | .lte => .lte

def WhereClause.tokens : WhereClause → List Token
  | .cmp field op value => field.tokens ++ op.token :: value.tokens
  | .and left right => left.tokens ++ .and :: right.tokens
  | .isNull field false => nameTokens field ++ [.is, .none]
  | .isNull field true => nameTokens field ++ [.is, .not, .none]

def whereTokens : Option WhereClause → List Token
  | none => []
  | some filter => .where' :: filter.tokens

def intToken (n : Nat) : Token := .intLit (Int64.ofNat n)

def limitTokens : Option Nat → List Token
  | none => []
  | some n => [.limit, intToken n]

def OrderKey.tokens (key : OrderKey) : List Token :=
  [.ident key.field, .ident (if key.descending then "DESC" else "ASC")]

def orderByTokens : List OrderKey → List Token
  | [] => []
  | keys => .ident "ORDER" :: .ident "BY" :: joinTokens .comma OrderKey.tokens keys

/-- A keyword and the value behind it. -/
def optionTokens {α : Type} (kw : String) (write : α → List Token) : Option α → List Token
  | none => []
  | some a => .ident kw :: write a

def groupByTokens : Option String → List Token := optionTokens "GROUP" fun field => [.ident "BY", .ident field]

def assignmentTokens (a : String × Literal) : List Token := .ident a.1 :: .eq :: a.2.tokens

def setTokens (fields : Assignments) : List Token := .set :: joinTokens .comma assignmentTokens fields

def onConflictTokens : Option OnConflict → List Token
  | none => []
  | some .update => [.on, .conflict, .update]
  | some (.updateSet fields) => .on :: .conflict :: .update :: setTokens fields

def RecordRef.tokens (r : RecordRef) : List Token := [.ident r.table, .colon, .ident r.id]

def FromTarget.tokens : FromTarget → List Token
  | .table name => [.ident name]
  | .record r => r.tokens

def idTokens : Option String → List Token
  | none => []
  | some id => [.colon, .ident id]

def onTableTokens (table : String) : List Token := [.on, .ident "TABLE", .ident table]

def TraversalDirection.token : TraversalDirection → Token
  | .out => .arrow
  | .in' => .backArrow

def TraversalHop.tokens (hop : TraversalHop) : List Token :=
  [hop.direction.token, .ident hop.edgeType, hop.direction.token, .ident hop.destTable]

def projectionTokens : Option String → List Token
  | none => []
  | some field => [.dot, .ident field]

def TraversalChain.tokens (chain : TraversalChain) : List Token :=
  chain.hops.flatMap TraversalHop.tokens ++ projectionTokens chain.projection

def SelectFields.tokens : SelectFields → List Token
  | .all => [.star]
  | .named items => joinTokens .comma SelectItem.tokens items
  | .traversal chain => chain.tokens

def vectorTokens (vector : List F64) : List Token := (Literal.array (vector.map .float)).tokens

def CentralityMode.keyword : CentralityMode → String
  | .degree => "DEGREE"
  | .inDegree => "INDEGREE"
  | .outDegree => "OUTDEGREE"

def CommunityAlgorithm.keyword : CommunityAlgorithm → String
  | .louvain => "LOUVAIN"
  | .labelPropagation => "LP"

def OutcomeFormat.keyword : OutcomeFormat → String
  | .json => "JSON"
  | .toon => "TOON"
  | .csv => "CSV"

/-! ## Queries as tokens -/

def Statement.tokens : Statement → List Token
  | .create table id fields onConflict =>
    .create :: .ident table :: (idTokens id ++ setTokens fields ++ onConflictTokens onConflict)
  | .select fields source filter orderBy limit =>
    .select :: (fields.tokens ++ .from' :: (source.tokens ++ whereTokens filter ++ orderByTokens orderBy ++
      limitTokens limit))
  | .delete table id => [.delete, .ident table, .colon, .ident id]
  | .deleteWhere table filter => .delete :: .ident table :: whereTokens filter
  | .relate src edgeType dst fields =>
    .relate :: (src.tokens ++ [.arrow, .ident edgeType, .arrow] ++ dst.tokens ++
      if fields.isEmpty then [] else setTokens fields)
  | .graphCommunities table algorithm maxIterations resolution =>
    [.graph, .communities, .ident table, .ident "ALGORITHM", .ident algorithm.keyword,
      .ident "MAX_ITER", intToken maxIterations, .ident "RESOLUTION", .floatLit resolution]
  | .update target fields filter => .update :: (target.tokens ++ setTokens fields ++ whereTokens filter)
  | .count table filter groupBy => .count :: .ident table :: (whereTokens filter ++ groupByTokens groupBy)
  | .graphComponents table => [.graph, .components, .ident table]
  | .defineIndex name table fields unique =>
    .ident "DEFINE" :: .ident "INDEX" :: .ident name :: (onTableTokens table ++ .ident "FIELDS" ::
      (joinTokens .comma (fun field => [.ident field]) fields ++ if unique then [.ident "UNIQUE"] else []))
  | .removeIndex name table => .ident "REMOVE" :: .ident "INDEX" :: .ident name :: onTableTokens table
  | .compact => [.ident "COMPACT"]
  | .defineFulltextIndex name table field analyzer =>
    .ident "DEFINE" :: .ident "FULLTEXT" :: .ident "INDEX" :: .ident name :: (onTableTokens table ++
      .ident "FIELDS" :: .ident field :: optionTokens "ANALYZER" (fun a => [.ident a]) analyzer)
  | .defineVectorIndex name table field dim metric =>
    .ident "DEFINE" :: .ident "VECTOR" :: .ident "INDEX" :: .ident name :: (onTableTokens table ++
      .ident "FIELDS" :: .ident field :: .ident "DIMENSION" :: intToken dim ::
        optionTokens "METRIC" (fun m => [.ident m]) metric)
  | .search table field query filter limit =>
    .ident "SEARCH" :: .ident table :: .ident field :: .stringLit query :: (whereTokens filter ++ limitTokens limit)
  | .vectorSearch table field vector filter k =>
    .ident "VECTOR" :: .ident "SEARCH" :: .ident table :: .ident field ::
      (vectorTokens vector ++ whereTokens filter ++ optionTokens "K" (fun k => [intToken k]) k)
  | .hybridSearch table textField query vectorField vector alpha filter limit =>
    .ident "HYBRID" :: .ident "SEARCH" :: .ident table :: .ident "TEXT" :: .ident textField :: .stringLit query ::
      .ident "VECTOR" :: .ident vectorField :: (vectorTokens vector ++
        optionTokens "ALPHA" (fun f => [.floatLit f]) alpha ++ whereTokens filter ++ limitTokens limit)
  | .graphPagerank table damping maxIterations limit =>
    .graph :: .ident "PAGERANK" :: .ident table :: .ident "DAMPING" :: .floatLit damping ::
      .ident "MAX_ITER" :: intToken maxIterations :: limitTokens limit
  | .graphCentrality table mode limit =>
    .graph :: .ident "CENTRALITY" :: .ident table :: .ident mode.keyword :: limitTokens limit
  | .graphPath src dst table maxDepth =>
    .graph :: .ident "PATH" :: .ident src :: .arrow :: .ident dst :: .on :: .ident table ::
      optionTokens "MAX_DEPTH" (fun n => [intToken n]) maxDepth
  | .graphEdges table filter => .graph :: .ident "EDGES" :: .ident table :: whereTokens filter

def Query.tokens (q : Query) : List Token := q.statement.tokens ++ [.outcome, .ident q.outcome.keyword]

/-! ## Well-formed queries -/

/-- The integers that a literal can hold and a clause accepts. -/
def Positive (n : Nat) : Prop := 0 < n ∧ n < 2 ^ 63

/-- Conjunctions lean to the right. -/
def WhereClause.RightNested : WhereClause → Prop
  | .and (.and _ _) _ => False
  | .and _ right => right.RightNested
  | _ => True

def OnConflict.WellFormed : OnConflict → Prop
  | .update => True
  | .updateSet fields => fields ≠ []

def SelectFields.WellFormed : SelectFields → Prop
  | .all => True
  | .named items => items ≠ []
  | .traversal chain => chain.hops ≠ []

def Statement.WellFormed : Statement → Prop
  | .create _ _ fields onConflict => fields ≠ [] ∧ ∀ c ∈ onConflict, c.WellFormed
  | .select fields _ filter _ limit =>
    fields.WellFormed ∧ (∀ w ∈ filter, w.RightNested) ∧ ∀ n ∈ limit, Positive n
  | .deleteWhere _ filter => ∀ w ∈ filter, w.RightNested
  | .graphCommunities _ _ maxIterations _ => Positive maxIterations
  | .update _ fields filter => fields ≠ [] ∧ ∀ w ∈ filter, w.RightNested
  | .count _ filter _ => ∀ w ∈ filter, w.RightNested
  | .defineIndex _ _ fields _ => fields ≠ []
  | .defineVectorIndex _ _ _ dim _ => Positive dim
  | .search _ _ _ filter limit => (∀ w ∈ filter, w.RightNested) ∧ ∀ n ∈ limit, Positive n
  | .vectorSearch _ _ _ filter k => (∀ w ∈ filter, w.RightNested) ∧ ∀ n ∈ k, Positive n
  | .hybridSearch _ _ _ _ _ _ filter limit => (∀ w ∈ filter, w.RightNested) ∧ ∀ n ∈ limit, Positive n
  | .graphPagerank _ _ maxIterations limit => Positive maxIterations ∧ ∀ n ∈ limit, Positive n
  | .graphCentrality _ _ limit => ∀ n ∈ limit, Positive n
  | .graphPath _ _ _ maxDepth => ∀ n ∈ maxDepth, Positive n
  | .graphEdges _ filter => ∀ w ∈ filter, w.RightNested
  | .delete _ _ | .relate _ _ _ _ | .graphComponents _ | .removeIndex _ _ | .compact
  | .defineFulltextIndex _ _ _ _ => True

/-! ## What begins the tokens of a part -/

theorem tokens_startsLiteral (lit : Literal) : ∃ t ts, lit.tokens = t :: ts ∧ t.startsLiteral = Bool.true := by
  cases lit with
  | bool b => cases b <;> exact ⟨_, _, rfl, rfl⟩
  | array items => cases items <;> exact ⟨_, _, rfl, rfl⟩
  | _ => exact ⟨_, _, rfl, rfl⟩

def Token.startsItem : Token → Bool
  | .ident _ => Bool.true
  | t => t.startsLiteral

theorem tokens_startsItem (item : SelectItem) : ∃ t ts, item.tokens = t :: ts ∧ t.startsItem = Bool.true := by
  cases item with
  | field name => exact ⟨_, _, rfl, rfl⟩
  | literal lit =>
    obtain ⟨t, ts, hTokens, hStart⟩ := tokens_startsLiteral lit
    refine ⟨t, ts, hTokens, ?_⟩
    cases t <;> first | rfl | exact hStart
  | functionCall name args => cases args <;> exact ⟨_, _, rfl, rfl⟩

theorem head?_tokens_append (item : SelectItem) {t : Token} (ht : t.startsItem = Bool.false) (rest : List Token) :
    (item.tokens ++ rest).head? ≠ some t := by
  obtain ⟨t', ts, hTokens, hStart⟩ := tokens_startsItem item
  rw [hTokens]
  rintro h
  cases h
  rw [ht] at hStart
  exact Bool.false_ne_true hStart

/-- Neither a further part of a name nor the arguments of a call. -/
def EndsItem (rest : List Token) : Prop := rest.head? ≠ some .colon ∧ rest.head? ≠ some .lParen

theorem endsItem_moreTokens (args : List SelectItem) (rest : List Token) :
    EndsItem (SelectItem.moreTokens args ++ .rParen :: rest) := by
  cases args <;> exact ⟨by simp [SelectItem.moreTokens], by simp [SelectItem.moreTokens]⟩

/-- The tokens of a clause that may be missing. -/
def Begins (t : Token) (ts : List Token) : Prop := ts = [] ∨ ts.head? = some t

theorem Begins.head?_ne {t t' : Token} {ts rest : List Token} (h : Begins t ts) (hNe : t' ≠ t)
    (hRest : rest.head? ≠ some t') : (ts ++ rest).head? ≠ some t' := by
  obtain rfl | hHead := h
  · exact hRest
  · rw [List.head?_append, hHead]
    rintro hEq
    cases hEq
    exact hNe rfl

theorem begins_whereTokens (filter : Option WhereClause) : Begins .where' (whereTokens filter) := by
  cases filter with
  | none => exact .inl rfl
  | some w => exact .inr rfl

theorem begins_onConflictTokens (onConflict : Option OnConflict) : Begins .on (onConflictTokens onConflict) := by
  cases onConflict with
  | none => exact .inl rfl
  | some c => cases c <;> exact .inr rfl

theorem begins_limitTokens (limit : Option Nat) : Begins .limit (limitTokens limit) := by
  cases limit with
  | none => exact .inl rfl
  | some n => exact .inr rfl

theorem begins_orderByTokens (keys : List OrderKey) : Begins (.ident "ORDER") (orderByTokens keys) := by
  cases keys with
  | nil => exact .inl rfl
  | cons key keys => exact .inr rfl

theorem begins_optionTokens {α : Type} (kw : String) (write : α → List Token) (o : Option α) :
    Begins (.ident kw) (optionTokens kw write o) := by
  cases o with
  | none => exact .inl rfl
  | some a => exact .inr rfl

/-- No identifier is next, and so no keyword that is one. -/
def NoIdent (ts : List Token) : Prop := ∀ s, ts.head? ≠ some (.ident s)

/-! ## Names -/

def joinParts (part : List Char) (parts : List (List Char)) : List Char :=
  part ++ parts.flatMap fun part => ':' :: ':' :: part

theorem joinParts_nameParts (chars : List Char) : joinParts (nameParts chars).1 (nameParts chars).2 = chars := by
  fun_induction nameParts chars with
  | case1 => rfl
  | case2 chars ih =>
    rw [joinParts] at ih ⊢
    simpa using ih
  | case3 c chars _ ih =>
    rw [joinParts] at ih ⊢
    simpa using ih

/-! ## Lookahead -/

theorem when_next {α : Type} {p q : TokenParser α} (t : Token) (ts : List Token) :
    (nextIs t >>= fun next => if next = Bool.true then p else q) (t :: ts) = p (t :: ts) := by
  simp [nextIs]

theorem unless_next {α : Type} {p q : TokenParser α} {t : Token} {ts : List Token} (h : ts.head? ≠ some t) :
    (nextIs t >>= fun next => if next = Bool.true then p else q) ts = q ts := by
  simp [nextIs, h]

theorem eqIgnoreAsciiCase_self (s : String) : eqIgnoreAsciiCase s s = Bool.true := decide_eq_true rfl

theorem consumeKeyword_cons (kw : String) (ts : List Token) : consumeKeyword kw (.ident kw :: ts) = .ok (true, ts) := by
  simp [consumeKeyword, eqIgnoreAsciiCase_self]

theorem consumeKeyword_of_noIdent (kw : String) {ts : List Token} (h : NoIdent ts) :
    consumeKeyword kw ts = .ok (false, ts) := by
  rw [consumeKeyword, bind_ok (peek_apply ts)]
  cases hHead : ts.head? with
  | none => rfl
  | some t =>
    cases t with
    | ident s => exact absurd hHead (h s)
    | _ => rfl

/-! ## Optional values and lists -/

theorem optional_tokens {α : Type} {kw : String} {p : TokenParser α} {write : α → List Token} {o : Option α}
    {rest : List Token} (hRest : NoIdent rest) (hValue : ∀ a ∈ o, p (write a ++ rest) = .ok (a, rest)) :
    optional kw p (optionTokens kw write o ++ rest) = .ok (o, rest) := by
  cases o with
  | none => exact bind_ok (consumeKeyword_of_noIdent kw hRest)
  | some a => exact (bind_ok (consumeKeyword_cons kw _)).trans (bind_ok (hValue a rfl))

theorem commaList_joinTokens {α : Type} {p : TokenParser α} {write : α → List Token} {as : List α}
    {rest : List Token} (hNe : as ≠ []) (hRest : rest.head? ≠ some .comma)
    (hItem : ∀ a ∈ as, ∀ ts, (ts = rest ∨ ts.head? = some .comma) → p (write a ++ ts) = .ok (a, ts)) :
    commaList p (joinTokens .comma write as ++ rest) = .ok (as, rest) := by
  refine separated_joinTokens rfl ?_ hNe hItem
  rintro t ht
  exact decide_eq_false fun hEq => hRest (hEq ▸ ht)

theorem parseArgs_items {p : TokenParser SelectItem} {ts ts' rest : List Token} {arg : SelectItem}
    {args : List SelectItem} (hStart : ts.head? ≠ some .rParen) (hArg : p ts = .ok (arg, ts'))
    (hTurns : Turns (nextItem isComma p) [arg] ts' args rest) : parseArgs p ts = .ok (args, rest) := by
  rw [parseArgs, unless_next hStart, commaList, separated, bind_ok hArg]
  exact iterate_of_turns hTurns

end Dllb
