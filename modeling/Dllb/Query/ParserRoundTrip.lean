import Mathlib
import Dllb.Query.QueryTokens
import Dllb.Query.TokenizerRoundTrip

/-! # What the parser reads back

A part of a query is read back from its tokens whatever follows them, as long
as the next token does not go on with the part.
-/

namespace Dllb

set_option autoImplicit false

open Dllb.Parser

section

variable [Debug]

/-! ## Literals -/

theorem expect_cons (t : Token) (ts : List Token) : expect t (t :: ts) = .ok ((), ts) := by
  simp [expect]

theorem nextArrayItem_rBracket (p : TokenParser Literal) (items : List Literal) (rest : List Token) :
    nextArrayItem p items (.rBracket :: rest) = .ok (none, rest) := rfl

theorem nextArrayItem_comma {p : TokenParser Literal} {ts rest : List Token} {item : Literal}
    (h : p ts = .ok (item, rest)) (items : List Literal) :
    nextArrayItem p items (.comma :: ts) = .ok (some (items ++ [item]), rest) := by
  simp [nextArrayItem, h]

theorem parseArrayLiteral_items {p : TokenParser Literal} {ts ts' rest : List Token} {item : Literal}
    {items : List Literal} (hStart : ts.head? ≠ some .rBracket) (hItem : p ts = .ok (item, ts'))
    (hTurns : Turns (nextArrayItem p) [item] ts' items rest) :
    parseArrayLiteral p (.lBracket :: ts) = .ok (.array items, rest) := by
  rw [parseArrayLiteral, bind_ok (expect_cons _ ts), unless_next hStart, bind_ok hItem]
  exact bind_ok (iterate_of_turns hTurns)

mutual

/-- The depth of a literal is at most the number of its tokens. -/
theorem literalAt_tokens (lit : Literal) {n : Nat} (hn : lit.tokens.length ≤ n) (rest : List Token) :
    fixAt tooDeep literalBody n (lit.tokens ++ rest) = .ok (lit, rest) := by
  obtain ⟨t, ts, hTokens, -⟩ := tokens_startsLiteral lit
  obtain ⟨n, rfl⟩ : ∃ m, n = m + 1 := Nat.exists_eq_succ_of_ne_zero (by
    rw [hTokens, List.length_cons] at hn
    omega)
  cases lit with
  | bool b => cases b <;> rfl
  | array items =>
    cases items with
    | nil => rfl
    | cons item items =>
      simp only [Literal.tokens, List.length_cons, List.length_append, List.length_nil] at hn
      have hItem := literalAt_tokens item (n := n) (by omega) (Literal.moreTokens items ++ .rBracket :: rest)
      have hTurns := itemsAt_tokens items (n := n) (by omega) [item] rest
      have hStart : (item.tokens ++ (Literal.moreTokens items ++ .rBracket :: rest)).head? ≠ some .rBracket := by
        obtain ⟨t, ts, hTokens, hLiteral⟩ := tokens_startsLiteral item
        rw [hTokens]
        rintro h
        cases h
        cases hLiteral
      simp only [Literal.tokens, List.cons_append, List.append_assoc, List.nil_append]
      exact parseArrayLiteral_items hStart hItem hTurns
  | _ => rfl

theorem itemsAt_tokens (items : List Literal) {n : Nat} (hn : (Literal.moreTokens items).length ≤ n)
    (done : List Literal) (rest : List Token) :
    Turns (nextArrayItem (fixAt tooDeep literalBody n)) done (Literal.moreTokens items ++ .rBracket :: rest)
      (done ++ items) rest := by
  cases items with
  | nil =>
    rw [List.append_nil]
    exact .stop (nextArrayItem_rBracket _ _ _)
  | cons item items =>
    simp only [Literal.moreTokens, List.length_cons, List.length_append] at hn
    have hItem := literalAt_tokens item (n := n) (by omega) (Literal.moreTokens items ++ .rBracket :: rest)
    rw [List.append_cons done item items, Literal.moreTokens, List.cons_append, List.append_assoc]
    refine .next (nextArrayItem_comma hItem done) ?_ (itemsAt_tokens items (by omega) (done ++ [item]) rest)
    simp only [List.length_append, List.length_cons]
    omega

end

theorem parseLiteral_tokens (lit : Literal) (rest : List Token) :
    parseLiteral (lit.tokens ++ rest) = .ok (lit, rest) :=
  literalAt_tokens lit (by simp; omega) rest

/-! ## Names -/

theorem expectIdent_cons (s : String) (ts : List Token) : expectIdent (.ident s :: ts) = .ok (s, ts) := rfl

theorem nextPart_partTokens (name part : List Char) (rest : List Token) :
    nextPart (String.ofList name) (partTokens part ++ rest) =
      .ok (some (String.ofList (name ++ ':' :: ':' :: part)), rest) := by
  have hName : String.ofList name ++ "::" ++ String.ofList part = String.ofList (name ++ ':' :: ':' :: part) := by
    rw [← String.toList_inj]
    simp
  rw [← hName]
  rfl

theorem turns_nextPart (name : List Char) (parts : List (List Char)) {rest : List Token}
    (hRest : rest.head? ≠ some .colon) :
    Turns nextPart (String.ofList name) (parts.flatMap partTokens ++ rest) (String.ofList (joinParts name parts))
      rest := by
  induction parts generalizing name with
  | nil =>
    have hJoin : joinParts name [] = name := List.append_nil name
    rw [hJoin]
    exact .stop (unless_next hRest)
  | cons part parts ih =>
    have hJoin : joinParts name (part :: parts) = joinParts (name ++ ':' :: ':' :: part) parts := by
      simp [joinParts]
    rw [hJoin, List.flatMap_cons, List.append_assoc]
    refine .next (nextPart_partTokens name part _) ?_ (ih _)
    simp only [partTokens, List.length_append, List.length_cons]
    omega

theorem parseName_nameTokens (name : String) {rest : List Token} (hRest : rest.head? ≠ some .colon) :
    parseName (nameTokens name ++ rest) = .ok (name, rest) := by
  have hTurns := turns_nextPart (nameParts name.toList).1 (nameParts name.toList).2 hRest
  rw [joinParts_nameParts, String.ofList_toList] at hTurns
  exact (bind_ok (expectIdent_cons _ _)).trans (iterate_of_turns hTurns)

/-! ## Select items -/

theorem selectItemBody_literal (p : TokenParser SelectItem) (lit : Literal) (rest : List Token) :
    selectItemBody p (lit.tokens ++ rest) = .ok (.literal lit, rest) := by
  have hLiteral := parseLiteral_tokens lit rest
  obtain ⟨t, ts, hTokens, hStart⟩ := tokens_startsLiteral lit
  rw [hTokens] at hLiteral ⊢
  rw [selectItemBody, bind_ok (peek_apply _)]
  simp only [List.cons_append, List.head?_cons, Option.any_some, hStart, if_true]
  exact bind_ok hLiteral

theorem selectItemBody_field (p : TokenParser SelectItem) (name : String) {rest : List Token} (hRest : EndsItem rest) :
    selectItemBody p (nameTokens name ++ rest) = .ok (.field name, rest) := by
  have hName := parseName_nameTokens name hRest.1
  exact (bind_ok hName).trans (unless_next hRest.2)

theorem selectItemBody_call {p : TokenParser SelectItem} (name : String) {ts rest : List Token}
    {args : List SelectItem} (hArgs : parseArgs p ts = .ok (args, .rParen :: rest)) :
    selectItemBody p (nameTokens name ++ .lParen :: ts) = .ok (.functionCall name args, rest) := by
  have hName : parseName (nameTokens name ++ .lParen :: ts) = .ok (name, .lParen :: ts) :=
    parseName_nameTokens name (by simp)
  refine (bind_ok hName).trans ((when_next .lParen ts).trans ?_)
  rw [bind_ok (skip_apply _ _), bind_ok hArgs]
  exact bind_ok (expect_cons _ _)

mutual

theorem selectItemAt_tokens (item : SelectItem) {n : Nat} (hn : item.tokens.length ≤ n) {rest : List Token}
    (hRest : EndsItem rest) : fixAt tooDeep selectItemBody n (item.tokens ++ rest) = .ok (item, rest) := by
  obtain ⟨t, ts, hTokens, -⟩ := tokens_startsItem item
  obtain ⟨n, rfl⟩ : ∃ m, n = m + 1 := Nat.exists_eq_succ_of_ne_zero (by
    rw [hTokens, List.length_cons] at hn
    omega)
  cases item with
  | field name => exact selectItemBody_field _ name hRest
  | literal lit => exact selectItemBody_literal _ lit rest
  | functionCall name args =>
    cases args with
    | nil =>
      simp only [SelectItem.tokens, List.cons_append, List.append_assoc, List.nil_append]
      exact selectItemBody_call name rfl
    | cons arg args =>
      simp only [SelectItem.tokens, List.length_cons, List.length_append, List.length_nil] at hn
      have hArg := selectItemAt_tokens arg (n := n) (by omega) (endsItem_moreTokens args rest)
      have hTurns := argsAt_tokens args (n := n) (by omega) [arg] rest
      have hStart := head?_tokens_append arg (t := .rParen) rfl (SelectItem.moreTokens args ++ .rParen :: rest)
      simp only [SelectItem.tokens, List.cons_append, List.append_assoc, List.nil_append]
      exact selectItemBody_call name (parseArgs_items hStart hArg hTurns)

theorem argsAt_tokens (args : List SelectItem) {n : Nat} (hn : (SelectItem.moreTokens args).length ≤ n)
    (done : List SelectItem) (rest : List Token) :
    Turns (nextItem isComma (fixAt tooDeep selectItemBody n)) done (SelectItem.moreTokens args ++ .rParen :: rest)
      (done ++ args) (.rParen :: rest) := by
  cases args with
  | nil =>
    rw [List.append_nil]
    exact .stop rfl
  | cons arg args =>
    simp only [SelectItem.moreTokens, List.length_cons, List.length_append] at hn
    have hArg := selectItemAt_tokens arg (n := n) (by omega) (endsItem_moreTokens args rest)
    rw [List.append_cons done arg args, SelectItem.moreTokens, List.cons_append, List.append_assoc]
    refine .next (bind_ok hArg) ?_ (argsAt_tokens args (by omega) (done ++ [arg]) rest)
    simp only [List.length_append, List.length_cons]
    omega

end

theorem parseSelectItem_tokens (item : SelectItem) {rest : List Token} (hRest : EndsItem rest) :
    parseSelectItem (item.tokens ++ rest) = .ok (item, rest) :=
  selectItemAt_tokens item (by simp; omega) hRest

/-! ## Keywords -/

theorem expectKeyword_cons (kw : String) (ts : List Token) : expectKeyword kw (.ident kw :: ts) = .ok ((), ts) := by
  simp [expectKeyword, eqIgnoreAsciiCase_self]

/-! ## Conditions -/

theorem parseCmpOp_token (op : CmpOp) (ts : List Token) : parseCmpOp (op.token :: ts) = .ok (op, ts) := by
  cases op <;> rfl

theorem parseComparison_cmp (field : SelectItem) (op : CmpOp) (value : Literal) (rest : List Token) :
    parseComparison (field.tokens ++ op.token :: (value.tokens ++ rest)) = .ok (.cmp field op value, rest) := by
  have hEnds : EndsItem (op.token :: (value.tokens ++ rest)) := by cases op <;> exact ⟨nofun, nofun⟩
  have hIs : (op.token :: (value.tokens ++ rest)).head? ≠ some .is := by cases op <;> nofun
  rw [parseComparison, bind_ok (parseSelectItem_tokens field hEnds), unless_next hIs, bind_ok (parseCmpOp_token op _)]
  exact bind_ok (parseLiteral_tokens value rest)

theorem parseSelectItem_name (name : String) {rest : List Token} (hRest : EndsItem rest) :
    parseSelectItem (nameTokens name ++ rest) = .ok (.field name, rest) := parseSelectItem_tokens (.field name) hRest

theorem parseComparison_isNull (field : String) (negated : Bool) (rest : List Token) :
    parseComparison ((WhereClause.isNull field negated).tokens ++ rest) = .ok (.isNull field negated, rest) := by
  cases negated <;>
    · rw [WhereClause.tokens, List.append_assoc]
      exact bind_ok (parseSelectItem_name field ⟨by simp, by simp⟩)

theorem parseComparison_tokens {w : WhereClause} (hLeaf : ∀ left right, w ≠ .and left right) (rest : List Token) :
    parseComparison (w.tokens ++ rest) = .ok (w, rest) := by
  cases w with
  | cmp field op value =>
    rw [WhereClause.tokens, List.append_assoc, List.cons_append]
    exact parseComparison_cmp field op value rest
  | and left right => exact absurd rfl (hLeaf left right)
  | isNull field negated => exact parseComparison_isNull field negated rest

theorem whereExprBody_leaf {p : TokenParser WhereClause} {w : WhereClause} (hLeaf : ∀ left right, w ≠ .and left right)
    {rest : List Token} (hRest : rest.head? ≠ some .and) : whereExprBody p (w.tokens ++ rest) = .ok (w, rest) := by
  rw [whereExprBody, bind_ok (parseComparison_tokens hLeaf rest)]
  exact unless_next hRest

/-- The depth of a conjunction is at most the number of its tokens. -/
theorem whereExprAt_tokens {w : WhereClause} (hw : w.RightNested) {n : Nat} (hn : w.tokens.length < n)
    {rest : List Token} (hRest : rest.head? ≠ some .and) :
    fixAt tooDeep whereExprBody n (w.tokens ++ rest) = .ok (w, rest) := by
  induction w generalizing n with
  | cmp field op value =>
    obtain ⟨n, rfl⟩ := Nat.exists_eq_add_of_lt hn
    have hLeaf : ∀ left right, WhereClause.cmp field op value ≠ .and left right := nofun
    exact whereExprBody_leaf hLeaf hRest
  | isNull field negated =>
    obtain ⟨n, rfl⟩ := Nat.exists_eq_add_of_lt hn
    have hLeaf : ∀ left right, WhereClause.isNull field negated ≠ .and left right := nofun
    exact whereExprBody_leaf hLeaf hRest
  | and left right _ ih =>
    obtain ⟨n, rfl⟩ : ∃ m, n = m + 1 := Nat.exists_eq_succ_of_ne_zero (by omega)
    have hLeaf : ∀ l r, left ≠ .and l r := by
      rintro l r rfl
      exact hw
    have hRight : right.RightNested := by cases left <;> first | exact hw | exact hw.elim
    simp only [WhereClause.tokens, List.length_append, List.length_cons] at hn
    rw [WhereClause.tokens, List.append_assoc, List.cons_append]
    change whereExprBody (fixAt tooDeep whereExprBody n) _ = _
    rw [whereExprBody, bind_ok (parseComparison_tokens hLeaf _), when_next, bind_ok (skip_apply _ _)]
    exact bind_ok (ih hRight (by omega))

theorem parseWhereClause_tokens {filter : Option WhereClause} (hFilter : ∀ w ∈ filter, w.RightNested)
    {rest : List Token} (hWhere : rest.head? ≠ some .where') (hAnd : rest.head? ≠ some .and) :
    parseWhereClause (whereTokens filter ++ rest) = .ok (filter, rest) := by
  cases filter with
  | none => exact unless_next hWhere
  | some w =>
    have hExpr : parseWhereExpr (w.tokens ++ rest) = .ok (w, rest) :=
      whereExprAt_tokens (hFilter w rfl) (by simp) hAnd
    exact (when_next _ _).trans (bind_ok hExpr)

/-! ## Clauses -/

omit [Debug] in
theorem toInt_ofNat {n : Nat} (h : Positive n) : (Int64.ofNat n).toInt = n :=
  Int64.toInt_ofNat_of_lt h.2

omit [Debug] in
theorem toNatClampNeg_ofNat {n : Nat} (h : Positive n) : (Int64.ofNat n).toNatClampNeg = n :=
  congrArg Int.toNat (toInt_ofNat h)

theorem expectPositiveInt_cons (what : String) {n : Nat} (h : Positive n) (ts : List Token) :
    expectPositiveInt what (intToken n :: ts) = .ok (n, ts) := by
  have hPos := h.1
  simp [expectPositiveInt, intToken, toInt_ofNat h, toNatClampNeg_ofNat h, hPos]

theorem parseMaxIter_cons {n : Nat} (h : Positive n) (ts : List Token) :
    parseMaxIter (intToken n :: ts) = .ok (n, ts) := by
  have hPos := h.1
  simp [parseMaxIter, intToken, toInt_ofNat h, toNatClampNeg_ofNat h, hPos]

theorem parseLimit_tokens {limit : Option Nat} (hLimit : ∀ n ∈ limit, Positive n) {rest : List Token}
    (hRest : rest.head? ≠ some .limit) : parseLimit (limitTokens limit ++ rest) = .ok (limit, rest) := by
  cases limit with
  | none => exact unless_next hRest
  | some n =>
    have hn := hLimit n rfl
    have hPos := hn.1
    simp [parseLimit, limitTokens, intToken, toInt_ofNat hn, toNatClampNeg_ofNat hn, hPos, nextIs]

theorem parseOrderKey_tokens (key : OrderKey) (rest : List Token) :
    parseOrderKey (key.tokens ++ rest) = .ok (key, rest) := by
  obtain ⟨field, descending⟩ := key
  cases descending with
  | false =>
    rw [OrderKey.tokens, if_neg Bool.false_ne_true]
    rfl
  | true =>
    rw [OrderKey.tokens, if_pos rfl]
    rfl

theorem parseOrderBy_tokens (keys : List OrderKey) {rest : List Token} (hRest : NoIdent rest)
    (hComma : rest.head? ≠ some .comma) : parseOrderBy (orderByTokens keys ++ rest) = .ok (keys, rest) := by
  cases keys with
  | nil => exact bind_ok (consumeKeyword_of_noIdent "ORDER" hRest)
  | cons key keys =>
    exact commaList_joinTokens (List.cons_ne_nil _ _) hComma fun key _ ts _ => parseOrderKey_tokens key ts

theorem parseGroupBy_tokens (groupBy : Option String) {rest : List Token} (hRest : NoIdent rest) :
    parseGroupBy (groupByTokens groupBy ++ rest) = .ok (groupBy, rest) := by
  cases groupBy with
  | none => exact bind_ok (consumeKeyword_of_noIdent "GROUP" hRest)
  | some field => rfl

theorem parseFieldAssignment_tokens (a : String × Literal) (rest : List Token) :
    parseFieldAssignment (assignmentTokens a ++ rest) = .ok (a, rest) :=
  bind_ok (parseLiteral_tokens a.2 rest)

theorem parseSetClause_tokens {fields : Assignments} (hNe : fields ≠ []) {rest : List Token}
    (hRest : rest.head? ≠ some .comma) :
    parseSetClause (joinTokens .comma assignmentTokens fields ++ rest) = .ok (fields, rest) :=
  commaList_joinTokens hNe hRest fun a _ ts _ => parseFieldAssignment_tokens a ts

theorem parseOnConflict_tokens {onConflict : Option OnConflict} (h : ∀ c ∈ onConflict, c.WellFormed)
    {rest : List Token} (hOn : rest.head? ≠ some .on) (hSet : rest.head? ≠ some .set)
    (hComma : rest.head? ≠ some .comma) :
    parseOnConflict (onConflictTokens onConflict ++ rest) = .ok (onConflict, rest) := by
  cases onConflict with
  | none => exact unless_next hOn
  | some c =>
    cases c with
    | update => exact unless_next hSet
    | updateSet fields => exact bind_ok (parseSetClause_tokens (h _ rfl) hComma)

theorem parseOnTable_tokens (table : String) (rest : List Token) :
    parseOnTable (onTableTokens table ++ rest) = .ok (table, rest) := rfl

theorem parseRecordRef_tokens (r : RecordRef) (rest : List Token) :
    parseRecordRef (r.tokens ++ rest) = .ok (r, rest) := rfl

theorem parseFromTarget_tokens (target : FromTarget) {rest : List Token} (hRest : rest.head? ≠ some .colon) :
    parseFromTarget (target.tokens ++ rest) = .ok (target, rest) := by
  cases target with
  | table name => exact unless_next hRest
  | record r => rfl

theorem parseId_tokens (id : Option String) {rest : List Token} (hRest : rest.head? ≠ some .colon) :
    parseId (idTokens id ++ rest) = .ok (id, rest) := by
  cases id with
  | none => exact unless_next hRest
  | some id => rfl

theorem vectorElements_float (vector : List F64) : vectorElements (vector.map .float) = .ok vector := by
  induction vector with
  | nil => rfl
  | cons f vector ih => simp [vectorElements, ih, bind, Except.bind, pure, Except.pure]

theorem parseVectorLiteral_tokens (vector : List F64) (rest : List Token) :
    parseVectorLiteral (vectorTokens vector ++ rest) = .ok (vector, rest) := by
  rw [parseVectorLiteral, vectorTokens, bind_ok (parseLiteral_tokens _ rest)]
  simp only [vectorElements_float]
  rfl

/-! ## Traversal chains -/

theorem nextHop_tokens (hops : List TraversalHop) (hop : TraversalHop) (rest : List Token) :
    nextHop hops (hop.tokens ++ rest) = .ok (some (hops ++ [hop]), rest) := by
  obtain ⟨direction, edgeType, destTable⟩ := hop
  cases direction <;> rfl

/-- No hop begins here. -/
def EndsChain (rest : List Token) : Prop := rest.head? ≠ some .arrow ∧ rest.head? ≠ some .backArrow

theorem turns_nextHop (hops : List TraversalHop) (done : List TraversalHop) {rest : List Token}
    (hRest : EndsChain rest) :
    Turns nextHop done (hops.flatMap TraversalHop.tokens ++ rest) (done ++ hops) rest := by
  induction hops generalizing done with
  | nil =>
    rw [List.append_nil]
    refine .stop ?_
    have hNone : parseDirection rest = .ok (none, rest) := by
      rw [parseDirection, bind_ok (peek_apply rest)]
      obtain ⟨hArrow, hBack⟩ := hRest
      cases rest with
      | nil => rfl
      | cons t rest => cases t <;> first | rfl | exact absurd rfl hArrow | exact absurd rfl hBack
    exact bind_ok hNone
  | cons hop hops ih =>
    rw [List.append_cons done hop hops, List.flatMap_cons, List.append_assoc]
    refine .next (nextHop_tokens done hop _) ?_ (ih _)
    simp only [TraversalHop.tokens, List.length_append, List.length_cons]
    omega

theorem parseTraversalChain_tokens {chain : TraversalChain} (hNe : chain.hops ≠ []) {rest : List Token}
    (hRest : EndsChain rest) (hDot : rest.head? ≠ some .dot) :
    parseTraversalChain (chain.tokens ++ rest) = .ok (chain, rest) := by
  obtain ⟨hops, projection⟩ := chain
  have hEnds : EndsChain (projectionTokens projection ++ rest) := by
    cases projection with
    | none => exact hRest
    | some field => exact ⟨nofun, nofun⟩
  have hIsEmpty : hops.isEmpty = false := List.isEmpty_eq_false_iff.mpr hNe
  have hTurns := turns_nextHop hops [] hEnds
  rw [TraversalChain.tokens, List.append_assoc, parseTraversalChain, bind_ok (iterate_of_turns hTurns),
    List.nil_append, hIsEmpty, if_neg Bool.false_ne_true]
  cases projection with
  | none => exact unless_next hDot
  | some field => rfl

theorem parseSelectFields_tokens {fields : SelectFields} (h : fields.WellFormed) (rest : List Token) :
    parseSelectFields (fields.tokens ++ .from' :: rest) = .ok (fields, .from' :: rest) := by
  cases fields with
  | all => rfl
  | named items =>
    have hItem : ∀ item ∈ items, ∀ ts : List Token, (ts = .from' :: rest ∨ ts.head? = some .comma) →
        parseSelectItem (item.tokens ++ ts) = .ok (item, ts) := by
      rintro item - ts hTs
      refine parseSelectItem_tokens item ?_
      obtain rfl | hTs := hTs
      · exact ⟨by simp, by simp⟩
      · exact ⟨by simp [hTs], by simp [hTs]⟩
    have hItems := commaList_joinTokens h (by simp) hItem
    obtain ⟨item, items, rfl⟩ := List.exists_cons_of_ne_nil h
    have hHead : ∀ t : Token, t.startsItem = Bool.false →
        ((SelectFields.named (item :: items)).tokens ++ .from' :: rest).head? ≠ some t := by
      rintro t ht
      rw [SelectFields.tokens, joinTokens, List.append_assoc]
      exact head?_tokens_append item ht _
    rw [parseSelectFields, bind_ok (peek_apply _), if_neg (hHead .star rfl),
      if_neg (not_or.mpr ⟨hHead .arrow rfl, hHead .backArrow rfl⟩)]
    exact bind_ok hItems
  | traversal chain =>
    have hChain : parseTraversalChain (chain.tokens ++ .from' :: rest) = .ok (chain, .from' :: rest) :=
      parseTraversalChain_tokens h ⟨by simp, by simp⟩ (by simp)
    have hHead : (chain.tokens ++ .from' :: rest).head? ≠ some .star ∧
        ((chain.tokens ++ .from' :: rest).head? = some .arrow ∨
          (chain.tokens ++ .from' :: rest).head? = some .backArrow) := by
      obtain ⟨hops, projection⟩ := chain
      obtain ⟨hop, hops, rfl⟩ := List.exists_cons_of_ne_nil h
      obtain ⟨direction, edgeType, destTable⟩ := hop
      cases direction with
      | out => exact ⟨(fun heq => by cases heq), .inl rfl⟩
      | in' => exact ⟨(fun heq => by cases heq), .inr rfl⟩
    rw [SelectFields.tokens, parseSelectFields, bind_ok (peek_apply _), if_neg hHead.1, if_pos hHead.2]
    exact bind_ok hChain

/-! ## Statements -/

/-- The parser reads the statement back in front of an `OUTCOME` clause. -/
def ReadsBack (s : Statement) : Prop :=
  ∀ rest, parseStatement (s.tokens ++ .outcome :: rest) = .ok (s, .outcome :: rest)

omit [Debug] in
theorem noIdent_outcome (rest : List Token) : NoIdent (.outcome :: rest) := nofun

omit [Debug] in
theorem noIdent_limitTokens (limit : Option Nat) (rest : List Token) :
    NoIdent (limitTokens limit ++ .outcome :: rest) :=
  fun _ => (begins_limitTokens limit).head?_ne nofun nofun

theorem parseLimit_last {limit : Option Nat} (hLimit : ∀ n ∈ limit, Positive n) (rest : List Token) :
    parseLimit (limitTokens limit ++ .outcome :: rest) = .ok (limit, .outcome :: rest) :=
  parseLimit_tokens hLimit nofun

theorem parseWhereClause_last {filter : Option WhereClause} (hFilter : ∀ w ∈ filter, w.RightNested)
    (rest : List Token) : parseWhereClause (whereTokens filter ++ .outcome :: rest) = .ok (filter, .outcome :: rest) :=
  parseWhereClause_tokens hFilter nofun nofun

theorem parseWhereClause_limit {filter : Option WhereClause} (hFilter : ∀ w ∈ filter, w.RightNested)
    (limit : Option Nat) (rest : List Token) :
    parseWhereClause (whereTokens filter ++ (limitTokens limit ++ .outcome :: rest)) =
      .ok (filter, limitTokens limit ++ .outcome :: rest) :=
  parseWhereClause_tokens hFilter ((begins_limitTokens limit).head?_ne nofun nofun)
    ((begins_limitTokens limit).head?_ne nofun nofun)

theorem parseSetClause_last {fields : Assignments} (hNe : fields ≠ []) (rest : List Token) :
    parseSetClause (joinTokens .comma assignmentTokens fields ++ .outcome :: rest) =
      .ok (fields, .outcome :: rest) :=
  parseSetClause_tokens hNe nofun

theorem readsBack_create (table : String) (id : Option String) {fields : Assignments} {onConflict : Option OnConflict}
    (h : (Statement.create table id fields onConflict).WellFormed) :
    ReadsBack (.create table id fields onConflict) := by
  intro rest
  have hConflict : parseOnConflict (onConflictTokens onConflict ++ .outcome :: rest) = .ok (onConflict, .outcome :: rest) :=
    parseOnConflict_tokens h.2 nofun nofun nofun
  have hComma : (onConflictTokens onConflict ++ .outcome :: rest).head? ≠ some .comma :=
    (begins_onConflictTokens onConflict).head?_ne nofun nofun
  have hSet := parseSetClause_tokens h.1 hComma
  simp only [Statement.tokens, setTokens, List.cons_append, List.append_assoc]
  refine (bind_ok (parseId_tokens id (by simp))).trans ?_
  rw [bind_ok (expect_cons _ _), bind_ok hSet]
  exact bind_ok hConflict

theorem readsBack_select {fields : SelectFields} {source : FromTarget} {filter : Option WhereClause}
    {orderBy : List OrderKey} {limit : Option Nat}
    (h : (Statement.select fields source filter orderBy limit).WellFormed) :
    ReadsBack (.select fields source filter orderBy limit) := by
  intro rest
  obtain ⟨hFields, hFilter, hLimit⟩ := h
  have hHead : ∀ t : Token, t ≠ .ident "ORDER" → t ≠ .limit → t ≠ .outcome →
      (orderByTokens orderBy ++ (limitTokens limit ++ .outcome :: rest)).head? ≠ some t := by
    intro t hOrder hLim hOutcome
    refine (begins_orderByTokens orderBy).head?_ne hOrder ((begins_limitTokens limit).head?_ne hLim ?_)
    rintro hEq
    cases hEq
    exact hOutcome rfl
  have hComma : (limitTokens limit ++ .outcome :: rest).head? ≠ some .comma :=
    (begins_limitTokens limit).head?_ne nofun nofun
  have hColon : (whereTokens filter ++ (orderByTokens orderBy ++ (limitTokens limit ++ .outcome :: rest))).head? ≠
      some .colon := (begins_whereTokens filter).head?_ne nofun (hHead .colon nofun nofun nofun)
  have hWhere := parseWhereClause_tokens hFilter (hHead .where' nofun nofun nofun) (hHead .and nofun nofun nofun)
  have hOrder := parseOrderBy_tokens orderBy (noIdent_limitTokens limit rest) hComma
  simp only [Statement.tokens, List.cons_append, List.append_assoc]
  refine (bind_ok (parseSelectFields_tokens hFields _)).trans ?_
  rw [bind_ok (expect_cons _ _), bind_ok (parseFromTarget_tokens source hColon), bind_ok hWhere, bind_ok hOrder]
  exact bind_ok (parseLimit_last hLimit rest)

theorem readsBack_delete (table id : String) : ReadsBack (.delete table id) := fun _ => rfl

theorem readsBack_deleteWhere (table : String) {filter : Option WhereClause} (h : ∀ w ∈ filter, w.RightNested) :
    ReadsBack (.deleteWhere table filter) := by
  intro rest
  have hColon : (whereTokens filter ++ .outcome :: rest).head? ≠ some .colon :=
    (begins_whereTokens filter).head?_ne nofun nofun
  exact (unless_next hColon).trans (bind_ok (parseWhereClause_last h rest))

theorem readsBack_relate (src : RecordRef) (edgeType : String) (dst : RecordRef) (fields : Assignments) :
    ReadsBack (.relate src edgeType dst fields) := by
  intro rest
  cases fields with
  | nil => rfl
  | cons a fields =>
    have hSet := parseSetClause_last (List.cons_ne_nil a fields) rest
    simp only [Statement.tokens, setTokens, List.cons_append, List.append_assoc]
    exact bind_ok hSet

theorem readsBack_update (target : FromTarget) {fields : Assignments} {filter : Option WhereClause}
    (h : (Statement.update target fields filter).WellFormed) : ReadsBack (.update target fields filter) := by
  intro rest
  have hComma : (whereTokens filter ++ .outcome :: rest).head? ≠ some .comma :=
    (begins_whereTokens filter).head?_ne nofun nofun
  have hSet := parseSetClause_tokens h.1 hComma
  simp only [Statement.tokens, setTokens, List.cons_append, List.append_assoc]
  refine (bind_ok (parseFromTarget_tokens target (by simp))).trans ?_
  rw [bind_ok (expect_cons _ _), bind_ok hSet]
  exact bind_ok (parseWhereClause_last h.2 rest)

theorem readsBack_count (table : String) {filter : Option WhereClause} (groupBy : Option String)
    (h : ∀ w ∈ filter, w.RightNested) : ReadsBack (.count table filter groupBy) := by
  intro rest
  have hBegins : Begins (.ident "GROUP") (groupByTokens groupBy) := begins_optionTokens _ _ _
  have hWhere : parseWhereClause (whereTokens filter ++ (groupByTokens groupBy ++ .outcome :: rest)) =
      .ok (filter, groupByTokens groupBy ++ .outcome :: rest) :=
    parseWhereClause_tokens h (hBegins.head?_ne nofun nofun) (hBegins.head?_ne nofun nofun)
  simp only [Statement.tokens, List.cons_append, List.append_assoc]
  exact (bind_ok hWhere).trans (bind_ok (parseGroupBy_tokens groupBy (noIdent_outcome rest)))

theorem readsBack_defineIndex (name table : String) {fields : List String} (unique : Bool) (h : fields ≠ []) :
    ReadsBack (.defineIndex name table fields unique) := by
  intro rest
  have hFields : ∀ ts : List Token, ts.head? ≠ some .comma →
      commaList expectIdent (joinTokens .comma (fun field => [.ident field]) fields ++ ts) = .ok (fields, ts) :=
    fun ts hComma => commaList_joinTokens h hComma fun field _ ts _ => expectIdent_cons field ts
  simp only [Statement.tokens, List.cons_append, List.append_assoc]
  cases unique with
  | false => exact bind_ok (hFields (.outcome :: rest) nofun)
  | true => exact bind_ok (hFields (.ident "UNIQUE" :: .outcome :: rest) nofun)

theorem optional_ident_last (kw : String) (name : Option String) (rest : List Token) :
    optional kw expectIdent (optionTokens kw (fun s => [.ident s]) name ++ .outcome :: rest) =
      .ok (name, .outcome :: rest) :=
  optional_tokens (noIdent_outcome rest) fun s _ => expectIdent_cons s _

theorem optional_int_last (kw : String) {n : Option Nat} (h : ∀ m ∈ n, Positive m) (rest : List Token) :
    optional kw (expectPositiveInt kw) (optionTokens kw (fun n => [intToken n]) n ++ .outcome :: rest) =
      .ok (n, .outcome :: rest) :=
  optional_tokens (noIdent_outcome rest) fun m hm => expectPositiveInt_cons kw (h m hm) _

theorem readsBack_defineFulltextIndex (name table field : String) (analyzer : Option String) :
    ReadsBack (.defineFulltextIndex name table field analyzer) := by
  intro rest
  simp only [Statement.tokens, List.cons_append, List.append_assoc]
  exact bind_ok (optional_ident_last "ANALYZER" analyzer rest)

theorem readsBack_defineVectorIndex (name table field : String) {dim : Nat} (metric : Option String)
    (h : Positive dim) : ReadsBack (.defineVectorIndex name table field dim metric) := by
  intro rest
  simp only [Statement.tokens, List.cons_append, List.append_assoc]
  exact (bind_ok (expectPositiveInt_cons "DIMENSION" h _)).trans (bind_ok (optional_ident_last "METRIC" metric rest))

theorem readsBack_search (table field query : String) {filter : Option WhereClause} {limit : Option Nat}
    (h : (Statement.search table field query filter limit).WellFormed) :
    ReadsBack (.search table field query filter limit) := by
  intro rest
  simp only [Statement.tokens, List.cons_append, List.append_assoc]
  exact (bind_ok (parseWhereClause_limit h.1 limit rest)).trans (bind_ok (parseLimit_last h.2 rest))

theorem readsBack_vectorSearch (table field : String) (vector : List F64) {filter : Option WhereClause} {k : Option Nat}
    (h : (Statement.vectorSearch table field vector filter k).WellFormed) :
    ReadsBack (.vectorSearch table field vector filter k) := by
  intro rest
  have hBegins : Begins (.ident "K") (optionTokens "K" (fun n => [intToken n]) k) := begins_optionTokens _ _ _
  have hWhere : parseWhereClause
        (whereTokens filter ++ (optionTokens "K" (fun n => [intToken n]) k ++ .outcome :: rest)) =
      .ok (filter, optionTokens "K" (fun n => [intToken n]) k ++ .outcome :: rest) :=
    parseWhereClause_tokens h.1 (hBegins.head?_ne nofun nofun) (hBegins.head?_ne nofun nofun)
  simp only [Statement.tokens, List.cons_append, List.append_assoc]
  refine (bind_ok (parseVectorLiteral_tokens vector _)).trans ?_
  rw [bind_ok hWhere]
  exact bind_ok (optional_int_last "K" h.2 rest)

theorem readsBack_hybridSearch (table textField query vectorField : String) (vector : List F64) (alpha : Option F64)
    {filter : Option WhereClause} {limit : Option Nat}
    (h : (Statement.hybridSearch table textField query vectorField vector alpha filter limit).WellFormed) :
    ReadsBack (.hybridSearch table textField query vectorField vector alpha filter limit) := by
  intro rest
  have hNoIdent : NoIdent (whereTokens filter ++ (limitTokens limit ++ .outcome :: rest)) :=
    fun s => (begins_whereTokens filter).head?_ne nofun (noIdent_limitTokens limit rest s)
  have hAlpha : optional "ALPHA" (expectNumber "ALPHA") (optionTokens "ALPHA" (fun f => [.floatLit f]) alpha ++
        (whereTokens filter ++ (limitTokens limit ++ .outcome :: rest))) =
      .ok (alpha, whereTokens filter ++ (limitTokens limit ++ .outcome :: rest)) :=
    optional_tokens hNoIdent fun _ _ => rfl
  simp only [Statement.tokens, List.cons_append, List.append_assoc]
  refine (bind_ok (parseVectorLiteral_tokens vector _)).trans ?_
  rw [bind_ok hAlpha, bind_ok (parseWhereClause_limit h.1 limit rest)]
  exact bind_ok (parseLimit_last h.2 rest)

/-! ## Graph statements -/

theorem readsBack_graphCommunities (table : String) (algorithm : CommunityAlgorithm) {maxIterations : Nat}
    (resolution : F64) (h : Positive maxIterations) :
    ReadsBack (.graphCommunities table algorithm maxIterations resolution) := by
  intro rest
  have hAlgorithm : ∀ (o : CommunityOptions) (ts : List Token),
      nextCommunityOption o (.ident "ALGORITHM" :: .ident algorithm.keyword :: ts) =
        .ok (some { o with algorithm }, ts) := by
    intro o ts
    cases algorithm <;> rfl
  have hMaxIter : ∀ (o : CommunityOptions) (ts : List Token),
      nextCommunityOption o (.ident "MAX_ITER" :: intToken maxIterations :: ts) =
        .ok (some { o with maxIterations }, ts) :=
    fun o ts => bind_ok (parseMaxIter_cons h ts)
  have hTurns : Turns nextCommunityOption ⟨.louvain, 10, F64.ofDecimal false 1 0⟩
      (.ident "ALGORITHM" :: .ident algorithm.keyword :: .ident "MAX_ITER" :: intToken maxIterations ::
        .ident "RESOLUTION" :: .floatLit resolution :: .outcome :: rest)
      ⟨algorithm, maxIterations, resolution⟩ (.outcome :: rest) := by
    refine .next (hAlgorithm _ _) (by simp) (.next (hMaxIter _ _) (by simp) (.next rfl (by simp) (.stop rfl)))
  exact bind_ok (iterate_of_turns hTurns)

theorem readsBack_graphPagerank (table : String) (damping : F64) {maxIterations : Nat} {limit : Option Nat}
    (h : (Statement.graphPagerank table damping maxIterations limit).WellFormed) :
    ReadsBack (.graphPagerank table damping maxIterations limit) := by
  intro rest
  have hMaxIter : ∀ (o : PagerankOptions) (ts : List Token),
      nextPagerankOption o (.ident "MAX_ITER" :: intToken maxIterations :: ts) =
        .ok (some { o with maxIterations }, ts) :=
    fun o ts => bind_ok (expectPositiveInt_cons "MAX_ITER" h.1 ts)
  have hStop : ∀ o : PagerankOptions, nextPagerankOption o (limitTokens limit ++ .outcome :: rest) =
      .ok (none, limitTokens limit ++ .outcome :: rest) := by
    intro o
    have hNoIdent := noIdent_limitTokens limit rest
    exact (bind_ok (consumeKeyword_of_noIdent "DAMPING" hNoIdent)).trans
      (bind_ok (consumeKeyword_of_noIdent "MAX_ITER" hNoIdent))
  have hTurns : Turns nextPagerankOption ⟨F64.ofDecimal false 85 (-2), 100⟩
      (.ident "DAMPING" :: .floatLit damping :: .ident "MAX_ITER" :: intToken maxIterations ::
        (limitTokens limit ++ .outcome :: rest))
      ⟨damping, maxIterations⟩ (limitTokens limit ++ .outcome :: rest) :=
    .next rfl (by simp) (.next (hMaxIter _ _) (by simp) (.stop (hStop _)))
  simp only [Statement.tokens, List.cons_append]
  exact (bind_ok (iterate_of_turns hTurns)).trans (bind_ok (parseLimit_last h.2 rest))

theorem readsBack_graphCentrality (table : String) (mode : CentralityMode) {limit : Option Nat}
    (h : ∀ n ∈ limit, Positive n) : ReadsBack (.graphCentrality table mode limit) := by
  intro rest
  cases mode <;> exact bind_ok (parseLimit_last h rest)

theorem readsBack_graphPath (src dst table : String) {maxDepth : Option Nat} (h : ∀ n ∈ maxDepth, Positive n) :
    ReadsBack (.graphPath src dst table maxDepth) :=
  fun rest => bind_ok (optional_int_last "MAX_DEPTH" h rest)

theorem readsBack_graphEdges (table : String) {filter : Option WhereClause} (h : ∀ w ∈ filter, w.RightNested) :
    ReadsBack (.graphEdges table filter) :=
  fun rest => bind_ok (parseWhereClause_last h rest)

/-! ## Queries -/

theorem readsBack_of_wellFormed {s : Statement} (h : s.WellFormed) : ReadsBack s := by
  cases s with
  | create => exact readsBack_create _ _ h
  | select => exact readsBack_select h
  | delete => exact readsBack_delete _ _
  | deleteWhere => exact readsBack_deleteWhere _ h
  | relate => exact readsBack_relate _ _ _ _
  | graphCommunities => exact readsBack_graphCommunities _ _ _ h
  | update => exact readsBack_update _ h
  | count => exact readsBack_count _ _ h
  | graphComponents => exact fun _ => rfl
  | defineIndex => exact readsBack_defineIndex _ _ _ h
  | removeIndex => exact fun _ => rfl
  | compact => exact fun _ => rfl
  | defineFulltextIndex => exact readsBack_defineFulltextIndex _ _ _ _
  | defineVectorIndex => exact readsBack_defineVectorIndex _ _ _ _ h
  | search => exact readsBack_search _ _ _ h
  | vectorSearch => exact readsBack_vectorSearch _ _ _ h
  | hybridSearch => exact readsBack_hybridSearch _ _ _ _ _ _ h
  | graphPagerank => exact readsBack_graphPagerank _ _ h
  | graphCentrality => exact readsBack_graphCentrality _ _ h
  | graphPath => exact readsBack_graphPath _ _ _ h
  | graphEdges => exact readsBack_graphEdges _ h

theorem parseOutcome_tokens (outcome : OutcomeFormat) (rest : List Token) :
    parseOutcome (.outcome :: .ident outcome.keyword :: rest) = .ok (outcome, rest) := by
  cases outcome <;> rfl

theorem parseQuery_tokens {q : Query} (h : q.statement.WellFormed) (rest : List Token) :
    parseQuery (q.tokens ++ rest) = .ok (q, rest) := by
  have hStatement := readsBack_of_wellFormed h (.ident q.outcome.keyword :: rest)
  rw [Query.tokens, List.append_assoc]
  exact (bind_ok hStatement).trans (bind_ok (parseOutcome_tokens q.outcome rest))

theorem parseTokens_tokens {q : Query} (h : q.statement.WellFormed) : parseTokens q.tokens = .ok q := by
  have hQuery := parseQuery_tokens h []
  rw [List.append_nil] at hQuery
  rw [parseTokens, hQuery]
  rfl

/-- A well-formed query is read back from its tokens, to the last of them. -/
theorem parser_round_trip {q : Query} (h : q.statement.WellFormed) :
    parseQuery q.tokens = .ok (q, []) ∧ parseTokens q.tokens = .ok q := by
  refine ⟨?_, parseTokens_tokens h⟩
  have hQuery := parseQuery_tokens h []
  rwa [List.append_nil] at hQuery

end

namespace Concrete

/-- Words are shown between quotes; no float is shown below. -/
scoped instance quoted : Debug := ⟨fun s => "\"" ++ s ++ "\"", fun _ => ""⟩

end Concrete

section Runs

open Concrete

/-- Keywords that are identifiers elsewhere stand as names in front of themselves. -/
theorem parser_round_trip_keywords :
    let q : Query := ⟨.count "WHERE_" (some (.and
      (.cmp (.functionCall "LIMIT_::by" [.field "GROUP", .literal (.array [.array [], .int 1])]) .lte .none)
      (.isNull "ORDER" true))) (some "BY"), .csv⟩
    parseQuery q.tokens = .ok (q, []) ∧ parseTokens q.tokens = .ok q := by
  refine parser_round_trip ?_
  rintro w hw
  cases hw
  trivial

end Runs

section

variable [Debug]

theorem parseTokens_semicolon {q : Query} (h : q.statement.WellFormed) :
    parseTokens (q.tokens ++ [.semicolon]) = .ok q := by
  rw [parseTokens, parseQuery_tokens h]
  rfl

/-- Whatever white space stands between its tokens, the text of a well-formed query is parsed as the query. -/
theorem parse_of_rendered {q : Query} (h : q.statement.WellFormed) {chars : List Char}
    (hChars : Rendered q.tokens chars) : parse (String.ofList chars) = .ok q := by
  rw [parse, hChars.scans.tokenize]
  exact parseTokens_tokens h

end

end Dllb
