import Mathlib
import Dllb.Query.CacheTransparent

/-! # A connection

The server reads lines and answers each of them, or a block of them between
`BEGIN BATCH` and `END BATCH`. The loop that reads a block also ends when there
is nothing more to read.
-/

namespace Dllb.Server

set_option autoImplicit false

/-! ## Lines -/

/-- The white space of Unicode. -/
def isWhitespace (c : Char) : Bool :=
  (0x09 ≤ c.toNat && c.toNat ≤ 0x0D) || (0x2000 ≤ c.toNat && c.toNat ≤ 0x200A) ||
    c.toNat ∈ [0x20, 0x85, 0xA0, 0x1680, 0x2028, 0x2029, 0x202F, 0x205F, 0x3000]

def trimStartBy (p : Char → Bool) (s : List Char) : List Char := s.dropWhile p

def trimEndBy (p : Char → Bool) (s : List Char) : List Char := (s.reverse.dropWhile p).reverse

def trim (s : List Char) : List Char := trimEndBy isWhitespace (trimStartBy isWhitespace s)

/-- The text of a line without white space and semicolons around it. -/
def queryOf (line : String) : String := String.ofList (trim (trimEndBy (· == ';') (trim line.toList)))

def eqIgnoreAsciiCase (a b : String) : Bool := a.toList.map Char.toLower == b.toList.map Char.toLower

/-- A line, with the UUID that is drawn for its statement if it asks for one. -/
structure Line where
  text : String
  uuid : String

/-- What a read yields until the end of the stream. -/
inductive Read where
  | line (l : Line)
  | failed

/-! ## Blocks -/

/-- A block while it is read: its lines that are not empty, the statements and the first error. -/
structure OpenBlock where
  lines : List String
  stmts : List Issued
  err : Option String

def OpenBlock.empty : OpenBlock := ⟨[], [], none⟩

/-- A block that was left: whether by `END BATCH`, and the statements that were executed. -/
structure BlockRun where
  lines : List String
  closed : Bool
  executed : List Issued
  before : Store
  after : Store

structure Session where
  shared : Shared
  responses : List String
  log : List BlockRun

section

variable [Rmp] [CodeIntel] [Texts] [GraphAlgorithms]
variable (ex : QueryExecutor) (parse : String → Result Query)

def OpenBlock.push (b : OpenBlock) (query uuid : String) : OpenBlock :=
  match b.err with
  | some e => { b with lines := b.lines ++ [query], err := some e }
  | none =>
    match parse query with
    | .ok q => { b with lines := b.lines ++ [query], stmts := b.stmts ++ [⟨uuid, q.statement⟩] }
    | .error e => { b with lines := b.lines ++ [query], err := some (formatError e .json) }

/-- What follows the loop that reads a block. -/
def finish (b : OpenBlock) (closed : Bool) (st : Session) : Session :=
  match b.err with
  | some response =>
    { st with
      responses := st.responses ++ [response]
      log := st.log ++ [⟨b.lines, closed, [], st.shared.store, st.shared.store⟩] }
  | none =>
    let ran := ex.runBatch b.stmts st.shared
    { shared := ran.2
      responses := st.responses ++ [Call.response (ran.1.map (·, .json))]
      log := st.log ++ [⟨b.lines, closed, b.stmts, st.shared.store, ran.2.store⟩] }

def answer (query uuid : String) (st : Session) : Session :=
  let ran := ex.run uuid (parse query) st.shared
  { st with shared := ran.2, responses := st.responses ++ [Call.response ran.1] }

/-- The loops of a connection, the inner one while a block is open. A response that cannot be
written ends the connection: `fails` says which, by their number. -/
def serve (fails : Nat → Bool) : List Read → Option OpenBlock → Session → Session
  | [], none, st => st
  | [], some b, st => finish ex b false st
  | .failed :: _, none, st => st
  | .failed :: reads, some b, st =>
    if fails st.responses.length then finish ex b false st
    else serve fails reads none (finish ex b false st)
  | .line l :: reads, none, st =>
    let query := queryOf l.text
    if query = "" then serve fails reads none st
    else if eqIgnoreAsciiCase query "BEGIN BATCH" then serve fails reads (some .empty) st
    else if fails st.responses.length then answer ex parse query l.uuid st
    else serve fails reads none (answer ex parse query l.uuid st)
  | .line l :: reads, some b, st =>
    let query := queryOf l.text
    if eqIgnoreAsciiCase query "END BATCH" then
      if fails st.responses.length then finish ex b true st
      else serve fails reads none (finish ex b true st)
    else if query = "" then serve fails reads (some b) st
    else serve fails reads (some (b.push parse query l.uuid)) st

end

/-- The blocks of the input, each with its lines that are not empty and whether `END BATCH` came;
`n` responses have been written so far. -/
def blocks (fails : Nat → Bool) : List Read → Option (List String) → Nat → List (List String × Bool)
  | [], none, _ => []
  | [], some lines, _ => [(lines, false)]
  | .failed :: _, none, _ => []
  | .failed :: reads, some lines, n => (lines, false) :: if fails n then [] else blocks fails reads none (n + 1)
  | .line l :: reads, none, n =>
    let query := queryOf l.text
    if query = "" then blocks fails reads none n
    else if eqIgnoreAsciiCase query "BEGIN BATCH" then blocks fails reads (some []) n
    else if fails n then [] else blocks fails reads none (n + 1)
  | .line l :: reads, some lines, n =>
    let query := queryOf l.text
    if eqIgnoreAsciiCase query "END BATCH" then
      (lines, true) :: if fails n then [] else blocks fails reads none (n + 1)
    else if query = "" then blocks fails reads (some lines) n
    else blocks fails reads (some (lines ++ [query])) n

def Parses (parse : String → Result Query) (line : String) : Prop := ∃ q, parse line = .ok q

/-- Statements are executed only if the block was closed and every line of it parsed, and a block
that was cut off changes nothing. -/
structure BlockRun.Safe (parse : String → Result Query) (run : BlockRun) : Prop where
  executed : run.executed ≠ [] → run.closed = true ∧ ∀ line ∈ run.lines, Parses parse line
  cutOff : run.closed = false → run.after = run.before

/-! ## What the loop does with a block -/

/-- The statements and the error of a block are those of its lines. -/
structure OpenBlock.Ok (parse : String → Result Query) (b : OpenBlock) : Prop where
  parsed : b.err = none → ∀ line ∈ b.lines, Parses parse line
  failed : b.err ≠ none → ∃ line ∈ b.lines, ¬ Parses parse line
  stmts : b.err = none → b.stmts.length = b.lines.length

/-- A block is executed exactly if its lines parsed, whether it was closed or not. -/
structure BlockRun.Ok (parse : String → Result Query) (run : BlockRun) : Prop where
  executed : run.executed ≠ [] ↔ run.lines ≠ [] ∧ ∀ line ∈ run.lines, Parses parse line
  unchanged : run.executed = [] → run.after = run.before

theorem BlockRun.Ok.safe_iff {parse : String → Result Query} {run : BlockRun} (h : run.Ok parse) :
    run.Safe parse ↔
      (run.closed = false → run.lines = [] ∨ ∃ line ∈ run.lines, ¬ Parses parse line) := by
  constructor
  · intro hsafe hcut
    by_contra hnot
    push Not at hnot
    obtain ⟨hclosed, _⟩ := hsafe.executed (h.executed.mpr hnot)
    rw [hcut] at hclosed
    cases hclosed
  · intro hcond
    have hnone : run.closed = false → run.executed = [] := by
      intro hcut
      by_contra hne
      obtain ⟨hlines, hparsed⟩ := h.executed.mp hne
      rcases hcond hcut with hempty | ⟨line, hmem, hfails⟩
      · exact hlines hempty
      · exact hfails (hparsed line hmem)
    refine ⟨fun hne => ⟨?_, (h.executed.mp hne).2⟩, fun hcut => h.unchanged (hnone hcut)⟩
    by_contra hclosed
    exact hne (hnone (Bool.eq_false_iff.mpr hclosed))

/-- What the loops leave in the log: one run for each block of the input. -/
def Logs (parse : String → Result Query) (st st' : Session) (found : List (List String × Bool)) : Prop :=
  ∃ runs, st'.log = st.log ++ runs ∧ (runs.map fun run => (run.lines, run.closed)) = found ∧
    ∀ run ∈ runs, run.Ok parse

theorem Logs.refl (parse : String → Result Query) (st : Session) : Logs parse st st [] :=
  ⟨[], (List.append_nil _).symm, rfl, fun _ hrun => absurd hrun List.not_mem_nil⟩

theorem OpenBlock.ok_empty (parse : String → Result Query) : OpenBlock.empty.Ok parse where
  parsed _ _ hmem := absurd hmem List.not_mem_nil
  failed h := absurd rfl h
  stmts _ := rfl

section

variable [Texts]

theorem OpenBlock.lines_push (parse : String → Result Query) (b : OpenBlock) (query uuid : String) :
    (b.push parse query uuid).lines = b.lines ++ [query] := by
  unfold push
  split
  · rfl
  · split <;> rfl

theorem OpenBlock.Ok.push {parse : String → Result Query} {b : OpenBlock} (h : b.Ok parse)
    (query uuid : String) : (b.push parse query uuid).Ok parse := by
  unfold OpenBlock.push
  cases herr : b.err with
  | some e =>
    obtain ⟨line, hmem, hfails⟩ := h.failed (by rw [herr]; exact Option.some_ne_none e)
    exact ⟨nofun, fun _ => ⟨line, List.mem_append_left _ hmem, hfails⟩, nofun⟩
  | none =>
    cases hparse : parse query with
    | error e =>
      refine ⟨nofun, fun _ => ⟨query, List.mem_append_right _ (List.mem_singleton.mpr rfl), ?_⟩, nofun⟩
      rintro ⟨q, hq⟩
      rw [hparse] at hq
      cases hq
    | ok q =>
      refine ⟨fun _ line hmem => ?_, fun hne => absurd rfl hne, fun _ => ?_⟩
      · rcases List.mem_append.mp hmem with hmem | hmem
        · exact h.parsed herr line hmem
        · rw [List.mem_singleton.mp hmem]
          exact ⟨q, hparse⟩
      · rw [List.length_append, List.length_append, h.stmts herr]
        rfl

variable [Rmp]

theorem finish_log (ex : QueryExecutor) {parse : String → Result Query} {b : OpenBlock} (h : b.Ok parse)
    (closed : Bool) (st : Session) :
    ∃ run, (finish ex b closed st).log = st.log ++ [run] ∧ run.lines = b.lines ∧ run.closed = closed ∧
      run.Ok parse := by
  unfold finish
  cases herr : b.err with
  | some response =>
    refine ⟨_, rfl, rfl, rfl, ⟨fun hne => absurd rfl hne, ?_⟩, fun _ => rfl⟩
    rintro ⟨_, hparsed⟩
    obtain ⟨line, hmem, hfails⟩ := h.failed (by rw [herr]; exact Option.some_ne_none response)
    exact absurd (hparsed line hmem) hfails
  | none =>
    have hempty : b.stmts ≠ [] ↔ b.lines ≠ [] := by
      rw [← List.length_pos_iff, ← List.length_pos_iff, h.stmts herr]
    refine ⟨_, rfl, rfl, rfl, ⟨fun hne => ⟨hempty.mp hne, h.parsed herr⟩, fun hrun => hempty.mpr hrun.1⟩, ?_⟩
    intro hnil
    dsimp only at hnil ⊢
    rw [hnil]
    rfl

theorem finish_responses (ex : QueryExecutor) (b : OpenBlock) (closed : Bool) (st : Session) :
    (finish ex b closed st).responses.length = st.responses.length + 1 := by
  unfold finish
  split <;> exact List.length_append

/-- A block is finished and the loop goes on. -/
theorem Logs.finish {ex : QueryExecutor} {parse : String → Result Query} {b : OpenBlock} (h : b.Ok parse)
    {closed : Bool} {st st' : Session} {found : List (List String × Bool)}
    (hrest : Logs parse (finish ex b closed st) st' found) :
    Logs parse st st' ((b.lines, closed) :: found) := by
  obtain ⟨run, hlog, hlines, hclosed, hrun⟩ := finish_log ex h closed st
  obtain ⟨runs, hlog', hfound, hruns⟩ := hrest
  refine ⟨run :: runs, ?_, ?_, List.forall_mem_cons.mpr ⟨hrun, hruns⟩⟩
  · rw [hlog', hlog, List.append_assoc]
    rfl
  · rw [List.map_cons, hlines, hclosed, hfound]

variable [CodeIntel] [GraphAlgorithms]

theorem answer_responses (ex : QueryExecutor) (parse : String → Result Query) (query uuid : String)
    (st : Session) : (answer ex parse query uuid st).responses.length = st.responses.length + 1 :=
  List.length_append

theorem serve_logs (ex : QueryExecutor) (parse : String → Result Query) (fails : Nat → Bool)
    (reads : List Read) (b : Option OpenBlock) (hb : ∀ block, b = some block → block.Ok parse)
    (st : Session) :
    Logs parse st (serve ex parse fails reads b st)
      (blocks fails reads (b.map OpenBlock.lines) st.responses.length) := by
  induction reads generalizing b st with
  | nil =>
    cases b with
    | none => exact .refl parse st
    | some b => exact .finish (hb b rfl) (.refl parse _)
  | cons read reads ih =>
    -- Once a block is finished, the connection ends or the outer loop goes on.
    have hfinish : ∀ block closed, block.Ok parse →
        Logs parse st
          (if fails st.responses.length then finish ex block closed st
            else serve ex parse fails reads none (finish ex block closed st))
          ((block.lines, closed) ::
            if fails st.responses.length then [] else blocks fails reads none (st.responses.length + 1)) := by
      intro block closed hblock
      apply Logs.finish hblock
      split
      · exact .refl parse _
      · have hrest := ih none nofun (finish ex block closed st)
        rwa [finish_responses] at hrest
    cases read with
    | failed =>
      cases b with
      | none => exact .refl parse st
      | some b => exact hfinish b false (hb b rfl)
    | line l =>
      cases b with
      | none =>
        simp only [serve, blocks, Option.map_none]
        split
        · exact ih none nofun st
        · split
          · refine ih (some .empty) ?_ st
            rintro _ ⟨⟩
            exact OpenBlock.ok_empty parse
          · split
            · exact .refl parse st
            · have hrest := ih none nofun (answer ex parse (queryOf l.text) l.uuid st)
              rwa [answer_responses] at hrest
      | some b =>
        simp only [serve, blocks, Option.map_some]
        split
        · exact hfinish b true (hb b rfl)
        · split
          · exact ih (some b) hb st
          · have hrest := ih (some (b.push parse (queryOf l.text) l.uuid)) ?_ st
            · rwa [Option.map_some, OpenBlock.lines_push] at hrest
            · rintro _ ⟨⟩
              exact (hb b rfl).push _ _

/-- A connection is safe with its blocks exactly if of every block that is cut off no line was read,
or one that does not parse. -/
theorem batch_protocol_safe_iff (ex : QueryExecutor) (parse : String → Result Query) (fails : Nat → Bool)
    (reads : List Read) (sh : Shared) :
    (∀ run ∈ (serve ex parse fails reads none ⟨sh, [], []⟩).log, run.Safe parse) ↔
      ∀ block ∈ blocks fails reads none 0, block.2 = false →
        block.1 = [] ∨ ∃ line ∈ block.1, ¬ Parses parse line := by
  obtain ⟨runs, hlog, hfound, hok⟩ := serve_logs ex parse fails reads none nofun ⟨sh, [], []⟩
  have hblocks : blocks fails reads none 0 = runs.map fun run => (run.lines, run.closed) := hfound.symm
  rw [hlog, hblocks, List.nil_append, List.forall_mem_map]
  exact forall₂_congr fun run hrun => (hok run hrun).safe_iff

end

section Runs

open QueryExecutor Concrete

def createLine : String := "CREATE t:a SET x = 1"

/-- The parser on this line. -/
def parseLine (query : String) : Result Query :=
  if query = createLine then .ok ⟨.create "t" (some "a") [("x", .int 1)] none, .json⟩
  else .error (.query [])

/-- The client disconnects before it sends `END BATCH`. -/
def disconnected : List Read := [.line ⟨"BEGIN BATCH", ""⟩, .line ⟨createLine ++ ";", ""⟩]

theorem cut_off_block_applied :
    ¬ ∀ (ex : QueryExecutor) (parse : String → Result Query) (fails : Nat → Bool) (reads : List Read)
      (sh : Shared), ∀ run ∈ (serve ex parse fails reads none ⟨sh, [], []⟩).log, run.Safe parse := by
  intro h
  have hsafe := h accounts parseLine (fun _ => false) disconnected ⟨∅, .withBounds 2 1000, fun _ => 0⟩
  have hlog : ∃ executed after, (serve accounts parseLine (fun _ => false) disconnected none
      ⟨⟨∅, .withBounds 2 1000, fun _ => 0⟩, [], []⟩).log = [⟨[createLine], false, executed, ∅, after⟩] ∧
        Key.documentKey "n" "d" "t" "a" ∈ after := ⟨_, _, rfl, by decide⟩
  obtain ⟨executed, after, hlog, hstored⟩ := hlog
  rw [hlog] at hsafe
  have hunchanged : after = ∅ := (hsafe _ (List.mem_singleton.mpr rfl)).cutOff rfl
  rw [hunchanged] at hstored
  exact absurd hstored Std.ExtTreeMap.not_mem_empty

end Runs

end Dllb.Server
