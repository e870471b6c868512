import Mathlib
import Dllb.Query.Written

/-! # Graph statements beside writers of edges

Connections take turns, one atomic step at a time. A graph statement looks its
result up, scans and computes, and stores the result with the version it then
reads; a writer writes its edges and then counts them. A scan made before a
write and stored after the write was counted is served to later statements.
-/

namespace Dllb

set_option autoImplicit false

open Key

/-! ## The machine -/

/-- What a connection is doing. A graph statement carries the edges whose writers had returned when
it was started, and from its scan on the store it has scanned. -/
inductive Task where
  | idle
  | lookup (ex : QueryExecutor) (q : Query) (owed : List Written)
  | scan (ex : QueryExecutor) (q : Query) (owed : List Written)
  | insert (ex : QueryExecutor) (q : Query) (result : QueryResult) (scanned : Store) (owed : List Written)
  | answered (ex : QueryExecutor) (q : Query) (payload : String) (scanned : Store) (owed : List Written)
  | write (ex : QueryExecutor) (r : Request)
  | bump (todo all : List Written)
  | done

def Task.free : Task → Bool
  | idle => true
  | answered .. => true
  | done => true
  | _ => false

inductive Event where
  | query (pid : Nat) (ex : QueryExecutor) (q : Query)
  | write (pid : Nat) (ex : QueryExecutor) (r : Request)
  | step (pid : Nat)

/-- The shared structures and the connections; besides, the edges counted so far, those whose
writers have returned, and for every key the store its entry was computed from. -/
structure System where
  shared : Shared
  tasks : Nat → Task
  counted : List Written
  returned : List Written
  origin : CacheKey → Store

namespace System

def init (capacity maxBytes : Nat) (versions : WriteVersions) (s : Store) : System :=
  { shared := ⟨s, .withBounds capacity maxBytes, versions⟩
    tasks := fun _ => .idle
    counted := []
    returned := []
    origin := fun _ => s }

def setTask (sys : System) (pid : Nat) (task : Task) : System :=
  { sys with tasks := Function.update sys.tasks pid task }

section

variable [Rmp] [CodeIntel] [Texts] [GraphAlgorithms]

def lookupStep (sys : System) (pid : Nat) (ex : QueryExecutor) (q : Query) (owed : List Written) : System :=
  let found := ex.tryCacheHit q.statement q.outcome sys.shared
  let sys' := { sys with shared := found.2 }
  match found.1, ex.cacheKey q.statement q.outcome with
  | some payload, some key => sys'.setTask pid (.answered ex q payload (sys.origin key) owed)
  | _, _ => sys'.setTask pid (.scan ex q owed)

def scanStep (sys : System) (pid : Nat) (ex : QueryExecutor) (q : Query) (owed : List Written) : System :=
  match ((ex.executeRead ⟨"", q.statement⟩).run sys.shared.store).1 with
  | .ok result => sys.setTask pid (.insert ex q result sys.shared.store owed)
  | .error _ => sys.setTask pid .done

def insertStep (sys : System) (pid : Nat) (ex : QueryExecutor) (q : Query) (result : QueryResult)
    (scanned : Store) (owed : List Written) : System :=
  let origin := match ex.cacheKey q.statement q.outcome, QueryExecutor.isCached q.statement result with
    | some key, true => Function.update sys.origin key scanned
    | _, _ => sys.origin
  { sys with shared := ex.populate q.statement result q.outcome sys.shared, origin }.setTask pid
    (.answered ex q (formatResult result q.outcome) scanned owed)

def writeStep (sys : System) (pid : Nat) (ex : QueryExecutor) (r : Request) : System :=
  match ex.prog r with
  | some p =>
    let ran := p.run sys.shared.store
    let sys' := { sys with shared := { sys.shared with store := ran.2 } }
    match ran.1 with
    | .ok _ => sys'.setTask pid (.bump (ex.edges r) (ex.edges r))
    | .error _ => sys'.setTask pid .done
  | none => sys.setTask pid .done

def bumpStep (sys : System) (pid : Nat) (all : List Written) : List Written → System
  | w :: todo =>
    { sys with
      shared := { sys.shared with versions := sys.shared.versions.bump w.table }
      counted := w :: sys.counted }.setTask pid (.bump todo all)
  | [] => { sys with returned := all ++ sys.returned }.setTask pid .done

/-- One atomic step of a connection. -/
def advance (sys : System) (pid : Nat) : System :=
  match sys.tasks pid with
  | .lookup ex q owed => sys.lookupStep pid ex q owed
  | .scan ex q owed => sys.scanStep pid ex q owed
  | .insert ex q result scanned owed => sys.insertStep pid ex q result scanned owed
  | .write ex r => sys.writeStep pid ex r
  | .bump todo all => sys.bumpStep pid all todo
  | _ => sys

/-- A connection takes up a request when it is free; a graph statement starts with its lookup. -/
def next (sys : System) : Event → System
  | .query pid ex q =>
    if (sys.tasks pid).free && (ex.cacheKey q.statement q.outcome).isSome then
      sys.setTask pid (.lookup ex q sys.returned)
    else sys
  | .write pid ex r => if (sys.tasks pid).free then sys.setTask pid (.write ex r) else sys
  | .step pid => sys.advance pid

def run (sys : System) (events : List Event) : System := events.foldl next sys

end

end System

/-- Executors and requests with names that have no separator in them. -/
def Event.Named : Event → Prop
  | query .. => True
  | write _ ex r => ex.Regular ∧ r.Named
  | step _ => True

namespace System

/-- Every edge of the table that was owed is in the scanned store. -/
def Fresh (ex : QueryExecutor) (q : Query) (scanned : Store) (owed : List Written) : Prop :=
  ∀ key, ex.cacheKey q.statement q.outcome = some key → ∀ w ∈ owed, w.table = key.table → w.In scanned

/-- A result is stored only if its scan had every edge of the table counted by then. -/
def Clean (sys : System) : Event → Prop
  | .step pid =>
    match sys.tasks pid with
    | .insert ex q _ scanned _ => Fresh ex q scanned sys.counted
    | _ => True
  | _ => True

section

variable [Rmp] [CodeIntel] [Texts] [GraphAlgorithms]

def CleanRun (sys : System) : List Event → Prop
  | [] => True
  | ev :: events => sys.Clean ev ∧ (sys.next ev).CleanRun events

/-- What is answered was computed from a scan that had every edge of the table whose writer had
returned when the statement was started. -/
def NoStale (sys : System) : Prop :=
  ∀ pid ex q payload scanned owed, sys.tasks pid = .answered ex q payload scanned owed →
    ex.Answers q.statement q.outcome scanned payload ∧ Fresh ex q scanned owed

/-! ## The invariant -/

/-- What is known of a connection, by what it is doing. -/
def TaskOk (sys : System) : Task → Prop
  | .lookup _ _ owed => ∀ w ∈ owed, w ∈ sys.returned
  | .scan _ _ owed => ∀ w ∈ owed, w ∈ sys.returned
  | .insert ex q result scanned owed =>
    ((ex.executeRead ⟨"", q.statement⟩).run scanned).1 = .ok result ∧ ∀ w ∈ owed, w.In scanned
  | .answered ex q payload scanned owed =>
    ex.Answers q.statement q.outcome scanned payload ∧ Fresh ex q scanned owed
  | .write ex r => ex.Regular ∧ r.Named
  | .bump todo all => (∀ w ∈ todo, w ∈ all) ∧
    ∀ w ∈ all, w.Placed ∧ w.In sys.shared.store ∧ (w ∈ todo ∨ w ∈ sys.counted)
  | _ => True

/-- An entry is not ahead of its table, was computed from its origin, and at the version of the table
its origin has every edge counted so far. -/
structure EntryOk (sys : System) (key : CacheKey) (e : CacheEntry) : Prop where
  le : e.version ≤ sys.shared.versions key.table
  answers : ∀ ex stmt outcome, QueryExecutor.cacheKey ex stmt outcome = some key →
    ex.Answers stmt outcome (sys.origin key) e.payload
  fresh : e.version = sys.shared.versions key.table →
    ∀ w ∈ sys.counted, w.table = key.table → w.In (sys.origin key)

structure Inv (sys : System) : Prop where
  held : ∀ w ∈ sys.counted, w.Placed ∧ w.In sys.shared.store
  counted : ∀ w ∈ sys.returned, w ∈ sys.counted
  task : ∀ pid, sys.TaskOk (sys.tasks pid)
  entry : ∀ key e, (key, e) ∈ sys.shared.cache.lru.entries → sys.EntryOk key e

theorem TaskOk.mono {sys sys' : System} {task : Task} (h : sys.TaskOk task)
    (hreturned : ∀ w ∈ sys.returned, w ∈ sys'.returned) (hcounted : ∀ w ∈ sys.counted, w ∈ sys'.counted)
    (hstore : ∀ w : Written, w.Placed → w.In sys.shared.store → w.In sys'.shared.store) :
    sys'.TaskOk task := by
  cases task with
  | lookup ex q owed => exact fun w hw => hreturned w (h w hw)
  | scan ex q owed => exact fun w hw => hreturned w (h w hw)
  | bump todo all =>
    refine ⟨h.1, fun w hw => ?_⟩
    obtain ⟨hplaced, hin, hdone⟩ := h.2 w hw
    exact ⟨hplaced, hstore w hplaced hin, hdone.imp_right (hcounted w)⟩
  | _ => exact h

/-- Changes of the system that no connection can tell. -/
structure Grows (sys sys' : System) : Prop where
  tasks : sys'.tasks = sys.tasks
  returned : ∀ w ∈ sys.returned, w ∈ sys'.returned
  counted : ∀ w ∈ sys.counted, w ∈ sys'.counted
  store : ∀ w : Written, w.Placed → w.In sys.shared.store → w.In sys'.shared.store

theorem taskOk_setTask {sys sys' : System} (h : ∀ pid, sys.TaskOk (sys.tasks pid)) (hgrows : Grows sys sys')
    {pid : Nat} (task : Task) (htask : sys'.TaskOk task) :
    ∀ pid', (sys'.setTask pid task).TaskOk ((sys'.setTask pid task).tasks pid') := by
  intro pid'
  change sys'.TaskOk (Function.update sys'.tasks pid task pid')
  by_cases heq : pid' = pid
  · rw [heq, Function.update_self]
    exact htask
  · rw [Function.update_of_ne heq, hgrows.tasks]
    exact (h pid').mono hgrows.returned hgrows.counted hgrows.store

/-- A connection moves on and nothing else changes but the cache, which loses entries. -/
theorem Inv.setTask {sys : System} (h : sys.Inv) {cache : ComputeCache}
    (hcache : ∀ x ∈ cache.lru.entries, x ∈ sys.shared.cache.lru.entries) {pid : Nat} (task : Task)
    (htask : sys.TaskOk task) :
    ({ sys with shared := { sys.shared with cache } }.setTask pid task).Inv where
  held := h.held
  counted := h.counted
  task := taskOk_setTask h.task ⟨rfl, fun _ hw => hw, fun _ hw => hw, fun _ _ hin => hin⟩ task htask
  entry key e hmem :=
    have hentry := h.entry key e (hcache _ hmem)
    ⟨hentry.le, hentry.answers, hentry.fresh⟩

theorem Inv.lookupStep {sys : System} (h : sys.Inv) {pid : Nat} {ex : QueryExecutor} {q : Query}
    {owed : List Written} (htask : sys.TaskOk (.lookup ex q owed)) : (sys.lookupStep pid ex q owed).Inv := by
  cases hkey : ex.cacheKey q.statement q.outcome with
  | none =>
    have hmiss : ex.tryCacheHit q.statement q.outcome sys.shared = (none, sys.shared) := by
      rw [QueryExecutor.tryCacheHit, hkey]
    rw [System.lookupStep, hmiss, hkey]
    exact h.setTask (fun _ hx => hx) (.scan ex q owed) htask
  | some key =>
    obtain ⟨found, cache, hlookup, hsub, hfound⟩ := tryCacheHit_spec hkey sys.shared
    rw [System.lookupStep, hlookup, hkey]
    cases found with
    | none => exact h.setTask hsub (.scan ex q owed) htask
    | some payload =>
      obtain ⟨e, hmem, hversion, rfl⟩ := hfound payload rfl
      have hentry := h.entry key e hmem
      refine h.setTask hsub (.answered ex q e.payload (sys.origin key) owed) ⟨?_, ?_⟩
      · exact hentry.answers ex q.statement q.outcome hkey
      · intro key' hkey' w hw htable
        rw [hkey] at hkey'
        cases hkey'
        exact hentry.fresh hversion w (h.counted w (htask w hw)) htable

theorem Inv.scanStep {sys : System} (h : sys.Inv) {pid : Nat} {ex : QueryExecutor} {q : Query}
    {owed : List Written} (htask : sys.TaskOk (.scan ex q owed)) : (sys.scanStep pid ex q owed).Inv := by
  unfold System.scanStep
  cases hrun : ((ex.executeRead ⟨"", q.statement⟩).run sys.shared.store).1 with
  | error e => exact h.setTask (fun _ hx => hx) .done trivial
  | ok result =>
    refine h.setTask (fun _ hx => hx) (.insert ex q result sys.shared.store owed) ⟨hrun, ?_⟩
    exact fun w hw => (h.held w (h.counted w (htask w hw))).2

theorem Inv.insertStep {sys : System} (h : sys.Inv) {pid : Nat} {ex : QueryExecutor} {q : Query}
    {result : QueryResult} {scanned : Store} {owed : List Written}
    (htask : sys.TaskOk (.insert ex q result scanned owed)) (hclean : Fresh ex q scanned sys.counted) :
    (sys.insertStep pid ex q result scanned owed).Inv := by
  obtain ⟨hresult, howed⟩ := htask
  have hanswered : sys.TaskOk (.answered ex q (formatResult result q.outcome) scanned owed) :=
    ⟨⟨result, hresult, rfl⟩, fun _ _ w hw _ => howed w hw⟩
  have hskip : ∀ hpopulate : ex.populate q.statement result q.outcome sys.shared = sys.shared,
      ({ sys with shared := ex.populate q.statement result q.outcome sys.shared }.setTask pid
        (.answered ex q (formatResult result q.outcome) scanned owed)).Inv := by
    intro hpopulate
    rw [hpopulate]
    exact h.setTask (fun _ hx => hx) _ hanswered
  unfold System.insertStep
  cases hkey : ex.cacheKey q.statement q.outcome with
  | none =>
    refine hskip ?_
    rw [QueryExecutor.populate, hkey]
  | some key =>
    cases hcached : QueryExecutor.isCached q.statement result with
    | false =>
      refine hskip ?_
      rw [QueryExecutor.populate, hkey]
      exact if_neg (by rw [hcached]; exact Bool.false_ne_true)
    | true =>
      have hpopulate : ex.populate q.statement result q.outcome sys.shared =
          { sys.shared with
            cache := sys.shared.cache.insert key (formatResult result q.outcome)
              (sys.shared.versions.current key.table) } := by
        rw [QueryExecutor.populate, hkey]
        exact if_pos hcached
      dsimp only
      rw [hpopulate]
      refine ⟨h.held, h.counted, ?_, ?_⟩
      · exact taskOk_setTask h.task ⟨rfl, fun _ hw => hw, fun _ hw => hw, fun _ _ hin => hin⟩ _ hanswered
      · intro key' e hmem
        rcases ComputeCache.mem_insert hmem with ⟨hk, hpayload, hversion⟩ | ⟨hne, hold⟩
        · -- The new entry: its origin is the scan.
          dsimp only at hk hpayload hversion
          subst hk
          refine ⟨hversion.le, ?_, ?_⟩
          · intro ex' stmt' outcome' hkey'
            obtain ⟨rfl, rfl, rfl⟩ := QueryExecutor.cacheKey_inj hkey hkey'
            refine ⟨result, ?_, hpayload⟩
            change ((ex.executeRead ⟨"", q.statement⟩).run (Function.update sys.origin key' scanned key')).1 = _
            rw [Function.update_self]
            exact hresult
          · intro _ w hw htable
            change w.In (Function.update sys.origin key' scanned key')
            rw [Function.update_self]
            exact hclean key' hkey w hw htable
        · have hentry := h.entry key' e hold
          have horigin : Function.update sys.origin key scanned key' = sys.origin key' :=
            Function.update_of_ne hne ..
          refine ⟨hentry.le, ?_, ?_⟩
          · intro ex' stmt' outcome' hkey'
            change ex'.Answers stmt' outcome' (Function.update sys.origin key scanned key') e.payload
            rw [horigin]
            exact hentry.answers ex' stmt' outcome' hkey'
          · intro hversion w hw htable
            change w.In (Function.update sys.origin key scanned key')
            rw [horigin]
            exact hentry.fresh hversion w hw htable

theorem Inv.writeStep {sys : System} (h : sys.Inv) {pid : Nat} {ex : QueryExecutor} {r : Request}
    (htask : sys.TaskOk (.write ex r)) : (sys.writeStep pid ex r).Inv := by
  obtain ⟨hex, hnamed⟩ := htask
  unfold System.writeStep
  cases hp : ex.prog r with
  | none => exact h.setTask (fun _ hx => hx) .done trivial
  | some p =>
    have hstore : ∀ w : Written, w.Placed → w.In sys.shared.store → w.In (p.run sys.shared.store).2 :=
      fun w hplaced hin => QueryExecutor.in_request hex hnamed hp hplaced hin
    have hgrows : Grows sys { sys with shared := { sys.shared with store := (p.run sys.shared.store).2 } } :=
      ⟨rfl, fun _ hw => hw, fun _ hw => hw, hstore⟩
    have hset : ∀ task, System.TaskOk
          { sys with shared := { sys.shared with store := (p.run sys.shared.store).2 } } task →
        (System.setTask { sys with shared := { sys.shared with store := (p.run sys.shared.store).2 } }
          pid task).Inv := by
      intro task htask
      refine ⟨?_, h.counted, ?_, ?_⟩
      · exact fun w hw => ⟨(h.held w hw).1, hstore w (h.held w hw).1 (h.held w hw).2⟩
      · exact taskOk_setTask h.task hgrows _ htask
      · intro key e hmem
        obtain ⟨hle, hanswers, hfresh⟩ := h.entry key e hmem
        exact ⟨hle, hanswers, hfresh⟩
    dsimp only
    cases hran : (p.run sys.shared.store).1 with
    | error e => exact hset .done trivial
    | ok result =>
      refine hset (.bump (ex.edges r) (ex.edges r)) ⟨fun _ hw => hw, fun w hw => ?_⟩
      exact ⟨QueryExecutor.placed_of_mem_edges hex hnamed hw,
        QueryExecutor.edges_in hex hnamed hp (Prod.ext hran rfl) w hw, .inl hw⟩

theorem Inv.bumpStep {sys : System} (h : sys.Inv) {pid : Nat} {todo all : List Written}
    (htask : sys.TaskOk (.bump todo all)) : (sys.bumpStep pid all todo).Inv := by
  obtain ⟨htodo, hall⟩ := htask
  cases todo with
  | nil =>
    have hgrows : Grows sys { sys with returned := all ++ sys.returned } :=
      ⟨rfl, fun _ hw => List.mem_append_right _ hw, fun _ hw => hw, fun _ _ hin => hin⟩
    refine ⟨h.held, ?_, taskOk_setTask h.task hgrows .done trivial, ?_⟩
    · intro w hw
      rcases List.mem_append.mp hw with hw | hw
      · exact (hall w hw).2.2.resolve_left List.not_mem_nil
      · exact h.counted w hw
    · intro key e hmem
      obtain ⟨hle, hanswers, hfresh⟩ := h.entry key e hmem
      exact ⟨hle, hanswers, hfresh⟩
  | cons w todo =>
    have hgrows : Grows sys
        { sys with
          shared := { sys.shared with versions := sys.shared.versions.bump w.table }
          counted := w :: sys.counted } :=
      ⟨rfl, fun _ hw => hw, fun _ hw => List.mem_cons_of_mem _ hw, fun _ _ hin => hin⟩
    refine ⟨?_, ?_, taskOk_setTask h.task hgrows (.bump todo all) ⟨?_, ?_⟩, ?_⟩
    · refine List.forall_mem_cons.mpr ⟨?_, h.held⟩
      obtain ⟨hplaced, hin, _⟩ := hall w (htodo w List.mem_cons_self)
      exact ⟨hplaced, hin⟩
    · exact fun w hw => List.mem_cons_of_mem _ (h.counted w hw)
    · exact fun w hw => htodo w (List.mem_cons_of_mem _ hw)
    · intro w' hw'
      obtain ⟨hplaced, hin, hdone⟩ := hall w' hw'
      refine ⟨hplaced, hin, ?_⟩
      rcases hdone with hdone | hdone
      · rcases List.mem_cons.mp hdone with rfl | hdone
        · exact .inr List.mem_cons_self
        · exact .inl hdone
      · exact .inr (List.mem_cons_of_mem _ hdone)
    · intro key e hmem
      obtain ⟨hle, hanswers, hfresh⟩ := h.entry key e hmem
      refine ⟨hle.trans (sys.shared.versions.le_bump _ _), hanswers, fun heq => ?_⟩
      -- Entries of the table of the edge are behind its new version.
      have hne : w.table ≠ key.table := by
        intro htable
        have hbump : sys.shared.versions.bump w.table key.table = sys.shared.versions key.table + 1 := by
          rw [WriteVersions.bump, htable, Function.update_self]
        have hversion : e.version = sys.shared.versions.bump w.table key.table := heq
        omega
      have hsteady : sys.shared.versions.bump w.table key.table = sys.shared.versions key.table :=
        Function.update_of_ne hne.symm ..
      refine List.forall_mem_cons.mpr ⟨fun htable => absurd htable hne, ?_⟩
      exact hfresh (heq.trans hsteady)

/-! ## Runs -/

theorem Inv.next {sys : System} (h : sys.Inv) {ev : Event} (hnamed : ev.Named) (hclean : sys.Clean ev) :
    (sys.next ev).Inv := by
  cases ev with
  | query pid ex q =>
    rw [System.next]
    split
    · exact h.setTask (fun _ hx => hx) (.lookup ex q sys.returned) fun _ hw => hw
    · exact h
  | write pid ex r =>
    rw [System.next]
    split
    · exact h.setTask (fun _ hx => hx) (.write ex r) hnamed
    · exact h
  | step pid =>
    have htask := h.task pid
    rw [Clean] at hclean
    rw [System.next, advance]
    cases hpid : sys.tasks pid with
    | lookup ex q owed =>
      rw [hpid] at htask
      exact h.lookupStep htask
    | scan ex q owed =>
      rw [hpid] at htask
      exact h.scanStep htask
    | insert ex q result scanned owed =>
      rw [hpid] at htask hclean
      exact h.insertStep htask hclean
    | write ex r =>
      rw [hpid] at htask
      exact h.writeStep htask
    | bump todo all =>
      rw [hpid] at htask
      exact h.bumpStep htask
    | _ => exact h

theorem inv_init (capacity maxBytes : Nat) (versions : WriteVersions) (s : Store) :
    (init capacity maxBytes versions s).Inv where
  held _ hw := absurd hw List.not_mem_nil
  counted _ hw := absurd hw List.not_mem_nil
  task _ := trivial
  entry _ _ hmem := absurd hmem List.not_mem_nil

theorem Inv.run {sys : System} (h : sys.Inv) {events : List Event} (hnamed : ∀ ev ∈ events, ev.Named)
    (hclean : sys.CleanRun events) : (sys.run events).Inv := by
  induction events generalizing sys with
  | nil => exact h
  | cons ev events ih =>
    obtain ⟨hev, hrest⟩ := List.forall_mem_cons.mp hnamed
    exact ih (h.next hev hclean.1) hrest hclean.2

/-- In a run that stores no result whose scan lacks a counted edge, no statement is answered from a
scan that lacks an edge whose writer had returned before. -/
theorem no_stale_analytics (capacity maxBytes : Nat) (versions : WriteVersions) (s : Store)
    (events : List Event) (hnamed : ∀ ev ∈ events, ev.Named)
    (hclean : (init capacity maxBytes versions s).CleanRun events) :
    ((init capacity maxBytes versions s).run events).NoStale := by
  intro pid ex q payload scanned owed htask
  have hok := ((inv_init capacity maxBytes versions s).run hnamed hclean).task pid
  rw [htask] at hok
  exact hok

end

end System

section Runs

open QueryExecutor Concrete

/-- `GRAPH COMPONENTS e` -/
def countComponents : Query := ⟨.graphComponents "e", .json⟩

def relateAB : Request := .statement ⟨"", relateIn "e" "a" "b"⟩

/-- The count scans, the edge is written, counted and returned, and then the result is stored. -/
def storedLate : List Event :=
  [.query 0 accounts countComponents, .step 0, .step 0,
    .write 1 accounts relateAB, .step 1, .step 1, .step 1,
    .step 0, .query 2 accounts countComponents, .step 2]

/-- The edge is written before the scan, and counted between the scan and the insertion. -/
def countedBetween : List Event :=
  [.query 0 accounts countComponents, .step 0, .write 1 accounts relateAB, .step 1,
    .step 0, .step 1, .step 0, .step 1, .query 2 accounts countComponents, .step 2]

theorem no_stale_analytics_counted :
    (∃ payload scanned, ((System.init 2 1000 (fun _ => 0) ∅).run countedBetween).tasks 2 =
      .answered accounts countComponents payload scanned [⟨⟨"n", "d", "e"⟩, "a", "b"⟩]) ∧
    ((System.init 2 1000 (fun _ => 0) ∅).run countedBetween).NoStale := by
  refine ⟨⟨_, _, rfl⟩, System.no_stale_analytics 2 1000 (fun _ => 0) ∅ countedBetween ?_ ?_⟩
  · have hex : accounts.Regular := ⟨by decide, by decide⟩
    have he : NulFree "e" := by decide
    simp only [countedBetween, List.forall_mem_cons, List.not_mem_nil, IsEmpty.forall_iff, implies_true,
      and_true, Event.Named, true_and]
    exact ⟨hex, he⟩
  · refine ⟨trivial, trivial, trivial, trivial, trivial, trivial, ?_, trivial, trivial, trivial, trivial⟩
    intro key _ w hw _
    obtain rfl := List.mem_singleton.mp hw
    change Written.In ⟨⟨"n", "d", "e"⟩, "a", "b"⟩ _
    decide

theorem stale_analytics :
    ¬ ∀ (capacity maxBytes : Nat) (versions : WriteVersions) (s : Store) (events : List Event),
      (∀ ev ∈ events, ev.Named) → ((System.init capacity maxBytes versions s).run events).NoStale := by
  intro h
  have hex : accounts.Regular := ⟨by decide, by decide⟩
  have he : NulFree "e" := by decide
  have hnamed : ∀ ev ∈ storedLate, ev.Named := by
    simp only [storedLate, List.forall_mem_cons, List.not_mem_nil, IsEmpty.forall_iff, implies_true,
      and_true, Event.Named, true_and]
    exact ⟨hex, he⟩
  have htask : ∃ payload, ((System.init 2 1000 (fun _ => 0) ∅).run storedLate).tasks 2 =
      .answered accounts countComponents payload ∅ [⟨⟨"n", "d", "e"⟩, "a", "b"⟩] := ⟨_, rfl⟩
  obtain ⟨payload, htask⟩ := htask
  have hfresh := (h 2 1000 (fun _ => 0) ∅ storedLate hnamed 2 _ _ _ _ _ htask).2
  exact absurd (hfresh _ rfl _ (List.mem_singleton.mpr rfl) rfl) (by decide)

end Runs

end Dllb
