import HeapScript.Proofs.Session.Pass

/-!
The accounts of a whole pass.

When all effects and optimized roots have been written, nothing is left waiting, so each statement
of each body has its purpose, each value that has been reached has a complete account, and the
effects stand in their order. `exists_accounts` states this for every heap.
-/

namespace HeapScript

open List Runs

namespace Session

variable {context : Context} {before after session : Session} {ledger : Ledger}

/-! ## Effects -/

def effectsOf (entries : List Entry) : List Entry :=
  entries.filter (·.purpose.subject = .effects)

def effectEntries (body : BodyId) (effects : List Effect) (stmts : List Stmt) : List Entry :=
  (effects.zip stmts).map fun pair => ⟨body, .effect pair.1, pair.2⟩

/-- The statements that are built for effects, one after the other. Each is written before the next
one is built. -/
inductive BuildsEffects (context : Context) :
    Session → List Effect → List Stmt → Session → Prop where
  | nil (session : Session) : BuildsEffects context session [] [] session
  | cons {before visited after : Session} {effect : Effect} {stmt : Stmt} {effects : List Effect}
      {stmts : List Stmt} (builds : Runs (effectStmt context effect) before stmt visited)
      (rest : BuildsEffects context (visited.emitting visited.bodies.current stmt) effects stmts
        after) :
      BuildsEffects context before (effect :: effects) (stmt :: stmts) after

theorem effectsOf_append (entries others : List Entry) :
    effectsOf (entries ++ others) = effectsOf entries ++ effectsOf others := by
  simp [effectsOf]

theorem balanced_writeEffects {effects : List Effect} {result : Unit}
    (runs : Runs (effects.forM fun effect => do emit (← effectStmt context effect)) before result
      after)
    (closed : ∀ effect ∈ effects, context.Closed → context.graph.ClosedEffect effect)
    (idle : Idle context before) (declares : before.AtDeclarations)
    (balanced : Balanced context [.effects] [] before ledger) :
    ∃ stmts later, BuildsEffects context before effects stmts after ∧
      Balanced context [.effects] [] after later ∧
      effectsOf later.written = effectsOf ledger.written ++
        effectEntries before.bodies.current effects stmts := by
  induction effects generalizing before ledger with
  | nil =>
    obtain ⟨-, rfl⟩ := pure_iff.mp runs
    exact ⟨[], ledger, .nil _, balanced, by simp [effectEntries]⟩
  | cons effect effects induction =>
    obtain ⟨middle, first, rest⟩ := Runs.forM_cons.mp runs
    obtain ⟨stmt, visited, building, emitting⟩ := Runs.bind_iff.mp first
    obtain rfl := runs_emit.mp emitting
    have isClosed := closed effect mem_cons_self
    obtain ⟨kept, serves⟩ := (idle.effectStmt isClosed).outcome _ _ building
    obtain ⟨between, balanced, untouched⟩ := kept.preserves _ _ _ balanced
    have valid := kept.valid idle.valid
    have records : visited.Records context
        ⟨visited.bodies.current, .effect effect, stmt⟩ :=
      ⟨valid.has_current, serves, fun object kind => absurd kind
        ((kept.declares idle.valid declares).ne_lazyInitializer object)⟩
    have wrote := balanced.write records valid.tree (.inl mem_cons_self) rfl (.of_subject nofun)
    have frame := (idle.writeEffect isClosed).outcome _ _ first
    obtain ⟨stmts, later, builds, balanced', effectsLater⟩ :=
      induction rest (fun other member => closed other (mem_cons_of_mem _ member))
        (idle.of_frame frame) (frame.declares idle.valid declares) wrote
    refine ⟨stmt :: stmts, later, .cons building builds, balanced', ?_⟩
    have old : effectsOf between.written = effectsOf ledger.written :=
      (untouched _ mem_cons_self).written
    have here : effectsOf [⟨visited.bodies.current, .effect effect, stmt⟩] =
        [⟨before.bodies.current, .effect effect, stmt⟩] := by
      simp [effectsOf, Purpose.subject, kept.current]
    rw [effectsLater, frame.current, Ledger.write, effectsOf_append, old, here]
    simp [effectEntries]

/-! ## The whole pass -/

theorem stmts_initial (context : Context) (body : BodyId) :
    (Session.initial context).bodies.stmts body = [] := by
  obtain ⟨index⟩ := body
  cases index <;> rfl

theorem balanced_initial (context : Context) :
    Balanced context [.effects] [] (Session.initial context) {} where
  books := {
    stmts := stmts_initial context
    records := by simp
    dueRecords := by simp [Ledger.dues, dueEntries]
    locks := by simp [Session.initial]
    unreached := by simp [account, lockPlaces, Session.initial, Ledger.dues, dueEntries, fillings]
    reached := by simp
    unfilled := by simp [Ledger.dues, fillings]
    distinct := by simp [Ledger.dues, fillings]
    complete := fun id name named => by cases named
    ordered := .nil
    dueLater := by simp [Ledger.dues, dueEntries] }
  waiting := by simp [waiting, Session.initial, Ledger.parkedFor]
  heralded := .nil

/-- All statements of a session have been written, each for its purpose. -/
structure Accounts (context : Context) (session : Session) (entries : List Entry) : Prop where
  stmts : ∀ body, session.bodies.stmts body = (entries.filter (·.body = body)).map (·.stmt)
  records : ∀ entry ∈ entries, session.Records context entry
  accounted : ∀ id name, session.identifiers.get? id = some name →
    context.Accounted id (placesOf id entries)
  ordered : entries.Pairwise (Entry.MayPrecede context)
  effects : ∃ stmts middle,
    BuildsEffects context (Session.initial context) context.graph.effects stmts middle ∧
      effectsOf entries = effectEntries Bodies.global context.graph.effects stmts
  heralded : Heralded context session entries

theorem Balanced.parked_eq_nil {flight : List Due} {opened : List Subject}
    (balanced : Balanced context opened flight session ledger) (idle : Idle context session) :
    ledger.parked = [] := by
  refine eq_nil_iff_forall_not_mem.mpr fun entry member => ?_
  have parked : entry.2 ∈ ledger.parkedFor entry.1 :=
    mem_map.mpr ⟨entry, mem_filter.mpr ⟨member, by simp⟩, rfl⟩
  have isWaiting : entry.2.work ∈ session.waiting entry.1 := by
    rw [balanced.waiting]
    exact mem_map_of_mem parked
  unfold Session.waiting at isWaiting
  cases found : session.deferred.get? entry.1 with
  | none => simp [found] at isWaiting
  | some works =>
    have started := idle.valid.awaited entry.1 works found
    simp [idle.inProgress] at started

theorem Balanced.accounts (balanced : Balanced context [.effects] [] session ledger)
    (idle : Idle context session)
    {stmts : List Stmt} {middle : Session}
    (builds : BuildsEffects context (Session.initial context) context.graph.effects stmts middle)
    (effects : effectsOf ledger.written =
      effectEntries Bodies.global context.graph.effects stmts) :
    Accounts context session ledger.written := by
  have nothing : ledger.dues [] = [] := by simp [Ledger.dues, balanced.parked_eq_nil idle]
  have books := balanced.books
  rw [nothing] at books
  have noLocks : ∀ id, session.lockPlaces id = 0 := by
    intro id
    cases isLock : session.locks.get? id with
    | none => simp [lockPlaces, isLock]
    | some lock =>
      obtain ⟨remaining, waits, -⟩ := books.locks id lock isLock
      simp [remaining, pending] at waits
  have account : ∀ id, session.account ledger.written [] id = placesOf id ledger.written := by
    simp [account, dueEntries, noLocks]
  exact {
    stmts := books.stmts
    records := books.records
    accounted := fun id name named =>
      account id ▸ books.complete id name named (by simp) (by simp [fillings])
    ordered := books.ordered
    effects := ⟨stmts, middle, builds, effects⟩
    heralded := balanced.heralded }

end Session

/-- Whatever the heap, all statements of the pass are accounted for. -/
theorem exists_accounts {context : Context} {written : Written}
    (isWritten : writeHeap context = .ok written) :
    ∃ entries, written.session.Accounts context entries := by
  simp only [writeHeap, bind_eq_ok, pure_eq_ok] at isWritten
  obtain ⟨⟨roots, session⟩, runs, rfl⟩ := isWritten
  obtain ⟨_, middle, effects, roots⟩ := Runs.bind_iff.mp (show Runs _ _ _ _ from runs)
  have start := Session.Idle.initial context
  have frame := (Session.does_writeEffects start).outcome _ _ effects
  obtain ⟨stmts, between, builds, balanced, inOrder⟩ :=
    Session.balanced_writeEffects effects (fun effect member closed =>
      closed.graph.effects effect member) start rfl (Session.balanced_initial context)
  have idle := start.of_frame frame
  obtain ⟨advances, preserves, -⟩ := (Session.does_writeRootsAfter (nil_append _).symm rfl idle
    (.initial frame)).outcome _ _ roots
  obtain ⟨later, balanced, untouched⟩ := preserves _ _ _ balanced
  refine ⟨later.written, balanced.accounts (advances.idle idle) builds ?_⟩
  exact (untouched _ mem_cons_self).written.trans inOrder

end HeapScript
