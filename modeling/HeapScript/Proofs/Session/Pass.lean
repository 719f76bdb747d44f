import HeapScript.Script
import HeapScript.Proofs.Session.Functions
import HeapScript.Proofs.Session.Housing
import HeapScript.Proofs.Session.Nesting

/-!
The pass over a heap graph takes nothing but steps, and leaves no value under construction.

Over a closed graph it fails for a value that cannot be written, or for a root whose parent has no
body, as in a cycle of parents.
-/

namespace HeapScript

open List Runs

variable {root : Root}

inductive Failure.EndsPass (graph : HeapGraph) : Failure → Prop where
  | value {failure : Failure} (ends : failure.EndsWriting) : EndsPass graph failure
  | rootWithoutBody (function : ValueId) (unordered : ¬graph.ParentsComeFirst) :
      EndsPass graph (.rootWithoutBody function)

def Context.EndsPass (context : Context) (failure : Failure) : Prop :=
  context.Closed → failure.EndsPass context.graph

namespace Session

variable {context : Context} {before after session : Session} {result : Unit} {id : ValueId}
  {body : BodyId} {record : RootRecord} {records : List RootRecord} {graph : HeapGraph}

/-! ## Between two values -/

structure Idle (context : Context) (session : Session) : Prop where
  regular : Regular context session
  inProgress : session.inProgress = []
  openFunctions : session.openFunctions = []
  decided : ∀ key binding, session.bindings.get? key = some binding →
    binding.storage ≠ .undecided
  gathered : ∀ id function name, context.graph.values.get? id = some (.function function) →
    session.identifiers.get? id = some name → session.Gathers context function

namespace Idle

theorem valid (idle : Idle context session) : session.Valid context := idle.regular.valid

theorem sound (idle : Idle context session) : session.Sound context := idle.regular.kept.sound

theorem initial (context : Context) : Idle context (Session.initial context) where
  regular := ⟨valid_initial context, .initial context⟩
  inProgress := rfl
  openFunctions := rfl
  decided _ _ isMet := by simp [Session.initial] at isMet
  gathered _ _ _ _ named := by simp [Session.initial, SideTable.get?] at named

theorem under (idle : Idle context session) (present : context.Closed → context.graph.HasValue id) :
    Under context session id where
  present := present
  inProgress other member := by simp [idle.inProgress] at member
  home function member := by simp [idle.openFunctions] at member

theorem of_frame (idle : Idle context before) (frame : Frame context before after) :
    Idle context after where
  regular := idle.regular.frame frame
  inProgress := by
    refine eq_nil_iff_forall_not_mem.mpr fun id member => ?_
    obtain ⟨root, isRoot, _⟩ := frame.started id member
    simp [idle.inProgress] at isRoot
  openFunctions := frame.openFunctions.trans idle.openFunctions
  decided key binding isMet undecided :=
    idle.decided key binding ((frame.undecided key binding undecided).mp isMet) undecided
  gathered id function name isFunction named := by
    rcases frame.gathers id function name isFunction named with named | gathers
    · exact (idle.gathered id function name isFunction named).of_extends
        (frame.extends_ idle.valid)
    · exact gathers

theorem entering (idle : Idle context session) (present : session.bodies.Has body) :
    Idle context (session.entering body) where
  regular := idle.regular.step (.enter present)
  inProgress := idle.inProgress
  openFunctions := idle.openFunctions
  decided := idle.decided
  gathered := idle.gathered

theorem write (idle : Idle context before) (present : context.Closed → context.graph.HasValue id) :
    Does context.Ends (writeValue context id) before fun expr after =>
      Writing context before after ∧ after.Refers context after.bodies.current id expr :=
  visits_writeValue context idle.regular (idle.under present)

theorem writeAll (idle : Idle context before) {ids : List ValueId}
    (present : context.Closed → ∀ id ∈ ids, context.graph.HasValue id) :
    Does context.Ends (ids.mapM (writeValue context)) before fun exprs after =>
      Writing context before after ∧
        List.Forall₂ (after.Refers context after.bodies.current) ids exprs := by
  induction ids generalizing before with
  | nil => exact .of_pure ⟨.refl context _, .nil⟩
  | cons id ids induction =>
    rw [List.mapM_cons]
    refine (idle.write fun closed => present closed id mem_cons_self).bind ?_
    rintro expr middle ⟨frame, refers⟩
    refine (induction (idle.of_frame frame.toFrame)
      fun closed id member => present closed id (mem_cons_of_mem _ member)).bind ?_
    rintro exprs after ⟨frame', others⟩
    exact .of_pure ⟨frame.trans frame' idle.valid,
      .cons (frame'.refers (frame.valid idle.valid) refers) others⟩

theorem allowsHere (idle : Idle context session) {expr : Expr}
    (refers : session.Refers context session.bodies.current id expr) :
    session.AllowsHere context expr := fun name used =>
  refers.nameable (.inl (by simp [idle.inProgress])) name used

end Idle

/-! ## Moves -/

/-- All that can happen to a session in a run: a step, or a body for an optimized root. -/
inductive Move (context : Context) (before : Session) : Session → Prop where
  | step {after : Session} (step : Step context before after) : Move context before after
  | newRoot {parent : BodyId} (function : ValueId) (present : before.bodies.Has parent)
      (declares : (before.bodies.kind parent).declaresValues = true) :
      Move context before (before.adding (.root function) parent)

def Moves (context : Context) : Session → Session → Prop :=
  Relation.ReflTransGen (Move context)

def Reached (context : Context) (session : Session) : Prop :=
  Moves context (Session.initial context) session

theorem Steps.moves (steps : Steps context before after) : Moves context before after :=
  Relation.ReflTransGen.mono (fun _ _ => .step) _ _ steps

namespace Moves

theorem invariant {Holds : Session → Prop}
    (step : ∀ {before after : Session}, Step context before after → before.Valid context →
      Holds before → Holds after)
    (newRoot : ∀ {session : Session} {parent : BodyId} (function : ValueId),
      session.Valid context → Holds session → Holds (session.adding (.root function) parent))
    (moves : Moves context before after) (valid : before.Valid context) (start : Holds before) :
    after.Valid context ∧ Holds after := by
  induction moves with
  | refl => exact ⟨valid, start⟩
  | tail _ move induction =>
    obtain ⟨valid, holds⟩ := induction
    cases move with
    | step taken => exact ⟨taken.valid valid, step taken valid holds⟩
    | newRoot function present declares =>
      exact ⟨valid.adding (by simp) present declares, newRoot function valid holds⟩

theorem extends_ (moves : Moves context before after) (valid : before.Valid context) :
    Extends before after :=
  (moves.invariant (fun step valid extends_ => extends_.trans (step.extends_ valid))
    (fun _ _ extends_ => extends_.adding _ _) valid (.refl before)).2

end Moves

theorem Reached.regular (reached : Reached context session) : session.Regular context := by
  obtain ⟨valid, kept⟩ := reached.invariant Kept.step (fun function => Kept.addingRoot function)
    (valid_initial context) (.initial context)
  exact ⟨valid, kept⟩

theorem Reached.moves_writeValue (reached : Reached context before)
    (under : Under context before id) {expr : Expr}
    (runs : Runs (writeValue context id) before expr after) : Moves context before after := by
  obtain ⟨writing, -⟩ := (visits_writeValue context reached.regular under).outcome _ _ runs
  exact writing.toWork.steps.moves

/-! ## Stretches of the pass -/

/-- Values are written, and optimized roots get bodies of their own. -/
structure Advances (context : Context) (before after : Session) : Prop where
  moves : Moves context before after
  idle : Idle context before → Idle context after
  entered : after.bodies.entered = before.bodies.entered

theorem Frame.advances (frame : Frame context before after) : Advances context before after :=
  ⟨frame.toWork.steps.moves, (·.of_frame frame), frame.entered⟩

namespace Advances

variable {middle : Session}

theorem newRoot (function : ValueId) {parent : BodyId} (present : session.bodies.Has parent)
    (declares : (session.bodies.kind parent).declaresValues = true) :
    Advances context session (session.adding (.root function) parent) where
  moves := .single (.newRoot function present declares)
  idle idle := {
    regular := ⟨idle.valid.adding (by simp) present declares,
      .addingRoot function idle.valid idle.regular.kept⟩
    inProgress := idle.inProgress
    openFunctions := idle.openFunctions
    decided := idle.decided
    gathered := idle.gathered }
  entered := rfl

theorem trans (first : Advances context before middle) (second : Advances context middle after) :
    Advances context before after :=
  ⟨first.moves.trans second.moves, second.idle ∘ first.idle, second.entered.trans first.entered⟩

end Advances

/-! ## Effects -/

theorem nameable_globalThis {awaited : Option ValueId} :
    session.Nameable context awaited body "globalThis" :=
  .outside (by simp [Context.outsideNames])

theorem Idle.effectStmt (idle : Idle context before) {effect : Effect}
    (present : context.Closed → context.graph.ClosedEffect effect) :
    Does context.Ends (effectStmt context effect) before fun stmt after =>
      Writing context before after ∧
        after.Serves context after.bodies.current (.effect effect) stmt := by
  cases effect with
  | globalAssign name value =>
    exact (idle.write present).bind fun expr _ ⟨frame, refers⟩ =>
      .of_pure ⟨frame, .globalAssign refers⟩
  | propertyAssign object key value =>
    refine (idle.write fun closed => (present closed).1).bind ?_
    rintro target middle ⟨frame, refers⟩
    refine ((idle.of_frame frame.toFrame).write fun closed => (present closed).2).bind ?_
    rintro expr after ⟨frame', refers'⟩
    exact .of_pure ⟨frame.trans frame' idle.valid,
      .propertyAssign (frame'.refers (frame.valid idle.valid) refers) refers'⟩
  | call callee args =>
    refine (idle.write fun closed => (present closed).1).bind ?_
    rintro function middle ⟨frame, refers⟩
    refine ((idle.of_frame frame.toFrame).writeAll fun closed => (present closed).2).bind ?_
    rintro exprs after ⟨frame', refers'⟩
    exact .of_pure ⟨frame.trans frame' idle.valid,
      .call (frame'.refers (frame.valid idle.valid) refers) refers'⟩

theorem Idle.allows_effect (idle : Idle context session) {effect : Effect} {stmt : Stmt}
    (serves : session.Serves context session.bodies.current (.effect effect) stmt) :
    session.Allows context none session.bodies.current stmt := by
  refine ⟨idle.valid.has_current, fun used member => ?_⟩
  cases serves with
  | globalAssign refers =>
    simp only [Stmt.usedNames, Expr.usedNames, mem_append, mem_singleton] at member
    rcases member with rfl | member
    · exact nameable_globalThis
    · exact idle.allowsHere refers used member
  | propertyAssign refersTarget refersValue =>
    simp only [Stmt.usedNames, Expr.usedNames, mem_append] at member
    exact member.elim (idle.allowsHere refersTarget used) (idle.allowsHere refersValue used)
  | call refersTarget refersAll =>
    simp only [Stmt.usedNames, Expr.usedNames, mem_append, mem_usedNamesOfExprs] at member
    rcases member with member | ⟨expr, isArg, member⟩
    · exact idle.allowsHere refersTarget used member
    · obtain ⟨id, -, refers⟩ := exists_related refersAll.flip isArg
      exact idle.allowsHere refers used member

theorem Idle.writeEffect (idle : Idle context before) {effect : Effect}
    (present : context.Closed → context.graph.ClosedEffect effect) :
    Does context.Ends (do emit (← Session.effectStmt context effect) : SessionM Unit) before
      fun _ => Frame context before := by
  refine (idle.effectStmt present).bind fun stmt middle ⟨frame, serves⟩ => ?_
  exact .done (runs_emit.mpr rfl) (frame.toFrame.trans
    (.emit ((idle.of_frame frame.toFrame).allows_effect serves)) idle.valid)

theorem does_writeEffects (idle : Idle context before) :
    Does context.Ends (writeEffects context) before fun _ => Frame context before :=
  Maintains.forM (fun effect member _ frame => ((idle.of_frame frame).writeEffect
    fun closed => closed.graph.effects effect member).imp fun _ _ frame' =>
      frame.trans frame' idle.valid) before (.refl context before)

/-! ## Optimized roots -/

/-- What is known of a root whose local values have been written. -/
structure RecordFacts (context : Context) (session : Session) (record : RootRecord) : Prop where
  root : ∃ root ∈ context.graph.roots, record.function = root.function ∧
    record.parent = root.parent ∧ record.verbatim = root.body ∧
    record.modifiedBindings.map (·.1) = root.modifiedBindings.map (·.1) ∧
    record.depth = nesting context.graph root
  bound : ∀ name ∈ record.modifiedBindings.map (·.1), session.Knows record.function name
  present : session.bodies.Has record.body
  kind : session.bodies.kind record.body = .root record.function
  values : ∀ expr, expr ∈ record.modifiedBindings.map (·.2) ∨ expr ∈ record.result →
    ∃ id, session.Refers context record.body id expr

theorem RecordFacts.of_extends (facts : RecordFacts context before record)
    (extends_ : Extends before after) (valid : before.Valid context) :
    RecordFacts context after record where
  root := facts.root
  bound name member := (facts.bound name member).of_extends extends_
  present := extends_.bodies.has facts.present
  kind := (extends_.bodies.kind_eq facts.present).trans facts.kind
  values expr member := by
    obtain ⟨id, refers⟩ := facts.values expr member
    exact ⟨id, extends_.refers valid.tree facts.present refers⟩

def ParentRecorded (records : List RootRecord) (parent : Option ValueId) : Prop :=
  ∀ function, parent = some function → ∃ record ∈ records, record.function = function

theorem declares_parentBody {outer : BodyId} (isOuter : parentBody records root = .ok outer)
    (valid : session.Valid context)
    (facts : ∀ record ∈ records, RecordFacts context session record) :
    session.bodies.Has outer ∧ (session.bodies.kind outer).declaresValues = true ∧
      ParentRecorded records root.parent := by
  unfold parentBody at isOuter
  split at isOuter
  · rename_i noParent
    obtain rfl : Bodies.global = outer := Except.ok.inj isOuter
    exact ⟨valid.tree.has_global, by simp [valid.tree.kind_global, BodyKind.declaresValues],
      fun _ isParent => absurd (noParent.symm.trans isParent) (by simp)⟩
  · rename_i parent isParent
    split at isOuter
    · rename_i isRecorded
      obtain rfl := Except.ok.inj isOuter
      obtain ⟨record, isRecord, rfl⟩ := Option.map_eq_some_iff.mp isRecorded
      have member : record ∈ records := by simpa using List.mem_of_find?_eq_some isRecord
      have known := facts record member
      refine ⟨known.present, by simp [known.kind, BodyKind.declaresValues],
        fun function isFunction => ⟨record, member, ?_⟩⟩
      obtain rfl := Option.some.inj (isParent.symm.trans isFunction)
      simpa using List.find?_some isRecord
    · cases isOuter

theorem rootEnvironment_eq_ok {environment : Option ScopeId}
    (found : rootEnvironment graph id = .ok environment) :
    ∃ function, graph.values.get? id = some (.function function) ∧
      function.environment = environment := by
  simp only [rootEnvironment, bind_eq_ok, HeapGraph.value_eq_ok] at found
  obtain ⟨value, isValue, found⟩ := found
  cases value with
  | function function =>
    exact ⟨function, isValue, by simpa [HeapValue.asFunction?, pure_eq_ok] using found⟩
  | primitive constant => exact absurd found throw_ne_ok
  | object object => exact absurd found throw_ne_ok

theorem does_captureAssigned {function : FunctionValue} {name : String}
    (isRoot : root ∈ context.graph.roots) (isFunction : context.IsFunction root.function function)
    (assigned : name ∈ root.modifiedBindings.map (·.1)) (idle : Idle context before)
    (hasInstance : ∃ inst, before.HasInstance root.function inst)
    (declares : before.AtDeclarations) :
    Does context.Ends (do
      let key ← capture context (writeValue context) root.function function.environment name
      updateInstance root.function fun found =>
        { found with bindings := found.bindings.insertIfNew name key } : SessionM Unit)
      before fun _ after => Writing context before after ∧ after.Knows root.function name := by
  refine (does_capture (visits_writeValue context) idle.regular hasInstance
    (fun _ _ _ bound => idle.under (·.hasValue_of_bound bound)) declares).bind ?_
  rintro key captured ⟨frame, isKey, known⟩
  obtain ⟨inst, isInstance⟩ := frame.hasInstance idle.valid hasInstance
  have bind : Step context captured (captured.changing root.function fun found =>
      { found with bindings := found.bindings.insertIfNew name key }) :=
    .adjust (.bindModified isRoot rfl isFunction assigned isKey known)
  exact .done (runs_updateInstance.mpr ⟨⟨inst, isInstance⟩, rfl⟩)
    ⟨frame.trans (.changing bind fun _ => ⟨rfl, rfl⟩) idle.valid,
      { inst with bindings := inst.bindings.insertIfNew name key },
      by simp [changing, KeyedTable.get?_modify, isInstance],
      by simp [KeyedTable.get?_insertIfNew]⟩

theorem does_captureModified {function : FunctionValue} (isRoot : root ∈ context.graph.roots)
    (isFunction : context.IsFunction root.function function) (idle : Idle context before)
    (hasInstance : ∃ inst, before.HasInstance root.function inst)
    (declares : before.AtDeclarations) :
    Does context.Ends (captureModified context root function.environment) before fun _ after =>
      Writing context before after ∧
        ∀ entry ∈ root.modifiedBindings, after.Knows root.function entry.1 := by
  refine .forM_each (fun entry member between frame => ?_) (.refl context before)
  have idle' := idle.of_frame frame.toFrame
  refine (does_captureAssigned isRoot isFunction (mem_map_of_mem member) idle'
    (frame.hasInstance idle.valid hasInstance) (frame.declares idle.valid declares)).imp ?_
  rintro _ later ⟨frame', knows⟩
  exact ⟨frame.trans frame' idle.valid, knows,
    fun _ knows => knows.of_extends (frame'.extends_ idle'.valid)⟩

theorem Idle.visitAll (idle : Idle context before) {ids : List ValueId}
    (present : context.Closed → ∀ id ∈ ids, context.graph.HasValue id) :
    Does context.Ends (ids.forM fun id => do let _ ← writeValue context id) before
      fun _ => Writing context before := by
  refine Maintains.forM (fun id member between frame => ?_) before (.refl context before)
  refine ((idle.of_frame frame.toFrame).write fun closed => present closed id member).bind ?_
  exact fun _ _ ⟨frame', _⟩ => .of_pure (frame.trans frame' idle.valid)

theorem Idle.writeNamed (idle : Idle context before) {entries : List (String × ValueId)}
    (present : context.Closed → ∀ entry ∈ entries, context.graph.HasValue entry.2) :
    Does context.Ends (entries.mapM fun (name, value) => do
      return (name, ← writeValue context value) : SessionM _) before fun results after =>
      Writing context before after ∧ results.map (·.1) = entries.map (·.1) ∧
        ∀ expr ∈ results.map (·.2), ∃ id, after.Refers context after.bodies.current id expr := by
  induction entries generalizing before with
  | nil => exact .of_pure ⟨.refl context _, rfl, by simp⟩
  | cons entry entries induction =>
    simp only [List.mapM_cons, bind_assoc, pure_bind]
    refine (idle.write fun closed => present closed entry mem_cons_self).bind ?_
    rintro expr middle ⟨frame, refers⟩
    refine (induction (idle.of_frame frame.toFrame)
      fun closed other member => present closed other (mem_cons_of_mem _ member)).bind ?_
    rintro others after ⟨frame', names, refers'⟩
    refine .of_pure ⟨frame.trans frame' idle.valid, by simp [names], fun other member => ?_⟩
    rcases mem_cons.mp member with rfl | member
    · exact ⟨entry.2, frame'.refers (frame.valid idle.valid) refers⟩
    · exact refers' other member

theorem Idle.writeOption (idle : Idle context before) {id : Option ValueId}
    (present : context.Closed → ∀ value ∈ id, context.graph.HasValue value) :
    Does context.Ends (id.mapM (writeValue context)) before fun result after =>
      Writing context before after ∧
        ∀ expr ∈ result, ∃ id, after.Refers context after.bodies.current id expr := by
  cases id with
  | none => exact .of_pure ⟨.refl context _, by simp⟩
  | some id =>
    refine .map ((idle.write fun closed => present closed id rfl).imp ?_)
    exact fun expr after ⟨frame, refers⟩ => ⟨frame, fun other member => ⟨id, by simp_all⟩⟩

theorem has_newRoot (function : ValueId) (outer : BodyId) :
    (session.adding (.root function) outer).bodies.Has session.bodies.arena.next ∧
      (session.adding (.root function) outer).bodies.kind session.bodies.arena.next =
        .root function := by
  simp [adding, Bodies.Has, Bodies.kind, Bodies.get?_newBody, Arena.next]

theorem does_declareRoot {outer : BodyId} (declared : before.bodies.Has outer)
    (present : context.Closed → context.graph.HasValue id) (idle : Idle context before) :
    Does context.Ends (inBody outer do let _ ← writeValue context id) before fun _ after =>
      Writing context before after ∧ (context.IsBuilt id → ∃ name, after.HasName id name) := by
  refine does_inBody (((idle.entering declared).write present).bind ?_)
  rintro expr inside ⟨frame, refers⟩
  exact .of_pure ⟨frame.entered, .inBody declared frame idle.valid, refers.exists_name⟩

theorem Idle.home (idle : Idle context session) {inst : FunctionInstance}
    (isInstance : session.HasInstance id inst) :
    session.bodies.Has inst.declarationBody ∧
      (session.entering inst.declarationBody).AtDeclarations := by
  obtain ⟨_, facts⟩ := idle.sound.instances _ inst isInstance
  obtain ⟨home, isHome, present, declares⟩ := idle.valid.homes _ _ facts.named
  obtain rfl : home = inst.declarationBody := Option.some.inj (isHome.symm.trans facts.home)
  exact ⟨present, declares⟩

theorem does_captureAtHome {function : FunctionValue} {inst : FunctionInstance}
    (isRoot : root ∈ context.graph.roots) (isFunction : context.IsFunction root.function function)
    (isInstance : before.HasInstance root.function inst) (idle : Idle context before) :
    Does context.Ends
      (inBody inst.declarationBody (captureModified context root function.environment)) before
      fun _ after => Writing context before after ∧
        ∀ entry ∈ root.modifiedBindings, after.Knows root.function entry.1 := by
  obtain ⟨present, declares⟩ := idle.home isInstance
  refine does_inBody ((does_captureModified isRoot isFunction (idle.entering present)
    ⟨inst, isInstance⟩ declares).imp ?_)
  rintro _ inside ⟨frame, known⟩
  exact ⟨frame.entered, .inBody present frame idle.valid, known⟩

theorem does_writeLocals {depth : Nat} (isRoot : root ∈ context.graph.roots)
    (isDepth : depth = nesting context.graph root) (present : before.bodies.Has body)
    (kind : before.bodies.kind body = .root root.function)
    (known : ∀ entry ∈ root.modifiedBindings, before.Knows root.function entry.1)
    (idle : Idle context before) :
    Does context.Ends (inBody body do
      root.values.forM fun value => do
        let _ ← writeValue context value
      let modifiedBindings ← root.modifiedBindings.mapM fun (name, value) =>
        return (name, ← writeValue context value)
      let result ← root.result.mapM (writeValue context)
      return ({
        function := root.function, body, parent := root.parent, verbatim := root.body
        modifiedBindings, result, depth } : RootRecord)) before fun record after =>
      Writing context before after ∧ RecordFacts context after record ∧
        record.function = root.function ∧ record.parent = root.parent ∧ record.body = body := by
  have isClosed := fun (closed : context.Closed) => closed.graph.roots root isRoot
  have start := idle.entering present
  refine does_inBody ((start.visitAll fun closed => (isClosed closed).values).bind ?_)
  intro _ visited visit
  refine ((start.of_frame visit.toFrame).writeNamed
    fun closed => (isClosed closed).modifiedBindings).bind ?_
  rintro modified assigned ⟨assign, names, assignedRefers⟩
  have frame := visit.trans assign start.valid
  refine ((start.of_frame frame.toFrame).writeOption fun closed => (isClosed closed).result).bind ?_
  rintro result inside ⟨give, resultRefers⟩
  have all := frame.trans give start.valid
  have extends_ := all.extends_ start.valid
  have atBody : inside.bodies.current = body := by
    rw [all.current]
    rfl
  have left : ∀ id expr, inside.Refers context inside.bodies.current id expr →
      inside.leaving.Refers context body id expr := by
    intro id expr refers
    have valid := all.valid start.valid
    exact atBody ▸ (Step.leave.extends_ valid).refers valid.tree valid.has_current refers
  have whole : Writing context before inside.leaving := .inBody present all idle.valid
  refine .of_pure ⟨all.entered, whole, ⟨⟨root, isRoot, rfl, rfl, rfl, names, isDepth⟩, ?_,
    extends_.bodies.has present, (extends_.bodies.kind_eq present).trans kind, ?_⟩, rfl, rfl, rfl⟩
  · intro name member
    obtain ⟨entry, isEntry, rfl⟩ := mem_map.mp (names ▸ member)
    exact (known entry isEntry).of_extends (whole.extends_ idle.valid)
  · rintro expr (member | member)
    · obtain ⟨id, refers⟩ := assignedRefers expr member
      exact ⟨id, left id expr (give.refers (frame.valid start.valid) refers)⟩
    · obtain ⟨id, refers⟩ := resultRefers expr member
      exact ⟨id, left id expr refers⟩

/-- What is known when some roots have been written. -/
structure Recorded (context : Context) (session : Session) (records : List RootRecord) : Prop where
  facts : ∀ record ∈ records, RecordFacts context session record
  bodies : ∀ body function, session.bodies.kind body = .root function →
    ∃ record ∈ records, record.body = body

theorem errorsOnly_parentBody {passed left : List (Nat × Root)} {entry : Nat × Root}
    (isSplit : orderedRoots context.graph = passed ++ entry :: left)
    (names : records.map (·.function) = passed.map (·.2.function)) :
    ErrorsOnly context.EndsPass (parentBody records entry.2) := by
  unfold parentBody
  split
  · exact .ok _
  · rename_i parent isParent
    split
    · exact .ok _
    · rename_i notFound
      refine ErrorsOnly.error_iff.mpr fun _ => .rootWithoutBody parent fun ordered => ?_
      have member := ordered passed entry left isSplit parent isParent
      obtain ⟨record, isRecord, same⟩ := mem_map.mp (names ▸ member)
      simp only [recordedBody?, Option.map_eq_none_iff, find?_eq_none, mem_reverse] at notFound
      exact notFound record isRecord (by simp [same])

theorem does_writeRoot {passed left : List (Nat × Root)} {depth : Nat}
    (isSplit : orderedRoots context.graph = passed ++ (depth, root) :: left)
    (names : records.map (·.function) = passed.map (·.2.function))
    (idle : Idle context before) (recorded : Recorded context before records) :
    Does context.EndsPass (writeRoot context records depth root) before fun record after =>
      Advances context before after ∧ Preserves context before after ∧
        Recorded context after (records ++ [record]) ∧
        record.function = root.function ∧ record.parent = root.parent ∧
        ParentRecorded records root.parent := by
  obtain ⟨isRoot, isDepth⟩ := mem_roots_of_mem_orderedRoots
    (show (depth, root) ∈ orderedRoots context.graph by simp [isSplit])
  refine .lift_bind (errorsOnly_parentBody isSplit names) fun outer isOuter =>
    .mono (?_ : Does context.Ends _ _ _) fun _ ends closed => .value (ends closed)
  obtain ⟨present, declares, isParent⟩ := declares_parentBody isOuter idle.valid recorded.facts
  refine (does_declareRoot present
    (fun closed => (closed.graph.roots root isRoot).function.hasValue) idle).bind ?_
  rintro _ reached ⟨declaring, isNamed⟩
  have idleReached := idle.of_frame declaring.toFrame
  refine .lift_bind (Context.errorsOnly_ends fun closed => ?_) fun environment isEnvironment => ?_
  · obtain ⟨function, isFunction⟩ := (closed.graph.roots root isRoot).function
    exact ⟨function.environment, by simp [rootEnvironment, HeapGraph.value_eq_ok.mpr isFunction,
      bind, Except.bind, HeapValue.asFunction?, pure, Except.pure]⟩
  obtain ⟨function, isFunction, rfl⟩ := rootEnvironment_eq_ok isEnvironment
  obtain ⟨name, named⟩ := isNamed (.inr ⟨function, isFunction⟩)
  obtain ⟨inst, isInstance⟩ :=
    idleReached.regular.kept.prepared.instanced root.function name function named isFunction
  refine .step (runs_instanceOf.mpr ⟨isInstance, rfl⟩)
    ((does_captureAtHome isRoot isFunction isInstance idleReached).bind ?_)
  rintro _ captured ⟨capture, knows⟩
  have frame := declaring.trans capture idle.valid
  have idleCaptured := idle.of_frame frame.toFrame
  have grows := (frame.extends_ idle.valid).bodies
  have declaresLater : (captured.bodies.kind outer).declaresValues = true := by
    rwa [grows.kind_eq present]
  have newRoot : Advances context captured _ :=
    .newRoot root.function (grows.has present) declaresLater
  obtain ⟨isPresent, isKind⟩ := @has_newRoot captured root.function outer
  refine .step (runs_newBody.mpr ⟨rfl, rfl⟩)
    ((does_writeLocals isRoot isDepth isPresent isKind knows
    (newRoot.idle idleCaptured)).imp ?_)
  rintro record after ⟨frame', known, isFunction, sameParent, isBody⟩
  have advances := (frame.advances.trans newRoot).trans frame'.advances
  have opening : Preserves context captured (captured.adding (.root root.function) outer) :=
    .of_reveals (((Extends.refl _).adding _ _).reveals idleCaptured.valid.tree)
      (fun body => Bodies.stmts_newBody _ body _ _) rfl rfl rfl rfl
  have preserves := (frame.preserves.trans opening).trans frame'.preserves
  refine ⟨advances, preserves, ⟨fun other member => ?_, fun body function isRoot => ?_⟩, isFunction,
    sameParent, isParent⟩
  · rcases mem_append.mp member with old | new
    · exact (recorded.facts other old).of_extends (advances.moves.extends_ idle.valid) idle.valid
    · rwa [mem_singleton.mp new]
  · have isRoot := frame'.toWork.steps.kind_root isRoot
    rw [adding, Bodies.kind_newBody] at isRoot
    split at isRoot
    · rename_i isNew
      exact ⟨record, by simp, isBody.trans isNew.symm⟩
    · obtain ⟨old, isOld, isBody⟩ := recorded.bodies body function
        (frame.toWork.steps.kind_root isRoot)
      exact ⟨old, mem_append_left _ isOld, isBody⟩

theorem does_writeRootsAfter {passed roots : List (Nat × Root)}
    (isSplit : orderedRoots context.graph = passed ++ roots)
    (names : records.map (·.function) = passed.map (·.2.function))
    (idle : Idle context before) (recorded : Recorded context before records) :
    Does context.EndsPass (writeRootsAfter context records roots) before fun results after =>
      Advances context before after ∧ Preserves context before after ∧
        Recorded context after results ∧
        ∃ later, results = records ++ later ∧
          later.map (·.function) = roots.map (·.2.function) ∧
          ∀ earlier record others, later = earlier ++ record :: others →
            ParentRecorded (records ++ earlier) record.parent := by
  induction roots generalizing before records passed with
  | nil =>
    exact .of_pure ⟨(Frame.refl context _).advances, .refl _ _, recorded, [], by simp⟩
  | cons entry roots induction =>
    refine (does_writeRoot isSplit names idle recorded).bind ?_
    rintro record middle ⟨advances, preserves, recorded', isFunction, sameParent, isParent⟩
    refine (@induction _ _ (passed ++ [entry]) (by simp [isSplit]) (by simp [names, isFunction])
      (advances.idle idle) recorded').imp ?_
    rintro _ after ⟨advances', preserves', recordedAll, later, rfl, names, areParents⟩
    refine ⟨advances.trans advances', preserves.trans preserves', recordedAll, record :: later,
      by simp, by simp [names, isFunction], fun earlier other others isSplit => ?_⟩
    cases earlier with
    | nil =>
      obtain ⟨rfl, rfl⟩ := List.cons.inj isSplit
      simpa [sameParent] using isParent
    | cons first earlier =>
      obtain ⟨rfl, isRest⟩ := List.cons.inj isSplit
      simpa using areParents earlier other others isRest

end Session

/-! ## The whole pass -/

/-- What is known when all values of a graph have been written. -/
structure Written.Complete (written : Written) : Prop where
  advances : Session.Advances written.context (Session.initial written.context) written.session
  idle : written.session.Idle written.context
  atTop : written.session.bodies.entered = []
  records : ∀ record ∈ written.roots, written.session.RecordFacts written.context record
  rootBodies : ∀ body function, written.session.bodies.kind body = .root function →
    ∃ record ∈ written.roots, record.body = body
  allRoots : written.roots.map (·.function) =
    (Session.orderedRoots written.context.graph).map (·.2.function)
  parents : ∀ earlier record later, written.roots = earlier ++ record :: later →
    Session.ParentRecorded earlier record.parent

theorem Written.Complete.facts {written : Written} (complete : written.Complete) {id : ValueId}
    {inst : FunctionInstance} (isInstance : written.session.HasInstance id inst) :
    ∃ function, Session.InstanceFacts written.context written.session id function inst :=
  complete.idle.sound.instances id inst isInstance

theorem Written.Complete.exists_record {written : Written} (complete : written.Complete)
    (isRoot : root ∈ written.context.graph.roots) :
    ∃ record ∈ written.roots, record.function = root.function := by
  obtain ⟨entry, member, rfl⟩ := Session.exists_mem_orderedRoots isRoot
  have recorded : entry.2.function ∈ written.roots.map (·.function) :=
    complete.allRoots ▸ mem_map_of_mem member
  exact mem_map.mp recorded

theorem Session.Recorded.initial {context : Context} {session : Session}
    (frame : Frame context (Session.initial context) session) : Recorded context session [] where
  facts := by simp
  bodies body function isRoot := by
    have isRoot := frame.toWork.steps.kind_root isRoot
    obtain ⟨index⟩ := body
    cases index <;> cases isRoot

theorem writeHeap_eq_ok {context : Context} {written : Written}
    (isWritten : writeHeap context = .ok written) :
    written.context = context ∧ written.Complete := by
  simp only [writeHeap, bind_eq_ok, pure_eq_ok] at isWritten
  obtain ⟨⟨roots, session⟩, runs, rfl⟩ := isWritten
  obtain ⟨_, middle, effects, roots⟩ := Runs.bind_iff.mp (show Runs _ _ _ _ from runs)
  have start := Session.Idle.initial context
  have frame := (Session.does_writeEffects start).outcome _ _ effects
  obtain ⟨advances, -, recorded, later, rfl, names, parents⟩ := (Session.does_writeRootsAfter
    (nil_append _).symm rfl (start.of_frame frame) (.initial frame)).outcome _ _ roots
  have all := frame.advances.trans advances
  exact ⟨rfl, all, all.idle start, all.entered, recorded.facts, recorded.bodies, names, parents⟩

/-- A closed graph is written, or a value is used outside of its root, or visits are nested too
deeply, or a root is declared before its parent. -/
theorem errorsOnly_writeHeap {context : Context} (closed : context.Closed) :
    ErrorsOnly (Failure.EndsPass context.graph) (writeHeap context) := by
  have start := Session.Idle.initial context
  simp only [writeHeap, ErrorsOnly.bind_iff, ErrorsOnly.of_pure, implies_true, and_true]
  refine FailsOnly.bind ((Session.does_writeEffects start).fails.mono fun _ ends =>
    .value (ends closed)) fun _ middle effects => ?_
  have frame := (Session.does_writeEffects start).outcome _ _ effects
  exact (Session.does_writeRootsAfter (nil_append _).symm rfl (start.of_frame frame)
    (.initial frame)).fails.mono fun _ ends => ends closed

end HeapScript
