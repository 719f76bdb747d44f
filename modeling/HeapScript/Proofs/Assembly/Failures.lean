import HeapScript.Proofs.Assembly.Completion

/-!
Why no script may be put together from a written heap.

What is known of an instance is there when it is looked up, so the definitions themselves are never
missing. Definitions are put at places within their bodies: as long as the body of a root is not
taken it holds the statements that were written, and afterwards nothing is put into it.
-/

namespace HeapScript

open List Runs

variable {id : ValueId} {record : RootRecord} {code : CodeBlock} {body : BodyId}
  {stmts : List Stmt} {point : Position} {name : String} {facts : FunctionFacts}
  {method : MethodInstance}

/-- Each class has one constructor, which all its members name, and no function is the one of two
roots. -/
structure HeapGraph.DefinesClasses (graph : HeapGraph) : Prop where
  distinct : graph.DistinctRoots
  agree : graph.ClassesAgree

inductive Failure.EndsAssembly (graph : HeapGraph) : Failure → Prop where
  | patternNotForwarded (function : ValueId) : EndsAssembly graph (.patternNotForwarded function)
  | definitionAfterRoot (body : BodyId) : EndsAssembly graph (.definitionAfterRoot body)
  | notInstance (id : ValueId) : EndsAssembly graph (.notInstance id)
  | classNeverDefined (prototype : ValueId) (unfit : ¬graph.DefinesClasses) :
      EndsAssembly graph (.classNeverDefined prototype)
  | classWithoutConstructor (prototype : ValueId) (unfit : ¬graph.DefinesClasses) :
      EndsAssembly graph (.classWithoutConstructor prototype)

open Failure (EndsAssembly)

variable {written : Written} {inst : FunctionInstance} {Expected : Failure → Prop}
    {graph : HeapGraph}

namespace Written

/-! ## Lookups -/

/-- A place for definitions in a body that declares values. -/
structure IsPoint (written : Written) (point : Position) : Prop where
  present : written.session.bodies.Has point.body
  declares : (written.session.bodies.kind point.body).declaresValues = true
  inside : point.index ≤ (written.session.bodies.stmts point.body).length

theorem errorsOnly_instanceOf : ErrorsOnly (EndsAssembly graph) (written.instanceOf id) := by
  unfold instanceOf
  split
  · exact .ok _
  · exact ErrorsOnly.error_iff.mpr (.notInstance id)

section

variable {scope : ScopeId}

variable {id : ValueId} (complete : written.Complete)
  (isInstance : written.session.instances.get? id = some inst)

include complete isInstance

theorem errorsOnly_definitionPoint : ErrorsOnly Expected inst.definitionPoint := by
  obtain ⟨point, isPoint⟩ := Option.ne_none_iff_exists'.mp (complete.placed isInstance)
  simp [FunctionInstance.definitionPoint, isPoint]

theorem isPoint_of_insertionPoint (isPoint : inst.insertionPoint = some point) :
    written.IsPoint point := by
  obtain ⟨present, declares, -⟩ := complete.accepts isInstance isPoint not_mem_nil
  exact ⟨present, declares, complete.kept.points id inst point isInstance isPoint⟩

theorem exists_codeBlock (closed : written.context.Closed) :
    ∃ code, written.context.graph.codeBlock inst.code = .ok code := by
  obtain ⟨function, facts⟩ := complete.facts isInstance
  obtain ⟨code, isCode⟩ := (closed.graph.functions id function facts.isFunction).code
  exact ⟨code, HeapGraph.codeBlock_eq_ok.mpr (facts.code ▸ isCode)⟩

theorem errorsOnly_replacementFor : ErrorsOnly Expected (written.replacementFor inst name) := by
  obtain ⟨_, isReplacement, -⟩ := exists_replacementFor complete isInstance name
  exact .of_ok isReplacement

theorem errorsOnly_replacementsFor : ErrorsOnly Expected (written.replacementsFor inst) := by
  simp only [replacementsFor, ErrorsOnly.bind_iff, ErrorsOnly.of_pure, implies_true, and_true]
  refine .mapM fun name _ => ?_
  simp [errorsOnly_replacementFor complete isInstance]

theorem exists_get_captured (member : scope ∈ inst.scopes) :
    ∃ found, written.session.captured.get scope = .ok found := by
  obtain ⟨_, facts⟩ := complete.facts isInstance
  obtain ⟨found, isFound⟩ := facts.scopes scope member
  exact ⟨found, by simp [CapturedScopes.get, isFound]⟩

theorem errorsOnly_selectorLiteral (member : scope ∈ inst.scopes) :
    ErrorsOnly Expected (written.selectorLiteral scope) := by
  obtain ⟨found, isFound⟩ := exists_get_captured complete isInstance member
  simp [selectorLiteral, CapturedScopes.selector, isFound]

theorem errorsOnly_owner (member : scope ∈ inst.scopes) :
    ErrorsOnly Expected (written.session.captured.owner scope) := by
  obtain ⟨found, isFound⟩ := exists_get_captured complete isInstance member
  simp [CapturedScopes.owner, isFound]

theorem errorsOnly_scopePrologue {selector : Nat → ScopeId → Except Failure Expr}
    (selects : ∀ position, ∀ scope ∈ inst.scopes, ErrorsOnly Expected (selector position scope)) :
    ErrorsOnly Expected (written.scopePrologue inst selector) := by
  refine .mapM fun entry member => ?_
  have isScope : entry.1 ∈ inst.scopes := fst_mem_of_mem_zipIdx member
  simp only [ErrorsOnly.bind_iff, CapturedScopes.initialization, ErrorsOnly.of_pure, implies_true,
    and_true]
  exact ⟨selects entry.2 entry.1 isScope, fun _ _ => errorsOnly_owner complete isInstance isScope⟩

theorem errorsOnly_literalPrologue : ErrorsOnly Expected
    (written.scopePrologue inst fun _ scope => written.selectorLiteral scope) :=
  errorsOnly_scopePrologue complete isInstance fun _ _ member =>
    errorsOnly_selectorLiteral complete isInstance member

theorem errorsOnly_writeBacks : ErrorsOnly Expected (Assembly.writeBacks written inst record) := by
  refine .mapM fun entry _ => ?_
  simp [errorsOnly_replacementFor complete isInstance]

end

/-! ## Plans -/

section

variable {instances : List FunctionInstance} (complete : written.Complete)
  (known : ∀ inst ∈ instances, written.session.instances.get? inst.function = some inst)

include complete known

theorem errorsOnly_planNames {names : List String} :
    ErrorsOnly Expected (written.planNames instances names) := by
  induction names with
  | nil => exact .of_pure _
  | cons name names induction =>
    rw [planNames, ErrorsOnly.bind_iff]
    refine ⟨.mapM fun inst member => ?_, fun resolved _ => ?_⟩
    · simp [errorsOnly_replacementFor complete (known inst member)]
    · split
      · exact induction
      · split
        · exact .of_pure _
        · simp [induction]

theorem errorsOnly_sameOwners {left right : FunctionInstance} (isLeft : left ∈ instances)
    (isRight : right ∈ instances) : ErrorsOnly Expected (written.sameOwners left right) := by
  refine .allM fun entry member => ?_
  obtain ⟨inLeft, inRight⟩ := of_mem_zip member
  simp [errorsOnly_owner complete (known left isLeft) inLeft,
    errorsOnly_owner complete (known right isRight) inRight]

theorem errorsOnly_planFactory :
    ErrorsOnly Expected (written.planFactory code facts instances) := by
  unfold planFactory
  split
  · exact .of_pure _
  · rename_i first others
    split
    · exact .of_pure _
    · rw [ErrorsOnly.bind_iff]
      refine ⟨.allM fun inst member => ?_, fun sameScopes _ => ?_⟩
      · split
        · exact errorsOnly_sameOwners complete known member mem_cons_self
        · exact .of_pure _
      · split
        · rw [ErrorsOnly.bind_iff]
          refine ⟨errorsOnly_planNames complete known, fun plan _ => ?_⟩
          split <;> exact .of_pure _
        · exact .of_pure _

end

end Written

/-! ## Splices -/

/-- All groups can be put in if their places are within the bodies. -/
theorem Splices.applyEach_of_inside {splices : Splices} {targets : List BodyId} {bodies : Bodies}
    (inside : ∀ body, ∀ group ∈ splices.groupsOf body, group.index ≤ (bodies.stmts body).length) :
    (splices.applyEach targets bodies).2 = none := by
  induction targets generalizing bodies with
  | nil => rfl
  | cons body targets induction =>
    obtain ⟨spliced, isSpliced⟩ := exists_spliceInto (inside body)
    rw [applyEach, Splices.applyTo_eq_ok.mpr ⟨spliced, isSpliced, rfl⟩]
    have growing := Splices.spliced_groupsOf (fun _ _ _ _ => trivial) isSpliced
    exact induction fun other group member => Nat.le_trans (inside other group member)
      (Bodies.spliced_setStmts growing other).length_le

/-! ## Definitions -/

def Expr.createsLazily : Expr → Bool
  | .call (.member _ method) _ => method == "createLazyObject"
  | _ => false

def Stmt.isPlaceholder : Stmt → Bool
  | .declare _ _ (some init) => init.createsLazily
  | .assign _ value => value.createsLazily
  | _ => false

def Stmt.isDefinition : Stmt → Bool
  | .function _ => true
  | .declare kind name init =>
    name != "__lazyObjectInitializer" && !(Stmt.declare kind name init).isPlaceholder
  | _ => false

theorem Stmt.not_isPlaceholder {stmt : Stmt} (defines : stmt.isDefinition = true) :
    stmt.isPlaceholder = false := by
  cases stmt <;> simp_all [isDefinition, isPlaceholder]

theorem isDefinition_declare {index : Nat} {letter : Char}
    (isLetter : name.toList[index]? = some letter)
    (other : "__lazyObjectInitializer".toList[index]? ≠ some letter) {init : Option Expr}
    (plain : init.all (!·.createsLazily) = true) :
    (Stmt.declare .var name init).isDefinition = true := by
  have different : name ≠ "__lazyObjectInitializer" := fun same => other (same ▸ isLetter)
  cases init <;> simp_all [Stmt.isDefinition, Stmt.isPlaceholder]

theorem Written.Complete.isDefinition_var (complete : written.Complete)
    (named : written.session.HasName id name) {init : Expr} (plain : init.createsLazily = false) :
    (Stmt.var name init).isDefinition = true := by
  have different : name ≠ "__lazyObjectInitializer" :=
    complete.kept.named.ne_of_line named (by decide)
  simp [Stmt.var, Stmt.isDefinition, Stmt.isPlaceholder, different, plain]

theorem MethodInstance.createsLazily_valueExpr (method : MethodInstance) (className : String) :
    (method.valueExpr className).createsLazily = false := by
  unfold valueExpr
  dsimp only
  split <;> rfl

theorem CapturedScopes.isDefinition_bootstrap (captured : CapturedScopes) (owner : ScopeOwner) :
    ∀ stmt ∈ captured.bootstrap owner, stmt.isDefinition = true := by
  have letter : (captured.arrayName owner).toList[2]? = some 'c' := letter_append _ (by decide)
  intro stmt member
  rcases mem_bootstrap member with rfl | rfl
  · exact isDefinition_declare letter (by decide) rfl
  · rfl

section

variable (complete : written.Complete) (isInstance : written.session.HasInstance id inst)

include complete isInstance

/-- All statements that come with the definition of a function are definitions. -/
theorem Written.Complete.areDefinitions {first : Stmt} (defines : first.isDefinition = true) :
    ∀ stmt ∈ first :: inst.extras, stmt.isDefinition = true := by
  rintro stmt (_ | ⟨_, isExtra⟩)
  · exact defines
  · cases complete.kept.equipped.extras id inst isInstance stmt isExtra with
    | flag number =>
      have letter : s!"__init_{number}".toList[2]? = some 'i' := letter_append _ (by decide)
      exact isDefinition_declare letter (by decide) rfl
    | «alias» _ _ named => exact complete.isDefinition_var named rfl

theorem Written.Complete.areDefinitions_var {init : Expr} (plain : init.createsLazily = false) :
    ∀ stmt ∈ .var inst.name init :: inst.extras, stmt.isDefinition = true := by
  obtain ⟨function, facts⟩ := complete.facts isInstance
  exact complete.areDefinitions isInstance (complete.isDefinition_var facts.named plain)

theorem Written.Complete.definitions_memberGroup {group : List Stmt}
    (isGroup : Assembly.memberGroup written inst method = .ok group) :
    ∀ stmt ∈ group, stmt.isDefinition = true := by
  obtain ⟨constructor, -, isGroup⟩ := bind_eq_ok.mp isGroup
  obtain rfl := pure_eq_ok.mp isGroup
  exact complete.areDefinitions_var isInstance (method.createsLazily_valueExpr _)

end

namespace Assembly

variable {before : Assembly} {order : Nat}

/-- Every waiting definition has its place within a body that is not taken. Before the first root is
built no body is, and the global body never is. -/
structure Fits (written : Written) (early : Bool) (assembly : Assembly) : Prop where
  untaken : early = true → assembly.takenBodies = []
  global : Bodies.global ∉ assembly.takenBodies
  size : assembly.bodies.arena.size = written.session.bodies.arena.size
  stmts : ∀ body, written.Accepts assembly.takenBodies body →
    assembly.bodies.stmts body = written.session.bodies.stmts body
  waiting : ∀ entry ∈ assembly.splices.waiting, written.Accepts assembly.takenBodies entry.1 ∧
    entry.2.index ≤ (written.session.bodies.stmts entry.1).length
  definitions : ∀ entry ∈ assembly.splices.waiting, ∀ stmt ∈ entry.2.stmts,
    stmt.isDefinition = true
  prelude : ∀ stmt ∈ assembly.globalPrelude, stmt.isDefinition = true

namespace Fits

variable {early : Bool} {before after : Assembly}

theorem initial (complete : written.Complete) :
    Fits written true { bodies := withoutLazyBodies written.session } where
  untaken _ := rfl
  global := not_mem_nil
  size := written.session.withoutLazyBodies_eq ▸ Bodies.size_clearing
  stmts body accepts := by
    have notLazy : body ∉ written.session.lazyBodies := by
      intro member
      obtain ⟨entry, isEntry, isBody⟩ := Session.mem_lazyBodies.mp member
      have kind := complete.kept.housed.kind_of_lazyBody isEntry isBody
      have declares := accepts.2.1
      rw [kind] at declares
      cases declares
    rw [written.session.withoutLazyBodies_eq, Bodies.stmts_clearing, if_neg notLazy]
  waiting := by simp
  definitions := by simp
  prelude := by simp

section

variable (fits : Fits written early before)

include fits

theorem late : Fits written false before :=
  { fits with untaken := fun isEarly => by cases isEarly }

theorem splice (isPoint : written.IsPoint point)
    (defines : ∀ stmt ∈ stmts, stmt.isDefinition = true)
    (notTaken : point.body ∉ before.takenBodies) :
    Fits written early { before with splices := before.splices.add point order stmts } := by
  have cases : ∀ entry ∈ (before.splices.add point order stmts).waiting,
      entry ∈ before.splices.waiting ∨ entry = (point.body, ⟨point.index, order, stmts⟩) := by
    intro entry member
    unfold Splices.add at member
    split at member
    · exact .inl member
    · exact (mem_append.mp member).imp_right mem_singleton.mp
  exact { fits with
    waiting := by
      intro entry member
      rcases cases entry member with old | rfl
      · exact fits.waiting entry old
      · exact ⟨⟨isPoint.present, isPoint.declares, notTaken⟩, isPoint.inside⟩
    definitions := by
      intro entry member
      rcases cases entry member with old | rfl
      · exact fits.definitions entry old
      · exact defines }

theorem setStmts (stmts : List Stmt) (closed : ¬written.Accepts before.takenBodies body) :
    Fits written early { before with bodies := before.bodies.setStmts body stmts } :=
  { fits with
    size := (Bodies.size_setStmts _ _ _).trans fits.size
    stmts := by
      intro other accepts
      have different : body ≠ other := fun same => closed (same ▸ accepts)
      rw [← fits.stmts other accepts]
      simp [Bodies.stmts, Bodies.setStmts, Arena.get?_modify, different] }

theorem inside {group : SpliceGroup} (isGroup : group ∈ before.splices.groupsOf body) :
    group.index ≤ (before.bodies.stmts body).length := by
  obtain ⟨⟨_, _⟩, isEntry, rfl⟩ :=
    mem_map.mp ((before.splices.perm_groupsOf body).mem_iff.mp isGroup)
  obtain ⟨isWaiting, same⟩ := mem_filter.mp isEntry
  obtain rfl := of_decide_eq_true same
  obtain ⟨accepts, inside⟩ := fits.waiting _ isWaiting
  rwa [fits.stmts _ accepts]

theorem takingRoot (isInner : record.body ≠ Bodies.global) :
    Fits written false (before.takingRoot record) where
  untaken isEarly := by cases isEarly
  global := not_mem_cons_of_ne_of_not_mem isInner.symm fits.global
  size := (Bodies.size_setStmts _ _ _).trans fits.size
  stmts body accepts := by
    obtain ⟨present, declares, notTaken⟩ := accepts
    obtain ⟨different, notTaken⟩ := not_or.mp fun member => notTaken (mem_cons.mpr member)
    rw [← fits.stmts body ⟨present, declares, notTaken⟩]
    exact (Bodies.stmts_setStmts_nil ..).trans (if_neg (Ne.symm different))
  waiting entry member := by
    obtain ⟨isWaiting, different⟩ := mem_filter.mp member
    obtain ⟨⟨present, declares, notTaken⟩, inside⟩ := fits.waiting entry isWaiting
    exact ⟨⟨present, declares, not_mem_cons_of_ne_of_not_mem (by simpa using different) notTaken⟩,
      inside⟩
  definitions entry member := fits.definitions entry (mem_of_mem_filter member)
  prelude := fits.prelude

end

end Fits

/-! ## Single steps -/

section

variable {early : Bool}

theorem maintains_count {change : Report → Report} :
    Maintains (Fits written early) Expected (count change) :=
  .of_modify fun _ fits => { fits with }

theorem maintains_addToPrelude {placement : Option ValueId}
    (defines : ∀ stmt ∈ stmts, stmt.isDefinition = true) :
    Maintains (Fits written early) Expected (addToPrelude placement stmts) := by
  refine .of_modify fun _ fits => ?_
  cases placement with
  | none => exact { fits with prelude := forall_mem_append.mpr ⟨fits.prelude, defines⟩ }
  | some root => exact { fits with }

theorem maintains_addClassMember {definition : FunctionDef} :
    Maintains (Fits written early) Expected (addClassMember method code definition) :=
  .of_modify fun _ fits => { fits with }

theorem maintains_splice (isPoint : written.IsPoint point)
    (defines : ∀ stmt ∈ stmts, stmt.isDefinition = true) :
    Maintains (Fits written true) Expected (splice point order stmts) :=
  .of_modify fun _ fits => fits.splice isPoint defines (by simp [fits.untaken rfl])

theorem failsOnly_spliceLate :
    FailsOnly (EndsAssembly graph) (spliceLate point order stmts) before := by
  rw [spliceLate, FailsOnly.get_bind]
  split
  · exact .bind (FailsOnly.throw_iff.mpr (.definitionAfterRoot _)) fun _ _ _ => .of_modify _
  · exact .of_modify _

theorem failsOnly_takeBody : FailsOnly Expected (takeBody body) before := by
  simp [takeBody]

theorem failsOnly_delayedInit : FailsOnly Expected (delayedInit inst) before := by
  unfold delayedInit
  split
  · exact .of_pure _
  · exact .bind failsOnly_takeBody fun _ _ _ => .of_pure _

/-- The construction on a first call is taken out of a body that declares no values. -/
theorem maintains_delayedInit (complete : written.Complete)
    (isInstance : written.session.HasInstance id inst) :
    Maintains (Fits written early) Expected (delayedInit inst) := by
  unfold delayedInit
  split
  · exact .of_pure _
  · rename_i delayed isDelayed
    refine .bind (fun before fits => ⟨failsOnly_takeBody, fun _ after runs => ?_⟩) fun _ =>
      .of_pure _
    obtain ⟨-, rfl⟩ := runs_takeBody.mp runs
    refine fits.setStmts [] fun accepts => ?_
    have isBody := complete.kept.prepared.flagged id inst delayed isInstance isDelayed
    have declares := accepts.2.1
    rw [(complete.kept.housed.delayedBodies delayed.body id).mpr isBody] at declares
    cases declares

end

/-! ## Classes -/

theorem errorsOnly_memberGroup :
    ErrorsOnly (EndsAssembly graph) (memberGroup written inst method) := by
  simp [memberGroup, Written.errorsOnly_instanceOf]

section

variable {after : Assembly} {result : Unit} {prototype : ValueId} {records : List RootRecord}

variable (complete : written.Complete)

include complete

theorem Fits.defineClass
    (runs : Runs (Assembly.defineClass written prototype) before result after)
    (fits : Fits written false before) : Fits written false after := by
  rcases defineClass_cases runs with ⟨-, rfl⟩ |
    ⟨node, constructor, point, -, -, isConstructor, isPoint, notTaken, rfl⟩
  · exact fits
  · have isInstance := Written.instanceOf_eq_ok isConstructor
    have erased : Fits written false { before with classes := before.classes.erase prototype } :=
      { fits with }
    exact erased.splice (Written.isPoint_of_insertionPoint complete isInstance isPoint)
      (complete.areDefinitions_var isInstance rfl) notTaken

theorem Fits.releaseClass
    (runs : Runs (Assembly.releaseClass written prototype) before result after)
    (fits : Fits written false before) : Fits written false after := by
  obtain ⟨_, _, -, rfl, ⟨-, runs⟩ | ⟨-, rfl⟩⟩ := releaseClass_cases runs
  · exact Fits.defineClass complete runs { fits with }
  · exact { fits with }

theorem failsOnly_defineClass
    (ready : graph.DefinesClasses → ∀ node, before.classes.get? prototype = some node →
      node.hasConstructor = true) :
    FailsOnly (EndsAssembly graph) (defineClass written prototype) before := by
  simp only [defineClass, FailsOnly.get_bind]
  split
  · exact .of_pure _
  · rename_i node isClass
    have defines : ∀ state, FailsOnly (EndsAssembly graph) (do
        let constructor ← written.instanceOf node.constructor
        let point ← constructor.definitionPoint
        spliceLate point constructor.serial
          (.var constructor.name (.classExpr node.definition) :: constructor.extras) :
            AssemblyM Unit)
        state := by
      intro state
      refine FailsOnly.lift_bind.mpr ⟨Written.errorsOnly_instanceOf, fun constructor isFound => ?_⟩
      exact FailsOnly.lift_bind.mpr ⟨Written.errorsOnly_definitionPoint complete
        (Written.instanceOf_eq_ok isFound), fun _ _ => failsOnly_spliceLate⟩
    refine .bind (.of_modify _) fun _ _ _ => ?_
    split
    · exact defines _
    · rename_i missing
      have unfit : ¬graph.DefinesClasses := fun fit => missing (ready fit node isClass)
      exact .bind (FailsOnly.throw_iff.mpr (.classWithoutConstructor prototype unfit))
        fun _ _ _ => defines _

theorem failsOnly_releaseClass
    (ready : graph.DefinesClasses → (before.awaitedMembers.get? prototype).getD 0 - 1 = 0 →
      ∀ node, before.classes.get? prototype = some node → node.hasConstructor = true) :
    FailsOnly (EndsAssembly graph) (releaseClass written prototype) before := by
  simp only [releaseClass, FailsOnly.get_bind]
  refine .bind (.of_modify _) fun _ _ runs => ?_
  obtain rfl := modify_iff.mp runs
  split
  · rename_i isLast
    exact failsOnly_defineClass complete fun fit => ready fit isLast
  · exact .of_pure _

/-! ## Definitions -/

theorem maintains_defineClone (isInstance : written.session.HasInstance id inst) :
    Maintains (Fits written true) (EndsAssembly graph) (defineClone written code inst) := by
  refine .lift_bind (Written.errorsOnly_definitionPoint complete isInstance) fun point isPoint => ?_
  have isPoint := Written.isPoint_of_insertionPoint complete isInstance
    (definitionPoint_eq_ok isPoint)
  refine .lift_bind (Written.errorsOnly_replacementsFor complete isInstance) fun _ _ => ?_
  refine .lift_bind (Written.errorsOnly_literalPrologue complete isInstance) fun _ _ => ?_
  refine .bind (maintains_delayedInit complete isInstance) fun _ => ?_
  dsimp only
  split
  · exact maintains_splice isPoint (complete.areDefinitions_var isInstance rfl)
  · refine .bind maintains_addClassMember fun _ => ?_
    split
    · exact .of_pure _
    · exact .lift_bind errorsOnly_memberGroup fun _ isGroup =>
        maintains_splice isPoint (complete.definitions_memberGroup isInstance isGroup)

omit complete in
theorem errorsOnly_forwardParams {function : ValueId} {params : List Param} :
    ErrorsOnly (EndsAssembly graph) (forwardParams function params) := by
  induction params with
  | nil => exact .of_pure _
  | cons param params induction =>
    cases param <;> simp [forwardParams, induction, EndsAssembly.patternNotForwarded]

theorem maintains_defineStub {plan : FactoryPlan} {factory : String} {number : Nat}
    (isInstance : written.session.HasInstance id inst) :
    Maintains (Fits written true) (EndsAssembly graph)
      (defineStub written code facts plan factory number inst) := by
  refine .lift_bind (Written.errorsOnly_definitionPoint complete isInstance) fun point isPoint => ?_
  have isPoint := Written.isPoint_of_insertionPoint complete isInstance
    (definitionPoint_eq_ok isPoint)
  refine .lift_bind (.mapM fun _ member =>
    Written.errorsOnly_selectorLiteral complete isInstance member) fun selectors _ => ?_
  have needs : ErrorsOnly (EndsAssembly graph) (needsCall facts inst (plan.isRisky number)) := by
    simp [needsCall, FunctionInstance.usedBeforeDefinition,
      Written.errorsOnly_definitionPoint complete isInstance]
  refine .lift_bind needs fun calls _ => ?_
  dsimp only
  split
  · simp only [callStub, bind_assoc, pure_bind]
    refine .bind maintains_count fun _ => .lift_bind errorsOnly_forwardParams fun _ _ => ?_
    exact .bind (maintains_delayedInit complete isInstance) fun _ =>
      maintains_splice isPoint (complete.areDefinitions isInstance rfl)
  · simp only [pure_bind]
    exact .bind maintains_count fun _ =>
      maintains_splice isPoint (complete.areDefinitions_var isInstance rfl)

theorem maintains_defineFactory {plan : FactoryPlan} {first : FunctionInstance}
    {others : List FunctionInstance}
    (known : ∀ inst ∈ first :: others, written.session.HasInstance inst.function inst) :
    Maintains (Fits written true) (EndsAssembly graph)
      (defineFactory written code facts plan first (first :: others)) := by
  refine .bind maintains_count fun _ => .get_bind fun _ => ?_
  refine .bind (.of_modify fun _ fits => { fits with }) fun _ => ?_
  have prologue : ErrorsOnly (EndsAssembly graph) (written.scopePrologue first fun position _ =>
      return .var (selectorParamName position)) :=
    Written.errorsOnly_scopePrologue complete (known first mem_cons_self) fun _ _ _ =>
      .of_pure _
  refine .lift_bind (by simp [factoryDefinition, prologue]) fun definition _ => ?_
  refine .bind (maintains_addToPrelude (by simp [Stmt.isDefinition])) fun _ =>
    .forM fun entry member => ?_
  have isInstance := known entry.1 (fst_mem_of_mem_zipIdx member)
  exact maintains_defineStub complete isInstance

theorem maintains_defineBlock (closed : written.context.Closed) {groups : List BlockGroup}
    {group : BlockGroup} (areGroups : blockGroups written = .ok groups) (isGroup : group ∈ groups) :
    Maintains (Fits written true) (EndsAssembly graph)
      (defineBlock written group.code group.functions) := by
  obtain ⟨code, isCode⟩ := Written.code_of_mem_groups areGroups isGroup
  obtain ⟨facts, isFacts⟩ := closed.facts group.code ⟨code, HeapGraph.codeBlock_eq_ok.mp isCode⟩
  refine .lift_bind (.of_ok isCode) fun code _ => ?_
  refine .lift_bind (by simp [Context.factsOf, isFacts]) fun facts _ => ?_
  refine .mapM_lift_bind (fun _ _ => Written.errorsOnly_instanceOf) fun instances areInstances => ?_
  have known : ∀ inst ∈ instances, written.session.instances.get? inst.function = some inst :=
    fun inst member => (Written.get?_of_mem_mapM complete areInstances member).2
  have copies : Maintains (Fits written true) (EndsAssembly graph)
      (if shouldInline written.context.settings code instances = true then do
        count fun report => { report with inlinedBlocks := report.inlinedBlocks + 1 }
        instances.forM (defineClone written code)
      else do
        count fun report => { report with clonedBlocks := report.clonedBlocks + 1 }
        instances.forM (defineClone written code)) := by
    split
    all_goals exact .bind maintains_count fun _ => .forM fun inst member =>
      maintains_defineClone complete (known inst member)
  by_cases shareable : isShareable written.context.settings code facts instances = true
  · rw [if_pos shareable]
    refine .lift_bind (Written.errorsOnly_planFactory complete known) fun plan _ => ?_
    dsimp only
    split
    · exact maintains_defineFactory complete known
    · exact copies
  · rw [if_neg shareable, pure_bind]
    exact copies

/-! ## Optimized roots -/

omit complete in
theorem failsOnly_closeBody (fits : Fits written false before) :
    FailsOnly Expected (closeBody body) before := by
  obtain ⟨spliced, isSpliced⟩ := exists_spliceInto fun _ => fits.inside
  simp only [closeBody, FailsOnly.get_bind, FailsOnly.lift_bind, FailsOnly.of_set, implies_true,
    and_true]
  exact .of_ok (Splices.applyTo_eq_ok.mpr ⟨spliced, isSpliced, rfl⟩)

theorem maintains_rootBody (isInstance : written.session.HasInstance record.function inst)
    (facts : written.session.RecordFacts written.context record) :
    Maintains (Fits written false) (EndsAssembly graph) (rootBody written inst record) := by
  have delays : Maintains (Fits written false) (EndsAssembly graph) (delayedInit inst) :=
    maintains_delayedInit complete isInstance
  refine fun before fits => ⟨?_, fun _ after runs => ?_⟩
  · refine .bind (failsOnly_closeBody fits) fun _ closed _ => ?_
    refine .bind (by simp [takeRootPrelude]) fun _ taken _ => ?_
    refine FailsOnly.lift_bind.mpr
      ⟨Written.errorsOnly_literalPrologue complete isInstance, fun prologue _ => ?_⟩
    refine .bind failsOnly_takeBody fun values _ _ => ?_
    refine FailsOnly.lift_bind.mpr
      ⟨Written.errorsOnly_writeBacks complete isInstance, fun assignments _ => ?_⟩
    exact .bind failsOnly_delayedInit fun _ _ _ => .of_pure _
  · obtain ⟨_, _, _, _, -, -, -, delaying, -⟩ :=
      runs_rootBody (by rw [Bodies.Has, fits.size]; exact facts.present) runs
    have isInner : record.body ≠ Bodies.global := by
      intro same
      have kind := facts.kind
      rw [same, complete.idle.valid.tree.kind_global] at kind
      cases kind
    exact (delays _ (fits.takingRoot isInner)).2 _ _ delaying

theorem Fits.defineRoot (isRecord : record ∈ written.roots)
    (runs : Runs (Assembly.defineRoot written record) before result after)
    (fits : Fits written false before) : Fits written false after := by
  obtain ⟨inst, code, body, built, isInstance, isCode, taking, placing⟩ := defineRoot_cases runs
  have isInstance := Written.instanceOf_eq_ok isInstance
  have takes : Maintains _ (EndsAssembly written.context.graph) _ :=
    maintains_rootBody complete isInstance (complete.records record isRecord)
  have counted : Fits written false built.countingRoot :=
    { (takes before fits).2 body built taking with }
  rcases placing with ⟨-, adding⟩ | ⟨method, added, placed, -, adding, splicing, releasing⟩
  · have adds : Maintains (Fits written false) (EndsAssembly written.context.graph)
        (addToPrelude record.parent
          (.var inst.name (.function { code.function with body }) :: inst.extras)) :=
      maintains_addToPrelude (complete.areDefinitions_var isInstance rfl)
    exact (adds _ counted).2 _ _ adding
  · have entered : Fits written false added := by
      obtain rfl := modify_iff.mp adding
      exact { counted with }
    rcases splicing with ⟨-, rfl⟩ | ⟨-, group, point, isGroup, isPoint, notTaken, splicing⟩
    · exact Fits.releaseClass complete releasing entered
    · obtain rfl := runs_splice.mp splicing
      refine Fits.releaseClass complete releasing (entered.splice ?_ ?_ notTaken)
      · exact Written.isPoint_of_insertionPoint complete isInstance isPoint
      · exact complete.definitions_memberGroup isInstance isGroup

theorem failsOnly_defineRoot (closed : written.context.Closed) (isRecord : record ∈ written.roots)
    (fits : Fits written false before)
    (ready : graph.DefinesClasses → ∀ inst method placed,
      written.session.HasInstance record.function inst →
      EntersClass written record inst method before placed →
      (placed.awaitedMembers.get? method.classPrototype).getD 0 - 1 = 0 →
      ∀ node, placed.classes.get? method.classPrototype = some node → node.hasConstructor = true) :
    FailsOnly (EndsAssembly graph) (defineRoot written record) before := by
  refine FailsOnly.lift_bind.mpr ⟨Written.errorsOnly_instanceOf, fun inst isInstance => ?_⟩
  have isInstance := Written.instanceOf_eq_ok isInstance
  obtain ⟨code, isCode⟩ := Written.exists_codeBlock complete isInstance closed
  refine FailsOnly.lift_bind.mpr ⟨.of_ok isCode, fun code isCode => ?_⟩
  refine .bind ((maintains_rootBody complete isInstance
    (complete.records record isRecord) before fits).1) fun body built building => ?_
  refine .bind (.of_modify _) fun _ counted counting => ?_
  obtain rfl := runs_count.mp counting
  dsimp only
  split
  · exact .of_modify _
  · rename_i method isMethod
    refine .bind (.of_modify _) fun _ added adding => ?_
    have enters : ∀ placed, _ → EntersClass written record inst method before placed :=
      fun placed splicing => ⟨code, body, built, added, isCode, building, isMethod, adding,
        splicing⟩
    split
    · rename_i isConstructor
      exact failsOnly_releaseClass complete fun fit =>
        ready fit inst method added isInstance (enters added (.inl ⟨isConstructor, rfl⟩))
    · rename_i notConstructor
      refine FailsOnly.lift_bind.mpr ⟨errorsOnly_memberGroup, fun group isGroup => ?_⟩
      refine FailsOnly.lift_bind.mpr
        ⟨Written.errorsOnly_definitionPoint complete isInstance, fun point isPoint => ?_⟩
      refine .bind failsOnly_spliceLate fun _ placed splicing => ?_
      obtain ⟨notTaken, splicing⟩ := runs_spliceLate splicing
      exact failsOnly_releaseClass complete fun fit => ready fit inst method placed isInstance
        (enters placed (.inr ⟨notConstructor, group, point, isGroup, definitionPoint_eq_ok isPoint,
          notTaken, splicing⟩))

/-! ## All functions -/

theorem errorsOnly_blockGroups (closed : written.context.Closed) :
    ErrorsOnly Expected (blockGroups written) := by
  simp only [blockGroups, ErrorsOnly.bind_iff, ErrorsOnly.of_pure, implies_true, and_true]
  refine .mapM fun codeId member => ?_
  obtain ⟨inst, isInstance, rfl⟩ := mem_map.mp (mem_eraseDups.mp member)
  have isInstance := complete.get?_function (mem_of_mem_filter isInstance)
  obtain ⟨code, isCode⟩ := Written.exists_codeBlock complete isInstance closed
  simp [isCode]

omit complete in
theorem errorsOnly_awaitedMembersOf :
    ErrorsOnly (EndsAssembly graph) (awaitedMembersOf written) := by
  refine .foldlM fun record _ awaited => ?_
  rw [ErrorsOnly.bind_iff]
  refine ⟨Written.errorsOnly_instanceOf, fun inst _ => ?_⟩
  split <;> exact .of_pure _

theorem maintains_defineBlocks (closed : written.context.Closed) {groups : List BlockGroup}
    (areGroups : blockGroups written = .ok groups) :
    Maintains (Fits written true) (EndsAssembly graph)
      (groups.forM fun group => defineBlock written group.code group.functions) :=
  .forM fun _ isGroup => maintains_defineBlock complete closed areGroups isGroup

theorem Fits.defineReadyClasses
    (runs : Runs (Assembly.defineReadyClasses written) before result after)
    (fits : Fits written false before) : Fits written false after := by
  simp only [Assembly.defineReadyClasses, Runs.get_bind] at runs
  exact forM_invariant (fun _ _ _ _ runs => Fits.defineClass complete runs) runs fits

theorem Fits.defineAll (closed : written.context.Closed)
    (runs : Runs (Assembly.defineAll written) before result after)
    (fits : Fits written true before) : Fits written false after := by
  obtain ⟨groups, awaited, blocks, ready, areGroups, defining, -, readying, rooting⟩ :=
    runs_defineUpTo.mp (defineAll_cases runs).1
  have defines : Maintains _ (EndsAssembly written.context.graph) _ :=
    maintains_defineBlocks complete closed areGroups
  have defined := (defines before fits).2 _ blocks defining
  have ready := Fits.defineReadyClasses complete readying { defined.late with }
  refine forM_invariant (fun record member _ _ runs => ?_) rooting ready
  exact Fits.defineRoot complete ((perm_definitionOrder _).mem_iff.mp member) runs

/-- A class that waits for no root has all its members. -/
theorem failsOnly_defineReadyClasses (weighable : written.Weighable Weighing.weightless)
    {defined : List ValueId} (carries : Carries Weighing.weightless written defined [] 0 0 before)
    (covered : ∀ id inst, written.session.HasInstance id inst →
      id ∈ defined ∨ ∃ record ∈ records, record.function = id)
    (counted : ∀ prototype, (before.awaitedMembers.get? prototype).getD 0 =
      records.countP (written.joins prototype)) :
    FailsOnly (EndsAssembly written.context.graph) (defineReadyClasses written) before := by
  simp only [defineReadyClasses, FailsOnly.get_bind]
  have whole : ∀ prototype ∈ before.classes.keys.filter (!before.awaitedMembers.contains ·),
      ∀ id, written.BelongsTo prototype id → id ∈ defined := by
    intro prototype isReady
    have none : before.awaitedMembers.get? prototype = none := by
      simpa [KeyedTable.contains_eq_isSome_get?] using (mem_filter.mp isReady).2
    exact whole_of_covered covered (by simpa [none] using (counted prototype).symm)
  refine FailsOnly.forM (fun prototype isReady _ carries => ?_)
    (fun prototype isReady _ _ runs carries =>
      Carries.defineClass weighable runs (whole prototype isReady) carries) carries
  exact failsOnly_defineClass complete fun fit =>
    carries.hasConstructor complete fit.agree (whole prototype isReady)

/-- What holds while roots are built, and of their classes if these can be defined. -/
structure Rooting (written : Written) (records : List RootRecord) (assembly : Assembly) : Prop where
  fits : Fits written false assembly
  inside : ∀ record ∈ records, record ∈ written.roots
  building : written.context.graph.DefinesClasses → ∃ defined taken due,
    Building Weighing.weightless written 0 defined taken due records assembly

theorem Rooting.next (weighable : written.Weighable Weighing.weightless)
    (runs : Runs (defineRoot written record) before ⟨⟩ after)
    (rooting : Rooting written (record :: records) before) : Rooting written records after where
  fits := Fits.defineRoot complete (rooting.inside record mem_cons_self) runs rooting.fits
  inside other member := rooting.inside other (mem_cons_of_mem _ member)
  building fit := by
    obtain ⟨_, _, _, building⟩ := rooting.building fit
    exact building.defineRoot weighable runs

theorem Rooting.failsOnly (weighable : written.Weighable Weighing.weightless)
    (closed : written.context.Closed) (rooting : Rooting written (record :: records) before) :
    FailsOnly (EndsAssembly written.context.graph) (defineRoot written record) before := by
  refine failsOnly_defineRoot complete closed (rooting.inside record mem_cons_self) rooting.fits
    fun fit inst method placed isInstance enters isLast => ?_
  obtain ⟨_, _, _, building⟩ := rooting.building fit
  exact building.ready weighable fit.agree isInstance enters isLast

section

variable (closed : written.context.Closed) (fits : Fits written true before)
  (carries : Carries Weighing.weightless written [] [] 0 0 before)

include closed fits carries

theorem Rooting.start {groups : List BlockGroup} {awaitedMembers : KeyedTable ValueId Nat}
    {blocks ready : Assembly} (areGroups : blockGroups written = .ok groups)
    (defining : Runs (groups.forM fun group => defineBlock written group.code group.functions)
      before ⟨⟩ blocks)
    (areAwaited : awaitedMembersOf written = .ok awaitedMembers)
    (readying : Runs (defineReadyClasses written) { blocks with awaitedMembers } ⟨⟩ ready) :
    Rooting written (definitionOrder written.roots) ready where
  fits := by
    have defines : Maintains _ (EndsAssembly written.context.graph) _ :=
      maintains_defineBlocks complete closed areGroups
    have defined := (defines before fits).2 _ blocks defining
    exact Fits.defineReadyClasses complete readying { defined.late with }
  inside _ := (perm_definitionOrder _).mem_iff.mp
  building fit := by
    obtain ⟨defined, due, building⟩ := Building.start (complete.weightless closed.areFacts)
      fit.distinct areGroups defining areAwaited readying carries
    exact ⟨defined, [], due, building⟩

theorem Rooting.finish
    (runs : Runs (defineUpTo written (definitionOrder written.roots)) before result after) :
    Rooting written [] after := by
  obtain ⟨groups, awaited, blocks, ready, areGroups, defining, areAwaited, readying, rooting⟩ :=
    runs_defineUpTo.mp runs
  exact Runs.forM_remaining (Rooting written)
    (fun _ _ _ _ => Rooting.next complete (complete.weightless closed.areFacts)) rooting
    (.start complete closed fits carries areGroups defining areAwaited readying)

theorem failsOnly_defineUpTo : FailsOnly (EndsAssembly written.context.graph)
    (defineUpTo written (definitionOrder written.roots)) before := by
  have weighable := complete.weightless closed.areFacts
  refine FailsOnly.lift_bind.mpr ⟨errorsOnly_blockGroups complete closed,
    fun groups areGroups => ?_⟩
  refine .bind (maintains_defineBlocks complete closed areGroups before fits).1
    fun _ blocks defining => ?_
  refine FailsOnly.lift_bind.mpr ⟨errorsOnly_awaitedMembersOf, fun awaited areAwaited => ?_⟩
  refine .bind (.of_modify _) fun _ _ modified => ?_
  obtain rfl := modify_iff.mp modified
  have order := perm_definitionOrder written.roots
  have counted := fun prototype =>
    (get?_awaitedMembersOf areAwaited prototype).1.trans (order.countP_eq _).symm
  have defined := carries.defineBlocks weighable areGroups defining
  refine .bind (failsOnly_defineReadyClasses complete weighable { defined with }
    (complete.covered_blockGroups areGroups) counted) fun _ assembly readying => ?_
  exact FailsOnly.forM_remaining (Rooting written)
    (fun _ _ _ => Rooting.failsOnly complete weighable closed)
    (fun _ _ _ _ => Rooting.next complete weighable)
    (.start complete closed fits carries areGroups defining areAwaited readying)

theorem failsOnly_defineAll :
    FailsOnly (EndsAssembly written.context.graph) (defineAll written) before := by
  refine .bind (failsOnly_defineUpTo complete closed fits carries) fun _ final defining => ?_
  have finished := Rooting.finish complete closed fits carries defining
  rw [FailsOnly.get_bind]
  split
  · exact .of_pure _
  · rename_i prototype others areLeft
    refine FailsOnly.throw_iff.mpr (.classNeverDefined prototype fun fit => ?_)
    obtain ⟨_, _, _, building⟩ := finished.building fit
    have isLeft : (final.classes.get? prototype).isSome := by
      rw [← KeyedTable.mem_keys_iff, areLeft]
      exact mem_cons_self
    exact absurd (building.pending prototype isLeft) (by simp)

end

omit complete in
theorem failsOnly_applySplices (fits : Fits written false before) :
    FailsOnly Expected applySplices before := by
  have applied : (before.splices.apply before.bodies).2 = none :=
    Splices.applyEach_of_inside fun _ _ => fits.inside
  simp only [applySplices, FailsOnly.get_bind]
  split
  · exact .of_set _
  · rename_i failed
    simp [failed] at applied

/-- The global body keeps its statements and gets definitions, and so does the start of the script.
-/
theorem spliced_assemble (closed : written.context.Closed) {prelude : List Stmt}
    (runs : Runs (assemble written) { bodies := withoutLazyBodies written.session } prelude after) :
    Spliced (·.isDefinition = true) (written.session.bodies.stmts Bodies.global)
        (after.bodies.stmts Bodies.global) ∧
      ∀ stmt ∈ prelude, stmt.isDefinition = true := by
  obtain ⟨middle, bodies, defining, isApplied, rfl, rfl⟩ := assemble_cases runs
  have fits := Fits.defineAll complete closed defining (.initial complete)
  have tree := complete.idle.valid.tree
  have unchanged := fits.stmts Bodies.global ⟨tree.has_global, tree.declares_global, fits.global⟩
  refine ⟨?_, forall_mem_append.mpr
    ⟨written.session.captured.isDefinition_bootstrap none, fits.prelude⟩⟩
  rw [← unchanged]
  exact Splices.spliced_applyEach fits.definitions isApplied Bodies.global

theorem failsOnly_assemble (closed : written.context.Closed) :
    FailsOnly (EndsAssembly written.context.graph) (assemble written)
      { bodies := withoutLazyBodies written.session } := by
  have fits := Fits.initial complete
  have fails := failsOnly_defineAll complete closed fits
    (.initial (complete.weightless closed.areFacts))
  refine .bind fails fun _ defined defining => ?_
  refine .bind
    (failsOnly_applySplices (Fits.defineAll complete closed defining fits)) fun _ _ _ => ?_
  exact FailsOnly.get_bind.mpr (.of_pure _)

end

end Assembly

/-! ## Scripts -/

theorem exists_parts {settings : Settings} {script : Script}
    (isScript : materialize graph settings = .ok script) :
    ∃ context written definitions lazyStmts, Context.prepare graph settings = .ok context ∧
      writeHeap context = .ok written ∧
      lazyPrelude written.session settings.lazyObjects = .ok lazyStmts ∧
      Spliced (·.isDefinition = true) (written.session.bodies.stmts Bodies.global) script.body ∧
      (∀ stmt ∈ definitions, stmt.isDefinition = true) ∧
      script.prelude = definitions ++ lazyStmts ∧
      script.report.lazyObjects = written.session.lazyObjects.size := by
  simp only [materialize, bind_eq_ok, pure_eq_ok] at isScript
  obtain ⟨context, prepared, written, isWritten, lazyStmts, isLazy, ⟨prelude, assembly⟩, assembling,
    _, _, rfl⟩ := isScript
  obtain ⟨rfl, complete⟩ := writeHeap_eq_ok isWritten
  obtain ⟨spliced, areDefinitions⟩ := Assembly.spliced_assemble complete
    (Context.closed_of_prepare prepared) (show Runs _ _ _ _ from assembling)
  exact ⟨_, written, prelude, lazyStmts, prepared, isWritten, isLazy, spliced, areDefinitions, rfl,
    rfl⟩

end HeapScript
