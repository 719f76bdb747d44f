import HeapScript.Proofs.Assembly.Plans
import HeapScript.Proofs.Heap.Closed
import HeapScript.Proofs.Syntax.Blocks

/-!
What is put into the script for a code block whose closures share a factory: the factory at the
start of a body, and a stub for each closure in its place.
-/

namespace HeapScript

open List Runs

/-- The definitions at the start of the script or of an optimized root. -/
def Assembly.preludeAt (assembly : Assembly) : Option ValueId → List Stmt
  | none => assembly.globalPrelude
  | some root => (assembly.rootPreludes.get? root).getD []

def FactoryPlan.bake (plan : FactoryPlan) (definition : FunctionDef) : FunctionDef :=
  definition.replace { names := plan.bakedNames, modules := plan.modules.entries }

/-- A closure that is defined by a factory, which gets the leading arguments. -/
inductive StubOf (inst : FunctionInstance) (factory : String) (leading : List Expr) :
    Stmt → Prop where
  | bind : StubOf inst factory leading
      (.var inst.name (.methodCall (.var factory) "bind" (.null :: leading)))
  | call {params : List Param} {args : List Expr} {init : List Stmt} : StubOf inst factory leading
      (.function {
        name := some inst.name, params
        body := init ++ [.returnValue (some
          (.methodCall (.var factory) "call" (.thisRef :: leading ++ args)))] })

/-- The leading arguments of a closure: the selectors of its captured scopes and its values of the
varying names. -/
structure LeadingArgs (written : Written) (code : CodeBlock) (plan : FactoryPlan)
    (inst : FunctionInstance) (selectors args : List Expr) : Prop where
  areSelectors : List.Forall₂ (fun scope selector => ∃ found,
    written.session.captured.scopes.get? scope = some found ∧ selector = .nat found.selector)
    inst.scopes selectors
  scopeCount : selectors.length = plan.scopeCount
  areArgs : List.Forall₂ (written.PassesFor code inst) plan.varyingNames args

/-- A group of statements that waits for its place: the stub of a closure with all that follows. -/
def WaitingStub (written : Written) (code : CodeBlock) (plan : FactoryPlan) (factory : String)
    (inst : FunctionInstance) (entry : BodyId × SpliceGroup) : Prop :=
  ∃ point stub selectors args, inst.insertionPoint = some point ∧
    entry = (point.body,
      { index := point.index, order := inst.serial, stmts := stub :: inst.extras }) ∧
    StubOf inst factory (selectors ++ args) stub ∧
    LeadingArgs written code plan inst selectors args

def Stmt.ForwardsTo (code : CodeBlock) (stub : Stmt) : Prop :=
  ∀ definition, stub = .function definition →
    definition.params.flatMap Param.boundNames = code.function.params.flatMap Param.boundNames

namespace Assembly

variable {stmts : List Stmt} {factory : String}

variable {written : Written} {code : CodeBlock} {plan : FactoryPlan} {first inst : FunctionInstance}
  {instances : List FunctionInstance} {before after : Assembly} {result : Unit}

/-! ## Runs of the primitives -/

@[simp] theorem runs_count {change : Report → Report} :
    Runs (count change) before result after ↔
      after = { before with report := change before.report } := by
  simp [count]

@[simp] theorem runs_splice {point : Position} {order : Nat} :
    Runs (splice point order stmts) before result after ↔
      after = { before with splices := before.splices.add point order stmts } := by
  simp [splice]

/-- What the assembly has collected apart from bodies and counts. -/
structure SameDefinitions (before after : Assembly) : Prop where
  splices : after.splices = before.splices
  globalPrelude : after.globalPrelude = before.globalPrelude
  rootPreludes : after.rootPreludes = before.rootPreludes
  factoryCount : after.factoryCount = before.factoryCount

/-- Only bodies change when a function takes what it constructs on its first call. -/
theorem delayedInit_frame (runs : Runs (delayedInit inst) before stmts after) :
    ∃ bodies, after = { before with bodies } := by
  unfold delayedInit at runs
  split at runs
  · obtain ⟨_, rfl⟩ := pure_iff.mp runs
    exact ⟨after.bodies, rfl⟩
  · simp only [takeBody, Runs.bind_iff, get_iff, modify_iff, pure_iff] at runs
    obtain ⟨_, _, ⟨_, _, ⟨rfl, rfl⟩, _, _, rfl, _, rfl⟩, _, rfl⟩ := runs
    exact ⟨_, rfl⟩

theorem sameDefinitions_delayedInit (runs : Runs (delayedInit inst) before stmts after) :
    SameDefinitions before after := by
  obtain ⟨bodies, rfl⟩ := delayedInit_frame runs
  exact ⟨rfl, rfl, rfl, rfl⟩

theorem definitionPoint_eq_ok {point : Position} (found : inst.definitionPoint = .ok point) :
    inst.insertionPoint = some point := by
  unfold FunctionInstance.definitionPoint at found
  split at found
  · rename_i isPoint
    rw [isPoint, Except.ok.inj found]
  · cases found

/-! ## Stubs -/

/-- A stub has the parameters of the code under their names, without default values, and passes them
on. -/
structure Forwards (params kept : List Param) (args : List Expr) : Prop where
  bound : kept.flatMap Param.boundNames = params.flatMap Param.boundNames
  noDefaults : usedNamesOfParams true kept = []
  used : usedNamesOfExprs true args ⊆ params.flatMap Param.boundNames
  noBlocks : blocksOfParams kept = []
  plain : blocksOfExprs args = []

theorem forwards_forwardParams {id : ValueId} {params kept : List Param} {args : List Expr}
    (found : forwardParams id params = .ok (kept, args)) : Forwards params kept args := by
  induction params generalizing kept args with
  | nil =>
    obtain ⟨rfl, rfl⟩ := Prod.mk.inj (pure_eq_ok.mp found)
    exact ⟨rfl, rfl, List.Subset.refl _, rfl, rfl⟩
  | cons param params induction =>
    cases param with
    | pattern _ =>
      obtain ⟨_, thrown, _⟩ := bind_eq_ok.mp found
      exact absurd thrown throw_ne_ok
    | _ =>
      simp only [forwardParams, pure_bind, bind_eq_ok, pure_eq_ok, Prod.mk.injEq] at found
      obtain ⟨⟨others, _⟩, areOthers, rfl, rfl⟩ := found
      obtain ⟨bound, noDefaults, used, noBlocks, plain⟩ := induction areOthers
      exact ⟨by simp [Param.boundNames, bound], noDefaults, cons_subset_cons _ used, noBlocks,
        by simpa [blocksOfExprs, Expr.blocks] using plain⟩

theorem stubOf_callStub {leading : List Expr} {stub : Stmt}
    (runs : Runs (callStub inst code factory leading) before stub after) :
    StubOf inst factory leading stub ∧ stub.ForwardsTo code ∧ SameDefinitions before after := by
  simp only [callStub, Runs.bind_iff, Runs.lift_iff, pure_iff] at runs
  obtain ⟨⟨params, args⟩, _, ⟨areParams, rfl⟩, init, _, delayed, rfl, rfl⟩ := runs
  refine ⟨.call, ?_, sameDefinitions_delayedInit delayed⟩
  rintro _ ⟨⟩
  exact (forwards_forwardParams areParams).bound

theorem forall₂_selectors {scopes : List ScopeId} {selectors : List Expr}
    (found : scopes.mapM written.selectorLiteral = .ok selectors) :
    List.Forall₂ (fun scope selector => ∃ found,
      written.session.captured.scopes.get? scope = some found ∧ selector = .nat found.selector)
      scopes selectors :=
  (mapM_eq_ok.mp found).imp fun _ _ => Written.selectorLiteral_eq_ok.mp

theorem leadingArgs (facts : written.PlanFacts code first instances plan) {number : Nat}
    (isInstance : instances[number]? = some inst) {selectors : List Expr}
    (areSelectors : inst.scopes.mapM written.selectorLiteral = .ok selectors) :
    LeadingArgs written code plan inst selectors ((plan.argsOf number).map (·.value)) := by
  have pairs := forall₂_selectors areSelectors
  have member := mem_of_getElem? isInstance
  refine ⟨pairs, ?_, ?_⟩
  · rw [facts.scopeCount, ← facts.sameLength inst member, pairs.length_eq]
  · have long : ∀ name args, (name, NamePlan.varying args) ∈ plan.names → number < args.length := by
      intro name args planned
      rw [(facts.varying planned).length_eq]
      exact (List.getElem?_eq_some_iff.mp isInstance).1
    refine forall₂_map_right_iff.mpr
      ((FactoryPlan.forall₂_argsOf long).imp fun name arg known => ?_)
    obtain ⟨args, planned, isArg⟩ := known
    exact (facts.varying planned).passesFor isInstance isArg

theorem runs_defineStub {number : Nat}
    (runs : Runs (defineStub written code code.function.facts plan factory number inst) before
      result after) (facts : written.PlanFacts code first instances plan)
    (isInstance : instances[number]? = some inst) :
    ∃ entry, (WaitingStub written code plan factory inst entry ∧
        ∀ stub ∈ entry.2.stmts.head?, stub.ForwardsTo code) ∧
      after.splices.waiting = before.splices.waiting ++ [entry] ∧
      after.globalPrelude = before.globalPrelude ∧ after.rootPreludes = before.rootPreludes ∧
      after.factoryCount = before.factoryCount := by
  simp only [defineStub, Runs.bind_iff, Runs.lift_iff] at runs
  obtain ⟨point, before, ⟨isPoint, rfl⟩, selectors, before, ⟨areSelectors, rfl⟩, needs, before,
    ⟨_, rfl⟩, making⟩ := runs
  have leading := leadingArgs facts isInstance areSelectors
  have made : ∃ stub middle,
      StubOf inst factory (selectors ++ (plan.argsOf number).map (·.value)) stub ∧
      stub.ForwardsTo code ∧ SameDefinitions before middle ∧
      Runs (splice point inst.serial (stub :: inst.extras)) middle result after := by
    split at making
    · simp only [Runs.bind_iff, runs_count] at making
      obtain ⟨_, _, rfl, stub, middle, making, splicing⟩ := making
      obtain ⟨isStub, forwards, same⟩ := stubOf_callStub making
      exact ⟨stub, middle, isStub, forwards, ⟨same.splices, same.globalPrelude, same.rootPreludes,
        same.factoryCount⟩, splicing⟩
    · simp only [Runs.bind_iff, runs_count, pure_iff] at making
      obtain ⟨_, _, rfl, _, _, ⟨rfl, rfl⟩, splicing⟩ := making
      refine ⟨_, _, .bind, ?_, ?_, splicing⟩
      · rintro _ ⟨⟩
      · exact ⟨rfl, rfl, rfl, rfl⟩
  obtain ⟨stub, middle, isStub, forwards, same, splicing⟩ := made
  obtain rfl := runs_splice.mp splicing
  refine ⟨_, ⟨⟨point, stub, selectors, _, definitionPoint_eq_ok isPoint, rfl, isStub, leading⟩,
    fun _ isFirst => Option.some.inj isFirst ▸ forwards⟩, ?_, same.globalPrelude, same.rootPreludes,
      same.factoryCount⟩
  simp [Splices.add, same.splices]

/-! ## Factories -/

theorem runs_defineStubs {start : Nat} {rest : List FunctionInstance}
    (runs : Runs ((rest.zipIdx start).forM fun (inst, number) =>
      defineStub written code code.function.facts plan factory number inst) before result after)
    (facts : written.PlanFacts code first instances plan) (areRest : instances.drop start = rest) :
    ∃ entries, List.Forall₂ (fun inst entry => WaitingStub written code plan factory inst entry ∧
        ∀ stub ∈ entry.2.stmts.head?, stub.ForwardsTo code) rest entries ∧
      after.splices.waiting = before.splices.waiting ++ entries ∧
      after.globalPrelude = before.globalPrelude ∧ after.rootPreludes = before.rootPreludes ∧
      after.factoryCount = before.factoryCount := by
  induction rest generalizing before start with
  | nil =>
    obtain ⟨_, rfl⟩ := pure_iff.mp runs
    exact ⟨[], .nil, by simp, rfl, rfl, rfl⟩
  | cons inst rest induction =>
    rw [zipIdx_cons] at runs
    obtain ⟨middle, stub, stubs⟩ := Runs.forM_cons.mp runs
    have isInstance : instances[start]? = some inst := by
      have found := congrArg (·[0]?) areRest
      simpa using found
    obtain ⟨entry, waits, waiting, global, roots, count⟩ := runs_defineStub stub facts isInstance
    have areOthers : instances.drop (start + 1) = rest := by
      rw [← drop_drop, areRest, drop_one, tail_cons]
    obtain ⟨entries, waits', waiting', global', roots', count'⟩ := induction stubs areOthers
    exact ⟨entry :: entries, .cons waits waits', by simp [waiting', waiting],
      global'.trans global, roots'.trans roots, count'.trans count⟩

/-- The factory stands at the start of its body, and a stub for each closure waits for its place. -/
structure Emits (written : Written) (code : CodeBlock) (plan : FactoryPlan)
    (instances : List FunctionInstance) (definition : FunctionDef) (before after : Assembly) :
    Prop where
  name : definition.name = some s!"$f_{before.factoryCount}"
  counted : after.factoryCount = before.factoryCount + 1
  prelude : after.preludeAt plan.placement =
    before.preludeAt plan.placement ++ [.function definition]
  stubs : ∃ entries, after.splices.waiting = before.splices.waiting ++ entries ∧
    List.Forall₂ (WaitingStub written code plan s!"$f_{before.factoryCount}") instances entries

theorem addToPrelude_frame {placement : Option ValueId}
    (runs : Runs (addToPrelude placement stmts) before result after) :
    ∃ globalPrelude rootPreludes, after = { before with globalPrelude, rootPreludes } := by
  obtain rfl := modify_iff.mp runs
  cases placement <;> exact ⟨_, _, rfl⟩

theorem preludeAt_addToPrelude {placement : Option ValueId}
    (runs : Runs (addToPrelude placement stmts) before result after) :
    (∀ other, after.preludeAt other = before.preludeAt other ++
        if other = placement then stmts else []) ∧
      after.splices = before.splices ∧ after.factoryCount = before.factoryCount := by
  obtain rfl := modify_iff.mp runs
  refine ⟨fun other => ?_, by cases placement <;> simp⟩
  cases placement <;> cases other
  case some.some root other =>
    by_cases same : root = other
    · simp [preludeAt, same]
    · simp [preludeAt, KeyedTable.get?_insert, same, Ne.symm same]
  all_goals simp [preludeAt]

theorem factoryDefinition_eq_ok {definition : FunctionDef}
    (found : factoryDefinition written code plan factory first = .ok definition) :
    ∃ prologue, written.scopePrologue first (fun position _ =>
        return .var (selectorParamName position)) = .ok prologue ∧
      definition = { plan.bake code.function with
        name := some factory
        params := (List.range plan.scopeCount).map (fun position =>
            Param.plain (selectorParamName position)) ++
          plan.varyingNames.map Param.plain ++ (plan.bake code.function).params
        body := prologue ++ (plan.bake code.function).body
        isArrow := false } := by
  obtain ⟨prologue, isPrologue, same⟩ := bind_eq_ok.mp found
  exact ⟨prologue, isPrologue, (pure_eq_ok.mp same).symm⟩

theorem emits_defineFactory
    (runs : Runs (defineFactory written code code.function.facts plan first instances) before result
      after)
    (facts : written.PlanFacts code first instances plan) :
    ∃ definition, factoryDefinition written code plan s!"$f_{before.factoryCount}" first =
        .ok definition ∧
      Emits written code plan instances definition before after ∧
      (∀ inst ∈ instances, ∃ entry ∈ after.splices.waiting,
        WaitingStub written code plan s!"$f_{before.factoryCount}" inst entry ∧
        ∀ stub ∈ entry.2.stmts.head?, stub.ForwardsTo code) ∧
      ∀ placement, after.preludeAt placement = before.preludeAt placement ++
        if placement = plan.placement then [.function definition] else [] := by
  simp only [defineFactory, Runs.bind_iff, get_iff, modify_iff, Runs.lift_iff,
    runs_count] at runs
  obtain ⟨_, _, rfl, _, _, ⟨rfl, rfl⟩, _, _, rfl, definition, _, ⟨isDefinition, rfl⟩, _, placed,
    placing, stubs⟩ := runs
  obtain ⟨prelude, splices, count⟩ := preludeAt_addToPrelude placing
  obtain ⟨entries, waits, waiting, global, roots, count'⟩ := runs_defineStubs stubs facts rfl
  have preludes : ∀ placement, after.preludeAt placement = before.preludeAt placement ++
      if placement = plan.placement then [.function definition] else [] := by
    intro placement
    have kept : after.preludeAt placement = placed.preludeAt placement := by
      cases placement <;> simp [preludeAt, global, roots]
    rw [kept, prelude placement]
    cases placement <;> rfl
  refine ⟨definition, isDefinition, ⟨?_, count'.trans count, ?_, entries, ?_,
    waits.imp fun _ _ waits => waits.1⟩, fun inst member => ?_, preludes⟩
  · obtain ⟨_, _, rfl⟩ := factoryDefinition_eq_ok isDefinition
    rfl
  · rw [preludes, if_pos rfl]
  · rw [waiting, splices]
  · obtain ⟨entry, isEntry, waits⟩ := exists_related waits member
    exact ⟨entry, waiting ▸ mem_append_right _ isEntry, waits⟩

/-! ## Code blocks -/

def SharesFactory (written : Written) (code : CodeBlock) (facts : FunctionFacts)
    (instances : List FunctionInstance) (plan : FactoryPlan) : Prop :=
  isShareable written.context.settings code facts instances = true ∧
    written.planFactory code facts instances = .ok (some plan)

theorem defineBlock_cases (areFacts : written.context.facts = written.context.graph.codeFacts)
    {id : CodeId} {functions : List ValueId}
    (runs : Runs (defineBlock written id functions) before result after) :
    ∃ code instances, written.context.graph.codeBlock id = .ok code ∧
      functions.mapM (fun function => written.instanceOf function) = .ok instances ∧
      ((∃ plan first others, instances = first :: others ∧
          SharesFactory written code code.function.facts instances plan ∧
          Runs (defineFactory written code code.function.facts plan first instances) before ⟨⟩
            after) ∨
        (∀ plan, ¬SharesFactory written code code.function.facts instances plan) ∧
          ∃ report, Runs (instances.forM (defineClone written code)) { before with report } ⟨⟩
            after) := by
  simp only [defineBlock, Runs.bind_iff, Runs.lift_iff, mapM_lift_iff] at runs
  obtain ⟨code, before, ⟨isCode, rfl⟩, facts, before, ⟨areFacts', rfl⟩, instances, before,
    ⟨areInstances, rfl⟩, runs⟩ := runs
  obtain rfl : code.function.facts = facts := by
    simpa [Context.factsOf, areFacts, HeapGraph.get?_codeFacts isCode] using areFacts'
  refine ⟨code, instances, isCode, areInstances, ?_⟩
  have copies : Runs (if shouldInline written.context.settings code instances = true then do
        count fun report => { report with inlinedBlocks := report.inlinedBlocks + 1 }
        instances.forM (defineClone written code)
      else do
        count fun report => { report with clonedBlocks := report.clonedBlocks + 1 }
        instances.forM (defineClone written code)) before result after →
      ∃ report, Runs (instances.forM (defineClone written code)) { before with report } ⟨⟩
        after := by
    intro runs
    split at runs
    all_goals
      obtain ⟨_, _, counted, runs⟩ := Runs.bind_iff.mp runs
      obtain rfl := runs_count.mp counted
      exact ⟨_, runs⟩
  by_cases shareable : isShareable written.context.settings code code.function.facts instances =
      true
  · simp only [if_pos shareable, Runs.lift_bind] at runs
    obtain ⟨plan, isPlan, runs⟩ := runs
    split at runs
    · rename_i plan first others
      exact .inl ⟨plan, first, others, rfl, ⟨shareable, isPlan⟩, runs⟩
    · rename_i noFactory
      refine .inr ⟨fun plan' shares => ?_, copies runs⟩
      obtain rfl := Except.ok.inj (isPlan.symm.trans shares.2)
      cases instances with
      | nil => simp [isShareable] at shareable
      | cons first others => exact noFactory plan' first others rfl rfl
  · simp only [if_neg shareable, pure_bind] at runs
    exact .inr ⟨fun plan shares => shareable shares.1, copies runs⟩

end Assembly

end HeapScript
