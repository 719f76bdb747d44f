import HeapScript.Proofs.Assembly.Initialization

/-!
The variables for captured scopes in a script.

A function declares the variables for its captured scopes at the start of its body, after the
arguments that it takes over, and uses them only from there on. The default values of parameters are
the exception: they are evaluated before the body, and one that reads a captured variable which is
assigned has the function's variable for the captured scope.
-/

namespace HeapScript

open List

variable {written : Written}

/-! ## Scripts -/

theorem Written.ScopeFacts.scopesBelow_lazyInitializer (facts : written.ScopeFacts)
    {entries : List (ValueId × LazyObject)} {cases_ : List SwitchCase}
    (areCases : Forall₂ (fun entry item => lazyCase written.session.bodies entry = .ok item)
      entries cases_) :
    ∀ stmt ∈ (lazyInitializer cases_).body,
      ScopesBelow written.context.Gives 0 (stmt.usedNames true) := by
  have number : ScopesBelow written.context.Gives 0 ["id"] :=
    .of_letter 0 'i' (by decide) (by decide)
  have fills : ∀ item ∈ cases_,
      ScopesBelow written.context.Gives 0 (item.test.usedNames true) ∧
        ∀ stmt ∈ item.body, ScopesBelow written.context.Gives 0 (stmt.usedNames true) := by
    intro item member
    obtain ⟨entry, -, isCase⟩ := exists_related areCases.flip member
    obtain ⟨body, -, rfl⟩ := lazyCase_eq_ok.mp isCase
    refine ⟨.nil, forall_mem_append.mpr ⟨facts.stmts body, ?_⟩⟩
    exact forall_mem_singleton.mpr .nil
  refine forall_mem_singleton.mpr (ScopesBelow.append_iff.mpr
    ⟨ScopesBelow.append_iff.mpr ⟨number, ScopesBelow.cases_iff.mpr fills⟩, ?_⟩)
  exact ScopesBelow.stmts_iff.mpr (forall_mem_singleton.mpr (scopesBelow_throwMessage _))

theorem Written.ScopeFacts.initializes_lazyPrelude (facts : written.ScopeFacts) {stmts : List Stmt}
    (isPrelude :
      lazyPrelude written.session written.context.settings.lazyObjects = .ok stmts) :
    written.InitializesAll stmts := by
  rcases lazyPrelude_cases isPrelude with ⟨rfl, -⟩ |
    ⟨settings, cases_, isSettings, -, areCases, rfl⟩
  · exact forall_mem_nil _
  · refine forall_mem_cons.mpr ⟨?_, forall_mem_singleton.mpr ?_⟩
    · exact .functionValue (.of_stmts .nil fun stmt member =>
        .plain (facts.scopesBelow_lazyInitializer areCases stmt member))
    · have initializer : ScopesBelow written.context.Gives 0 ["__lazyObjectInitializer"] :=
        .of_letter 2 'l' (by decide) (by decide)
      have isPath : settings.runtime ∈ written.context.outsidePaths :=
        mem_append_left _ (by simp [isSettings])
      exact .plain (ScopesBelow.append_iff.mpr ⟨(Session.scopesBelow_path isPath).gives 0,
        ScopesBelow.exprs_iff.mpr (forall_mem_singleton.mpr initializer)⟩)

theorem Assembly.Initializes.initial (written : Written) :
    Assembly.Initializes written { bodies := withoutLazyBodies written.session } := by
  have isCleared := written.session.withoutLazyBodies_eq
  constructor
  case size => exact isCleared ▸ Bodies.size_clearing
  case bodies =>
    intro body stmt member
    rw [isCleared, Bodies.stmts_clearing] at member
    split at member
    · cases member
    · exact member
  all_goals simp [Written.InitializesAll]

/-- Variables for captured scopes are declared before they are used. Unless closures are simple,
this needs default values that read no captured variable which is assigned. -/
theorem materialize_initializesScopes {graph : HeapGraph} {settings : Settings} {script : Script}
    (isScript : materialize graph settings = .ok script)
    (constant : settings.simpleClosures = false → graph.ConstantDefaults) :
    ∃ context, Context.prepare graph settings = .ok context ∧
      ∀ stmt ∈ script.stmts, stmt.InitializesScopes context.Gives 0 := by
  simp only [materialize, bind_eq_ok, pure_eq_ok] at isScript
  obtain ⟨context, prepared, written, isWritten, lazyStmts, isLazy, ⟨prelude, assembly⟩, assembling,
    _, _, rfl⟩ := isScript
  have facts := Written.scopeFacts_of_writeHeap prepared isWritten constant
  obtain ⟨rfl, -⟩ := writeHeap_eq_ok isWritten
  obtain ⟨-, rfl, -⟩ := Context.prepare_eq_ok prepared
  obtain ⟨isPrelude, areBodies⟩ := (Assembly.Initializes.initial written).assemble facts
    (show Runs _ _ _ _ from assembling)
  exact ⟨written.context, prepared, List.forall_mem_append.mpr
    ⟨List.forall_mem_append.mpr ⟨isPrelude, facts.initializes_lazyPrelude isLazy⟩, areBodies _⟩⟩

/-! ## Two heaps -/

/-- A function with a default value that assigns a variable of its scope. -/
def assigningCode (default : String) : CodeBlock where
  function :=
    { name := some "f", params := [.withDefault "a" (.var default)]
      body := [.assign (.var "x") (.var "a")] }

/-- A function that assigns a variable of its scope, and a variable that its default value reads. -/
def assigningHeap (default : String) : HeapGraph where
  values := .ofList [
    .function { code := ⟨0⟩, environment := some ⟨0⟩ }, .primitive (.number (.ofNat 1))]
  codeBlocks := .ofList [assigningCode default]
  scopes := .ofList [{ bindings := .ofList [("x", some ⟨1⟩), ("y", some ⟨1⟩)] }]
  effects := [.globalAssign "g" ⟨0⟩]

theorem assigningHeap_modified {key : BindingKey}
    (modified : (assigningHeap "y").Modified key) : key.name = "x" := by
  cases modified with
  | recorded isScope isRecorded =>
    obtain rfl := mem_singleton.mp (Arena.mem_toList_of_get? isScope)
    cases isRecorded
  | assigned isFunction isCode assigns resolves =>
    obtain rfl := mem_singleton.mp
      (Arena.mem_toList_of_get? (HeapGraph.codeBlock_eq_ok.mp isCode))
    have areModified : (assigningCode "y").function.facts.modified = ["x"] := by decide
    rw [areModified] at assigns
    exact mem_singleton.mp assigns
  | listed isRoot _ _ _ => cases isRoot

/-- The default value reads another variable than the one that is assigned. -/
theorem assigningHeap_constantDefaults : (assigningHeap "y").ConstantDefaults := by
  intro id function code name key isFunction _ isCode isDefault resolves modified
  have isBlock : code ∈ (assigningHeap "y").codeBlocks.toList :=
    Arena.mem_toList_of_get? (HeapGraph.codeBlock_eq_ok.mp isCode)
  obtain rfl : code = assigningCode "y" := mem_singleton.mp isBlock
  obtain rfl : name = "y" := mem_singleton.mp isDefault
  obtain ⟨-, isName⟩ := HeapGraph.bindingKey?_eq_some.mp resolves
  exact absurd (isName.trans (assigningHeap_modified modified)) (by decide)

set_option maxRecDepth 20000 in
theorem assigningHeap_initializesScopes : ∃ script context,
    materialize (assigningHeap "y") {} = .ok script ∧
    Context.prepare (assigningHeap "y") {} = .ok context ∧
    (assigningHeap "y").Modified ⟨⟨0⟩, "x"⟩ ∧
    ∀ stmt ∈ script.stmts, stmt.InitializesScopes context.Gives 0 := by
  obtain ⟨script, isScript, -⟩ : ∃ script,
      materialize (assigningHeap "y") {} = .ok script ∧ true = true :=
    exists_ok (by decide +kernel)
  obtain ⟨context, prepared, initializes⟩ :=
    materialize_initializesScopes isScript fun _ => assigningHeap_constantDefaults
  have isFunction : (assigningHeap "y").values.get? ⟨0⟩ =
      some (.function { code := ⟨0⟩, environment := some ⟨0⟩ }) := rfl
  have isCode : (assigningHeap "y").codeBlock ⟨0⟩ = .ok (assigningCode "y") := rfl
  exact ⟨script, context, isScript, prepared,
    .assigned isFunction isCode (by decide) (by decide), initializes⟩

theorem Stmt.InitializesScopes.params {given : String → Prop} {name : String}
    {definition : FunctionDef}
    (initializes : Stmt.InitializesScopes given 0 (.var name (.function definition))) :
    ScopesBelow given 0 (usedNamesOfParams true definition.params) := by
  cases initializes with
  | plain below =>
    cases definition
    exact (ScopesBelow.append_iff.mp below).1
  | functionValue initializes =>
    cases initializes with
    | intro params _ _ _ _ => exact params

/-- Whether a statement defines a function with a name in its parameters. -/
def Stmt.usesInParams (name : String) : Stmt → Bool
  | .declare .var _ (some (.function definition)) => name ∈ usedNamesOfParams true definition.params
  | _ => false

theorem Stmt.usesInParams_eq_true {used : String} {stmt : Stmt}
    (uses : stmt.usesInParams used = true) : ∃ name definition,
      stmt = .var name (.function definition) ∧
        used ∈ usedNamesOfParams true definition.params := by
  unfold usesInParams at uses
  split at uses
  · exact ⟨_, _, rfl, of_decide_eq_true uses⟩
  · cases uses

set_option maxRecDepth 20000 in
/-- The default value reads the variable that is assigned, and with it the variable for the captured
scope. -/
theorem assigningHeap_readsBefore : ∃ script context name definition,
    materialize (assigningHeap "x") {} = .ok script ∧
    Context.prepare (assigningHeap "x") {} = .ok context ∧
    .var name (.function definition) ∈ script.stmts ∧
    scopeLocalName 0 ∈ usedNamesOfParams true definition.params ∧
    ¬context.Gives (scopeLocalName 0) ∧
    ¬Stmt.InitializesScopes context.Gives 0 (.var name (.function definition)) := by
  obtain ⟨script, isScript, check⟩ : ∃ script, materialize (assigningHeap "x") {} = .ok script ∧
      script.stmts.any (·.usesInParams (scopeLocalName 0)) = true :=
    exists_ok (by decide +kernel)
  obtain ⟨context, prepared, notGiven⟩ : ∃ context,
      Context.prepare (assigningHeap "x") {} = .ok context ∧
        (!decide (context.Gives (scopeLocalName 0))) = true :=
    exists_ok (by decide +kernel)
  have notGiven : ¬context.Gives (scopeLocalName 0) := by simpa using notGiven
  obtain ⟨stmt, member, uses⟩ := List.any_eq_true.mp check
  obtain ⟨name, definition, rfl, used⟩ := Stmt.usesInParams_eq_true uses
  refine ⟨script, context, name, definition, isScript, prepared, member, used, notGiven,
    fun initializes => ?_⟩
  rcases initializes.params 0 used with given | below
  · exact notGiven given
  · exact Nat.not_lt_zero 0 below

end HeapScript
