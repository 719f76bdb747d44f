import HeapScript.Proofs.Assembly.Sharing
import HeapScript.Proofs.FreeNames.Dependence
import HeapScript.Proofs.FreeNames.ReplacedNames
import HeapScript.Proofs.Session.ScopeNames

/-!
Variables for captured scopes in the code of functions.

In a copy of its code an instance uses its own variables for captured scopes, which are numbered
below the number of these scopes. They stand for captured names that are assigned, so the default
values of parameters have them only if they read such names.
-/

namespace HeapScript

open List

variable {id : CodeId} {code : CodeBlock} {given : String → Prop} {context : Context}
  {replacements : Replacements}

/-! ## Given names -/

def Context.Gives (context : Context) (name : String) : Prop :=
  name ∈ context.outsideNames ∨ name ∈ context.graph.usedNames context.facts ∨
    ∃ root ∈ context.graph.roots, name ∈ root.modifiedBindings.map (·.1)

instance (context : Context) (name : String) : Decidable (context.Gives name) :=
  inferInstanceAs (Decidable (_ ∨ _ ∨ _))

theorem ScopesBelow.gives {names : List String}
    (below : ScopesBelow (· ∈ context.outsideNames) 0 names) (bound : Nat) :
    ScopesBelow context.Gives bound names :=
  below.mono (fun _ => .inl) (Nat.zero_le bound)

theorem Context.gives_of_mention (facts : context.facts = context.graph.codeFacts)
    (isCode : context.graph.codeBlock id = .ok code) {mention : Mention} {name : String}
    (isMention : mention ∈ code.function.mentions) (isName : mention.name? = some name) :
    context.Gives name := by
  refine .inr (.inl (mem_append_left _ ?_))
  rw [facts]
  exact mem_flatMap.mpr ⟨code.function.facts,
    Arena.mem_toList_of_get? (HeapGraph.get?_codeFacts isCode),
    NameSet.mem_ofList.mpr (mem_filterMap.mpr ⟨mention, isMention, isName⟩)⟩

/-- The variables for captured scopes in replaced code are given in the code, or stem from what is
put in. -/
theorem Replacements.scopesBelow_of_yields {bound : Nat} {mentions : List Mention}
    {names : List String} (yields : ∀ name ∈ names, replacements.Yields mentions name)
    (kept : ∀ mention ∈ mentions, ∀ name, mention.name? = some name → given name)
    (put : ∀ mention ∈ mentions, ∀ name value, mention.freeName? = some name →
      replacements.names.lookup name = some value →
      ScopesBelow given bound (value.usedNames true))
    (loaded : ∀ module value, replacements.modules.lookup module = some value →
      ScopesBelow given bound (value.usedNames true)) : ScopesBelow given bound names := by
  intro position member
  rcases yields _ member with isTemporary | ⟨mention, isMention, makes⟩
  · have temporary : ScopesBelow given bound [loopTemporary] :=
      .of_letter 2 'f' (by decide) (by decide)
    exact temporary position (mem_singleton.mpr isTemporary)
  · cases makes with
    | kept isName => exact .inl (kept mention isMention _ isName)
    | put isFree isReplaced isUsed =>
      exact put mention isMention _ _ (by rw [isFree]; rfl) isReplaced position isUsed
    | loaded isLoad isReplaced isUsed => exact loaded _ _ isReplaced position isUsed

/-- The declarations of the variables for captured scopes, in the order of their numbers. -/
def DeclaresScopes (given : String → Prop) (prologue : List Stmt) : Prop :=
  ∀ (position : Nat) (stmt : Stmt), prologue[position]? = some stmt → ∃ init : Expr,
    stmt = .var (scopeLocalName position) init ∧ ScopesBelow given 0 (init.usedNames true)

/-! ## Default values -/

def FunctionDef.defaultNames (definition : FunctionDef) : List String :=
  (mentionsOfParams definition.surroundings definition.params).filterMap Mention.freeName?

/-- No default value of a parameter reads a captured variable that is assigned. Optimized roots are
left out: their parameters stay as they are. -/
def HeapGraph.ConstantDefaults (graph : HeapGraph) : Prop :=
  ∀ id function code name key, graph.values.get? id = some (.function function) →
    (∀ root ∈ graph.roots, root.function ≠ id) → graph.codeBlock function.code = .ok code →
    name ∈ code.function.defaultNames →
    graph.bindingKey? function.environment name = some key → ¬graph.Modified key

namespace Written

variable {value : Expr} {function : FunctionValue}

variable {written : Written} {inst : FunctionInstance} {name : String} {bound : Nat}

/-- What is known of a written heap about variables for captured scopes. -/
structure ScopeFacts (written : Written) : Prop where
  complete : written.Complete
  facts : written.context.facts = written.context.graph.codeFacts
  stmts : ∀ body, ∀ stmt ∈ written.session.bodies.stmts body,
    ScopesBelow written.context.Gives 0 (stmt.usedNames true)
  constant : ∀ id function code name key,
    written.context.graph.values.get? id = some (.function function) →
    (∀ root ∈ written.context.graph.roots, root.function ≠ id) →
    written.context.graph.codeBlock function.code = .ok code →
    name ∈ code.function.defaultNames →
    written.context.graph.bindingKey? function.environment name = some key →
    written.context.settings.simpleClosures = false → key ∉ written.context.modified

theorem scopeFacts_of_writeHeap {graph : HeapGraph} {settings : Settings}
    (prepared : Context.prepare graph settings = .ok context)
    (isWritten : writeHeap context = .ok written)
    (constant : settings.simpleClosures = false → graph.ConstantDefaults) : written.ScopeFacts := by
  obtain ⟨rfl, complete⟩ := writeHeap_eq_ok isWritten
  obtain ⟨isGraph, isSettings, areFacts, areModified⟩ := Context.prepare_eq_ok prepared
  subst isGraph
  refine ⟨complete, areFacts, fun body stmt member => ?_, ?_⟩
  · exact (scopesBelow_of_writeHeap isWritten member 0).gives 0
  · intro id function code name key isFunction notRoot isCode isDefault resolves notSimple marked
    exact constant (isSettings ▸ notSimple) id function code name key isFunction notRoot isCode
      isDefault resolves (HeapGraph.modified_of_mem areModified marked)

/-! ## Replaced names -/

/-- Only a slot is read through a variable for a captured scope. -/
theorem Resolves.scopesBelow (complete : written.Complete) {key : BindingKey} {binding : Binding}
    (resolves : written.Resolves inst name key binding value)
    (enough : binding.storage = .slot → inst.scopes.length ≤ bound) :
    ScopesBelow written.context.Gives bound (value.usedNames true) := by
  cases resolves.reads with
  | @slot position _ _ isSlot isPosition _ _ =>
    intro other member
    have same : scopeLocalName other = scopeLocalName position := by
      simpa [Expr.usedNames, Expr.nat] using member
    obtain ⟨inside, -⟩ := List.findIdx?_eq_some_iff_findIdx_eq.mp isPosition
    rw [scopeLocalName_inj same]
    exact .inr (Nat.lt_of_lt_of_le inside (enough isSlot))
  | shared isShared =>
    obtain ⟨number, -, rfl⟩ :=
      (complete.idle.sound.bindings key binding resolves.isMet).stored.number_lt isShared
    exact Session.scopesBelow_sharedName number
  | direct isDirect =>
    obtain ⟨denotes, noValue⟩ := denotes_of_direct complete resolves.isMet isDirect
    cases isValue : binding.value with
    | none =>
      rw [noValue isValue]
      exact .nil
    | some id =>
      exact (((denotes id isValue).meansAll complete.idle.valid).scopesBelow
        complete.kept.named).gives bound

theorem scopesBelow_replacementFor (complete : written.Complete)
    (found : written.replacementFor inst name = .ok (some value)) :
    ScopesBelow written.context.Gives inst.scopes.length (value.usedNames true) := by
  obtain ⟨key, binding, resolves⟩ := resolves_of_replacementFor found
  exact resolves.scopesBelow complete fun _ => Nat.le_refl _

theorem ScopeFacts.spares_default (facts : written.ScopeFacts)
    (closure : written.IsClosure id function inst) (isCode : written.IsCode id code)
    (isDefault : name ∈ code.function.defaultNames)
    (found : written.replacementFor inst name = .ok (some value)) :
    ScopesBelow written.context.Gives 0 (value.usedNames true) := by
  obtain ⟨key, binding, resolves⟩ := resolves_of_replacementFor found
  refine resolves.scopesBelow facts.complete fun isSlot => ?_
  have stored := (facts.complete.idle.sound.bindings key binding resolves.isMet).stored
  have isKey := (closure.facts.keys name _ resolves.isKey).1
  rw [isSlot] at stored
  cases stored with
  | slot modified notSimple _ =>
    exact absurd modified (facts.constant inst.function function code name key
      closure.facts.isFunction closure.notRoot (closure.isCode ▸ isCode) isDefault isKey.symm
      notSimple)

/-! ## Replaced code -/

/-- Replaced code of a closure has the closure's own variables for captured scopes, and none of them
in its parameters. -/
structure UsesOwnScopes (written : Written) (bound : Nat) (definition : FunctionDef) : Prop where
  params : ScopesBelow written.context.Gives 0 (usedNamesOfParams true definition.params)
  body : ScopesBelow written.context.Gives bound (usedNamesOfStmts true definition.body)

section

variable (facts : written.ScopeFacts)

include facts

theorem ScopeFacts.usesOwnScopes (isCode : written.IsCode id code)
    (names : ∀ name value, replacements.names.lookup name = some value →
      ScopesBelow written.context.Gives bound (value.usedNames true))
    (defaults : ∀ name ∈ code.function.defaultNames, ∀ value,
      replacements.names.lookup name = some value →
      ScopesBelow written.context.Gives 0 (value.usedNames true))
    (modules : ∀ module value, replacements.modules.lookup module = some value →
      ScopesBelow written.context.Gives 0 (value.usedNames true)) :
    written.UsesOwnScopes bound (code.function.replace replacements) := by
  constructor
  · refine Replacements.scopesBelow_of_yields
      (fun name => yields_replace_steps.params code.function.params code.function.surroundings)
      (fun mention isMention name => Context.gives_of_mention facts.facts isCode ?_)
      (fun mention isMention name value isFree => ?_) modules
    · exact mem_append_left _ (mem_append_right _ isMention)
    · exact defaults name (mem_filterMap.mpr ⟨mention, isMention, isFree⟩) value
  · refine Replacements.scopesBelow_of_yields
      (fun name => yields_replace_steps.stmts code.function.body code.function.surroundings)
      (fun mention isMention name => Context.gives_of_mention facts.facts isCode ?_)
      (fun _ _ name value _ => names name value)
      (fun module value found => (modules module value found).mono (fun _ given => given)
        (Nat.zero_le _))
    exact mem_append_right _ isMention

theorem ScopeFacts.scopesBelow_modules {id : ValueId}
    (isInstance : written.session.HasInstance id inst) {module : String}
    (found : inst.modules.entries.lookup module = some value) :
    ScopesBelow written.context.Gives 0 (value.usedNames true) :=
  (((facts.complete.namesKept.instances id inst isInstance).modules _
    (mem_of_lookup_eq_some found)).scopesBelow facts.complete.kept.named).gives 0

theorem ScopeFacts.usesOwnScopes_copy (closure : written.IsClosure id function inst)
    (isInstance : written.session.HasInstance inst.function inst) (isCode : written.IsCode id code)
    (areReplacements : written.replacementsFor inst = .ok replacements) :
    written.UsesOwnScopes inst.scopes.length (code.function.replace replacements) := by
  have found : ∀ {name value}, replacements.names.lookup name = some value →
      written.replacementFor inst name = .ok (some value) :=
    fun isReplaced => ((lookup_replacementsFor areReplacements).mp isReplaced).2
  refine facts.usesOwnScopes isCode (fun name value isReplaced => ?_)
    (fun name isDefault value isReplaced => ?_) (fun module value isLoaded => ?_)
  · exact scopesBelow_replacementFor facts.complete (found isReplaced)
  · exact facts.spares_default closure isCode isDefault (found isReplaced)
  · obtain ⟨_, _, same⟩ := bind_eq_ok.mp areReplacements
    obtain rfl := pure_eq_ok.mp same
    exact facts.scopesBelow_modules isInstance isLoaded

theorem ScopeFacts.usesOwnScopes_bake {first : FunctionInstance} {others : List FunctionInstance}
    {plan : FactoryPlan} (closure : written.IsClosure id function first)
    (isInstance : written.session.HasInstance first.function first)
    (isCode : written.IsCode id code)
    (planFacts : written.PlanFacts code first (first :: others) plan) :
    written.UsesOwnScopes first.scopes.length (plan.bake code.function) := by
  -- A baked value is the one of the first closure, but for the sign of a zero.
  have found : ∀ {name value}, plan.bakedNames.lookup name = some value →
      ∃ own, written.replacementFor first name = .ok (some own) ∧
        value.usedNames true = own.usedNames true := by
    intro name value isBaked
    obtain ⟨-, own, isOwn, same⟩ := planFacts.baked_value facts.complete
      (mem_of_lookup_eq_some isBaked) mem_cons_self
    refine ⟨own, isOwn, ?_⟩
    rcases same with rfl | ⟨_, _, rfl, rfl, -⟩ <;> rfl
  refine facts.usesOwnScopes isCode (fun name value isBaked => ?_)
    (fun name isDefault value isBaked => ?_) (fun module value isLoaded => ?_)
  · obtain ⟨own, isOwn, same⟩ := found isBaked
    exact same ▸ scopesBelow_replacementFor facts.complete isOwn
  · obtain ⟨own, isOwn, same⟩ := found isBaked
    exact same ▸ facts.spares_default closure isCode isDefault isOwn
  · exact facts.scopesBelow_modules isInstance (planFacts.modules ▸ isLoaded)

end

/-! ## Code as it stands -/

theorem ScopeFacts.scopesBelow_params (facts : written.ScopeFacts)
    (isCode : written.IsCode id code) :
    ScopesBelow written.context.Gives 0 (usedNamesOfParams true code.function.params) := by
  have copied : written.UsesOwnScopes 0 (code.function.replace {}) :=
    facts.usesOwnScopes isCode (by simp) (by simp) (by simp)
  simpa [FunctionDef.replace] using copied.params

theorem ScopeFacts.scopesBelow_verbatim (facts : written.ScopeFacts) {record : RootRecord}
    (isRecord : record ∈ written.roots) {stmt : Stmt} (member : stmt ∈ record.verbatim) :
    ScopesBelow written.context.Gives bound (stmt.usedNames true) := by
  obtain ⟨root, isRoot, -, -, isBody, -⟩ := (facts.complete.records record isRecord).root
  let wrapped : FunctionDef := { body := root.body }
  have yields : ∀ name ∈ usedNamesOfStmts true record.verbatim,
      Replacements.Yields {} (mentionsOfStmts wrapped.surroundings root.body) name := by
    intro name used
    rw [isBody, ← replaceStmts_nothing wrapped.surroundings root.body] at used
    exact yields_replace_steps.stmts _ _ used
  refine ScopesBelow.stmts_iff.mp (Replacements.scopesBelow_of_yields yields
    (fun mention isMention name isName => ?_) (by simp) (by simp)) stmt member
  refine .inr (.inl (mem_append_right _ (mem_flatMap.mpr ⟨root, isRoot, ?_⟩)))
  refine NameSet.mem_ofList.mpr (mem_filterMap.mpr ⟨mention, ?_, isName⟩)
  exact mem_append_right _ isMention

/-! ## Helpers -/

theorem scopesBelow_arrayName (captured : CapturedScopes) (owner : ScopeOwner) :
    ScopesBelow given bound [captured.arrayName owner] :=
  .of_letter 2 'c' (letter_append _ (by decide)) (by decide)

theorem scopesBelow_accessorName (captured : CapturedScopes) (owner : ScopeOwner) :
    ScopesBelow given bound [captured.accessorName owner] :=
  .of_letter 2 'g' (letter_append _ (by decide)) (by decide)

theorem declaresScopes_scopePrologue {selector : Nat → ScopeId → Except Failure Expr}
    {prologue : List Stmt} (found : written.scopePrologue inst selector = .ok prologue)
    (spares : ∀ position scope expr, selector position scope = .ok expr →
      ScopesBelow given 0 (expr.usedNames true)) :
    DeclaresScopes given prologue ∧ prologue.length = inst.scopes.length := by
  have pairs := mapM_eq_ok.mp found
  have sameLength : prologue.length = inst.scopes.length := by simpa using pairs.length_eq.symm
  refine ⟨fun position stmt isStmt => ?_, sameLength⟩
  have inside : position < inst.scopes.length :=
    sameLength ▸ (List.getElem?_eq_some_iff.mp isStmt).1
  have isScope : inst.scopes.zipIdx[position]? = some (inst.scopes[position], position) := by
    simp [inside]
  obtain ⟨index, isIndex, isInitialized⟩ := bind_eq_ok.mp (related_of_getElem? pairs isScope isStmt)
  obtain ⟨owner, -, rfl⟩ := initialization_eq_ok.mp isInitialized
  have spared := spares _ _ _ isIndex
  refine ⟨_, rfl, ScopesBelow.append_iff.mpr ⟨?_, ?_⟩⟩
  · exact ScopesBelow.append_iff.mpr ⟨scopesBelow_arrayName _ owner, spared⟩
  · refine ScopesBelow.append_iff.mpr ⟨scopesBelow_accessorName _ owner, ?_⟩
    exact ScopesBelow.exprs_iff.mpr (by simpa using spared)

theorem declaresScopes_literals {prologue : List Stmt}
    (found : written.scopePrologue inst (fun _ scope => written.selectorLiteral scope) =
      .ok prologue) :
    DeclaresScopes written.context.Gives prologue ∧ prologue.length = inst.scopes.length := by
  refine declaresScopes_scopePrologue found fun _ _ _ isSelector => ?_
  obtain ⟨_, _, rfl⟩ := selectorLiteral_eq_ok.mp isSelector
  exact .nil

theorem scopesBelow_throwMessage (message : String) :
    ScopesBelow given bound ((Stmt.throwMessage message).usedNames true) :=
  ScopesBelow.append_iff.mpr ⟨.of_letter 0 'E' (by decide) (by decide), .nil⟩

theorem ScopeFacts.scopesBelow_bootstrap (facts : written.ScopeFacts) {owner : ScopeOwner}
    {stmt : Stmt} (member : stmt ∈ written.session.captured.bootstrap owner) :
    ScopesBelow written.context.Gives 0 (stmt.usedNames true) := by
  have captured : ScopesBelow written.context.Gives 0 ["__captured"] :=
    .of_letter 2 'c' (by decide) (by decide)
  have selector : ScopesBelow written.context.Gives 0 ["__selector"] :=
    .of_letter 3 'e' (by decide) (by decide)
  have slotArrays : ∀ scope ∈ written.session.captured.ownedBy owner,
      ScopesBelow written.context.Gives 0 ((CapturedScopes.slotArray scope).usedNames true) := by
    intro scope isOwned
    refine ScopesBelow.exprs_iff.mpr fun value isSlot => ?_
    obtain ⟨slot, -, rfl⟩ := mem_map.mp isSlot
    cases found : scope.slots.get? slot with
    | none => exact .nil
    | some value =>
      exact ((facts.complete.namesKept.slots scope (mem_filter.mp isOwned).1 value
        (mem_map.mpr ⟨_, KeyedTable.mem_entries_of_get? found, rfl⟩)).scopesBelow
          facts.complete.kept.named).gives 0
  rcases CapturedScopes.mem_bootstrap member with rfl | rfl
  · exact ScopesBelow.append_iff.mpr ⟨.of_letter 0 'A' (by decide) (by decide), .nil⟩
  · refine ScopesBelow.append_iff.mpr ⟨.nil, ScopesBelow.stmts_iff.mpr ?_⟩
    simp only [forall_mem_cons, not_mem_nil, false_implies, implies_true, and_true]
    refine ⟨.nil, ?_, ?_, captured⟩
    · refine ScopesBelow.append_iff.mpr ⟨ScopesBelow.append_iff.mpr ⟨selector,
        ScopesBelow.cases_iff.mpr fun item isItem => ?_⟩, ScopesBelow.stmts_iff.mpr ?_⟩
      · obtain ⟨scope, isScope, rfl⟩ := mem_map.mp isItem
        refine ⟨.nil, ?_⟩
        simp only [CapturedScopes.accessorCase, forall_mem_cons, not_mem_nil,
          false_implies, implies_true, and_true]
        exact ⟨ScopesBelow.append_iff.mpr ⟨captured,
          slotArrays scope (CapturedScopes.mem_sortedOf.mp isScope)⟩, .nil⟩
      · simpa using scopesBelow_throwMessage _
    · refine ScopesBelow.append_iff.mpr ⟨ScopesBelow.append_iff.mpr ⟨?_, selector⟩, captured⟩
      exact scopesBelow_arrayName _ owner

end Written

end HeapScript
