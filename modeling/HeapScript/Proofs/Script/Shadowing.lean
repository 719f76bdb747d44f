import HeapScript.Proofs.Assembly.Completion

/-!
Where the expressions for captured values are put in the place of names or passed to a factory, none
of their variables is bound by the code or by a parameter, but for the first name of a known path.

The identifiers of values are kept apart from all names in the code. A path from outside is not: if
the code has a parameter or a variable under the first name of the path, then the path stands for
something else there (`pathUnderParameter_isShadowed`).
-/

namespace HeapScript

open List

namespace FunctionDef

variable {definition : FunctionDef} {name : String}

/-- Where an occurrence stands in a function, a scope around it or the function itself binds a
name. -/
def BindsAt (definition : FunctionDef) (occurrence : Occurrence) (name : String) : Prop :=
  (CodeScope.function definition true).Binds name ∨ ∃ scope ∈ occurrence.scopes, scope.Binds name

theorem mem_identifiers_of_binds (binds : (CodeScope.function definition true).Binds name)
    (notArguments : name ≠ "arguments") : name ∈ definition.facts.identifiers := by
  have bound : name ∈ definition.nestedNames true := CodeScope.mem_names.mpr binds
  refine NameSet.mem_ofList.mpr (show name ∈ mentioned definition.mentions from ?_)
  grind [mentions, surroundings, nestedNames, boundNames]

theorem mem_identifiers_of_bindsAt {occurrence : Occurrence}
    (isOccurrence : occurrence ∈ definition.occurrences)
    (binds : definition.BindsAt occurrence name) (notArguments : name ≠ "arguments") :
    name ∈ definition.facts.identifiers := by
  rcases binds with binds | ⟨scope, isScope, binds⟩
  · exact mem_identifiers_of_binds binds notArguments
  · refine mem_identifiers (mem_append_right _ ?_) notArguments
    exact mem_flatMap.mpr ⟨occurrence, isOccurrence,
      mem_flatMap.mpr ⟨scope, isScope, CodeScope.mem_names.mpr binds⟩⟩

end FunctionDef

namespace Written

variable {written : Written} {code : CodeBlock} {inst : FunctionInstance} {name : String}

/-! ## Expressions for values -/

/-- If a variable of the expression for a value is bound, then the value is known at a path and the
expression is this path. -/
def ShadowsOnlyPaths (written : Written) (value : Expr) (Bound : String → Prop) : Prop :=
  ∀ id, written.session.Denotes written.context id value →
    ∀ name ∈ value.usedNames false, Bound name →
      ∃ object path, written.context.graph.values.get? id = some (.object object) ∧
        object.knownPath = some path ∧ value = .path path

theorem shadowsOnlyPaths_of_foreign {value : Expr} {Bound : String → Prop}
    (foreign : ∀ name, Bound name → written.Foreign name) :
    written.ShadowsOnlyPaths value Bound := by
  intro id denotes name used bound
  cases denotes with
  | primitive _ => cases used
  | known isObject isKnown => exact ⟨_, _, isObject, isKnown, rfl⟩
  | named _ isNamed =>
    obtain rfl := mem_singleton.mp used
    exact absurd isNamed (foreign name bound id)

section

variable (complete : written.Complete) {id : CodeId}
  (facts : written.context.facts = written.context.graph.codeFacts)
  (isCode : written.context.graph.codeBlock id = .ok code)

include complete facts isCode

theorem Complete.foreign_of_identifier
    (mentioned : name ≠ "arguments" → name ∈ code.function.facts.identifiers) :
    written.Foreign name := fun _ isNamed =>
  complete.kept.named.not_mem_identifiers facts isNamed
    (Arena.mem_toList_of_get? (HeapGraph.codeBlock_eq_ok.mp isCode))
    (mentioned (complete.kept.named.ne_of_letter isNamed (by decide)))

/-- The parameters of a factory are those of the code, its varying names and the selectors. -/
theorem Complete.foreign_of_factoryParam {plan : FactoryPlan} {first : FunctionInstance}
    {instances : List FunctionInstance} (planFacts : written.PlanFacts code first instances plan)
    {factory : String} {definition : FunctionDef}
    (isDefinition : Assembly.factoryDefinition written code plan factory first = .ok definition)
    (isParam : name ∈ definition.params.flatMap Param.boundNames) :
    written.Foreign name := by
  obtain ⟨_, -, rfl⟩ := Assembly.factoryDefinition_eq_ok isDefinition
  simp only [flatMap_append, mem_append] at isParam
  rcases isParam with (isSelector | isVarying) | isParam
  · obtain ⟨position, -, rfl⟩ := by simpa [Param.boundNames] using isSelector
    exact complete.foreign_of_helper (.selector position)
  · refine complete.foreign_of_identifier facts isCode fun _ => ?_
    have isVarying : name ∈ plan.varyingNames := by simpa [Param.boundNames] using isVarying
    obtain ⟨args, planned⟩ := FactoryPlan.mem_varyingNames.mp isVarying
    cases planFacts.varying planned with
    | captured isFree _ _ => exact FunctionDef.mem_identifiers_of_unbound isFree
    | itself refers isName => exact (FunctionDef.ownName_of_selfReference refers isName).1
  · rw [FactoryPlan.bake, FunctionDef.replace, boundNames_replaceParams] at isParam
    exact complete.foreign_of_identifier facts isCode
      (FunctionDef.mem_identifiers_of_binds (.inl (.inl (mem_flatMap.mp isParam))))

end

end Written

/-! ## Closures -/

namespace Assembly

variable {written : Written} {code : CodeBlock} {inst : FunctionInstance} {before after : Assembly}
  {result : Unit}

/-- The definition of a closure has the expressions for captured values in places where only the
first names of known paths may be bound. In a copy these are the occurrences of the names in the
code. A factory has the baked values there, and its parameters are bound as well. The other values
are passed in the stub, which may have parameters of its own. -/
inductive Unshadowed (written : Written) (code : CodeBlock) (inst : FunctionInstance)
    (before after : Assembly) : Prop where
  | copy {prologue : List Stmt} {replacements : Replacements} {definition : FunctionDef}
      (isCopy : IsCopy written code inst prologue replacements definition)
      (collects : Collects after definition)
      (replaced : ∀ occurrence ∈ code.function.occurrences, ∀ value,
        replacements.names.lookup occurrence.name = some value →
        written.ShadowsOnlyPaths value (code.function.BindsAt occurrence))
  | factory {plan : FactoryPlan} {instances : List FunctionInstance} {definition : FunctionDef}
      {body : BodyId} {group : SpliceGroup} {stub : Stmt} {selectors args : List Expr}
      (emits : Emits written code plan instances definition before after)
      (member : inst ∈ instances)
      (baked : ∀ occurrence ∈ code.function.occurrences, ∀ value,
        plan.bakedNames.lookup occurrence.name = some value →
        written.ShadowsOnlyPaths value fun name => code.function.BindsAt occurrence name ∨
          name ∈ definition.params.flatMap Param.boundNames)
      (isWaiting : (body, group) ∈ after.splices.waiting) (isFirst : group.stmts.head? = some stub)
      (isStub : StubOf inst s!"$f_{before.factoryCount}" (selectors ++ args) stub)
      (leading : LeadingArgs written code plan inst selectors args)
      (passed : ∀ value ∈ args, written.ShadowsOnlyPaths value fun name =>
        ∃ wrapper, stub = .function wrapper ∧ name ∈ wrapper.params.flatMap Param.boundNames)

theorem unshadowed_defineBlock (complete : written.Complete)
    (areFacts : written.context.facts = written.context.graph.codeFacts) {group : BlockGroup}
    (isCode : written.context.graph.codeBlock group.code = .ok code)
    (runs : Runs (defineBlock written group.code group.functions) before result after)
    (member : inst ∈ written.instancesIn group) : Unshadowed written code inst before after := by
  obtain ⟨code', instances, isCode', areInstances, defined⟩ := defineBlock_cases areFacts runs
  obtain rfl := Except.ok.inj (isCode'.symm.trans isCode)
  rw [Written.instancesIn, Written.mapM_instanceOf areInstances] at member
  have foreign : ∀ occurrence ∈ code'.function.occurrences, ∀ name,
      code'.function.BindsAt occurrence name → written.Foreign name :=
    fun occurrence isOccurrence name binds => complete.foreign_of_identifier areFacts isCode
      (FunctionDef.mem_identifiers_of_bindsAt isOccurrence binds)
  rcases defined with ⟨plan, first, others, rfl, shares, runs⟩ | ⟨-, report, runs⟩
  swap
  · obtain ⟨prologue, replacements, definition, isCopy, collects⟩ :=
      hasCopy_defineClones runs inst member
    exact .copy isCopy collects fun occurrence isOccurrence value _ =>
      Written.shadowsOnlyPaths_of_foreign (foreign occurrence isOccurrence)
  have planFacts := Written.planFacts_of_planFactory shares.2
  obtain ⟨definition, isDefinition, emits, stubs, -⟩ := emits_defineFactory runs planFacts
  obtain ⟨⟨body, waiting⟩, isWaiting, waits, forwards⟩ := stubs inst member
  obtain ⟨point, stub, selectors, args, -, same, isStub, leading⟩ := waits
  have isFirst : waiting.stmts.head? = some stub := by rw [(Prod.mk.inj same).2, List.head?_cons]
  refine .factory emits member (fun occurrence isOccurrence value _ => ?_) isWaiting isFirst isStub
    leading fun value _ => Written.shadowsOnlyPaths_of_foreign ?_
  · refine Written.shadowsOnlyPaths_of_foreign fun name bound => ?_
    rcases bound with binds | isParam
    · exact foreign occurrence isOccurrence name binds
    · exact complete.foreign_of_factoryParam areFacts isCode planFacts isDefinition isParam
  · rintro name ⟨wrapper, rfl, isParam⟩
    rw [forwards _ isFirst wrapper rfl] at isParam
    exact complete.foreign_of_identifier areFacts isCode
      (FunctionDef.mem_identifiers_of_binds (.inl (.inl (mem_flatMap.mp isParam))))

end Assembly

/-! ## Scripts -/

/-- Captured values are not shadowed, unless they are known at a path: each function but those of
optimized roots is defined so. -/
theorem materialize_shadowsOnlyPaths {graph : HeapGraph} {settings : Settings} {script : Script}
    (isScript : materialize graph settings = .ok script) :
    ∃ context written groups, Context.prepare graph settings = .ok context ∧
      writeHeap context = .ok written ∧ Assembly.blockGroups written = .ok groups ∧
      (∀ group ∈ groups, (∃ before after,
          Runs (Assembly.defineBlock written group.code group.functions) before ⟨⟩ after) ∧
        ∀ code, graph.codeBlock group.code = .ok code → ∀ before after,
          Runs (Assembly.defineBlock written group.code group.functions) before ⟨⟩ after →
          ∀ inst ∈ written.instancesIn group, Assembly.Unshadowed written code inst before after) ∧
      ∀ id inst, written.session.instances.get? id = some inst →
        (∃ group ∈ groups, inst ∈ written.instancesIn group) ∨
          ∃ record ∈ written.roots, record.function = id := by
  obtain ⟨context, written, _, _, _, prepared, isWritten, -, comesTo, -⟩ :=
    materialize_cases isScript
  obtain ⟨groups, _, _, _, areGroups, defining, -⟩ := Assembly.runs_defineUpTo.mp comesTo
  obtain ⟨isGraph, -, areFacts, -⟩ := Context.prepare_eq_ok prepared
  obtain ⟨rfl, complete⟩ := writeHeap_eq_ok isWritten
  refine ⟨written.context, written, groups, prepared, isWritten, areGroups, fun group isGroup =>
    ⟨Runs.exists_of_forM defining isGroup, fun code isCode before after runs inst member => ?_⟩,
    fun id inst isInstance => complete.grouped areGroups isInstance⟩
  exact Assembly.unshadowed_defineBlock complete (isGraph ▸ areFacts) (isGraph ▸ isCode) runs member

/-! ## A captured object -/

def readerOfX : CodeBlock where
  function := { name := some "f", params := [.plain "a"], body := [.returnValue (some (.var "x"))] }

def capturedObject (knownPath : Option String) : HeapGraph where
  values := .ofList [.function { code := ⟨0⟩, environment := some ⟨0⟩ }, .object { knownPath }]
  codeBlocks := .ofList [readerOfX]
  scopes := .ofList [{ bindings := .ofList [("x", some ⟨1⟩)] }]
  effects := [.globalAssign "g" ⟨0⟩]

theorem capturedObject_shadowsOnlyPaths : ∃ script context written inst group code before after,
    materialize (capturedObject none) {} = .ok script ∧
    Context.prepare (capturedObject none) {} = .ok context ∧ writeHeap context = .ok written ∧
    written.session.instances.get? ⟨0⟩ = some inst ∧ inst ∈ written.instancesIn group ∧
    (capturedObject none).codeBlock group.code = .ok code ∧
    Runs (Assembly.defineBlock written group.code group.functions) before ⟨⟩ after ∧
    Assembly.Unshadowed written code inst before after := by
  obtain ⟨script, isScript, -⟩ : ∃ script, materialize (capturedObject none) {} = .ok script ∧
      true = true := exists_ok (by decide +kernel)
  obtain ⟨context, written, groups, prepared, isWritten, areGroups, unshadowed, grouped⟩ :=
    materialize_shadowsOnlyPaths isScript
  obtain ⟨written', isWritten', check⟩ : ∃ written,
      (Context.prepare (capturedObject none) {} >>= writeHeap) = .ok written ∧
        ((written.session.instances.get? ⟨0⟩).isSome && written.roots.isEmpty) = true :=
    exists_ok (by decide +kernel)
  obtain rfl : written = written' := by
    rw [prepared] at isWritten'
    exact Except.ok.inj (isWritten.symm.trans isWritten')
  simp only [Bool.and_eq_true, List.isEmpty_iff] at check
  obtain ⟨inst, isInstance⟩ := Option.isSome_iff_exists.mp check.1
  rcases grouped ⟨0⟩ inst isInstance with ⟨group, isGroup, member⟩ | ⟨record, isRecord, -⟩
  · obtain ⟨⟨before, after, runs⟩, all⟩ := unshadowed group isGroup
    obtain ⟨code, isCode⟩ := Written.code_of_mem_groups areGroups isGroup
    obtain ⟨isGraph, -⟩ := Context.prepare_eq_ok prepared
    obtain ⟨rfl, -⟩ := writeHeap_eq_ok isWritten
    exact ⟨script, _, written, inst, group, code, before, after, isScript, prepared, isWritten,
      isInstance, member, isGraph ▸ isCode, runs,
      all code (isGraph ▸ isCode) before after runs inst member⟩
  · rw [check.2] at isRecord
    cases isRecord

def Stmt.returnedParam? : Stmt → Option String
  | .declare .var _ (some (.function definition)) =>
    match definition.params, definition.body with
    | [.plain name], [.returnValue (some (.var other))] => if name = other then some name else none
    | _, _ => none
  | _ => none

theorem Stmt.returnedParam?_eq_some {stmt : Stmt} {param : String}
    (returned : stmt.returnedParam? = some param) : ∃ name definition,
      stmt = .var name (.function definition) ∧ definition.params = [.plain param] ∧
        definition.body = [.returnValue (some (.var param))] := by
  unfold returnedParam? at returned
  split at returned
  · rename_i name definition
    split at returned
    · rename_i own other areParams isBody
      split at returned
      · rename_i same
        obtain rfl := Option.some.inj returned
        exact ⟨name, definition, rfl, areParams, same ▸ isBody⟩
      · cases returned
    · cases returned
  · cases returned

/-- An object that is known at a path with the name of a parameter is put where the parameter is
bound: the function returns its argument instead of the object. -/
theorem pathUnderParameter_isShadowed : ∃ script written name definition,
    materialize (capturedObject (some "a")) {} = .ok script ∧
    (Context.prepare (capturedObject (some "a")) {} >>= writeHeap) = .ok written ∧
    written.session.Denotes written.context ⟨1⟩ (.path "a") ∧
    .var name (.function definition) ∈ script.stmts ∧ definition.params = [.plain "a"] ∧
    definition.body = [.returnValue (some (.path "a"))] := by
  obtain ⟨script, isScript, check⟩ : ∃ script,
      materialize (capturedObject (some "a")) {} = .ok script ∧
        script.stmts.any (·.returnedParam? == some "a") = true := exists_ok (by decide +kernel)
  obtain ⟨stmt, member, returned⟩ := List.any_eq_true.mp check
  obtain ⟨name, definition, rfl, areParams, isBody⟩ :=
    Stmt.returnedParam?_eq_some (beq_iff_eq.mp returned)
  obtain ⟨context, prepared, rest⟩ := bind_eq_ok.mp isScript
  obtain ⟨written, isWritten, -⟩ := bind_eq_ok.mp rest
  obtain ⟨isGraph, -⟩ := Context.prepare_eq_ok prepared
  obtain ⟨rfl, -⟩ := writeHeap_eq_ok isWritten
  have isObject : written.context.graph.values.get? ⟨1⟩ =
      some (.object { knownPath := some "a" }) := isGraph ▸ rfl
  have isPath : Expr.path "a" = .var "a" := rfl
  exact ⟨script, written, name, definition, isScript, bind_eq_ok.mpr ⟨_, prepared, isWritten⟩,
    .known isObject rfl, member, areParams, isPath ▸ isBody⟩

end HeapScript
