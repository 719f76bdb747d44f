import HeapScript.Proofs.Assembly.Completion
import HeapScript.Proofs.Assembly.Sharing

/-!
The places of captured variables in a script.

Where the code of a function has a captured variable that is assigned, the script has the place of
its binding: in the function's own copy of the code, in the factory that it passes its selectors to,
and in the assignments at the end of an optimized root. The default values of an optimized root's
parameters are the exception, because they are written as they stand in the code.
-/

namespace HeapScript

variable {graph : HeapGraph} {settings : Settings} {context : Context} {written : Written}
  {code : CodeBlock} {inst : FunctionInstance} {name : String} {key : BindingKey}
  {binding : Binding} {value : Expr}

/-! ## Captured variables that are assigned -/

/-- A function has a free name whose binding is modified. -/
structure HeapGraph.CapturesModified (graph : HeapGraph) (id : ValueId) (code : CodeBlock)
    (name : String) (key : BindingKey) : Prop where
  isFree : name ∈ code.function.facts.unbound.map (·.1)
  resolves : ∃ function, graph.values.get? id = some (.function function) ∧
    graph.codeBlock function.code = .ok code ∧
    graph.bindingKey? function.environment name = some key
  modified : graph.Modified key

namespace Written

theorem Resolves.isShared (complete : written.Complete)
    (resolves : written.Resolves inst name key binding value)
    (modified : key ∈ written.context.modified) : binding.storage.isShared = true := by
  cases resolves.reads with
  | slot isSlot _ _ _ => rw [isSlot]; rfl
  | shared isShared => rw [isShared]; rfl
  | direct isDirect =>
    have stored := (complete.idle.sound.bindings key binding resolves.isMet).stored
    rw [isDirect] at stored
    cases stored with
    | direct constant _ _ => exact absurd modified constant

theorem StoredAt.foreign (complete : written.Complete)
    (stored : written.StoredAt key (.shared name)) : written.Foreign name := by
  cases stored with
  | shared isMet isShared =>
    obtain ⟨number, -, rfl⟩ :=
      (complete.idle.sound.bindings key _ isMet).stored.number_lt isShared
    exact complete.foreign_of_helper (.capture number)

/-- A name that an instance has bound has a replacement, if it has any outcome at all. -/
theorem resolves_of_bound {replacement : Option Expr}
    (isBound : inst.bindings.get? name = some (some key))
    (found : written.replacementFor inst name = .ok replacement) :
    ∃ binding value, replacement = some value ∧ written.Resolves inst name key binding value := by
  cases replacement with
  | none =>
    have isGlobal := global_of_replacementFor found
    simp [isBound] at isGlobal
  | some value =>
    obtain ⟨own, binding, resolves⟩ := resolves_of_replacementFor found
    obtain rfl : key = own := by simpa using isBound.symm.trans resolves.isKey
    exact ⟨binding, value, rfl, resolves⟩

theorem IsClosure.bound_of_captures (prepared : Context.prepare graph settings = .ok context)
    (isContext : written.context = context) {id : CodeId} {function : FunctionValue}
    (closure : written.IsClosure id function inst) (isCode : graph.codeBlock id = .ok code)
    (captures : graph.CapturesModified inst.function code name key) :
    inst.bindings.get? name = some (some key) ∧ key ∈ context.modified := by
  obtain ⟨isGraph, -⟩ := Context.prepare_eq_ok prepared
  obtain ⟨function', isFunction, isOwnCode, resolves⟩ := captures.resolves
  have isFunction' : graph.values.get? inst.function = some (.function function) := by
    rw [← isGraph, ← isContext]
    exact closure.facts.isFunction
  obtain rfl : function = function' := by simpa using isFunction'.symm.trans isFunction
  obtain ⟨-, rfl⟩ := HeapGraph.bindingKey?_eq_some.mp resolves
  refine ⟨?_, Context.mem_modified prepared isFunction isOwnCode captures.isFree resolves
    captures.modified⟩
  have isFree : key.name ∈ written.context.freeNames id := by
    rw [isContext, Context.freeNames_eq prepared isCode]
    exact captures.isFree
  rw [closure.get?_bindings, if_pos isFree, isContext, isGraph, resolves]

end Written

/-! ## Closures -/

namespace Assembly

variable {plan : FactoryPlan} {first : FunctionInstance} {instances : List FunctionInstance}

/-- The definition of a closure has a place where the code of its block has a free name. In a
factory the place is the one for the selectors that the closure passes, and the name is no
parameter. -/
inductive Places (written : Written) (code : CodeBlock) (inst : FunctionInstance) (name : String)
    (before after : Assembly) (location : Location) : Prop where
  | copy {prologue : List Stmt} {replacements : Replacements} {definition : FunctionDef}
      {value : Expr} (isCopy : IsCopy written code inst prologue replacements definition)
      (collects : Collects after definition)
      (isReplaced : replacements.names.lookup name = some value)
      (isUsed : location.IsUsedBy prologue value)
  | factory {plan : FactoryPlan} {instances : List FunctionInstance} {definition : FunctionDef}
      {prologue : List Stmt} {value : Expr}
      (emits : Emits written code plan instances definition before after)
      (member : inst ∈ instances)
      (isBody : definition.body = prologue ++ (plan.bake code.function).body)
      (isReplaced : plan.bakedNames.lookup name = some value)
      (notVarying : name ∉ plan.varyingNames)
      (isUsed : ∀ selectors args, LeadingArgs written code plan inst selectors args →
        location.IsUsedBy (replaceStmts (selectorReplacements selectors) .outermost prologue) value)

variable {before after : Assembly} {result : Unit}

theorem places_of_hasCopy (complete : written.Complete)
    (isBound : inst.bindings.get? name = some (some key))
    (modified : key ∈ written.context.modified) (hasCopy : HasCopy written code inst after) :
    ∃ location, written.StoredAt key location ∧
      Places written code inst name before after location := by
  obtain ⟨prologue, replacements, definition, isCopy, collects⟩ := hasCopy
  have isKey : name ∈ inst.bindings.keys := KeyedTable.mem_keys_iff.mpr (by simp [isBound])
  obtain ⟨names, areNames, -⟩ := bind_eq_ok.mp isCopy.areReplacements
  obtain ⟨_, _, isName⟩ := exists_mem_mapM areNames isKey
  obtain ⟨replacement, found, -⟩ := bind_eq_ok.mp isName
  obtain ⟨binding, value, rfl, resolves⟩ := Written.resolves_of_bound isBound found
  obtain ⟨location, stored, isUsed⟩ := resolves.reads.isUsedBy complete resolves.isMet modified
    isCopy.isPrologue
  exact ⟨location, stored, .copy isCopy collects
    ((Written.lookup_replacementsFor isCopy.areReplacements).mpr ⟨isKey, found⟩) isUsed⟩

theorem not_varying_of_isShared (facts : written.PlanFacts code first instances plan)
    (member : inst ∈ instances) (isFree : name ∈ code.function.facts.unbound.map (·.1))
    (resolves : written.Resolves inst name key binding value)
    (isShared : binding.storage.isShared = true) : name ∉ plan.varyingNames := by
  intro isVarying
  obtain ⟨args, planned⟩ := FactoryPlan.mem_varyingNames.mp isVarying
  cases facts.varying planned with
  | itself refers isName =>
    obtain ⟨-, -, notFree⟩ := FunctionDef.ownName_of_selfReference refers isName
    exact notFree isFree
  | captured _ resolvesAll notShared =>
    obtain ⟨found, isFound, -, isBinding⟩ := exists_related resolvesAll member
    have unshared := notShared found isFound
    rw [Written.bindingOf?_of_resolves resolves] at isBinding
    simp [ResolvedName.isShared, isBinding, isShared] at unshared

/-- What is baked for the name of a shared binding is the place of the binding itself. -/
theorem lookup_of_isShared (complete : written.Complete)
    (facts : written.PlanFacts code first instances plan) (member : inst ∈ instances)
    (resolves : written.Resolves inst name key binding value)
    (found : written.replacementFor inst name = .ok (some value))
    (isShared : binding.storage.isShared = true) (isBaked : name ∈ plan.bakedNames.map (·.1)) :
    plan.bakedNames.lookup name = some value := by
  obtain ⟨baked, isValue⟩ : ∃ baked, plan.bakedNames.lookup name = some baked := by
    cases missing : plan.bakedNames.lookup name with
    | none => exact absurd isBaked (Written.not_mem_of_lookup_eq_none missing)
    | some baked => exact ⟨baked, rfl⟩
  obtain ⟨-, own, isOwn, same⟩ :=
    facts.baked_value complete (Written.mem_of_lookup_eq_some isValue) member
  obtain rfl : value = own := by simpa using found.symm.trans isOwn
  rw [isValue]
  -- A place is no number, so the factory has the very place of the closure.
  rcases same with rfl | ⟨_, _, -, isNumber, -⟩
  · rfl
  · cases resolves.reads with
    | slot _ _ _ _ => cases isNumber
    | shared _ => cases isNumber
    | direct isDirect => simp [isDirect, Storage.isShared] at isShared

theorem baked_of_modified (complete : written.Complete) {id : CodeId}
    (facts : written.PlanFacts code first instances plan)
    (closures : ∀ inst ∈ instances, ∃ function, written.IsClosure id function inst)
    (sameNames : written.context.freeNames id = code.function.facts.unbound.map (·.1))
    (member : inst ∈ instances) (isFree : name ∈ code.function.facts.unbound.map (·.1))
    (isBound : inst.bindings.get? name = some (some key))
    (modified : key ∈ written.context.modified) :
    name ∉ plan.varyingNames ∧ ∃ binding value, plan.bakedNames.lookup name = some value ∧
      written.Resolves inst name key binding value := by
  obtain ⟨replacement, found⟩ := facts.exists_replacement member isFree
  obtain ⟨binding, value, rfl, resolves⟩ := Written.resolves_of_bound isBound found
  have isShared := resolves.isShared complete modified
  have notVarying := not_varying_of_isShared facts member isFree resolves isShared
  cases facts.fate closures sameNames (sameNames ▸ isFree) with
  | varying _ isVarying _ => exact absurd isVarying notVarying
  | global _ _ isGlobal =>
    obtain ⟨_, closure⟩ := closures inst member
    exact absurd (closure.captures_of_some found) (isGlobal inst member)
  | baked isBaked _ _ =>
    exact ⟨notVarying, binding, value,
      lookup_of_isShared complete facts member resolves found isShared isBaked, resolves⟩

/-- Each closure has the place of a modified binding where its code has a name for it. -/
theorem places_defineBlock (prepared : Context.prepare graph settings = .ok context)
    (isWritten : writeHeap context = .ok written) {groups : List BlockGroup} {group : BlockGroup}
    (areGroups : blockGroups written = .ok groups) (isGroup : group ∈ groups)
    (isCode : graph.codeBlock group.code = .ok code)
    (runs : Runs (defineBlock written group.code group.functions) before result after)
    (member : inst ∈ written.instancesIn group)
    (captures : graph.CapturesModified inst.function code name key) :
    ∃ location, written.StoredAt key location ∧
      Places written code inst name before after location := by
  obtain ⟨rfl, complete⟩ := writeHeap_eq_ok isWritten
  obtain ⟨isGraph, -, areFacts, -⟩ := Context.prepare_eq_ok prepared
  have sameNames := Context.freeNames_eq prepared isCode
  obtain ⟨code', instances, isCode', areInstances, defined⟩ :=
    defineBlock_cases (isGraph ▸ areFacts) runs
  obtain rfl := Except.ok.inj ((isGraph ▸ isCode').symm.trans isCode)
  rw [Written.instancesIn, Written.mapM_instanceOf areInstances] at member
  have closures : ∀ inst ∈ instances, ∃ function, written.IsClosure group.code function inst :=
    fun inst member => Written.isClosure_of_mem complete areGroups isGroup areInstances member
  obtain ⟨function, closure⟩ := closures inst member
  obtain ⟨isBound, modified⟩ := closure.bound_of_captures prepared rfl isCode captures
  rcases defined with ⟨plan, first, others, rfl, shares, runs⟩ | ⟨-, report, runs⟩
  swap
  · exact places_of_hasCopy complete isBound modified (hasCopy_defineClones runs inst member)
  have planFacts := Written.planFacts_of_planFactory shares.2
  obtain ⟨notVarying, binding, value, isReplaced, resolves⟩ := baked_of_modified complete planFacts
    closures sameNames member captures.isFree isBound modified
  obtain ⟨definition, isDefinition, emits, -⟩ := emits_defineFactory runs planFacts
  obtain ⟨prologue, isPrologue, rfl⟩ := factoryDefinition_eq_ok isDefinition
  have isOwn : ∀ selectors args, LeadingArgs written code' plan inst selectors args →
      written.scopePrologue inst (fun _ scope => written.selectorLiteral scope) =
        .ok (replaceStmts (selectorReplacements selectors) .outermost prologue) :=
    fun selectors args leading => Written.replace_scopePrologue planFacts member isPrologue
      (Written.selectors_of_leadingArgs leading)
  obtain ⟨entries, -, waits⟩ := emits.stubs
  obtain ⟨_, -, _, _, selectors, args, -, -, -, leading⟩ := exists_related waits member
  obtain ⟨location, stored, -⟩ := resolves.reads.isUsedBy complete resolves.isMet modified
    (isOwn selectors args leading)
  refine ⟨location, stored, .factory emits member rfl isReplaced notVarying
    fun selectors args leading => ?_⟩
  obtain ⟨other, stored', isUsed⟩ := resolves.reads.isUsedBy complete resolves.isMet modified
    (isOwn selectors args leading)
  exact stored.unique stored' ▸ isUsed

/-! ## Optimized roots -/

/-- The function of a root assigns captured names at its end, each in its place. -/
theorem places_defineRoot (prepared : Context.prepare graph settings = .ok context)
    (isWritten : writeHeap context = .ok written) {record : RootRecord}
    (isRecord : record ∈ written.roots)
    (runs : Runs (defineRoot written record) before result after) :
    ∃ inst code prologue targets definition function,
      written.session.HasInstance record.function inst ∧
      graph.values.get? record.function = some (.function function) ∧
      IsRoot written code inst record prologue targets definition ∧ Collects after definition ∧
      List.Forall₂ (fun entry target => ∀ key,
        graph.bindingKey? function.environment entry.1 = some key →
        ∃ location, written.StoredAt key location ∧ location.IsUsedBy prologue target)
        record.modifiedBindings targets := by
  obtain ⟨rfl, complete⟩ := writeHeap_eq_ok isWritten
  obtain ⟨isGraph, -, -, areModified⟩ := Context.prepare_eq_ok prepared
  obtain ⟨inst, code, body, built, isInstance, -, building, collects⟩ := collects_defineRoot runs
  obtain ⟨prologue, targets, isRoot⟩ := isRoot_rootBody code building
  have isInstance := Written.instanceOf_eq_ok isInstance
  obtain ⟨function, facts⟩ := complete.facts isInstance
  have recordFacts := complete.records record isRecord
  obtain ⟨root, isGraphRoot, sameFunction, -, -, sameNames, -⟩ := recordFacts.root
  refine ⟨inst, code, prologue, targets, _, function, isInstance,
    isGraph ▸ facts.isFunction, isRoot, collects, ?_⟩
  have inside : ∀ entry ∈ record.modifiedBindings, entry.1 ∈ record.modifiedBindings.map (·.1) :=
    fun entry => List.mem_map_of_mem
  refine ((List.forall₂_and_left _ _).mpr ⟨inside, isRoot.areTargets⟩).imp
    fun entry target known key resolves => ?_
  obtain ⟨isListed, replacement, found, rfl⟩ := known
  obtain ⟨inst', isInstance', isKnown⟩ := recordFacts.bound entry.1 isListed
  obtain rfl : inst = inst' := by simpa using isInstance.symm.trans isInstance'
  obtain ⟨own, isOwn⟩ := Option.isSome_iff_exists.mp isKnown
  have isBound : inst.bindings.get? entry.1 = some (some key) := by
    rw [isOwn, (facts.keys _ own isOwn).1, isGraph, resolves]
  have modified : key ∈ written.context.modified := by
    obtain ⟨-, isName⟩ := HeapGraph.bindingKey?_eq_some.mp resolves
    obtain ⟨_, found, marks⟩ :=
      (HeapGraph.subset_modifiedBindings areModified).2 root (isGraph ▸ isGraphRoot)
    exact marks (HeapGraph.mem_modifiedByRoot found (sameFunction ▸ isGraph ▸ facts.isFunction)
      (isName ▸ sameNames ▸ isListed) (isName ▸ resolves))
  obtain ⟨binding, value, rfl, reads⟩ := Written.resolves_of_bound isBound found
  exact reads.reads.isUsedBy complete reads.isMet modified isRoot.isPrologue

end Assembly

/-! ## Scripts -/

/-- Two places of captured variables are the same if and only if they belong to one binding, and the
code of all functions has these places. -/
structure Written.KeepsSharing (written : Written) (graph : HeapGraph)
    (groups : List Assembly.BlockGroup) : Prop where
  places : ∀ key other location location', written.StoredAt key location →
    written.StoredAt other location' → (location = location' ↔ key = other)
  foreign : ∀ key name, written.StoredAt key (.shared name) → written.Foreign name
  closures : ∀ group ∈ groups, ∀ code, graph.codeBlock group.code = .ok code →
    ∀ before after, Runs (Assembly.defineBlock written group.code group.functions) before ⟨⟩ after →
    ∀ inst ∈ written.instancesIn group, ∀ name key,
      graph.CapturesModified inst.function code name key →
      ∃ location, written.StoredAt key location ∧
        Assembly.Places written code inst name before after location
  roots : ∀ record ∈ written.roots, ∀ before after,
    Runs (Assembly.defineRoot written record) before ⟨⟩ after →
    ∃ inst code prologue targets definition function,
      written.session.instances.get? record.function = some inst ∧
      graph.values.get? record.function = some (.function function) ∧
      Assembly.IsRoot written code inst record prologue targets definition ∧
      Assembly.Collects after definition ∧
      List.Forall₂ (fun entry target => ∀ key,
        graph.bindingKey? function.environment entry.1 = some key →
        ∃ location, written.StoredAt key location ∧ location.IsUsedBy prologue target)
        record.modifiedBindings targets
  everyone : ∀ id inst, written.session.instances.get? id = some inst →
    (∃ group ∈ groups, inst ∈ written.instancesIn group ∧ ∃ before after,
      Runs (Assembly.defineBlock written group.code group.functions) before ⟨⟩ after) ∨
    ∃ record ∈ written.roots, record.function = id ∧ ∃ before after,
      Runs (Assembly.defineRoot written record) before ⟨⟩ after

/-- Captured variables keep exactly their sharing. -/
theorem materialize_keepsSharing {script : Script}
    (isScript : materialize graph settings = .ok script) :
    ∃ context written groups, Context.prepare graph settings = .ok context ∧
      writeHeap context = .ok written ∧ Assembly.blockGroups written = .ok groups ∧
      written.KeepsSharing graph groups := by
  obtain ⟨context, written, _, _, _, prepared, isWritten, -, comesTo, -⟩ :=
    materialize_cases isScript
  obtain ⟨groups, _, _, _, areGroups, defining, -, -, rooting⟩ :=
    Assembly.runs_defineUpTo.mp comesTo
  obtain ⟨-, complete⟩ := writeHeap_eq_ok isWritten
  refine ⟨context, written, groups, prepared, isWritten, areGroups, ?_, ?_, ?_, ?_, ?_⟩
  · intro key other location location' stored stored'
    exact ⟨stored.inj complete stored', fun same => (same ▸ stored).unique stored'⟩
  · exact fun key name stored => stored.foreign complete
  · intro group isGroup code isCode before after runs inst member name key captures
    exact Assembly.places_defineBlock prepared isWritten areGroups isGroup isCode runs member
      captures
  · intro record isRecord before after runs
    exact Assembly.places_defineRoot prepared isWritten isRecord runs
  · intro id inst isInstance
    rcases complete.grouped areGroups isInstance
      with ⟨group, isGroup, member⟩ | ⟨record, member, isId⟩
    · exact .inl ⟨group, isGroup, member, Runs.exists_of_forM defining isGroup⟩
    · exact .inr ⟨record, member, isId,
        Runs.exists_of_forM rooting ((Assembly.perm_definitionOrder _).mem_iff.mpr member)⟩

/-! ## Two heaps -/

/-- The code of a function that assigns a captured variable. -/
def setterCode : CodeBlock where
  function := { name := some "f", body := [.assign (.var "x") (.literal .null)] }

/-- The code of a function that assigns two captured variables. -/
def moverCode : CodeBlock where
  function := {
    name := some "g"
    body := [.assign (.var "x") (.var "y"), .assign (.var "y") (.literal .null)] }

def twoSetters : HeapGraph where
  values := .ofList [
    .function { code := ⟨0⟩, environment := some ⟨0⟩ },
    .function { code := ⟨1⟩, environment := some ⟨0⟩ }, .primitive .null]
  codeBlocks := .ofList [setterCode, moverCode]
  scopes := .ofList [{ bindings := .ofList [("x", some ⟨2⟩), ("y", some ⟨2⟩)] }]
  effects := [.globalAssign "f" ⟨0⟩, .globalAssign "g" ⟨1⟩]

def Storage.sharedName? : Storage → Option String
  | .shared name => some name
  | .undecided | .slot | .direct _ => none

theorem Written.storedAt_variable {written : Written} {key : BindingKey} {name : String}
    (isShared : (written.session.bindings.get? key).bind (·.storage.sharedName?) = some name) :
    written.StoredAt key (.shared name) := by
  obtain ⟨binding, isMet, isShared⟩ := Option.bind_eq_some_iff.mp isShared
  refine .shared isMet ?_
  cases storage : binding.storage <;> simp [storage, Storage.sharedName?] at isShared ⊢
  exact isShared

set_option maxRecDepth 20000 in
/-- Both functions assign one of the variables, which has another place than the other one. -/
theorem twoSetters_keepsSharing : ∃ script context written groups,
    materialize twoSetters { simpleClosures := true } = .ok script ∧
    Context.prepare twoSetters { simpleClosures := true } = .ok context ∧
    writeHeap context = .ok written ∧ Assembly.blockGroups written = .ok groups ∧
    twoSetters.CapturesModified ⟨0⟩ setterCode "x" ⟨⟨0⟩, "x"⟩ ∧
    twoSetters.CapturesModified ⟨1⟩ moverCode "x" ⟨⟨0⟩, "x"⟩ ∧
    twoSetters.CapturesModified ⟨1⟩ moverCode "y" ⟨⟨0⟩, "y"⟩ ∧
    written.StoredAt ⟨⟨0⟩, "x"⟩ (.shared "__captured_0") ∧
    written.StoredAt ⟨⟨0⟩, "y"⟩ (.shared "__captured_1") ∧
    written.KeepsSharing twoSetters groups := by
  obtain ⟨script, isScript, -⟩ : ∃ script,
      materialize twoSetters { simpleClosures := true } = .ok script ∧ true = true :=
    exists_ok (by decide +kernel)
  obtain ⟨context, written, groups, prepared, isWritten, areGroups, keeps⟩ :=
    materialize_keepsSharing isScript
  obtain ⟨written', isWritten', check⟩ : ∃ written,
      (Context.prepare twoSetters { simpleClosures := true } >>= writeHeap) = .ok written ∧
        ((written.session.bindings.get? ⟨⟨0⟩, "x"⟩).bind (·.storage.sharedName?) ==
            some "__captured_0" &&
          (written.session.bindings.get? ⟨⟨0⟩, "y"⟩).bind (·.storage.sharedName?) ==
            some "__captured_1") = true := exists_ok (by decide +kernel)
  obtain rfl := Except.ok.inj (isWritten'.symm.trans (bind_eq_ok.mpr ⟨_, prepared, isWritten⟩))
  simp only [Bool.and_eq_true, beq_iff_eq] at check
  have isSetter : twoSetters.values.get? ⟨0⟩ =
      some (.function { code := ⟨0⟩, environment := some ⟨0⟩ }) := rfl
  have isMover : twoSetters.values.get? ⟨1⟩ =
      some (.function { code := ⟨1⟩, environment := some ⟨0⟩ }) := rfl
  have isSetterCode : twoSetters.codeBlock ⟨0⟩ = .ok setterCode := rfl
  have isMoverCode : twoSetters.codeBlock ⟨1⟩ = .ok moverCode := rfl
  exact ⟨script, context, written', groups, isScript, prepared, isWritten, areGroups,
    ⟨by decide, ⟨_, isSetter, isSetterCode, by decide⟩,
      .assigned isSetter isSetterCode (by decide) (by decide)⟩,
    ⟨by decide, ⟨_, isMover, isMoverCode, by decide⟩,
      .assigned isMover isMoverCode (by decide) (by decide)⟩,
    ⟨by decide, ⟨_, isMover, isMoverCode, by decide⟩,
      .assigned isMover isMoverCode (by decide) (by decide)⟩,
    Written.storedAt_variable check.1, Written.storedAt_variable check.2, keeps⟩

/-- The code of a function with a default value that reads a captured variable. -/
def readerCode : CodeBlock where
  function := { name := some "g", params := [.withDefault "a" (.var "x")] }

/-- An optimized root whose default value reads a variable that another function assigns. -/
def rootWithDefault : HeapGraph where
  values := .ofList [
    .function { code := ⟨0⟩, environment := some ⟨0⟩ },
    .function { code := ⟨1⟩, environment := some ⟨0⟩ }, .primitive (.number (.ofNat 1))]
  codeBlocks := .ofList [readerCode, setterCode]
  scopes := .ofList [{ bindings := .ofList [("x", some ⟨2⟩)] }]
  effects := [.globalAssign "f" ⟨0⟩, .globalAssign "g" ⟨1⟩]
  roots := [{ function := ⟨0⟩ }]

/-- Whether a statement defines a function whose only parameter has a variable as its default. -/
def Stmt.hasDefault (parameter default : String) : Stmt → Bool
  | .declare .var _ (some (.function definition)) =>
    match definition.params with
    | [.withDefault own (.var other)] => own == parameter && other == default
    | _ => false
  | _ => false

theorem Stmt.hasDefault_eq_true {parameter default : String} {stmt : Stmt}
    (has : stmt.hasDefault parameter default = true) : ∃ name definition,
      stmt = .var name (.function definition) ∧
        definition.params = [.withDefault parameter (.var default)] := by
  unfold hasDefault at has
  split at has
  · rename_i name definition
    split at has
    · rename_i own other areParams
      simp only [Bool.and_eq_true, beq_iff_eq] at has
      exact ⟨name, definition, rfl, has.1 ▸ has.2 ▸ areParams⟩
    · cases has
  · cases has

set_option maxRecDepth 20000 in
/-- The default value of a root keeps the name of a captured variable that is assigned. -/
theorem rootWithDefault_keepsName : ∃ script name definition,
    materialize rootWithDefault {} = .ok script ∧
    rootWithDefault.CapturesModified ⟨0⟩ readerCode "x" ⟨⟨0⟩, "x"⟩ ∧
    .var name (.function definition) ∈ script.stmts ∧
    definition.params = [.withDefault "a" (.var "x")] := by
  obtain ⟨script, isScript, check⟩ : ∃ script, materialize rootWithDefault {} = .ok script ∧
      script.stmts.any (·.hasDefault "a" "x") = true :=
    exists_ok (by decide +kernel)
  obtain ⟨stmt, member, has⟩ := List.any_eq_true.mp check
  obtain ⟨name, definition, rfl, areParams⟩ := Stmt.hasDefault_eq_true has
  have isReader : rootWithDefault.values.get? ⟨0⟩ =
      some (.function { code := ⟨0⟩, environment := some ⟨0⟩ }) := rfl
  have isSetter : rootWithDefault.values.get? ⟨1⟩ =
      some (.function { code := ⟨1⟩, environment := some ⟨0⟩ }) := rfl
  have isReaderCode : rootWithDefault.codeBlock ⟨0⟩ = .ok readerCode := rfl
  have isSetterCode : rootWithDefault.codeBlock ⟨1⟩ = .ok setterCode := rfl
  exact ⟨script, name, definition, isScript, ⟨by decide, ⟨_, isReader, isReaderCode, by decide⟩,
    .assigned isSetter isSetterCode (by decide) (by decide)⟩, member, areParams⟩

end HeapScript
