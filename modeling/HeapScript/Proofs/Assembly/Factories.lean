import HeapScript.Proofs.Assembly.Stubs
import HeapScript.Proofs.FreeNames.Composition
import Mathlib.Data.List.Nodup
import Mathlib.Data.List.ReduceOption

/-!
A factory that gets the leading arguments of a closure is the closure's copy of the code.

Both are made from the code of the block by replacing names: a copy has all of its closure's values
put in at once, and a factory first those on which all closures agree and then, by a call, the
others. The two differ at most in the sign of a zero, because closures agree on numbers that are
equal.
-/

namespace HeapScript

open List

variable {value selector : Expr} {selectors : List Expr} {position : Nat}
  {replacements : Replacements} {name : String} {names : List String}

/-! ## Free names -/

def Context.Captures (context : Context) (id : ValueId) (name : String) : Prop :=
  ∃ function, context.graph.values.get? id = some (.function function) ∧
    (context.graph.bindingKey? function.environment name).isSome

theorem Context.freeNames_eq {graph : HeapGraph} {settings : Settings} {context : Context}
    (prepared : Context.prepare graph settings = .ok context) {id : CodeId} {code : CodeBlock}
    (isCode : graph.codeBlock id = .ok code) :
    context.freeNames id = code.function.facts.unbound.map (·.1) := by
  obtain ⟨_, _, isFacts, _⟩ := Context.prepare_eq_ok prepared
  simp [Context.freeNames, isFacts, HeapGraph.get?_codeFacts isCode]

namespace Written

variable {written : Written} {code : CodeBlock} {first inst : FunctionInstance}
  {instances : List FunctionInstance} {plan : FactoryPlan} {name : String} {id : CodeId}
  {function : FunctionValue}

theorem IsClosure.captures_of_some (closure : written.IsClosure id function inst)
    (found : written.replacementFor inst name = .ok (some value)) :
    written.context.Captures inst.function name := by
  obtain ⟨key, binding, resolves⟩ := resolves_of_replacementFor found
  have isKey := (closure.facts.keys name _ resolves.isKey).1
  exact ⟨function, closure.facts.isFunction, by simp [← isKey]⟩

theorem IsClosure.not_captures_of_none (closure : written.IsClosure id function inst)
    (isFree : name ∈ written.context.freeNames id)
    (found : written.replacementFor inst name = .ok none) :
    ¬written.context.Captures inst.function name := by
  rintro ⟨function', isFunction, captured⟩
  obtain rfl : function' = function := by simpa using isFunction.symm.trans closure.facts.isFunction
  have isGlobal := global_of_replacementFor found
  rw [closure.get?_bindings name, if_pos isFree] at isGlobal
  simp_all

/-- What becomes of the free names: each is baked, varies or is global, and only one of these. -/
inductive Fate (written : Written) (instances : List FunctionInstance) (plan : FactoryPlan)
    (name : String) : Prop where
  | baked (isBaked : name ∈ plan.bakedNames.map (·.1)) (notVarying : name ∉ plan.varyingNames)
      (captured : ∀ inst ∈ instances, written.context.Captures inst.function name)
  | varying (notBaked : name ∉ plan.bakedNames.map (·.1)) (isVarying : name ∈ plan.varyingNames)
      (captured : ∀ inst ∈ instances, written.context.Captures inst.function name)
  | global (notBaked : name ∉ plan.bakedNames.map (·.1)) (notVarying : name ∉ plan.varyingNames)
      (isGlobal : ∀ inst ∈ instances, ¬written.context.Captures inst.function name)

theorem ResolvesAll.exists_value {resolved : List ResolvedName}
    (resolves : written.ResolvesAll instances name resolved) (member : inst ∈ instances) :
    ∃ found ∈ resolved, written.replacementFor inst name = .ok (some found.value) := by
  obtain ⟨found, isFound, known⟩ := exists_related resolves member
  exact ⟨found, isFound, known.1⟩

theorem PlanFacts.baked_not_varying (facts : written.PlanFacts code first instances plan)
    (isBaked : (name, NamePlan.baked value) ∈ plan.names) : name ∉ plan.varyingNames := by
  intro isVarying
  obtain ⟨args, isVarying⟩ := FactoryPlan.mem_varyingNames.mp isVarying
  have same := inj_on_of_nodup_map facts.nodup isBaked isVarying rfl
  simp at same

theorem PlanFacts.fate (facts : written.PlanFacts code first instances plan)
    (closures : ∀ inst ∈ instances, ∃ function, written.IsClosure id function inst)
    (sameNames : written.context.freeNames id = code.function.facts.unbound.map (·.1))
    (isFree : name ∈ written.context.freeNames id) : Fate written instances plan name := by
  have captured : ∀ {resolved}, written.ResolvesAll instances name resolved →
      ∀ inst ∈ instances, written.context.Captures inst.function name := by
    intro resolved resolves inst member
    obtain ⟨_, closure⟩ := closures inst member
    obtain ⟨_, _, found⟩ := resolves.exists_value member
    exact closure.captures_of_some found
  by_cases inPlan : name ∈ plan.names.map (·.1)
  · obtain ⟨⟨_, choice⟩, planned, rfl⟩ := mem_map.mp inPlan
    cases choice with
    | baked value =>
      obtain ⟨_, resolved, resolves, _⟩ := facts.baked planned
      exact .baked (FactoryPlan.mem_map_bakedNames.mpr ⟨value, planned⟩)
        (facts.baked_not_varying planned) (captured resolves)
    | varying args =>
      have isVarying := FactoryPlan.mem_varyingNames.mpr ⟨args, planned⟩
      refine .varying (fun isBaked => ?_) isVarying ?_
      · obtain ⟨value, isBaked⟩ := FactoryPlan.mem_map_bakedNames.mp isBaked
        exact facts.baked_not_varying isBaked isVarying
      · cases facts.varying planned with
        | captured _ resolves _ => exact captured resolves
        | itself refers isName =>
          obtain ⟨-, -, notFree⟩ := FunctionDef.ownName_of_selfReference refers isName
          exact absurd (sameNames ▸ isFree) notFree
  · have notBaked : name ∉ plan.bakedNames.map (·.1) := by
      intro isBaked
      obtain ⟨value, isBaked⟩ := FactoryPlan.mem_map_bakedNames.mp isBaked
      exact inPlan (mem_map_of_mem isBaked)
    have notVarying : name ∉ plan.varyingNames := fun isVarying =>
      inPlan (plan.varyingNames_sublist.subset isVarying)
    obtain ⟨names, own, isNames, isPlanned, _⟩ := facts.names
    have isGlobal := isPlanned.isGlobal (sameNames ▸ isFree) (by simp_all)
    refine .global notBaked notVarying fun inst member => ?_
    obtain ⟨_, closure⟩ := closures inst member
    exact closure.not_captures_of_none isFree (isGlobal inst member)

/-! ## The replacements of a copy -/

theorem lookup_reduceOption {results : List (Option (String × Expr))}
    {action : String → Except Failure (Option Expr)}
    (found : List.Forall₂ (fun name result => ∃ replacement, action name = .ok replacement ∧
      result = replacement.map (name, ·)) names results) :
    results.reduceOption.lookup name = some value ↔
      name ∈ names ∧ action name = .ok (some value) := by
  induction found with
  | nil => simp
  | @cons other result names results known _ induction =>
    obtain ⟨replacement, isReplacement, rfl⟩ := known
    cases replacement with
    | none =>
      simp only [Option.map_none, reduceOption_cons_of_none, induction, mem_cons]
      constructor
      · rintro ⟨member, same⟩
        exact ⟨.inr member, same⟩
      · rintro ⟨rfl | member, same⟩
        · simp [isReplacement] at same
        · exact ⟨member, same⟩
    | some replaced =>
      simp only [Option.map_some, reduceOption_cons_of_some, lookup_cons, mem_cons]
      by_cases same : name = other
      · subst same
        simp [isReplacement]
      · simp [beq_eq_false_iff_ne.mpr same, same, induction]

theorem lookup_replacementsFor (found : written.replacementsFor inst = .ok replacements) :
    replacements.names.lookup name = some value ↔
      name ∈ inst.bindings.keys ∧ written.replacementFor inst name = .ok (some value) := by
  obtain ⟨results, areResults, same⟩ := bind_eq_ok.mp found
  obtain rfl := pure_eq_ok.mp same
  refine lookup_reduceOption ((mapM_eq_ok.mp areResults).imp fun name result isResult => ?_)
  obtain ⟨replacement, isReplacement, same⟩ := bind_eq_ok.mp isResult
  exact ⟨replacement, isReplacement, (pure_eq_ok.mp same).symm⟩

theorem exists_replacementsFor
    (known : ∀ name ∈ inst.bindings.keys, ∃ replacement,
      written.replacementFor inst name = .ok replacement) :
    ∃ replacements, written.replacementsFor inst = .ok replacements ∧
      replacements.modules = inst.modules.entries := by
  obtain ⟨results, areResults⟩ : ∃ results, (inst.bindings.keys.mapM fun name => do
      return (← written.replacementFor inst name).map (name, ·)) = Except.ok results := by
    refine exists_mapM fun name member => ?_
    obtain ⟨replacement, isReplacement⟩ := known name member
    exact ⟨_, bind_eq_ok.mpr ⟨replacement, isReplacement, rfl⟩⟩
  exact ⟨_, bind_eq_ok.mpr ⟨results, areResults, rfl⟩, rfl⟩

end Written

/-! ## Two rounds of replacements -/

theorem Expr.IsChain.ignored (chain : value.IsChain)
    (apart : ∀ name ∈ value.usedNames false, replacements.names.lookup name = none) :
    replacements.Ignores value := by
  intro around
  induction chain with
  | var name =>
    have missing : replacements.forName? around name = none := by
      unfold Replacements.forName?
      split
      · exact apart name (by simp [Expr.usedNames])
      · rfl
    simp [Expr.replace, missing]
  | member chain field induction =>
    simp [Expr.replace, induction fun name used => apart name
      (by simpa [Expr.usedNames] using used)]

/-- A reference stays as it is if its variable is not replaced. -/
theorem Expr.IsReference.ignored (reference : value.IsReference)
    (apart : ∀ name ∈ value.usedNames false, replacements.names.lookup name = none) :
    replacements.Ignores value := by
  cases reference with
  | literal _ => exact fun _ => by simp [Expr.replace]
  | chain chain => exact chain.ignored apart
  | slot array position =>
    have ignored : replacements.Ignores (.var array) :=
      (Expr.IsChain.var array).ignored fun name used =>
        apart name (by simp_all [Expr.usedNames])
    intro around
    have kept := ignored around
    simp only [Expr.replace, Expr.nat] at kept ⊢
    rw [kept]

theorem eq_of_forall_mem_zip {α : Type} {items others : List α}
    (sameLength : items.length = others.length)
    (same : ∀ pair ∈ items.zip others, pair.1 = pair.2) : items = others := by
  induction items generalizing others with
  | nil => exact (length_eq_zero_iff.mp sameLength.symm).symm
  | cons item items induction =>
    cases others with
    | nil => cases sameLength
    | cons other others =>
      simp only [zip_cons_cons, forall_mem_cons] at same
      rw [same.1, induction (Nat.succ.inj sameLength) same.2]

theorem lookup_zip {Related : String → Expr → Prop} {values : List Expr}
    (related : List.Forall₂ Related names values) (member : name ∈ names) :
    ∃ value, (names.zip values).lookup name = some value ∧ Related name value := by
  induction related with
  | nil => cases member
  | @cons other value names values first _ induction =>
    by_cases same : name = other
    · subst same
      exact ⟨value, by simp, first⟩
    · obtain ⟨found, isFound, known⟩ := induction ((mem_cons.mp member).resolve_left same)
      exact ⟨found, by simpa [lookup_cons, beq_eq_false_iff_ne.mpr same] using isFound, known⟩

theorem lookup_zip_eq_none {values : List Expr} (missing : name ∉ names) :
    (names.zip values).lookup name = none := by
  refine lookup_eq_none_iff.mpr fun entry member => ?_
  have member := (of_mem_zip (show (entry.1, entry.2) ∈ _ from member)).1
  simp only [bne_iff_ne]
  rintro rfl
  exact missing member

namespace Written

variable {written : Written} {code : CodeBlock} {first inst : FunctionInstance}
  {instances : List FunctionInstance} {plan : FactoryPlan} {name : String} {id : CodeId}
  {function : FunctionValue}

/-- The closure has the same values as the factory, signs of zeros included. -/
structure SameZeros (written : Written) (plan : FactoryPlan) (inst : FunctionInstance) : Prop where
  baked : ∀ name value own, (name, value) ∈ plan.bakedNames →
    written.replacementFor inst name = .ok (some own) → ¬value.OppositeZeros own
  modules : ∀ name value own, plan.modules.get? name = some value →
    inst.modules.get? name = some own → ¬value.OppositeZeros own

theorem modules_eq {other : FunctionInstance} {function' : FunctionValue}
    (closure : written.IsClosure id function inst)
    (closure' : written.IsClosure id function' other)
    (same : sameModules inst.modules other.modules = true)
    (zeros : ∀ name value own, other.modules.get? name = some value →
      inst.modules.get? name = some own → ¬value.OppositeZeros own) :
    inst.modules.entries = other.modules.entries := by
  simp only [sameModules, Bool.and_eq_true, beq_iff_eq, KeyedTable.size, all_eq_true] at same
  refine eq_of_forall_mem_zip same.1 fun pair member => ?_
  obtain ⟨⟨name, own⟩, ⟨name', value⟩⟩ := pair
  obtain ⟨isOwn, isValue⟩ := of_mem_zip member
  obtain ⟨rfl, agrees⟩ : name = name' ∧ own.sameReference value = true := same.2 _ member
  have equal := (closure.facts.modules _ isOwn).sameUpToZeros
    (closure'.facts.modules _ isValue) agrees
  rcases equal with rfl | opposite
  · rfl
  · have found := KeyedTable.get?_eq_some_of_mem closure.facts.distinctModules isOwn
    have found' := KeyedTable.get?_eq_some_of_mem closure'.facts.distinctModules isValue
    exact absurd opposite.symm (zeros name value own found' found)

theorem mem_of_lookup_eq_some {entries : List (String × Expr)}
    (found : entries.lookup name = some value) : (name, value) ∈ entries := by
  obtain ⟨before, after, rfl, _⟩ := lookup_eq_some_iff.mp found
  simp

theorem not_mem_of_lookup_eq_none {entries : List (String × Expr)}
    (missing : entries.lookup name = none) : name ∉ entries.map (·.1) := by
  intro member
  obtain ⟨entry, isEntry, rfl⟩ := mem_map.mp member
  simpa using lookup_eq_none_iff.mp missing entry isEntry

theorem IsClosure.mem_keys (closure : written.IsClosure id function inst) :
    name ∈ inst.bindings.keys ↔ name ∈ written.context.freeNames id := by
  rw [KeyedTable.mem_keys_iff, closure.get?_bindings name]
  split <;> simp_all

theorem PlanFacts.baked_value (complete : written.Complete)
    (facts : written.PlanFacts code first instances plan)
    (isBaked : (name, value) ∈ plan.bakedNames) (member : inst ∈ instances) :
    value.IsReference ∧ ∃ own, written.replacementFor inst name = .ok (some own) ∧
      value.SameUpToZeros own := by
  obtain ⟨_, resolved, resolves, chosen⟩ := facts.baked (FactoryPlan.mem_bakedNames.mp isBaked)
  obtain ⟨found, isFound, same⟩ := resolves.exists_value member
  refine ⟨?_, found.value, same, resolves.sameUpToZeros complete chosen found isFound⟩
  obtain ⟨source, isSource, rfl⟩ := chosen.exists_mem
  obtain ⟨_, _, _, _, known, _⟩ := resolves.of_mem isSource
  exact known.isReference complete

theorem PlanFacts.isFree_of_varying (facts : written.PlanFacts code first instances plan)
    (noSelf : code.function.facts.selfReference = false) (isVarying : name ∈ plan.varyingNames) :
    name ∈ code.function.facts.unbound.map (·.1) := by
  obtain ⟨args, planned⟩ := FactoryPlan.mem_varyingNames.mp isVarying
  cases facts.varying planned with
  | captured isFree _ _ => exact isFree
  | itself refers _ => simp [noSelf] at refers

/-- The replacements of a closure's copy are the baked ones followed by its arguments. -/
theorem composes (complete : written.Complete)
    (facts : written.PlanFacts code first instances plan)
    (closures : ∀ inst ∈ instances, ∃ function, written.IsClosure id function inst)
    (sameNames : written.context.freeNames id = code.function.facts.unbound.map (·.1))
    (isFirst : first ∈ instances) (member : inst ∈ instances) {args : List Expr}
    (areArgs : List.Forall₂ (written.PassesFor code inst) plan.varyingNames args)
    (noSelf : code.function.facts.selfReference = false)
    (noTemporary : loopTemporary ∉ code.function.facts.identifiers)
    (apart : ∀ expr, expr ∈ plan.bakedNames.map (·.2) ∨ expr ∈ plan.modules.values →
      ∀ name ∈ expr.usedNames false, name ∉ code.function.facts.identifiers)
    (zeros : written.SameZeros plan inst)
    (areReplacements : written.replacementsFor inst = .ok replacements)
    (sameModules : replacements.modules = inst.modules.entries) :
    Replacements.Composes { names := plan.bakedNames, modules := plan.modules.entries }
      { names := plan.varyingNames.zip args } replacements := by
  obtain ⟨function, closure⟩ := closures inst member
  have notVarying : ∀ {name}, name ∉ code.function.facts.identifiers →
      (plan.varyingNames.zip args).lookup name = none := by
    intro name missing
    refine lookup_zip_eq_none fun isVarying => missing ?_
    exact FunctionDef.mem_identifiers_of_unbound (facts.isFree_of_varying noSelf isVarying)
  refine ⟨fun name value found => ?_, fun name missing => ?_, fun name value found => ?_, ?_, rfl,
    notVarying noTemporary⟩
  · have isBaked := mem_of_lookup_eq_some found
    obtain ⟨reference, own, isOwn, same⟩ := facts.baked_value complete isBaked member
    obtain rfl : value = own := same.resolve_right (zeros.baked name value own isBaked isOwn)
    have isFree := (facts.baked (FactoryPlan.mem_bakedNames.mp isBaked)).1
    refine ⟨(lookup_replacementsFor areReplacements).mpr
      ⟨closure.mem_keys.mpr (sameNames ▸ isFree), isOwn⟩, ?_⟩
    exact reference.ignored fun used isUsed =>
      notVarying (apart value (.inl (mem_map_of_mem isBaked)) used isUsed)
  · have notBaked := not_mem_of_lookup_eq_none missing
    by_cases isVarying : name ∈ plan.varyingNames
    · obtain ⟨value, isValue, passes⟩ := lookup_zip areArgs isVarying
      have isOwn : written.replacementFor inst name = .ok (some value) := by
        simpa [PassesFor, noSelf] using passes
      have isFree := facts.isFree_of_varying noSelf isVarying
      rw [isValue, (lookup_replacementsFor areReplacements).mpr
        ⟨closure.mem_keys.mpr (sameNames ▸ isFree), isOwn⟩]
    · rw [lookup_zip_eq_none isVarying]
      refine Option.eq_none_iff_forall_ne_some.mpr fun value found => ?_
      obtain ⟨isKey, isOwn⟩ := (lookup_replacementsFor areReplacements).mp found
      cases facts.fate closures sameNames (closure.mem_keys.mp isKey) with
      | baked isBaked _ _ => exact notBaked isBaked
      | varying _ isVarying' _ => exact isVarying isVarying'
      | global _ _ isGlobal => exact isGlobal inst member (closure.captures_of_some isOwn)
  · have isEntry := mem_of_lookup_eq_some found
    obtain ⟨_, closure'⟩ := closures first isFirst
    have reference := closure'.facts.modules _ (facts.modules ▸ isEntry)
    exact reference.ignored fun used isUsed =>
      notVarying (apart value (.inr (mem_map_of_mem isEntry)) used isUsed)
  · obtain ⟨_, closure'⟩ := closures first isFirst
    have same := modules_eq closure closure' (facts.sameModules inst member)
      (by simpa only [← facts.modules] using zeros.modules)
    simp only [sameModules, same, facts.modules]

end Written

/-! ## Scope variables -/

def Surroundings.outermost : Surroundings where
  bound := []
  ownName := none
  depth := 0

def selectorReplacements (selectors : List Expr) : Replacements where
  names := ((List.range selectors.length).map selectorParamName).zip selectors

theorem replaceStmts_eq_map (replacements : Replacements) (around : Surroundings)
    (stmts : List Stmt) :
    replaceStmts replacements around stmts = stmts.map (·.replace replacements around) := by
  induction stmts with
  | nil => rfl
  | cons stmt stmts induction => simp [replaceStmts, induction]

theorem lookup_selector (isSelector : selectors[position]? = some selector) :
    (selectorReplacements selectors).names.lookup (selectorParamName position) = some selector := by
  have bound := (List.getElem?_eq_some_iff.mp isSelector).1
  have related : List.Forall₂ (fun name value => ∃ number, name = selectorParamName number ∧
      selectors[number]? = some value) ((List.range selectors.length).map selectorParamName)
      selectors := by
    refine forall₂_iff_get.mpr ⟨by simp, fun number _ bound => ⟨number, by simp, by simp [bound]⟩⟩
  obtain ⟨value, isValue, number, same, isNumber⟩ := lookup_zip related
    (mem_map_of_mem (mem_range.mpr bound))
  obtain rfl := selectorParamName_inj same
  rw [selectorReplacements, isValue, ← isNumber, isSelector]

theorem forName?_selector (isSelector : selectors[position]? = some selector) :
    (selectorReplacements selectors).forName? .outermost (selectorParamName position) =
      some selector := by
  simp [Replacements.forName?, Surroundings.meaning, Surroundings.outermost,
    selectorParamName_ne_arguments, lookup_selector isSelector]

theorem forName?_other (selectors : List Expr)
    (different : ∀ position, selectorParamName position ≠ name) :
    (selectorReplacements selectors).forName? .outermost name = none := by
  unfold Replacements.forName?
  split
  · exact lookup_zip_eq_none (by simpa using fun position _ => different position)
  · rfl

namespace Written

variable {written : Written} {code : CodeBlock} {first inst : FunctionInstance}
  {instances : List FunctionInstance} {plan : FactoryPlan}

def scopeVariable (written : Written) (position : Nat) (owner : ScopeOwner) (index : Expr) : Stmt :=
  .var (scopeLocalName position)
    (.logicalOr (.index (.var (written.session.captured.arrayName owner)) index)
      (.call (.var (written.session.captured.accessorName owner)) [index]))

theorem replace_scopeVariable (isSelector : selectors[position]? = some selector)
    (owner : ScopeOwner) :
    (written.scopeVariable position owner (.var (selectorParamName position))).replace
        (selectorReplacements selectors) .outermost =
      written.scopeVariable position owner selector := by
  have array := forName?_other selectors
    (selectorParamName_ne_arrayName written.session.captured owner)
  have accessor := forName?_other selectors
    (selectorParamName_ne_accessorName written.session.captured owner)
  simp [scopeVariable, Stmt.var, Stmt.replace, Expr.replace, replaceExprs, Replacements.forLoad?,
    Surroundings.freeLoad?, loadedModule?, array, accessor, forName?_selector isSelector]

theorem initialization_eq_ok {scope : ScopeId} {index : Expr} {stmt : Stmt} :
    written.session.captured.initialization (scopeLocalName position) scope index = .ok stmt ↔
      ∃ owner, written.session.captured.owner scope = .ok owner ∧
        written.scopeVariable position owner index = stmt := by
  simp only [CapturedScopes.initialization, bind_eq_ok, pure_eq_ok, scopeVariable]

section

variable (facts : written.PlanFacts code first instances plan) (member : inst ∈ instances)

include facts member

theorem PlanFacts.owner_eq {scope other : ScopeId} {owner : ScopeOwner}
    (isScope : inst.scopes[position]? = some scope) (isOther : first.scopes[position]? = some other)
    (isOwner : written.session.captured.owner other = .ok owner) :
    written.session.captured.owner scope = .ok owner := by
  have inZip : (scope, other) ∈ inst.scopes.zip first.scopes :=
    mem_of_getElem? (List.getElem?_zip_eq_some.mpr ⟨isScope, isOther⟩)
  have same := allM_eq_ok_true.mp (facts.sameOwners inst member) _ inZip
  simp only [bind_eq_ok, pure_eq_ok, beq_iff_eq] at same
  obtain ⟨owner', isOwner', _, isOwner'', rfl⟩ := same
  rw [isOwner', ← isOwner'', isOwner]

/-- With the selectors in the place of its parameters a factory declares the scope variables of the
closure's copy. -/
theorem replace_scopePrologue {prologue : List Stmt}
    (isPrologue : written.scopePrologue first (fun position _ =>
      return .var (selectorParamName position)) = .ok prologue)
    (areSelectors : inst.scopes.mapM written.selectorLiteral = .ok selectors) :
    written.scopePrologue inst (fun _ scope => written.selectorLiteral scope) =
      .ok (replaceStmts (selectorReplacements selectors) .outermost prologue) := by
  have declared := mapM_eq_ok.mp isPrologue
  have selected := mapM_eq_ok.mp areSelectors
  have sameLength := facts.sameLength inst member
  have prologueLength := declared.length_eq
  have selectorLength := selected.length_eq
  simp only [length_zipIdx] at prologueLength
  rw [replaceStmts_eq_map]
  refine mapM_eq_ok.mpr (forall₂_iff_get.mpr ⟨by simp; omega, fun position bound bound' => ?_⟩)
  simp only [length_zipIdx, length_map] at bound bound'
  have boundFirst : position < first.scopes.length := by omega
  have boundSelector : position < selectors.length := by omega
  have isScope : inst.scopes[position]? = some inst.scopes[position] := by simp [bound]
  have isOther : first.scopes[position]? = some first.scopes[position] := by simp [boundFirst]
  have isSelector := selected.get bound boundSelector
  have isStmt := declared.get (by simpa using boundFirst) bound'
  simp only [get_eq_getElem, getElem_zipIdx, getElem_map, Nat.zero_add, bind_eq_ok,
    pure_eq_ok, exists_eq_left', initialization_eq_ok] at isSelector isStmt ⊢
  obtain ⟨owner, isOwner, isStmt⟩ := isStmt
  refine ⟨_, isSelector, owner, facts.owner_eq member isScope isOther isOwner, ?_⟩
  rw [← isStmt]
  exact (replace_scopeVariable (List.getElem?_eq_getElem boundSelector) owner).symm

theorem PlanFacts.exists_replacement (isFree : name ∈ code.function.facts.unbound.map (·.1)) :
    ∃ replacement, written.replacementFor inst name = .ok replacement := by
  obtain ⟨captured, own, _, planned, _⟩ := facts.names
  by_cases inPlan : name ∈ captured.map (·.1)
  · obtain ⟨⟨_, choice⟩, isEntry, rfl⟩ := mem_map.mp inPlan
    obtain ⟨resolved, resolves, _⟩ := planned.of_mem isEntry
    obtain ⟨found, _, same⟩ := resolves.exists_value member
    exact ⟨_, same⟩
  · exact ⟨none, planned.isGlobal isFree inPlan inst member⟩

end

theorem selectors_of_leadingArgs {args : List Expr}
    (leading : LeadingArgs written code plan inst selectors args) :
    inst.scopes.mapM written.selectorLiteral = .ok selectors :=
  mapM_eq_ok.mpr (leading.areSelectors.imp fun _ _ => selectorLiteral_eq_ok.mpr)

end Written

/-! ## Factories and copies -/

/-- No expression that a factory has in the place of a name is caught by the code around it. -/
structure FactoryPlan.IsApart (plan : FactoryPlan) (code : CodeBlock) : Prop where
  noSelf : code.function.facts.selfReference = false
  noTemporary : loopTemporary ∉ code.function.facts.identifiers
  apart : ∀ expr, expr ∈ plan.bakedNames.map (·.2) ∨ expr ∈ plan.modules.values →
    ∀ name ∈ expr.usedNames false, name ∉ code.function.facts.identifiers

/-- The parts of a factory that follow its leading parameters become those of a closure's copy when
the arguments are put in. -/
structure BecomesCopy (written : Written) (code : CodeBlock) (plan : FactoryPlan)
    (inst : FunctionInstance) (prologue : List Stmt) (rest : FunctionDef)
    (selectors args : List Expr) : Prop where
  scopes : written.scopePrologue inst (fun _ scope => written.selectorLiteral scope) =
    .ok (replaceStmts (selectorReplacements selectors) .outermost prologue)
  code : plan.IsApart code → written.SameZeros plan inst → ∃ replacements,
    written.replacementsFor inst = .ok replacements ∧
    rest.replace { names := plan.varyingNames.zip args } = code.function.replace replacements

/-- The factory of a code block and how it stands to its closures. -/
structure IsFactory (written : Written) (code : CodeBlock) (plan : FactoryPlan)
    (instances : List FunctionInstance) (definition : FunctionDef) : Prop where
  distinct : plan.varyingNames.Nodup
  notParams : ∀ name ∈ plan.varyingNames, name ∉ code.function.params.flatMap Param.boundNames
  fates : ∀ name ∈ code.function.facts.unbound.map (·.1), written.Fate instances plan name
  parts : ∃ params prologue body,
    definition.params = (List.range plan.scopeCount).map (fun position =>
        Param.plain (selectorParamName position)) ++ plan.varyingNames.map Param.plain ++ params ∧
    definition.body = prologue ++ body ∧
    ∀ inst ∈ instances, ∀ selectors args, LeadingArgs written code plan inst selectors args →
      BecomesCopy written code plan inst prologue
        { definition with
          name := code.function.name, params, body, isArrow := code.function.isArrow }
        selectors args

/-- Closures that share a factory are defined by it: each passes its selectors and its own values
of the varying names, and the factory with these arguments is the closure's own copy of the code,
unless the copy has another zero in some place. -/
theorem defineBlock_isFactory {graph : HeapGraph} {settings : Settings} {context : Context}
    {written : Written} {groups : List Assembly.BlockGroup} {group : Assembly.BlockGroup}
    {code : CodeBlock} {instances : List FunctionInstance} {plan : FactoryPlan}
    {before after : Assembly} (prepared : Context.prepare graph settings = .ok context)
    (isWritten : writeHeap context = .ok written)
    (areGroups : Assembly.blockGroups written = .ok groups) (isGroup : group ∈ groups)
    (isCode : graph.codeBlock group.code = .ok code)
    (areInstances : group.functions.mapM (fun id => written.instanceOf id) = .ok instances)
    (shares : Assembly.SharesFactory written code code.function.facts instances plan)
    (runs : Runs (Assembly.defineBlock written group.code group.functions) before ⟨⟩ after) :
    ∃ definition, Assembly.Emits written code plan instances definition before after ∧
      IsFactory written code plan instances definition := by
  obtain ⟨rfl, complete⟩ := writeHeap_eq_ok isWritten
  obtain ⟨isGraph, _, areFacts, _⟩ := Context.prepare_eq_ok prepared
  have sameNames := Context.freeNames_eq prepared isCode
  obtain ⟨code', instances', isCode', areInstances', defined⟩ :=
    Assembly.defineBlock_cases (isGraph ▸ areFacts) runs
  obtain rfl := Except.ok.inj ((isGraph ▸ isCode').symm.trans isCode)
  obtain rfl := Except.ok.inj (areInstances'.symm.trans areInstances)
  rcases defined with ⟨plan', first, others, rfl, shares', runs⟩ | ⟨noPlan, _⟩
  swap
  · exact absurd shares (noPlan plan)
  obtain rfl := Option.some.inj (Except.ok.inj (shares'.2.symm.trans shares.2))
  have facts := Written.planFacts_of_planFactory shares.2
  have closures : ∀ inst ∈ first :: others, ∃ function,
      written.IsClosure group.code function inst := fun inst member =>
    Written.isClosure_of_mem complete areGroups isGroup areInstances member
  obtain ⟨definition, isDefinition, emits, -⟩ := Assembly.emits_defineFactory runs facts
  obtain ⟨prologue, isPrologue, rfl⟩ := Assembly.factoryDefinition_eq_ok isDefinition
  refine ⟨_, emits, plan'.varyingNames_sublist.nodup facts.nodup, fun name isVarying isParam => ?_,
    fun name isFree => facts.fate closures sameNames (sameNames ▸ isFree),
    _, prologue, _, rfl, rfl, fun inst member selectors args leading => ⟨?_, fun apart zeros => ?_⟩⟩
  · have notBound := facts.not_mem_boundNames (plan'.varyingNames_sublist.subset isVarying)
    exact notBound (by simp only [FunctionDef.boundNames, List.mem_append]; tauto)
  · exact Written.replace_scopePrologue facts member isPrologue
      (Written.selectors_of_leadingArgs leading)
  · obtain ⟨_, closure⟩ := closures inst member
    obtain ⟨replacements, areReplacements, sameModules⟩ : ∃ replacements,
        written.replacementsFor inst = .ok replacements ∧
          replacements.modules = inst.modules.entries :=
      Written.exists_replacementsFor fun name isKey =>
        facts.exists_replacement member (sameNames ▸ closure.mem_keys.mp isKey)
    have composes := Written.composes complete facts closures sameNames List.mem_cons_self member
      leading.areArgs apart.noSelf apart.noTemporary apart.apart zeros areReplacements sameModules
    exact ⟨replacements, areReplacements, FunctionDef.replace_replace composes code'.function⟩

/-! ## Two closures -/

namespace TwoClosures

def graph (left right : Constant) : HeapGraph where
  values := .ofList [
    .function { code := ⟨0⟩, environment := some ⟨0⟩ },
    .function { code := ⟨0⟩, environment := some ⟨1⟩ },
    .primitive left, .primitive right]
  codeBlocks := .ofList [{
    function := { name := some "f", body := [.returnValue (some (.var "x"))] }
    span := { first := 0, last := 100 } }]
  scopes := .ofList [
    { bindings := .ofList [("x", some ⟨2⟩)] }, { bindings := .ofList [("x", some ⟨3⟩)] }]
  effects := [.globalAssign "a" ⟨0⟩, .globalAssign "b" ⟨1⟩]

def group : Assembly.BlockGroup where
  tag := 0
  code := ⟨0⟩
  functions := [⟨0⟩, ⟨1⟩]

/-- The closures of the heap with what defines them. -/
structure Run where
  context : Context
  written : Written
  code : CodeBlock
  instances : List FunctionInstance
  plan : FactoryPlan
  after : Assembly

def run (left right : Constant) : Except Failure (Option Run) := do
  let context ← Context.prepare (graph left right) {}
  let written ← writeHeap context
  let code ← (graph left right).codeBlock group.code
  let instances ← group.functions.mapM fun id => written.instanceOf id
  let plan ← written.planFactory code code.function.facts instances
  let (_, after) ← (Assembly.defineBlock written group.code group.functions).run
    { bodies := written.session.bodies }
  return plan.map fun plan => { context, written, code, instances, plan, after }

def Run.isShared (run : Run) : Bool :=
  (run.written.session.instances.values.filter fun inst =>
    run.written.roots.all (·.function ≠ inst.function)).map (fun inst => (inst.code, inst.function))
      = group.functions.map (group.code, ·) ∧
  Assembly.isShareable run.written.context.settings run.code run.code.function.facts run.instances ∧
  run.code.orderTag = group.tag

/-- A run of the two closures as members of the only group. -/
structure Run.Valid (left right : Constant) (run : Run) : Prop where
  prepared : Context.prepare (graph left right) {} = .ok run.context
  isWritten : writeHeap run.context = .ok run.written
  areGroups : Assembly.blockGroups run.written = .ok [group]
  isCode : (graph left right).codeBlock group.code = .ok run.code
  areInstances : group.functions.mapM (fun id => run.written.instanceOf id) = .ok run.instances
  shares :
    Assembly.SharesFactory run.written run.code run.code.function.facts run.instances run.plan
  runs : Runs (Assembly.defineBlock run.written group.code group.functions)
    { bodies := run.written.session.bodies } ⟨⟩ run.after

theorem blockGroups_eq {written : Written} {code : CodeBlock}
    (areFunctions : (written.session.instances.values.filter fun inst =>
      written.roots.all (·.function ≠ inst.function)).map (fun inst => (inst.code, inst.function))
        = group.functions.map (group.code, ·)) (isCode : written.IsCode group.code code)
    (sameTag : code.orderTag = group.tag) : Assembly.blockGroups written = .ok [group] := by
  unfold Assembly.blockGroups
  generalize written.session.instances.values.filter _ = instances at areFunctions ⊢
  have areCodes : (instances.map (·.code)).eraseDups = [group.code] := by
    have codes := congrArg (List.map Prod.fst) areFunctions
    simp only [map_map, Function.comp_def] at codes
    rw [codes]
    rfl
  have areClosures : (instances.filter (·.code = group.code)).map (·.function) =
      group.functions := by
    have pairs := congrArg (fun pairs => (pairs.filter (·.1 = group.code)).map (·.2)) areFunctions
    simp only [filter_map, map_map, Function.comp_def] at pairs
    exact pairs
  have sorted : sortBy group.functions (fun left right => left.index ≤ right.index) =
      group.functions := sortBy_of_pairwise (by decide)
  simp only [areCodes, areClosures, sorted, isCode, List.mapM_cons, List.mapM_nil,
    bind_eq_ok, pure_eq_ok]
  exact ⟨_, ⟨_, ⟨code, rfl, rfl⟩, _, rfl, rfl⟩, by rw [sameTag]; rfl⟩

theorem valid_of_isShared {left right : Constant} {check : Run → Bool}
    (passes : (run left right).toOption.join.any (fun run => run.isShared && check run) = true) :
    ∃ run : Run, run.Valid left right ∧ check run = true := by
  obtain ⟨found, isRun, isShared, passes⟩ : ∃ found, run left right = .ok (some found) ∧
      found.isShared = true ∧ check found = true := by
    rcases isRun : run left right with _ | _ | found <;> simp_all [Except.toOption]
  simp only [run, bind_eq_ok, pure_eq_ok, Option.map_eq_some_iff] at isRun
  obtain ⟨context, prepared, written, isWritten, code, isCode, instances, areInstances, _, planned,
    ⟨⟨⟩, after⟩, defined, plan, rfl, rfl⟩ := isRun
  simp only [Run.isShared, Bool.decide_and, Bool.and_eq_true, decide_eq_true_eq] at isShared
  obtain ⟨areFunctions, shareable, sameTag⟩ := isShared
  have isCode' : written.context.graph.codeBlock group.code = .ok code := by
    rw [(writeHeap_eq_ok isWritten).1, (Context.prepare_eq_ok prepared).1, isCode]
  exact ⟨{ context, written, code, instances, plan, after }, ⟨prepared, isWritten,
    blockGroups_eq areFunctions isCode' sameTag, isCode, areInstances, ⟨shareable, planned⟩,
    defined⟩, passes⟩

end TwoClosures

set_option maxRecDepth 20000 in
theorem twoClosures_isFactory : ∃ run : TwoClosures.Run, ∃ definition,
    run.Valid (.number (.ofNat 1)) (.number (.ofNat 2)) ∧ run.plan.varyingNames = ["x"] ∧
    Assembly.Emits run.written run.code run.plan run.instances definition
      { bodies := run.written.session.bodies } run.after ∧
    IsFactory run.written run.code run.plan run.instances definition := by
  obtain ⟨run, valid, varying⟩ :
      ∃ run : TwoClosures.Run, run.Valid (.number (.ofNat 1)) (.number (.ofNat 2)) ∧
        decide (run.plan.varyingNames = ["x"]) = true :=
    TwoClosures.valid_of_isShared (by decide +kernel)
  obtain ⟨definition, emits, isFactory⟩ := defineBlock_isFactory valid.prepared valid.isWritten
    valid.areGroups (List.mem_singleton.mpr rfl) valid.isCode valid.areInstances valid.shares
    valid.runs
  exact ⟨run, definition, valid, of_decide_eq_true varying, emits, isFactory⟩

namespace TwoClosures

def constantOf (definition : FunctionDef) : Option Constant :=
  match definition.body with
  | [.returnValue (some (.literal value))] => some value
  | _ => none

/-- Whether the factory of the closures has no leading parameters and returns another constant than
the copy of one of them. -/
def Run.mergesConstants (run : Run) : Bool :=
  run.code.function.facts.selfReference == false &&
  run.code.function.facts.identifiers.all (· ≠ loopTemporary) &&
  run.plan.bakedNames.all (fun entry => (entry.2.usedNames false).isEmpty) &&
  run.plan.modules.values.isEmpty && run.plan.varyingNames.isEmpty &&
  run.instances.any fun inst =>
    (run.written.replacementsFor inst).toOption.any fun replacements =>
      constantOf ((run.plan.bake run.code.function).replace {}) ≠
        constantOf (run.code.function.replace replacements)

end TwoClosures

set_option maxRecDepth 20000 in
/-- The factory of closures over two zeros returns the same one for both. -/
theorem twoClosures_zeros : ∃ run : TwoClosures.Run,
    run.Valid (.number (.ofNat 0)) (.number (.ofMagnitude true 0)) ∧ run.plan.IsApart run.code ∧
    ∃ inst ∈ run.instances, ∃ replacements,
      run.written.replacementsFor inst = .ok replacements ∧
      ∀ args, (run.plan.bake run.code.function).replace
        { names := run.plan.varyingNames.zip args } ≠ run.code.function.replace replacements := by
  obtain ⟨run, valid, merges⟩ := TwoClosures.valid_of_isShared
    (show (TwoClosures.run (.number (.ofNat 0)) (.number (.ofMagnitude true 0))).toOption.join.any
      (fun run => run.isShared && run.mergesConstants) = true by decide +kernel)
  simp only [TwoClosures.Run.mergesConstants, Bool.and_eq_true, beq_iff_eq, List.all_eq_true,
    List.any_eq_true, List.isEmpty_iff, decide_eq_true_eq] at merges
  obtain ⟨⟨⟨⟨⟨noSelf, noTemporary⟩, noNames⟩, noModules⟩, noVarying⟩, inst, member, differ⟩ :=
    merges
  refine ⟨run, valid, ⟨noSelf, fun isTemporary => noTemporary _ isTemporary rfl, ?_⟩, inst, member,
    ?_⟩
  · rintro expr (baked | isModule) name isUsed
    · obtain ⟨entry, isEntry, rfl⟩ := List.mem_map.mp baked
      rw [noNames entry isEntry] at isUsed
      cases isUsed
    · rw [noModules] at isModule
      cases isModule
  · rcases areReplacements : run.written.replacementsFor inst with _ | replacements
    · simp [areReplacements, Except.toOption] at differ
    · refine ⟨replacements, rfl, fun args same => ?_⟩
      simp only [areReplacements, Except.toOption, Option.any_some, decide_eq_true_eq] at differ
      rw [noVarying, List.zip_nil_left] at same
      exact differ (congrArg TwoClosures.constantOf same)

/-! ## Baked values -/

/-- A baked value is that of each closure, and is written in the same way. Only the two zeros
are taken for one value although they are written differently. -/
theorem planFactory_bakesTexts {context : Context} {written : Written} {code : CodeBlock}
    {instances : List FunctionInstance} {plan : FactoryPlan}
    (isWritten : writeHeap context = .ok written)
    (planned : written.planFactory code code.function.facts instances = .ok (some plan)) :
    ∀ name value, (name, value) ∈ plan.bakedNames → ∀ inst ∈ instances, ∃ own,
      written.replacementFor inst name = .ok (some own) ∧
        (value.OppositeZeros own ∨ ∀ columns, value.text columns = own.text columns) := by
  intro name value isBaked inst member
  obtain ⟨-, complete⟩ := writeHeap_eq_ok isWritten
  cases instances with
  | nil => cases member
  | cons first others =>
    have facts := Written.planFacts_of_planFactory planned
    obtain ⟨-, own, isOwn, same⟩ := facts.baked_value complete isBaked member
    exact ⟨own, isOwn, same.symm.imp_right fun equal _ => by rw [equal]⟩

namespace TwoClosures

def Run.bakedTexts (run : Run) : List (String × String) :=
  run.plan.bakedNames.flatMap fun entry => run.instances.filterMap fun inst =>
    (run.written.replacementFor inst entry.1).toOption.join.map fun own =>
      (entry.2.text 0, own.text 0)

end TwoClosures

set_option maxRecDepth 20000 in
theorem twoClosures_bakesTexts : ∃ run : TwoClosures.Run,
    run.Valid (.number (.ofNat 1)) (.number (.ofNat 1)) ∧ run.plan.bakedNames.map (·.1) = ["x"] ∧
    ∀ name value, (name, value) ∈ run.plan.bakedNames → ∀ inst ∈ run.instances, ∃ own,
      run.written.replacementFor inst name = .ok (some own) ∧
        (value.OppositeZeros own ∨ ∀ columns, value.text columns = own.text columns) := by
  obtain ⟨run, valid, baked⟩ : ∃ run : TwoClosures.Run,
      run.Valid (.number (.ofNat 1)) (.number (.ofNat 1)) ∧
        decide (run.plan.bakedNames.map (·.1) = ["x"]) = true :=
    TwoClosures.valid_of_isShared (by decide +kernel)
  exact ⟨run, valid, of_decide_eq_true baked,
    planFactory_bakesTexts valid.isWritten valid.shares.2⟩

set_option maxRecDepth 20000 in
/-- The value that is baked for closures over two zeros is written as only one of them. -/
theorem twoClosures_bakesZero : ∃ run : TwoClosures.Run,
    run.Valid (.number (.ofNat 0)) (.number (.ofMagnitude true 0)) ∧
      run.bakedTexts = [("0", "0"), ("0", "-0")] := by
  obtain ⟨run, valid, texts⟩ : ∃ run : TwoClosures.Run,
      run.Valid (.number (.ofNat 0)) (.number (.ofMagnitude true 0)) ∧
        decide (run.bakedTexts = [("0", "0"), ("0", "-0")]) = true :=
    TwoClosures.valid_of_isShared (by decide +kernel)
  exact ⟨run, valid, of_decide_eq_true texts⟩

end HeapScript
