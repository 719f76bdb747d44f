import HeapScript.Proofs.Session.Pass

/-!
What the free names of a written instance become.

A captured name becomes the expression for its value, a shared variable or a slot of an array. All
of these are references, and the first is the one expression that denotes the value.
-/

namespace HeapScript

open List

namespace Written

variable {key : BindingKey} {value : Expr} {binding : Binding} {id : ValueId}
  {groups : List Assembly.BlockGroup} {group : Assembly.BlockGroup}

variable {written : Written} {inst : FunctionInstance} {name : String}

@[simp] abbrev IsCode (written : Written) (id : CodeId) (code : CodeBlock) : Prop :=
  written.context.graph.codeBlock id = .ok code

inductive Reads (written : Written) (inst : FunctionInstance) (key : BindingKey)
    (binding : Binding) : Expr → Prop where
  | slot {position slot : Nat} {scope : Scope} (isSlot : binding.storage = .slot)
      (isPosition : inst.scopePosition? key.scope = some position)
      (isScope : written.context.graph.scopes.get? key.scope = some scope)
      (hasSlot : scope.slot? key.name = some slot) :
      Reads written inst key binding (.index (.var (scopeLocalName position)) (.nat slot))
  | shared {variableName : String} (isShared : binding.storage = .shared variableName) :
      Reads written inst key binding (.var variableName)
  | direct {value : Expr} (isDirect : binding.storage = .direct value) :
      Reads written inst key binding value

/-- The replacement of a name, with the binding that it stands for. -/
structure Resolves (written : Written) (inst : FunctionInstance) (name : String) (key : BindingKey)
    (binding : Binding) (value : Expr) : Prop where
  isKey : inst.bindings.get? name = some (some key)
  isMet : written.session.bindings.get? key = some binding
  reads : written.Reads inst key binding value

theorem slotExpr_eq_ok (isSlot : binding.storage = .slot)
    (found : written.slotExpr inst key = .ok value) : written.Reads inst key binding value := by
  unfold slotExpr at found
  split at found
  · exact absurd found throw_ne_ok
  · rename_i position isPosition
    obtain ⟨scope, isScope, found⟩ := bind_eq_ok.mp found
    split at found
    · exact absurd found throw_ne_ok
    · rename_i slot hasSlot
      obtain rfl := pure_eq_ok.mp found
      exact .slot isSlot isPosition (HeapGraph.scope_eq_ok.mp isScope) hasSlot

theorem resolves_of_replacementFor (found : written.replacementFor inst name = .ok (some value)) :
    ∃ key binding, written.Resolves inst name key binding value := by
  unfold replacementFor at found
  split at found
  · simp [pure_eq_ok] at found
  · rename_i key isKey
    have isKey : inst.bindings.get? name = some (some key) := Option.join_eq_some_iff.mp isKey
    split at found
    · exact absurd found throw_ne_ok
    · rename_i binding isMet
      refine ⟨key, binding, isKey, isMet, ?_⟩
      split at found
      · rename_i isSlot
        obtain ⟨expr, isExpr, same⟩ := bind_eq_ok.mp found
        obtain rfl : expr = value := by simpa [pure_eq_ok] using same
        exact slotExpr_eq_ok isSlot isExpr
      · rename_i variableName isShared
        obtain rfl : Expr.var variableName = value := by simpa [pure_eq_ok] using found
        exact .shared isShared
      · rename_i expr isDirect
        obtain rfl : expr = value := by simpa [pure_eq_ok] using found
        exact .direct isDirect
      · exact absurd found throw_ne_ok

theorem exists_slotExpr (isRead : key.scope ∈ inst.scopes)
    (declared : ∃ scope, written.context.graph.scopes.get? key.scope = some scope ∧
      scope.declares key.name = true) : ∃ value, written.slotExpr inst key = .ok value := by
  obtain ⟨scope, isScope, declared⟩ := declared
  obtain ⟨position, isPosition⟩ : ∃ position, inst.scopePosition? key.scope = some position := by
    refine Option.isSome_iff_exists.mp (List.findIdx?_isSome.trans (any_eq_true.mpr ?_))
    exact ⟨key.scope, isRead, decide_eq_true rfl⟩
  obtain ⟨slot, isSlot⟩ : ∃ slot, scope.slot? key.name = some slot :=
    Option.isSome_iff_exists.mp (List.findIdx?_isSome.trans declared)
  simp only [slotExpr, isPosition, HeapGraph.scope_eq_ok.mpr isScope]
  exact ⟨.index (.var (scopeLocalName position)) (.nat slot), by
    simp [bind, Except.bind, isSlot, pure, Except.pure]⟩

theorem exists_replacementFor (complete : written.Complete)
    (isInstance : written.session.HasInstance id inst) (name : String) :
    ∃ replacement, written.replacementFor inst name = .ok replacement ∧
      (replacement = none ↔ (inst.bindings.get? name).join = none) := by
  obtain ⟨_, facts⟩ := complete.facts isInstance
  unfold replacementFor
  cases isKey : (inst.bindings.get? name).join with
  | none => exact ⟨none, rfl, by simp⟩
  | some key =>
    obtain ⟨binding, isMet, isRead⟩ := facts.met name key (Option.join_eq_some_iff.mp isKey)
    simp only [isMet]
    cases isStorage : binding.storage with
    | undecided => exact absurd isStorage (complete.idle.decided key binding isMet)
    | slot =>
      have declared := (complete.idle.sound.bindings key binding isMet).declared
      obtain ⟨value, isValue⟩ := exists_slotExpr (isRead (by simp [isStorage, Storage.isSlot]))
        declared
      exact ⟨some value, by simp [isValue, bind, Except.bind, pure, Except.pure], by simp⟩
    | shared variableName => exact ⟨some (.var variableName), rfl, by simp⟩
    | direct value => exact ⟨some value, rfl, by simp⟩

theorem bindingOf?_of_resolves (resolves : written.Resolves inst name key binding value) :
    written.bindingOf? inst name = some binding := by
  simp [bindingOf?, resolves.isKey, resolves.isMet]

theorem global_of_replacementFor (found : written.replacementFor inst name = .ok none) :
    (inst.bindings.get? name).join = none := by
  unfold replacementFor at found
  split at found
  · rename_i isGlobal
    exact isGlobal
  · split at found
    · exact absurd found throw_ne_ok
    · split at found
      · obtain ⟨_, _, same⟩ := bind_eq_ok.mp found
        simp [pure_eq_ok] at same
      all_goals simp [pure_eq_ok, throw_ne_ok] at found

theorem selectorLiteral_eq_ok {scope : ScopeId} {selector : Expr} :
    written.selectorLiteral scope = .ok selector ↔ ∃ found,
      written.session.captured.scopes.get? scope = some found ∧ selector = .nat found.selector := by
  unfold selectorLiteral CapturedScopes.selector CapturedScopes.get
  cases written.session.captured.scopes.get? scope <;> simp [Except.map, eq_comm]

/-! ## References -/

theorem denotes_of_direct (complete : written.Complete)
    (isMet : written.session.bindings.get? key = some binding)
    (isDirect : binding.storage = .direct value) :
    (∀ id, binding.value = some id → written.session.Denotes written.context id value) ∧
      (binding.value = none → value = .undefined) := by
  have stored := (complete.idle.sound.bindings key binding isMet).stored
  rw [isDirect] at stored
  cases stored with
  | direct _ denotes noValue => exact ⟨denotes, noValue⟩

theorem Resolves.isReference (complete : written.Complete)
    (resolves : written.Resolves inst name key binding value) : value.IsReference := by
  cases resolves.reads with
  | slot _ _ _ _ => exact .slot _ _
  | shared _ => exact .chain (.var _)
  | direct isDirect =>
    obtain ⟨denotes, noValue⟩ := denotes_of_direct complete resolves.isMet isDirect
    cases isValue : binding.value with
    | none => exact noValue isValue ▸ .literal _
    | some id => exact (denotes id isValue).isReference

theorem Resolves.direct (resolves : written.Resolves inst name key binding value)
    (notShared : binding.storage.isShared = false) : binding.storage = .direct value := by
  cases resolves.reads with
  | slot isSlot _ _ _ => simp [isSlot, Storage.isShared] at notShared
  | shared isShared => simp [isShared, Storage.isShared] at notShared
  | direct isDirect => exact isDirect

/-! ## Closures of a code block -/

/-- A closure of a code block other than an optimized root. -/
structure IsClosure (written : Written) (code : CodeId) (function : FunctionValue)
    (inst : FunctionInstance) : Prop where
  facts : Session.InstanceFacts written.context written.session inst.function function inst
  isCode : function.code = code
  notRoot : ∀ root ∈ written.context.graph.roots, root.function ≠ inst.function
  placed : inst.insertionPoint ≠ none

theorem IsClosure.get?_bindings {code : CodeId} {function : FunctionValue}
    (closure : written.IsClosure code function inst) (name : String) :
    inst.bindings.get? name = if name ∈ written.context.freeNames code then
      some (written.context.graph.bindingKey? function.environment name) else none := by
  split
  · rename_i isFree
    have known := closure.facts.complete closure.placed name (closure.isCode ▸ isFree)
    obtain ⟨key, isKey⟩ := Option.isSome_iff_exists.mp known
    rw [isKey, (closure.facts.keys name key isKey).1]
  · rename_i notFree
    cases isKey : inst.bindings.get? name with
    | none => rfl
    | some key =>
      rcases (closure.facts.keys name key isKey).2 with isFree | ⟨root, isRoot, same⟩
      · exact absurd (closure.isCode ▸ isFree) notFree
      · exact absurd same (closure.notRoot root isRoot)

theorem instanceOf_eq_ok (found : written.instanceOf id = .ok inst) :
    written.session.instances.get? id = some inst := by
  unfold instanceOf at found
  split at found
  · rename_i isInstance
    rw [isInstance, Except.ok.inj found]
  · cases found

theorem get?_of_mem_mapM (complete : written.Complete) {ids : List ValueId}
    {instances : List FunctionInstance}
    (areInstances : ids.mapM (fun id => written.instanceOf id) = .ok instances)
    (member : inst ∈ instances) :
    inst.function ∈ ids ∧ written.session.instances.get? inst.function = some inst := by
  obtain ⟨id, isId, isInstance⟩ := exists_of_mem_mapM areInstances member
  have isInstance := instanceOf_eq_ok isInstance
  obtain ⟨function, facts⟩ := complete.facts isInstance
  obtain rfl := facts.isId
  exact ⟨isId, isInstance⟩

theorem of_mem_functions (areGroups : Assembly.blockGroups written = .ok groups)
    (isGroup : group ∈ groups) (member : id ∈ group.functions) :
    ∃ inst ∈ written.session.instances.values,
      inst.function = id ∧ inst.code = group.code ∧
        ∀ record ∈ written.roots, record.function ≠ id := by
  obtain ⟨sorted, areSorted, same⟩ := bind_eq_ok.mp areGroups
  obtain rfl := pure_eq_ok.mp same
  obtain ⟨code, _, isEntry⟩ := exists_of_mem_mapM areSorted (mem_sortBy.mp isGroup)
  obtain ⟨block, _, same⟩ := bind_eq_ok.mp isEntry
  obtain rfl := pure_eq_ok.mp same
  have member := mem_sortBy.mp member
  simp only [mem_map, mem_filter, all_eq_true, decide_eq_true_eq] at member
  obtain ⟨inst, ⟨⟨isInstance, notRoot⟩, isCode⟩, rfl⟩ := member
  exact ⟨inst, isInstance, rfl, isCode, notRoot⟩

theorem code_of_mem_groups (areGroups : Assembly.blockGroups written = .ok groups)
    (isGroup : group ∈ groups) : ∃ code, written.context.graph.codeBlock group.code = .ok code := by
  obtain ⟨sorted, areSorted, same⟩ := bind_eq_ok.mp areGroups
  obtain rfl := pure_eq_ok.mp same
  obtain ⟨_, _, isEntry⟩ := exists_of_mem_mapM areSorted (mem_sortBy.mp isGroup)
  obtain ⟨code, isCode, same⟩ := bind_eq_ok.mp isEntry
  obtain rfl := pure_eq_ok.mp same
  exact ⟨code, isCode⟩

theorem isClosure_of_mem {instances : List FunctionInstance} (complete : written.Complete)
    (areGroups : Assembly.blockGroups written = .ok groups) (isGroup : group ∈ groups)
    (areInstances : group.functions.mapM (fun id => written.instanceOf id) = .ok instances)
    (member : inst ∈ instances) : ∃ function, written.IsClosure group.code function inst := by
  have sound := complete.idle.sound
  obtain ⟨isId, isInstance⟩ := get?_of_mem_mapM complete areInstances member
  obtain ⟨function, facts⟩ := sound.instances _ inst isInstance
  obtain ⟨other, isOther, sameId, isCode, notRoot⟩ := of_mem_functions areGroups isGroup isId
  -- The table has one instance for each function, so this one is the one of the group.
  obtain ⟨⟨key, _⟩, isEntry, rfl⟩ := mem_map.mp isOther
  have isOther := KeyedTable.get?_eq_some_of_mem sound.distinctInstances isEntry
  obtain ⟨_, facts'⟩ := sound.instances key _ isOther
  obtain rfl : key = inst.function := facts'.isId.symm.trans sameId
  obtain rfl := Option.some.inj (isInstance.symm.trans isOther)
  refine ⟨function, facts, facts.code.symm.trans isCode,
    fun root isRoot same => ?_, fun unplaced => ?_⟩
  · obtain ⟨record, isRecord, sameFunction⟩ := complete.exists_record isRoot
    exact notRoot record isRecord (sameFunction.trans same)
  · have started := sound.placed _ inst isInstance unplaced
    simp [complete.idle.inProgress] at started

end Written

end HeapScript
