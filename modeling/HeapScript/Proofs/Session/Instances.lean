import HeapScript.Proofs.Session.Growth

/-!
What the steps of a session do to function instances.

`InstanceChange` says all that a step can do to an instance, and `Step.instance_cases` that there is
nothing else. What holds of every instance follows from these few cases.
-/

namespace HeapScript

namespace Session

def newInstance (session : Session) (id : ValueId) (code : CodeId) : FunctionInstance where
  function := id
  code := code
  name := session.names.generate.1
  declarationBody := session.bodies.declarationBody
  root := rootOfBody session.bodies session.bodies.declarationBody

inductive InstanceChange (context : Context) (session : Session) (id : ValueId)
    (inst : FunctionInstance) : FunctionInstance → Prop where
  | same : InstanceChange context session id inst inst
  | use : InstanceChange context session id inst
      { inst with firstUsage := some session.bodies.position }
  | addAlias {ownerName : String} (ownerNamed : session.identifiers.get? id = some ownerName) :
      InstanceChange context session id inst (addAlias session.names.generate.1 ownerName inst)
  | attachFlag {body : BodyId} (delayed : session.delayedBodies.get? id = some body) :
      InstanceChange context session id inst
        (attachFlag body s!"__init_{session.initFlags}" inst)
  | adjust {change : FunctionInstance → FunctionInstance}
      (isInstance : session.instances.get? id = some inst)
      (adjusts : Adjusts context session id change) :
      InstanceChange context session id inst (change inst)
  | place {function : FunctionValue}
      (isFunction : context.graph.values.get? id = some (.function function))
      (isBound : ∀ name ∈ context.freeNames function.code, (inst.bindings.get? name).isSome)
      (isMethod : ∀ method, function.classMethod = some method → inst.method.isSome) :
      InstanceChange context session id inst
        { inst with insertionPoint := some session.bodies.position, serial := session.serial }

variable {context : Context} {before after session : Session}

/-- The place of a function in a class stays as it is, or is set. -/
theorem InstanceChange.method_cases {id : ValueId} {inst later : FunctionInstance}
    (change : InstanceChange context session id inst later) :
    later.method = inst.method ∨ ∃ function method superClass, context.IsFunction id function ∧
      function.classMethod = some method ∧ session.LinksMethod context method superClass ∧
      later.method = some (methodInstance method superClass) := by
  cases change with
  | adjust _ adjusts =>
    cases adjusts with
    | setMethod isFunction isMethod linked =>
        exact .inr ⟨_, _, _, isFunction, isMethod, linked, rfl⟩
    | addScope _ _ =>
      dsimp only
      exact .inl (inst.addScope_eq _ ▸ rfl)
    | _ => exact .inl rfl
  | _ => exact .inl rfl

theorem instances_changing {target id : ValueId} {change : FunctionInstance → FunctionInstance}
    {later : FunctionInstance}
    (found : (session.changing target change).instances.get? id = some later) :
    ∃ inst, session.instances.get? id = some inst ∧
      (later = inst ∨ target = id ∧ later = change inst) := by
  simp only [changing, KeyedTable.get?_modify] at found
  split at found
  · rename_i same
    obtain ⟨inst, isInstance, rfl⟩ := Option.map_eq_some_iff.mp found
    exact ⟨inst, isInstance, .inr ⟨same.symm, rfl⟩⟩
  · exact ⟨later, found, .inl rfl⟩

theorem instance_changing {target id : ValueId}
    {change : FunctionInstance → FunctionInstance} {later : FunctionInstance}
    (found : (session.changing target change).instances.get? id = some later)
    (changes : ∀ inst, session.instances.get? target = some inst →
      InstanceChange context session target inst (change inst)) :
    ∃ inst, session.instances.get? id = some inst ∧
    InstanceChange context session id inst later := by
  obtain ⟨inst, isInstance, rfl | ⟨rfl, rfl⟩⟩ := instances_changing found
  · exact ⟨later, isInstance, .same⟩
  · exact ⟨inst, isInstance, changes inst isInstance⟩

section

variable (step : Step context before after)

include step

theorem Step.instance_cases {id : ValueId} {later : FunctionInstance}
    (found : after.instances.get? id = some later) :
    (∃ inst, before.instances.get? id = some inst ∧
      InstanceChange context before id inst later) ∨
    ∃ function, context.IsFunction id function ∧
      before.identifiers.get? id = none ∧ before.AtDeclarations ∧
      after = before.reachingFunction id function.code ∧
      later = before.newInstance id function.code := by
  cases step
  case reachFunction target function isFunction isNew declares =>
      simp only [reachingFunction, KeyedTable.get?_insert] at found
      split at found
      · rename_i same
        subst same
        exact .inr ⟨function, isFunction, isNew, declares, rfl, (Option.some.inj found).symm⟩
      · exact .inl ⟨later, found, .same⟩
  case declareReached | constructDelayed =>
      cases ‹Option (ValueId × Expr)› <;> exact .inl ⟨later, found, .same⟩
  case reachDelayed =>
      exact .inl ⟨later, (congrArg (·.get? id) (instances_delaying _ _)).symm.trans found, .same⟩
  case reachAlias object owner content ownerName isObject unknown owned isNew declares hasOwner
      ownerNamed =>
      have found : (before.changing owner
        (addAlias before.names.generate.1 ownerName)).instances.get?
          id = some later := by
        unfold reachingAlias at found
        split at found <;> exact found
      exact .inl (instance_changing found fun _ _ => .addAlias ownerNamed)
  case use target =>
      refine .inl (instance_changing found fun inst _ => ?_)
      split
      · exact .use
      · exact .same
  case adjust target change adjusts =>
      exact .inl (instance_changing found fun _ isInstance => .adjust isInstance adjusts)
  case attachDelayed target body delayed =>
      exact .inl (instance_changing found fun _ _ => .attachFlag delayed)
  case place target function inst isFunction isInstance home isClosed isFirst isBound isMethod
      isAttached =>
      refine .inl (instance_changing found fun inst' isInstance' => ?_)
      obtain rfl : inst' = inst := Option.some.inj (isInstance'.symm.trans isInstance)
      exact .place isFunction isBound isMethod
  all_goals exact .inl ⟨later, found, .same⟩

theorem Step.instances_cases :
    after.instances.keys = before.instances.keys ∨
      ∃ id inst, after.instances = before.instances.insert id inst := by
  cases step
  case reachFunction => exact .inr ⟨_, _, rfl⟩
  case declareReached | constructDelayed =>
      cases ‹Option (ValueId × Expr)› <;> exact .inl rfl
  case reachDelayed => exact .inl (congrArg KeyedTable.keys (instances_delaying _ _))
  case reachAlias =>
      left
      unfold reachingAlias
      split <;> exact KeyedTable.keys_modify ..
  case use | adjust | attachDelayed | place =>
      exact .inl (KeyedTable.keys_modify ..)
  all_goals exact .inl rfl

/-- A function that is under construction stays so until it is placed. -/
theorem Step.inProgress_cases {id : ValueId} {function : FunctionValue}
    (isFunction : context.IsFunction id function) (member : id ∈ before.inProgress) :
    id ∈ after.inProgress ∨ id ∉ before.openFunctions ∧ ∃ inst,
      after.instances.get? id = some inst ∧
        inst.insertionPoint = some before.bodies.position := by
  have stays : ∀ {session : Session} {other : ValueId} {object : ObjectValue},
      context.graph.values.get? other = some (.object object) → id ∈ session.inProgress →
      id ∈ (session.finishing other).inProgress := by
    intro session other object isObject member
    have different : id ≠ other := by
      rintro rfl
      simp [isFunction] at isObject
    simp [finishing, member, different]
  cases step
  case reachObject | reachFunction => exact .inl (List.mem_insert_of_mem member)
  case declareReached link constructs _ _ _ _ | constructDelayed link constructs _ _ _ _ =>
      cases link <;> exact .inl (stays constructs.isObject member)
  case reachDelayed =>
      exact .inl (List.mem_insert_of_mem
        (by simpa [entering, declaringDelayed, emitting, allocating] using member))
  case reachAlias =>
      left
      unfold reachingAlias
      split
      · exact List.mem_insert_of_mem member
      · exact member
  case finishAlias isObject owned complete => exact .inl (stays isObject member)
  case place other function' inst isFunction' isInstance home isClosed isFirst isBound isMethod
      isAttached =>
      by_cases same : id = other
      · subst same
        right
        exact ⟨isClosed, _,
          by simp [finishing, placing, changing, KeyedTable.get?_modify, isInstance]; rfl, rfl⟩
      · exact .inl (by simpa [finishing, placing, changing, same] using member)
  all_goals exact .inl member

end

end Session

end HeapScript
