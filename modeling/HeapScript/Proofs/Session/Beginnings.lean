import HeapScript.Proofs.Session.Links
import HeapScript.Proofs.Session.Recording

/-!
What begins while values are written.

For each function that takes part in writing values there is one lemma: if the visits to other
values agree with and without a record, then so does the function. A value is constructed only where
it has no name, and a binding is resolved only where it is unknown.
-/

namespace HeapScript

/-! ## Lookups -/

section Lookups

variable {graph : HeapGraph} {context : Context}

theorem errorsOnly_value_of_depth {id : ValueId} :
    ErrorsOnly Failure.NotOfDepth (graph.value id) := by
  unfold HeapGraph.value
  split <;> simp [Failure.NotOfDepth]

theorem errorsOnly_codeBlock_of_depth {id : CodeId} :
    ErrorsOnly Failure.NotOfDepth (graph.codeBlock id) := by
  unfold HeapGraph.codeBlock
  split <;> simp [Failure.NotOfDepth]

theorem errorsOnly_scope_of_depth {id : ScopeId} :
    ErrorsOnly Failure.NotOfDepth (graph.scope id) := by
  unfold HeapGraph.scope
  split <;> simp [Failure.NotOfDepth]

theorem errorsOnly_factsOf_of_depth {code : CodeId} :
    ErrorsOnly Failure.NotOfDepth (context.factsOf code) := by
  unfold Context.factsOf
  split <;> simp [Failure.NotOfDepth]

end Lookups

namespace Session

variable {α : Type} {context : Context} {floor begun : Set Beginning} {before : Session}
  {visit : ValueId → RecordM Expr} {visit' : ValueId → SessionM Expr} {id function : ValueId}
  {recorded : RecordM Unit} {plain : SessionM Unit} {key : BindingKey} {binding : Binding}

/-! ## Names -/

theorem begun_naming {name : String} {names : FreshNames} {declaredIn : SideTable .value BodyId} :
    { before with
      names, declaredIn, identifiers := before.identifiers.insert id name : Session }.begun =
      insert (.construction id) before.begun := by
  ext beginning
  cases beginning with
  | construction other =>
    simp only [Session.begun, Set.mem_insert_iff, Set.mem_ofPred_eq, SideTable.contains,
      SideTable.get?_insert, Beginning.construction.injEq]
    by_cases same : id = other
    · simp [same]
    · simp [Ne.symm same]
  | resolution key => simp [Session.begun]

theorem Follows.allocate_bind {next : String → RecordM α} {next' : String → SessionM α}
    (isNew : .construction id ∉ begun)
    (rest : ∀ name, Mirrors (insert (.construction id) begun) (next name) (next' name)) :
    Follows begun (allocate id >>= next) (allocate id >>= next') := by
  intro before same
  simp only [allocate, bind_assoc, pure_bind]
  refine .begins_bind isNew (.get_bind (.set_bind ?_))
  exact (rest _).follows _ (by rw [begun_naming, same])

/-- An action is run only where a value has no name. -/
theorem Follows.unlessAllocated
    (follows : .construction id ∉ begun → Follows begun recorded plain) :
    Follows begun (do unless ← isAllocated id do recorded)
    (do unless ← isAllocated id do plain) := by
  intro before same
  simp only [isAllocated, bind_assoc, pure_bind]
  refine .get_bind ?_
  split
  · exact .of_pure _ same
  · rename_i unnamed
    exact follows (same ▸ unnamed) before same

/-! ## Objects -/

section Objects

variable (visits : ∀ id, Mirrors floor (visit id) (visit' id)) {object : ObjectValue}

include visits

theorem mirrors_writeProperty {body : BodyId} {property : Property} :
    Mirrors floor (writeProperty visit id body property)
    (writeProperty visit' id body property) := by
  unfold writeProperty
  refine (visits _).bind fun value => quiet_reference.bind_mirrors fun target =>
    quiet_isInProgress.bind_mirrors fun waits => ?_
  split
  · exact (quiet_defer.bind fun _ => .of_pure _).mirrors
  · exact (quiet_emitInto.bind fun _ => .of_pure _).mirrors

theorem mirrors_writeProperties {properties : List Property} {integrity : Option Integrity} :
    Mirrors floor (writeProperties visit id properties integrity)
      (writeProperties visit' id properties integrity) := by
  unfold writeProperties
  refine Quiet.of_get.bind_mirrors fun session => Mirrors.bind
    (.mapM fun _ _ => mirrors_writeProperty visits) fun waits => .optionForM fun level =>
      Quiet.mirrors (quiet_reference.bind fun target => ?_)
  dsimp only
  split
  · exact .of_modify fun _ => rfl
  · exact quiet_emitInto

theorem mirrors_writePrototypeProperties :
    Mirrors floor (writePrototypeProperties context visit id object)
      (writePrototypeProperties context visit' id object) :=
  mirrors_writeProperties visits

theorem mirrors_writeAwaitedPrototype :
    Mirrors floor (writeAwaitedPrototype context visit id)
      (writeAwaitedPrototype context visit' id) := by
  unfold writeAwaitedPrototype
  refine (Quiet.of_lift errorsOnly_value_of_depth).bind_mirrors fun value => ?_
  split
  · exact (Quiet.of_throw (by simp [Failure.NotOfDepth])).mirrors
  · refine (mirrors_finish fun inner => ?_).bind fun _ => mirrors_writePrototypeProperties visits
    exact (Quiet.of_throw (by simp [Failure.NotOfDepth])).mirrors

theorem mirrors_complete : Mirrors floor (complete context visit id) (complete context visit' id) :=
  mirrors_finish fun _ => mirrors_writeAwaitedPrototype visits

theorem mirrors_declare {init : Expr} :
    Mirrors floor (declare context visit id init) (declare context visit' id init) :=
  quiet_identifier.bind_mirrors fun _ => quiet_emit.bind_mirrors fun _ => mirrors_complete visits

theorem mirrors_construction :
    Mirrors floor (construction visit id object) (construction visit' id object) := by
  unfold construction
  split
  · exact (Quiet.of_pure _).mirrors
  · refine quiet_start.bind_mirrors fun _ => (visits _).bind fun prototype =>
      quiet_isInProgress.bind_mirrors fun waits => Quiet.mirrors ?_
    split
    · exact quiet_identifier.bind fun _ => Quiet.of_get.bind fun _ => quiet_defer.bind fun _ =>
        .of_pure _
    · exact .of_pure _

theorem mirrors_writePrototypeLink {prototype : ValueId} :
    Mirrors floor (writePrototypeLink visit id prototype)
      (writePrototypeLink visit' id prototype) := by
  unfold writePrototypeLink
  refine (visits _).bind fun _ => quiet_reference.bind_mirrors fun _ =>
    quiet_isInProgress.bind_mirrors fun waits => Quiet.mirrors ?_
  split
  · exact Quiet.of_get.bind fun _ => quiet_defer
  · exact quiet_emit

theorem mirrors_writeEagerObject :
    Mirrors floor (writeEagerObject context visit id object)
      (writeEagerObject context visit' id object) :=
  (mirrors_construction visits).bind fun _ => (mirrors_declare visits).bind fun _ =>
    mirrors_writeProperties visits

omit visits in
theorem quiet_lazyNumberFor : Quiet (lazyNumberFor id) (lazyNumberFor id) := by
  refine Quiet.of_get.bind fun session => ?_
  dsimp only
  split
  · exact .of_pure _
  · exact Quiet.bind (.of_modify fun _ => rfl) fun _ => .of_pure _

omit visits in
theorem quiet_setLazyBody {body : BodyId} : Quiet (setLazyBody id body) (setLazyBody id body) := by
  refine Quiet.of_get.bind fun session => ?_
  split
  · exact .of_modify fun _ => rfl
  · exact .of_throw (by simp [Failure.NotOfDepth])

theorem mirrors_writeLazyObject {settings : LazySettings} :
    Mirrors floor (writeLazyObject context visit settings id object)
      (writeLazyObject context visit' settings id object) := by
  unfold writeLazyObject
  refine quiet_lazyNumberFor.bind_mirrors fun _ => (mirrors_declare visits).bind fun _ =>
    Quiet.of_get.bind_mirrors fun _ => quiet_newBody.bind_mirrors fun _ =>
      quiet_setLazyBody.bind_mirrors fun _ => Mirrors.inBody ?_
  exact Mirrors.bind (.optionForM fun _ => mirrors_writePrototypeLink visits) fun _ =>
    mirrors_writeProperties visits

omit visits in
theorem quiet_delayedBody : Quiet (delayedBody function) (delayedBody function) := by
  unfold delayedBody
  refine Quiet.of_get.bind fun session => ?_
  split
  · exact .of_pure _
  · exact quiet_newBody.bind fun _ => Quiet.bind (.of_modify fun _ => rfl) fun _ => .of_pure _

omit visits in
theorem quiet_delayTarget? : Quiet (delayTarget? context object) (delayTarget? context object) :=
  Quiet.of_get.bind fun _ => .of_pure _

end Objects

section NewObjects

/-! A new object is given its name before other values are visited, and the `prototype` of a
function after the function. -/

variable {object : ObjectValue} (isNew : .construction id ∉ begun)
  (visits : ∀ other, Mirrors (insert (.construction id) begun) (visit other) (visit' other))

include isNew visits

theorem follows_writeDelayedObject :
    Follows begun (writeDelayedObject context visit id object function)
      (writeDelayedObject context visit' id object function) := by
  unfold writeDelayedObject
  refine .allocate_bind isNew fun _ => quiet_emit.bind_mirrors fun _ =>
    quiet_delayedBody.bind_mirrors fun _ => Mirrors.inBody ?_
  exact (mirrors_construction visits).bind fun _ => quiet_emit.bind_mirrors fun _ =>
    (mirrors_complete visits).bind fun _ => mirrors_writeProperties visits

omit isNew in
theorem follows_writePrototypeObject {owner : ValueId}
    (visitsOwner : Mirrors begun (visit owner) (visit' owner)) :
    Follows begun (writePrototypeObject context visit id object owner)
      (writePrototypeObject context visit' id object owner) := by
  unfold writePrototypeObject
  refine visitsOwner.follows.bind fun _ later above => .unlessAllocated fun isNew => ?_
  have visits := fun other => (visits other).mono (Set.insert_subset_insert above)
  refine .allocate_bind isNew fun _ => quiet_updateInstance.bind_mirrors fun _ =>
    quiet_isInProgress.bind_mirrors fun waits => ?_
  split
  · exact (quiet_start.bind fun _ => quiet_defer).mirrors
  · exact mirrors_writePrototypeProperties visits

theorem follows_writeObject
    (visitsOwner : ∀ owner, context.prototypeOwners.get? id = some owner →
      Mirrors begun (visit owner) (visit' owner)) :
    Follows begun (writeObject context visit id object) (writeObject context visit' id object) := by
  unfold writeObject
  split
  · rename_i owner isOwner
    exact follows_writePrototypeObject visits (visitsOwner owner isOwner)
  · refine quiet_delayTarget?.bind_follows fun target => ?_
    split
    · exact follows_writeDelayedObject isNew visits
    · refine .allocate_bind isNew fun _ => Quiet.of_get.bind_mirrors fun _ => ?_
      split
      · exact mirrors_writeLazyObject visits
      · exact mirrors_writeEagerObject visits

end NewObjects

/-! ## Captured bindings -/

theorem begun_binding :
    { before with bindings := before.bindings.insert key binding : Session }.begun =
      insert (.resolution key) before.begun := by
  ext beginning
  cases beginning with
  | construction other => simp [Session.begun]
  | resolution other =>
    simp only [Session.begun, Set.mem_insert_iff, Set.mem_ofPred_eq,
      KeyedTable.contains_eq_isSome_get?, KeyedTable.get?_insert, Beginning.resolution.injEq]
    by_cases same : key = other
    · simp [same]
    · simp [same, Ne.symm same]

theorem begun_rebinding {old : Binding} (known : before.bindings.get? key = some old) :
    { before with bindings := before.bindings.insert key binding : Session }.begun =
      before.begun := by
  rw [begun_binding]
  refine Set.insert_eq_of_mem ?_
  simp [Session.begun, KeyedTable.contains_eq_isSome_get?, known]

theorem quiet_updateBinding {change : Binding → Except Failure Binding}
    (errors : ∀ binding, ErrorsOnly Failure.NotOfDepth (change binding)) :
    Quiet (updateBinding key change) (updateBinding key change) where
  follows begun before same := by
    unfold updateBinding
    refine .get_bind ?_
    split
    · exact .of_throw (by simp [Failure.NotOfDepth])
    · rename_i binding known
      exact .lift_bind (errors binding) fun changed _ =>
        .of_modify ((begun_rebinding known).trans same)
  same before result after runs := by
    unfold updateBinding at runs
    have runs := Runs.get_bind.mp runs
    split at runs
    · exact (Runs.not_throw runs).elim
    · rename_i binding known
      obtain ⟨changed, -, runs⟩ := Runs.lift_bind.mp runs
      rw [Runs.modify_iff.mp runs, begun_rebinding known]

theorem errorsOnly_setDirect_of_depth {expr : Expr} :
    ErrorsOnly Failure.NotOfDepth (binding.setDirect expr) := by
  unfold Binding.setDirect
  split <;> simp [Failure.NotOfDepth]

theorem quiet_isPending {value : Option ValueId} : Quiet (isPending value) (isPending value) := by
  unfold isPending
  split
  · exact quiet_isInProgress
  · exact .of_pure _

section Bindings

variable (visits : ∀ id, Mirrors floor (visit id) (visit' id)) {key : BindingKey}
  {value : Option ValueId}

include visits

theorem mirrors_bindingValue :
    Mirrors floor (bindingValue visit value) (bindingValue visit' value) := by
  unfold bindingValue
  split
  · exact visits _
  · exact (Quiet.of_pure _).mirrors

theorem mirrors_captureDirectly :
    Mirrors floor (captureDirectly visit key value) (captureDirectly visit' key value) :=
  (mirrors_bindingValue visits).bind fun _ => quiet_isPending.bind_mirrors fun _ =>
    (quiet_updateBinding fun _ => errorsOnly_setDirect_of_depth).mirrors

theorem mirrors_captureShared :
    Mirrors floor (captureShared visit key value) (captureShared visit' key value) := by
  unfold captureShared
  refine Quiet.of_get.bind_mirrors fun _ => Quiet.bind_mirrors (.of_modify fun _ => rfl) fun _ =>
    (quiet_updateBinding fun _ => .of_pure _).bind_mirrors fun _ => ?_
  split
  · exact quiet_emit.mirrors
  · refine (visits _).bind fun _ => quiet_isInProgress.bind_mirrors fun waits => Quiet.mirrors ?_
    split
    · exact quiet_emit.bind fun _ => Quiet.of_get.bind fun _ => quiet_defer
    · exact quiet_emit

theorem mirrors_captureInSlot :
    Mirrors floor (captureInSlot context visit key value)
      (captureInSlot context visit' key value) := by
  unfold captureInSlot
  refine (Quiet.of_lift errorsOnly_scope_of_depth).bind_mirrors fun scope =>
    Quiet.bind_mirrors (.of_modify fun _ => rfl) fun _ =>
      (quiet_updateBinding fun _ => .of_pure _).bind_mirrors fun _ => ?_
  split
  · exact (Quiet.of_throw (by simp [Failure.NotOfDepth])).mirrors
  · refine (mirrors_bindingValue visits).bind fun _ => Quiet.of_get.bind_mirrors fun session =>
      Quiet.mirrors (Quiet.bind (.of_lift ?_) fun _ => .of_modify fun _ => rfl)
    refine ErrorsOnly.bind_iff.mpr ⟨?_, fun _ _ => .of_pure _⟩
    unfold CapturedScopes.get
    split <;> simp [Failure.NotOfDepth]

theorem follows_captureNew (isNew : .resolution key ∉ begun) (above : floor ⊆ begun) :
    Follows begun (captureNew context visit key) (captureNew context visit' key) := by
  intro before same
  unfold captureNew
  refine .begins_bind isNew (.lift_bind errorsOnly_scope_of_depth fun scope _ => .modify_bind ?_)
  have visits := fun other =>
    (visits other).mono (above.trans (Set.subset_insert (.resolution key) begun))
  split
  · exact (mirrors_captureDirectly visits).follows _ (by rw [begun_binding, same])
  · split
    · exact (mirrors_captureShared visits).follows _ (by rw [begun_binding, same])
    · exact (mirrors_captureInSlot visits).follows _ (by rw [begun_binding, same])

theorem mirrors_capture {environment : Option ScopeId} {name : String} :
    Mirrors floor (capture context visit function environment name)
      (capture context visit' function environment name) := by
  unfold capture
  split
  · exact (Quiet.of_pure _).mirrors
  · rename_i scope isScope
    -- Once the binding is known, the function may have to read a slot of its scope.
    have reads : Quiet (do
          if ((← get).bindings.get? ⟨scope, name⟩).any (·.storage.isSlot) then
            updateInstance function (·.addScope scope)
          return some ⟨scope, name⟩ : RecordM (Option BindingKey))
        (do
          if ((← get).bindings.get? ⟨scope, name⟩).any (·.storage.isSlot) then
            updateInstance function (·.addScope scope)
          return some ⟨scope, name⟩) := by
      refine Quiet.of_get.bind fun session => ?_
      dsimp only
      split
      · exact quiet_updateInstance.bind fun _ => .of_pure _
      · exact .of_pure _
    intro begun above before same
    refine .get_bind ?_
    dsimp only
    split
    · exact reads.follows begun before same
    · rename_i unknown
      exact ((follows_captureNew visits (same ▸ unknown) above).bind fun _ => reads.mirrors) before
        same

/-! ## Functions -/

theorem mirrors_writeClassLinks {method : ClassMethod} :
    Mirrors floor (writeClassLinks visit id method) (writeClassLinks visit' id method) := by
  unfold writeClassLinks
  dsimp only
  split
  · exact Mirrors.bind (.optionMapM visits) fun _ => quiet_updateInstance.mirrors
  · exact (visits _).bind fun _ => ((Quiet.of_pure _).bind fun _ => quiet_updateInstance).mirrors

theorem mirrors_writeModules {modules : List String} :
    Mirrors floor (writeModules context visit id modules)
      (writeModules context visit' id modules) := by
  refine .forM fun name _ => ?_
  split
  · exact (Quiet.of_pure _).mirrors
  · exact (visits _).bind fun _ => quiet_updateInstance.mirrors

theorem mirrors_writeFunctionParts {function : FunctionValue} :
    Mirrors floor (writeFunctionParts context visit id function)
      (writeFunctionParts context visit' id function) := by
  unfold writeFunctionParts
  refine Mirrors.bind (.optionForM fun _ => mirrors_writeClassLinks visits) fun _ =>
    (Quiet.of_lift errorsOnly_factsOf_of_depth).bind_mirrors fun facts => Mirrors.bind
      (.forM fun _ _ => (mirrors_capture visits).bind fun _ => quiet_updateInstance.mirrors)
      fun _ => ?_
  split
  · exact (Quiet.of_pure _).mirrors
  · exact mirrors_writeModules visits

omit visits in
theorem quiet_attachDelayedInit : Quiet (attachDelayedInit id) (attachDelayedInit id) := by
  unfold attachDelayedInit
  refine Quiet.of_get.bind fun session => ?_
  split
  · exact .of_pure _
  · exact Quiet.of_get.bind fun _ => Quiet.bind (.of_modify fun _ => rfl) fun _ =>
      quiet_updateInstance

omit visits in
theorem quiet_place : Quiet (place id) (place id) :=
  Quiet.of_get.bind fun _ => Quiet.bind (.of_modify fun _ => rfl) fun _ => quiet_updateInstance

omit visits in
theorem Mirrors.withOpenFunction (mirrors : Mirrors floor recorded plain) :
    Mirrors floor (withOpenFunction id recorded) (withOpenFunction id plain) :=
  Quiet.bind_mirrors (.of_modify fun _ => rfl) fun _ => mirrors.bind fun _ =>
    Quiet.mirrors (.of_modify fun _ => rfl)

end Bindings

/-! ## Values -/

theorem follows_writeFunction {function : FunctionValue} (isNew : .construction id ∉ begun)
    (visits : ∀ other, Mirrors (insert (.construction id) begun) (visit other) (visit' other)) :
    Follows begun (writeFunction context visit id function)
      (writeFunction context visit' id function) := by
  unfold writeFunction
  refine (Quiet.of_lift errorsOnly_codeBlock_of_depth).bind_follows fun _ =>
    .allocate_bind isNew fun name => Quiet.of_get.bind_mirrors fun session =>
      quiet_start.bind_mirrors fun _ => Quiet.bind_mirrors (.of_modify fun _ => rfl) fun _ =>
        (mirrors_writeFunctionParts visits).withOpenFunction.bind fun _ =>
          quiet_attachDelayedInit.bind_mirrors fun _ => quiet_place.bind_mirrors fun _ =>
            (mirrors_complete visits).bind fun _ => (mirrors_writeProperties visits).bind
              fun _ => .forM fun other _ => ?_
  exact (visits other).bind fun _ => (Quiet.of_pure _).mirrors

theorem Follows.ensureWritten (follows : .construction id ∉ begun → Follows begun recorded plain) :
    Follows begun (ensureWritten id recorded) (ensureWritten id plain) :=
  .unlessAllocated fun isNew => Quiet.of_get.bind_follows fun _ => (follows isNew).inBody

/-- Where a value has no name, other values are visited after it has got one. Only the owner of a
`prototype` is visited before. -/
theorem follows_visitValue
    (visitsOwner : .construction id ∉ begun → ∀ object owner,
      context.IsObject id object →
      context.prototypeOwners.get? id = some owner → Mirrors begun (visit owner) (visit' owner))
    (visits : .construction id ∉ begun → (context.graph.values.get? id).isSome →
      ∀ other, Mirrors (insert (.construction id) begun) (visit other) (visit' other)) :
    Follows begun (visitValue context visit id) (visitValue context visit' id) := by
  unfold visitValue
  intro before same
  refine .lift_bind errorsOnly_value_of_depth fun value isValue => ?_
  have isValue := HeapGraph.value_eq_ok.mp isValue
  have visits := fun isNew => visits isNew (by simp [isValue])
  cases value with
  | primitive constant => exact .of_pure _ same
  | object object =>
    dsimp only
    split
    · exact .of_pure _ same
    · refine Follows.bind (.ensureWritten fun isNew => ?_) (fun _ => quiet_reference.mirrors)
        before same
      exact follows_writeObject isNew (visits isNew) fun owner isOwner =>
        visitsOwner isNew object owner isValue isOwner
  | function function =>
    refine Follows.bind (.ensureWritten fun isNew => ?_) (fun _ => quiet_reference.mirrors)
      before same
    exact follows_writeFunction isNew (visits isNew)

end Session

end HeapScript
