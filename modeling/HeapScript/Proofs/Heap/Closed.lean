import HeapScript.Proofs.Failures
import HeapScript.Proofs.Session.Links
import Mathlib.Data.List.Induction
import Mathlib.Tactic.MkIffOfInductiveProp

/-!
Closed heap graphs.

A graph is closed if every reference in it leads to an entity of the right kind. The check of a
graph accepts exactly the closed ones. What is collected from a closed graph refers to its entities
only, so every value that is reached from a value of the graph is a value of the graph.
-/

namespace HeapScript

open List

variable {id : ValueId}

theorem Arena.mem_entries_iff {kind : EntityKind} {α : Type} {arena : Arena kind α}
    {handle : Handle kind} {item : α} :
    (handle, item) ∈ arena.entries ↔ arena.get? handle = some item := by
  constructor
  · intro member
    obtain ⟨index, isIndex⟩ := mem_iff_getElem?.mp member
    obtain ⟨isHandle, isItem⟩ := List.getElem?_zip_eq_some.mp isIndex
    simp only [handles, List.getElem?_map, Option.map_eq_some_iff] at isHandle
    obtain ⟨number, isNumber, rfl⟩ := isHandle
    obtain ⟨_, rfl⟩ := List.getElem?_eq_some_iff.mp isNumber
    simpa [get?, toList] using isItem
  · intro found
    obtain ⟨present, _⟩ := Array.getElem?_eq_some_iff.mp found
    refine mem_iff_getElem?.mpr ⟨handle.index, List.getElem?_zip_eq_some.mpr ⟨?_, ?_⟩⟩
    · simp [handles, size, present]
    · simpa [get?, toList] using found

namespace HeapGraph

variable {function : FunctionValue}

/-! ## References -/

def HasValue (graph : HeapGraph) (id : ValueId) : Prop :=
  ∃ value, graph.values.get? id = some value

def HasScope (graph : HeapGraph) (id : ScopeId) : Prop :=
  ∃ scope, graph.scopes.get? id = some scope

def HasCode (graph : HeapGraph) (id : CodeId) : Prop :=
  ∃ code, graph.codeBlocks.get? id = some code

def HasFunction (graph : HeapGraph) (id : ValueId) : Prop :=
  ∃ function, graph.values.get? id = some (.function function)

variable {graph : HeapGraph}

theorem HasFunction.hasValue (isFunction : graph.HasFunction id) : graph.HasValue id := by
  obtain ⟨function, isFunction⟩ := isFunction
  exact ⟨_, isFunction⟩

section Checks

variable {referrer : Referrer} {otherwise : Failure}

theorem checkValue_eq_ok : graph.checkValue referrer id = .ok () ↔ graph.HasValue id := by
  simp only [checkValue, HasValue, Arena.contains_eq_isSome_get?]
  cases graph.values.get? id <;> simp

theorem checkIsFunction_eq_ok :
    graph.checkIsFunction referrer id otherwise = .ok () ↔ graph.HasFunction id := by
  rw [checkIsFunction, seq_eq_ok, checkValue_eq_ok, bind_eq_ok]
  simp only [value_eq_ok, unless_throw_eq_ok]
  constructor
  · rintro ⟨_, value, isValue, isFunction⟩
    cases value <;> cases isFunction
    exact ⟨_, isValue⟩
  · rintro ⟨function, isValue⟩
    exact ⟨⟨_, isValue⟩, _, isValue, rfl⟩

theorem checkScope_eq_ok {id : ScopeId} :
    graph.checkScope referrer id = .ok () ↔ graph.HasScope id := by
  simp only [checkScope, HasScope, Arena.contains_eq_isSome_get?]
  cases graph.scopes.get? id <;> simp

theorem checkCode_eq_ok {id : CodeId} :
    graph.checkCode referrer id = .ok () ↔ graph.HasCode id := by
  simp only [checkCode, HasCode, Arena.contains_eq_isSome_get?]
  cases graph.codeBlocks.get? id <;> simp

theorem checkProperties_eq_ok {properties : List Property} :
    graph.checkProperties referrer properties = .ok () ↔
      ∀ property ∈ properties, graph.HasValue property.value := by
  simp only [checkProperties, forM_eq_ok, checkValue_eq_ok]

end Checks

/-! ## Closed parts -/

@[mk_iff] structure ClosedObject (graph : HeapGraph) (object : ObjectValue) : Prop where
  properties : ∀ property ∈ object.properties, graph.HasValue property.value
  prototype : ∀ id ∈ object.prototype, graph.HasValue id
  delayInto : ∀ id ∈ object.delayInto, graph.HasFunction id

@[mk_iff] structure ClosedMethod (graph : HeapGraph) (method : ClassMethod) : Prop where
  classPrototype : graph.HasValue method.classPrototype
  constructor : graph.HasValue method.constructor
  superClass : ∀ id ∈ method.superClass, graph.HasValue id

@[mk_iff] structure ClosedFunction (graph : HeapGraph) (function : FunctionValue) : Prop where
  code : graph.HasCode function.code
  environment : ∀ id ∈ function.environment, graph.HasScope id
  properties : ∀ property ∈ function.properties, graph.HasValue property.value
  prototype : ∀ id ∈ function.prototype, graph.HasValue id
  classMethod : ∀ method ∈ function.classMethod, graph.ClosedMethod method

theorem ClosedFunction.hasValue_of_owned (closed : graph.ClosedFunction function)
    (isOwned : id ∈ ownedPrototypes function) : graph.HasValue id := by
  rcases mem_append.mp isOwned with isPrototype | isOwned
  · exact closed.prototype id (Option.mem_toList.mp isPrototype)
  · split at isOwned
    · rename_i method isMethod
      split at isOwned
      · obtain rfl := mem_singleton.mp isOwned
        exact (closed.classMethod method isMethod).classPrototype
      · cases isOwned
    · cases isOwned

@[mk_iff] structure ClosedScope (graph : HeapGraph) (scope : Scope) : Prop where
  parent : ∀ id ∈ scope.parent, graph.HasScope id
  bindings : ∀ value ∈ scope.bindings.values, ∀ id ∈ value, graph.HasValue id
  root : ∀ id ∈ scope.root, graph.HasValue id

def ClosedEffect (graph : HeapGraph) : Effect → Prop
  | .globalAssign _ value => graph.HasValue value
  | .propertyAssign object _ value => graph.HasValue object ∧ graph.HasValue value
  | .call callee args => graph.HasValue callee ∧ ∀ arg ∈ args, graph.HasValue arg

@[mk_iff] structure ClosedRoot (graph : HeapGraph) (root : Root) : Prop where
  function : graph.HasFunction root.function
  values : ∀ id ∈ root.values, graph.HasValue id
  result : ∀ id ∈ root.result, graph.HasValue id
  modifiedBindings : ∀ entry ∈ root.modifiedBindings, graph.HasValue entry.2
  parent : ∀ id ∈ root.parent, (graph.root? id).isSome

/-- Every reference in the graph leads to an entity of the right kind. -/
structure Closed (graph : HeapGraph) : Prop where
  objects : ∀ id object, graph.values.get? id = some (.object object) → graph.ClosedObject object
  functions : ∀ id function, graph.values.get? id = some (.function function) →
    graph.ClosedFunction function
  scopes : ∀ id scope, graph.scopes.get? id = some scope → graph.ClosedScope scope
  effects : ∀ effect ∈ graph.effects, graph.ClosedEffect effect
  roots : ∀ root ∈ graph.roots, graph.ClosedRoot root
  modules : ∀ entry ∈ graph.moduleReplacements, graph.HasValue entry.2

/-! ## The check -/

theorem checkObject_eq_ok {object : ObjectValue} :
    graph.checkObject id object = .ok () ↔ graph.ClosedObject object := by
  simp only [checkObject, seq_eq_ok, checkProperties_eq_ok, optionForM_eq_ok, checkValue_eq_ok,
    checkIsFunction_eq_ok, closedObject_iff]

theorem checkFunction_eq_ok :
    graph.checkFunction id function = .ok () ↔ graph.ClosedFunction function := by
  simp only [checkFunction, seq_eq_ok, checkCode_eq_ok, checkProperties_eq_ok, optionForM_eq_ok,
    checkScope_eq_ok, checkValue_eq_ok, closedFunction_iff, closedMethod_iff]

theorem checkHeapScope_eq_ok {id : ScopeId} {scope : Scope} :
    graph.checkHeapScope id scope = .ok () ↔ graph.ClosedScope scope := by
  simp only [checkHeapScope, seq_eq_ok, optionForM_eq_ok, checkScope_eq_ok, forM_eq_ok,
    checkValue_eq_ok, closedScope_iff]

theorem checkEffect_eq_ok {effect : Effect} :
    graph.checkEffect effect = .ok () ↔ graph.ClosedEffect effect := by
  cases effect <;> simp only [checkEffect, ClosedEffect, seq_eq_ok, forM_eq_ok, checkValue_eq_ok]

theorem checkRoot_eq_ok {root : Root} :
    graph.checkRoot root = .ok () ↔ graph.ClosedRoot root := by
  simp only [checkRoot, seq_eq_ok, checkIsFunction_eq_ok, checkValue_eq_ok, unless_throw_eq_ok,
    forM_eq_ok, optionForM_eq_ok, closedRoot_iff]

theorem validate_eq_ok : graph.validate = .ok () ↔ graph.Closed := by
  simp only [validate, seq_eq_ok, forM_eq_ok, checkEffect_eq_ok, checkRoot_eq_ok, checkValue_eq_ok,
    Prod.forall, Arena.mem_entries_iff, checkHeapScope_eq_ok]
  constructor
  · rintro ⟨values, scopes, effects, roots, modules⟩
    exact ⟨fun id object isObject => checkObject_eq_ok.mp (values id _ isObject),
      fun id function isFunction => checkFunction_eq_ok.mp (values id _ isFunction), scopes,
        effects,
      roots, fun entry => modules entry.1 entry.2⟩
  · rintro ⟨objects, functions, scopes, effects, roots, modules⟩
    refine ⟨fun id value isValue => ?_, scopes, effects, roots, fun name id => modules (name, id)⟩
    cases value with
    | primitive constant => rfl
    | object object => exact checkObject_eq_ok.mpr (objects id object isValue)
    | function function => exact checkFunction_eq_ok.mpr (functions id function isValue)

/-! ## Refused graphs -/

/-- A failure of the check, which names a reference that leads nowhere. -/
def IsRefusal (failure : Failure) : Prop := failure.kind = .invalidGraph

section Refusals

variable {referrer : Referrer}

theorem errorsOnly_checkValue : ErrorsOnly IsRefusal (graph.checkValue referrer id) := by
  unfold checkValue
  split <;> simp [IsRefusal, Failure.kind]

theorem errorsOnly_checkIsFunction {otherwise : Failure} (refuses : IsRefusal otherwise) :
    ErrorsOnly IsRefusal (graph.checkIsFunction referrer id otherwise) := by
  simp only [checkIsFunction, ErrorsOnly.bind_iff]
  refine ⟨errorsOnly_checkValue, fun _ isChecked => ⟨?_, fun value _ => ?_⟩⟩
  · obtain ⟨value, isValue⟩ := checkValue_eq_ok.mp isChecked
    exact .of_ok (value_eq_ok.mpr isValue)
  · split <;> simp [refuses]

theorem errorsOnly_checkScope {id : ScopeId} :
    ErrorsOnly IsRefusal (graph.checkScope referrer id) := by
  unfold checkScope
  split <;> simp [IsRefusal, Failure.kind]

theorem errorsOnly_checkCode {id : CodeId} :
    ErrorsOnly IsRefusal (graph.checkCode referrer id) := by
  unfold checkCode
  split <;> simp [IsRefusal, Failure.kind]

theorem errorsOnly_checkProperties {properties : List Property} :
    ErrorsOnly IsRefusal (graph.checkProperties referrer properties) :=
  .forM fun _ _ => errorsOnly_checkValue

end Refusals

theorem errorsOnly_checkHeapValue {value : HeapValue} :
    ErrorsOnly IsRefusal (graph.checkHeapValue id value) := by
  cases value with
  | primitive constant => exact .ok _
  | object object =>
    exact .seq errorsOnly_checkProperties (.seq (.optionForM fun _ _ => errorsOnly_checkValue)
      (.optionForM fun _ _ => errorsOnly_checkIsFunction rfl))
  | function function =>
    refine .seq errorsOnly_checkCode (.seq (.optionForM fun _ _ => errorsOnly_checkScope)
      (.seq errorsOnly_checkProperties (.seq (.optionForM fun _ _ => errorsOnly_checkValue)
        (.optionForM fun _ _ => ?_))))
    exact .seq errorsOnly_checkValue (.seq errorsOnly_checkValue
      (.optionForM fun _ _ => errorsOnly_checkValue))

theorem errorsOnly_checkHeapScope {id : ScopeId} {scope : Scope} :
    ErrorsOnly IsRefusal (graph.checkHeapScope id scope) :=
  .seq (.optionForM fun _ _ => errorsOnly_checkScope)
    (.seq (.forM fun _ _ => .optionForM fun _ _ => errorsOnly_checkValue)
      (.optionForM fun _ _ => errorsOnly_checkValue))

theorem errorsOnly_checkEffect {effect : Effect} :
    ErrorsOnly IsRefusal (graph.checkEffect effect) := by
  cases effect with
  | globalAssign name value => exact errorsOnly_checkValue
  | propertyAssign object key value => exact .seq errorsOnly_checkValue errorsOnly_checkValue
  | call callee args =>
    exact .seq errorsOnly_checkValue (.forM fun _ _ => errorsOnly_checkValue)

theorem errorsOnly_checkRoot {root : Root} : ErrorsOnly IsRefusal (graph.checkRoot root) := by
  refine .seq (errorsOnly_checkIsFunction rfl) (.seq (.forM fun _ _ => errorsOnly_checkValue)
    (.seq (.optionForM fun _ _ => errorsOnly_checkValue)
      (.seq (.forM fun _ _ => errorsOnly_checkValue) (.optionForM fun _ _ => ?_))))
  split <;> simp [IsRefusal, Failure.kind]

theorem errorsOnly_validate : ErrorsOnly IsRefusal graph.validate :=
  .seq (.forM fun _ _ => errorsOnly_checkHeapValue)
    (.seq (.forM fun _ _ => errorsOnly_checkHeapScope)
      (.seq (.forM fun _ _ => errorsOnly_checkEffect)
        (.seq (.forM fun _ _ => errorsOnly_checkRoot)
          (.forM fun _ _ => errorsOnly_checkValue))))

/-- The check takes the closed graphs, refuses all others as input that is not valid, and reads no
value that the graph lacks on the way. -/
theorem validate_refusesOthers (graph : HeapGraph) :
    (graph.validate = .ok () ↔ graph.Closed) ∧
      (¬graph.Closed → ∃ failure, graph.validate = .error failure ∧ failure.kind = .invalidGraph) ∧
        ∀ id, graph.validate ≠ .error (.unknownValue id) := by
  refine ⟨validate_eq_ok, fun notClosed => ?_, fun id isRead => ?_⟩
  · cases checked : graph.validate with
    | ok => exact absurd (validate_eq_ok.mp checked) notClosed
    | error failure => exact ⟨failure, rfl, errorsOnly_validate failure checked⟩
  · cases errorsOnly_validate _ isRead

/-! ## What is collected from a graph -/

theorem get?_codeFacts {id : CodeId} {code : CodeBlock} (isCode : graph.codeBlock id = .ok code) :
    graph.codeFacts.get? id = some code.function.facts := by
  have found := codeBlock_eq_ok.mp isCode
  simp only [Arena.get?] at found
  simp [codeFacts, Arena.get?, Arena.ofList, Arena.toList, found]

theorem mem_functions (isFunction : graph.values.get? id = some (.function function)) :
    (id, function) ∈ graph.functions :=
  mem_filterMap.mpr ⟨(id, .function function), Arena.mem_entries_iff.mpr isFunction, rfl⟩

theorem get?_of_mem_functions (member : (id, function) ∈ graph.functions) :
    graph.values.get? id = some (.function function) := by
  obtain ⟨⟨other, value⟩, isEntry, isFunction⟩ := mem_filterMap.mp member
  obtain ⟨own, isOwn, same⟩ := Option.map_eq_some_iff.mp isFunction
  cases same
  cases value <;> cases isOwn
  exact Arena.mem_entries_iff.mp isEntry

def OwnersAreFunctions (graph : HeapGraph) (owners : KeyedTable ValueId ValueId) : Prop :=
  ∀ id owner, owners.get? id = some owner →
    ∃ function, (owner, function) ∈ graph.functions ∧ id ∈ ownedPrototypes function

theorem ownersAreFunctions_prototypeOwners (graph : HeapGraph) :
    graph.OwnersAreFunctions graph.prototypeOwners := by
  refine List.foldlRecOn _ _ (fun id owner found => by cases found)
    fun owners known entry isEntry => ?_
  refine List.foldlRecOn _ _ known fun owners known prototype isOwned id owner found => ?_
  rw [KeyedTable.get?_insertIfNew] at found
  split at found
  · rename_i same
    subst same
    cases old : owners.get? prototype with
    | none =>
      obtain rfl : entry.1 = owner := by simpa [old] using found
      exact ⟨entry.2, isEntry, isOwned⟩
    | some other =>
      obtain rfl : other = owner := by simpa [old] using found
      exact known prototype other old
  · exact known id owner found

theorem mem_classMembers {prototype : ValueId} :
    id ∈ (graph.classMembers.get? prototype).getD [] ↔ ∃ function method,
      (id, function) ∈ graph.functions ∧ function.classMethod = some method ∧
        method.kind ≠ .constructor ∧ method.classPrototype = prototype := by
  unfold classMembers
  induction graph.functions using List.reverseRecOn with
  | nil => simp [KeyedTable.get?]
  | append_singleton functions entry induction =>
    obtain ⟨own, function⟩ := entry
    simp only [foldl_append, foldl_cons, foldl_nil, mem_append,
      mem_singleton, Prod.mk.injEq, or_and_right, exists_or, ← induction]
    split
    · rename_i method isMethod
      by_cases isConstructor : method.kind = .constructor
      · simp [isConstructor, isMethod]
      · by_cases same : method.classPrototype = prototype
        · simp [isConstructor, isMethod, same]
        · simp [isConstructor, isMethod, same, KeyedTable.get?_insert]
    · rename_i noMethod
      simp [noMethod]

theorem Closed.exists_modifiedBindings (closed : graph.Closed) :
    ∃ modified, graph.modifiedBindings graph.codeFacts = .ok modified := by
  apply ErrorsOnly.exists_ok
  simp only [modifiedBindings, ErrorsOnly.bind_iff, ErrorsOnly.of_pure, implies_true, and_true]
  refine ⟨.mapM fun entry isEntry => ?_, fun _ _ => .mapM fun root isRoot => ?_⟩
  · have isClosed := closed.functions _ _ (get?_of_mem_functions isEntry)
    unfold modifiedByFunction
    split
    · exact .of_pure _
    · obtain ⟨code, isCode⟩ := isClosed.code
      simp only [get?_codeFacts (codeBlock_eq_ok.mpr isCode), ErrorsOnly.bind_iff,
        ErrorsOnly.of_pure, implies_true, and_true]
      refine .mapM fun name _ => ?_
      split
      · exact .of_pure _
      · rename_i id isScope
        obtain ⟨scope, isScope, _⟩ := declares_of_declaringScopeFrom? isScope
        simp [scope_eq_ok.mpr isScope]
  · obtain ⟨function, isFunction⟩ := (closed.roots root isRoot).function
    simp [modifiedByRoot, value_eq_ok.mpr isFunction]

end HeapGraph

namespace Context

theorem prepare_eq_ok {graph : HeapGraph} {settings : Settings} {context : Context}
    (prepared : Context.prepare graph settings = .ok context) :
    context.graph = graph ∧ context.settings = settings ∧ context.facts = graph.codeFacts ∧
      graph.modifiedBindings graph.codeFacts = .ok context.modified := by
  obtain ⟨_, _, rest⟩ := bind_eq_ok.mp prepared
  obtain ⟨modified, isModified, same⟩ := bind_eq_ok.mp rest
  obtain rfl := pure_eq_ok.mp same
  exact ⟨rfl, rfl, rfl, isModified⟩

theorem errorsOnly_prepare (graph : HeapGraph) (settings : Settings) :
    ErrorsOnly (fun failure => ¬graph.Closed ∧ HeapGraph.IsRefusal failure)
      (Context.prepare graph settings) := by
  simp only [prepare, ErrorsOnly.bind_iff, ErrorsOnly.of_pure, implies_true, and_true]
  refine ⟨fun failure failed => ⟨fun closed => ?_, HeapGraph.errorsOnly_validate failure failed⟩,
    fun _ isValid => ?_⟩
  · rw [HeapGraph.validate_eq_ok.mpr closed] at failed
    cases failed
  · obtain ⟨modified, isModified⟩ := (HeapGraph.validate_eq_ok.mp isValid).exists_modifiedBindings
    exact .of_ok isModified

/-- All that a context holds comes from its closed graph. -/
structure Closed (context : Context) : Prop where
  graph : context.graph.Closed
  areFacts : context.facts = context.graph.codeFacts
  areMembers : context.classMembers = context.graph.classMembers
  owners : ∀ id owner, context.prototypeOwners.get? id = some owner →
    context.graph.HasValue id ∧ context.graph.HasFunction owner

theorem closed_of_prepare {graph : HeapGraph} {settings : Settings} {context : Context}
    (prepared : Context.prepare graph settings = .ok context) : context.Closed := by
  obtain ⟨_, isValid, rest⟩ := bind_eq_ok.mp prepared
  obtain ⟨modified, _, same⟩ := bind_eq_ok.mp rest
  obtain rfl := pure_eq_ok.mp same
  have closed := HeapGraph.validate_eq_ok.mp isValid
  refine ⟨closed, rfl, rfl, fun id owner found => ?_⟩
  obtain ⟨function, isEntry, isOwned⟩ := graph.ownersAreFunctions_prototypeOwners id owner found
  have isFunction := HeapGraph.get?_of_mem_functions isEntry
  exact ⟨(closed.functions _ _ isFunction).hasValue_of_owned isOwned, _, isFunction⟩

namespace Closed

variable {context : Context}

section

variable (closed : context.Closed)

include closed

theorem facts (id : CodeId) (isCode : context.graph.HasCode id) :
    ∃ facts, context.facts.get? id = some facts := by
  obtain ⟨code, isCode⟩ := isCode
  rw [closed.areFacts]
  exact ⟨_, HeapGraph.get?_codeFacts (HeapGraph.codeBlock_eq_ok.mpr isCode)⟩

theorem members (prototype : ValueId) (members : List ValueId)
    (found : context.classMembers.get? prototype = some members) :
    ∀ id ∈ members, context.graph.HasFunction id := by
  intro id isMember
  rw [closed.areMembers] at found
  obtain ⟨function, _, isEntry, -⟩ := HeapGraph.mem_classMembers.mp
    (show id ∈ (context.graph.classMembers.get? prototype).getD [] by simpa [found] using isMember)
  exact ⟨function, HeapGraph.get?_of_mem_functions isEntry⟩

theorem hasValue_of_bound {scope : ScopeId} {name : String}
    (bound : context.graph.boundValue? scope name = some id) :
    context.graph.HasValue id := by
  cases isScope : context.graph.scopes.get? scope with
  | none => simp [HeapGraph.boundValue?, isScope] at bound
  | some found =>
    rw [HeapGraph.boundValue?_of_scope isScope, Option.join_eq_some_iff] at bound
    exact (closed.graph.scopes scope found isScope).bindings (some id)
      (mem_map_of_mem (KeyedTable.mem_entries_of_get? bound)) id rfl

theorem hasValue_of_links {other : ValueId} (links : context.Links id other) :
    context.graph.HasValue other := by
  have functions := closed.graph.functions id
  cases links with
  | needs needs =>
    cases needs with
    | prototype isObject isPrototype =>
      exact (closed.graph.objects id _ isObject).prototype other isPrototype
    | owner owned => exact (closed.owners id other owned).2.hasValue
    | superClass isFunction isMethod _ inherits =>
      exact ((functions _ isFunction).classMethod _ isMethod).superClass other inherits
    | constructor isFunction isMethod _ =>
      exact ((functions _ isFunction).classMethod _ isMethod).constructor
    | captured _ _ _ bound => exact closed.hasValue_of_bound bound
    | @replacedModule _ _ name _ replaced =>
      obtain ⟨_, _, isSplit, _⟩ := lookup_eq_some_iff.mp replaced
      exact closed.graph.modules (name, other) (by simp [isSplit])
  | objectProperty isObject member =>
    exact (closed.graph.objects id _ isObject).properties _ member
  | functionProperty isFunction member => exact (functions _ isFunction).properties _ member
  | ownedPrototype owned => exact (closed.owners other id owned).1
  | classMember _ _ _ found member => exact (closed.members _ _ found other member).hasValue

end

end Closed

end Context

end HeapScript
