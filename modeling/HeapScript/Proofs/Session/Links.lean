import HeapScript.Session.Context
import HeapScript.Proofs.FreeNames.UsedNames
import Mathlib.Logic.Relation

/-!
How the values of a heap hang together.

A value *needs* those that must be known before it can be defined; it is under construction while
they are written. It is *linked* to all values that are written along with it. A value awaits each
value that is reached while it is under construction, and a cyclic heap has values that await
themselves.
-/

namespace HeapScript

namespace HeapGraph

def boundValue? (graph : HeapGraph) (scope : ScopeId) (name : String) : Option ValueId := do
  (← (← graph.scopes.get? scope).bindings.get? name)

variable {graph : HeapGraph}

@[simp] theorem value_eq_ok {id : ValueId} {value : HeapValue} :
    graph.value id = .ok value ↔ graph.values.get? id = some value := by
  unfold HeapGraph.value
  cases graph.values.get? id <;> simp

@[simp] theorem scope_eq_ok {id : ScopeId} {scope : Scope} :
    graph.scope id = .ok scope ↔ graph.scopes.get? id = some scope := by
  unfold HeapGraph.scope
  cases graph.scopes.get? id <;> simp

theorem codeBlock_eq_ok {id : CodeId} {code : CodeBlock} :
    graph.codeBlock id = .ok code ↔ graph.codeBlocks.get? id = some code := by
  unfold HeapGraph.codeBlock
  cases graph.codeBlocks.get? id <;> simp

theorem declares_of_declaringScopeFrom? {name : String} {fuel : Nat} {environment : Option ScopeId}
    {id : ScopeId} (found : graph.declaringScopeFrom? name fuel environment = some id) :
    ∃ scope, graph.scopes.get? id = some scope ∧ scope.declares name = true := by
  induction fuel generalizing environment with
  | zero => simp [declaringScopeFrom?] at found
  | succ fuel induction =>
    cases environment with
    | none => simp [declaringScopeFrom?] at found
    | some current =>
      simp only [declaringScopeFrom?] at found
      split at found
      · cases found
      · rename_i scope isScope
        split at found
        · rename_i declares
          cases found
          exact ⟨scope, isScope, declares⟩
        · exact induction found

theorem boundValue?_of_scope {id : ScopeId} {scope : Scope}
    (isScope : graph.scopes.get? id = some scope) (name : String) :
    graph.boundValue? id name = (scope.bindings.get? name).join := by
  simp only [boundValue?, isScope, Option.bind_eq_bind, Option.bind_some]
  cases scope.bindings.get? name <;> rfl

end HeapGraph

namespace Context

variable {context : Context}

@[simp] abbrev IsFunction (context : Context) (id : ValueId) (function : FunctionValue) : Prop :=
  context.graph.values.get? id = some (.function function)

@[simp] abbrev IsObject (context : Context) (id : ValueId) (object : ObjectValue) : Prop :=
  context.graph.values.get? id = some (.object object)

/-- Whether a value is written by the script, rather than denoted by a literal or a path. -/
def IsBuilt (context : Context) (id : ValueId) : Prop :=
  (∃ object, context.graph.values.get? id = some (.object object) ∧ object.knownPath = none) ∨
    ∃ function, context.graph.values.get? id = some (.function function)

def freeNames (context : Context) (code : CodeId) : List String :=
  ((context.facts.get? code).map fun facts => facts.unbound.map (·.1)).getD []

/-- A value that must be known before another one can be defined. -/
inductive Needs (context : Context) : ValueId → ValueId → Prop where
  | prototype {id prototype : ValueId} {object : ObjectValue}
      (isObject : context.graph.values.get? id = some (.object object))
      (isPrototype : object.prototype = some prototype) : Needs context id prototype
  | owner {id owner : ValueId} (owned : context.prototypeOwners.get? id = some owner) :
      Needs context id owner
  | superClass {id superClass : ValueId} {function : FunctionValue} {method : ClassMethod}
      (isFunction : context.graph.values.get? id = some (.function function))
      (isMethod : function.classMethod = some method) (isConstructor : method.kind = .constructor)
      (inherits : method.superClass = some superClass) : Needs context id superClass
  | constructor {id : ValueId} {function : FunctionValue} {method : ClassMethod}
      (isFunction : context.graph.values.get? id = some (.function function))
      (isMethod : function.classMethod = some method) (isMember : method.kind ≠ .constructor) :
      Needs context id method.constructor
  | captured {id value : ValueId} {function : FunctionValue} {name : String} {scope : ScopeId}
      (isFunction : context.graph.values.get? id = some (.function function))
      (isFree : name ∈ context.freeNames function.code)
      (declared : context.graph.declaringScope? function.environment name = some scope)
      (bound : context.graph.boundValue? scope name = some value) : Needs context id value
  | replacedModule {id value : ValueId} {function : FunctionValue} {name : String}
      (isFunction : context.graph.values.get? id = some (.function function))
      (replaced : context.graph.moduleReplacements.lookup name = some value) :
      Needs context id value

/-- A value that is written along with another one. -/
inductive Links (context : Context) : ValueId → ValueId → Prop where
  | needs {id other : ValueId} (needs : context.Needs id other) : Links context id other
  | objectProperty {id : ValueId} {object : ObjectValue} {property : Property}
      (isObject : context.graph.values.get? id = some (.object object))
      (member : property ∈ object.properties) : Links context id property.value
  | functionProperty {id : ValueId} {function : FunctionValue} {property : Property}
      (isFunction : context.graph.values.get? id = some (.function function))
      (member : property ∈ function.properties) : Links context id property.value
  | ownedPrototype {id prototype : ValueId}
      (owned : context.prototypeOwners.get? prototype = some id) : Links context id prototype
  | classMember {id other : ValueId} {function : FunctionValue} {method : ClassMethod}
      {members : List ValueId}
      (isFunction : context.graph.values.get? id = some (.function function))
      (isMethod : function.classMethod = some method) (isConstructor : method.kind = .constructor)
      (found : context.classMembers.get? method.classPrototype = some members)
      (member : other ∈ members) : Links context id other

def Awaits (context : Context) (id other : ValueId) : Prop :=
  ∃ needed, context.Needs id needed ∧ Relation.ReflTransGen context.Links needed other

theorem Needs.awaits {id other : ValueId} (needs : context.Needs id other) :
    context.Awaits id other :=
  ⟨other, needs, .refl⟩

theorem Awaits.tail {id other last : ValueId} (awaits : context.Awaits id other)
    (links : context.Links other last) : context.Awaits id last := by
  obtain ⟨needed, needs, path⟩ := awaits
  exact ⟨needed, needs, path.tail links⟩

theorem Awaits.path {id other : ValueId} (awaits : context.Awaits id other) :
    Relation.ReflTransGen context.Links id other := by
  obtain ⟨needed, needs, path⟩ := awaits
  exact .head (.needs needs) path

theorem Awaits.of_owner {id owner other : ValueId}
    (owned : context.prototypeOwners.get? id = some owner)
    (path : Relation.ReflTransGen context.Links owner other) : context.Awaits id other :=
  ⟨owner, .owner owned, path⟩

/-! ## Names from outside -/

/-- The paths that stand in a graph or in the settings, and denote what the script finds there. -/
def outsidePaths (context : Context) : List String :=
  context.settings.lazyObjects.toList.map (·.runtime) ++
    context.graph.values.toList.filterMap fun value =>
      match value with
      | .primitive _ => none
      | .object object => object.knownPath
      | .function function => (function.classMethod.filter (·.isComputed)).map (·.key)

/-- The names that a script may use although it does not define them. -/
def outsideNames (context : Context) : List String :=
  ["Object", "globalThis"] ++
    context.outsidePaths.flatMap fun path => (Expr.path path).usedNames false

end Context

end HeapScript
