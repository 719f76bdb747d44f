import HeapScript.Heap.Graph

/-!
Checking that a heap graph is closed: every reference in it leads to an entity of the right kind.
-/

namespace HeapScript

namespace HeapGraph

/-! ## Single references -/

def checkValue (graph : HeapGraph) (referrer : Referrer) (id : ValueId) : Except Failure Unit :=
  if graph.values.contains id then .ok () else .error (.missingValue referrer id)

def checkScope (graph : HeapGraph) (referrer : Referrer) (id : ScopeId) : Except Failure Unit :=
  if graph.scopes.contains id then .ok () else .error (.missingScope referrer id)

def checkCode (graph : HeapGraph) (referrer : Referrer) (id : CodeId) : Except Failure Unit :=
  if graph.codeBlocks.contains id then .ok () else .error (.missingCode referrer id)

/-- The value is read only once the reference is known to lead to one. -/
def checkIsFunction (graph : HeapGraph) (referrer : Referrer) (id : ValueId)
    (otherwise : Failure) : Except Failure Unit := do
  graph.checkValue referrer id
  unless (← graph.value id).isFunction do throw otherwise

def isFunction (graph : HeapGraph) (id : ValueId) : Bool :=
  (graph.values.get? id).any HeapValue.isFunction

/-! ## Parts of the graph -/

def checkProperties (graph : HeapGraph) (referrer : Referrer) (properties : List Property) :
    Except Failure Unit :=
  properties.forM fun property => graph.checkValue referrer property.value

def checkObject (graph : HeapGraph) (id : ValueId) (object : ObjectValue) :
    Except Failure Unit := do
  graph.checkProperties (.value id) object.properties
  object.prototype.forM (graph.checkValue (.value id))
  object.delayInto.forM fun target =>
    graph.checkIsFunction (.value id) target (.delayTargetNotFunction id target)

def checkFunction (graph : HeapGraph) (id : ValueId) (function : FunctionValue) :
    Except Failure Unit := do
  graph.checkCode (.value id) function.code
  function.environment.forM (graph.checkScope (.value id))
  graph.checkProperties (.value id) function.properties
  function.prototype.forM (graph.checkValue (.value id))
  function.classMethod.forM fun method => do
    graph.checkValue (.value id) method.classPrototype
    graph.checkValue (.value id) method.constructor
    method.superClass.forM (graph.checkValue (.value id))

def checkHeapValue (graph : HeapGraph) (id : ValueId) : HeapValue → Except Failure Unit
  | .primitive _ => .ok ()
  | .object object => graph.checkObject id object
  | .function function => graph.checkFunction id function

def checkHeapScope (graph : HeapGraph) (id : ScopeId) (scope : Scope) : Except Failure Unit := do
  scope.parent.forM (graph.checkScope (.scope id))
  scope.bindings.values.forM fun value => value.forM (graph.checkValue (.scope id))
  scope.root.forM (graph.checkValue (.scope id))

def checkEffect (graph : HeapGraph) : Effect → Except Failure Unit
  | .globalAssign _ value => graph.checkValue .effect value
  | .propertyAssign object _ value => do
    graph.checkValue .effect object
    graph.checkValue .effect value
  | .call callee args => do
    graph.checkValue .effect callee
    args.forM (graph.checkValue .effect)

def checkRoot (graph : HeapGraph) (root : Root) : Except Failure Unit := do
  let referrer := Referrer.root root.function
  graph.checkIsFunction referrer root.function (.rootNotFunction root.function)
  root.values.forM (graph.checkValue referrer)
  root.result.forM (graph.checkValue referrer)
  root.modifiedBindings.forM fun (_, value) => graph.checkValue referrer value
  root.parent.forM fun parent => do
    unless (graph.root? parent).isSome do throw (.parentNotRoot root.function parent)

/-- Accepts exactly the closed graphs, and names the first reference that leads nowhere. -/
def validate (graph : HeapGraph) : Except Failure Unit := do
  graph.values.entries.forM fun (id, value) => graph.checkHeapValue id value
  graph.scopes.entries.forM fun (id, scope) => graph.checkHeapScope id scope
  graph.effects.forM graph.checkEffect
  graph.roots.forM graph.checkRoot
  graph.moduleReplacements.forM fun (name, value) =>
    graph.checkValue (.moduleReplacement name) value

end HeapGraph

end HeapScript
