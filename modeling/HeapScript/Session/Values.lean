import HeapScript.Session.State

/-!
Writing the values of the heap.

A value is written when it is first reached: it gets a name, and the statements that construct it go
to the declaration body around the cursor. On the way other values are reached, and so on. A value
that is reached again while it is still under construction is referred to by its name, and the
statements that need it to exist are deferred until it is complete.

Each function of this file takes as `visit` the function that writes the values which are reached
from here. `writeValue` ties the knot.
-/

namespace HeapScript

namespace Session

/-! ## Objects -/

def setPrototypeOf (object prototype : Expr) : Stmt :=
  .expr (.methodCall (.var "Object") "setPrototypeOf" [object, prototype])

def lockStmt (level : Integrity) (object : Expr) : Stmt :=
  let method := match level with
    | .isSealed => "seal"
    | .frozen => "freeze"
  .expr (.methodCall (.var "Object") method [object])

section

variable {m : Type → Type} [MonadSession m] (context : Context) (visit : ValueId → m Expr)

/-- Sets the property of an object in the given body, and tells whether that has to wait for the
value of the property. -/
def writeProperty (id : ValueId) (body : BodyId) (property : Property) : m Bool := do
  let value ← visit property.value
  let target ← reference id
  let stmt := Stmt.assign (.member target property.key) value
  if ← isInProgress property.value then
    defer property.value (.stmt body stmt (some id))
    return true
  else
    emitInto body stmt
    return false

/-- Sets properties at the cursor, then locks the object. The lock waits for all properties. -/
def writeProperties (id : ValueId) (properties : List Property) (integrity : Option Integrity) :
    m Unit := do
  let body := (← get).bodies.current
  let waits ← properties.mapM (writeProperty visit id body)
  integrity.forM fun level => do
    let stmt := lockStmt level (← reference id)
    let remaining := waits.count true
    if 0 < remaining then
      modify fun session =>
        { session with locks := session.locks.insert id { remaining, body, stmt } }
    else emitInto body stmt

/-- Writes the properties of a function's `prototype` object, without those that a class definition
installs. -/
def writePrototypeProperties (id : ValueId) (object : ObjectValue) : m Unit :=
  writeProperties visit id
    (object.properties.filter fun property => !context.isMemberSlot id false property)
    object.integrity

/-- Writes the properties of a `prototype` object that has waited for its function. Only functions
are waited for by such objects, so nothing but statements waits for the object itself. -/
def writeAwaitedPrototype (id : ValueId) : m Unit := do
  match (← context.graph.value id).asObject? with
  | none => throw (.prototypeNotObject id)
  | some object =>
    finish (fun inner => throw (.prototypeNotObject inner)) id
    writePrototypeProperties context visit id object

def complete (id : ValueId) : m Unit :=
  finish (writeAwaitedPrototype context visit) id

def declare (id : ValueId) (init : Expr) : m Unit := do
  emit (.var (← identifier id) init)
  complete context visit id

/-- The expression that creates an object without its properties. If the prototype is not complete
yet, it is set when it is. -/
def construction (id : ValueId) (object : ObjectValue) : m Expr := do
  match object.prototype with
  | none => return .object []
  | some prototype =>
    start id
    let prototypeExpr ← visit prototype
    if ← isInProgress prototype then
      let target ← identifier id
      let body := (← get).bodies.current
      defer prototype (.stmt body (setPrototypeOf (.var target) prototypeExpr) none)
      return .object []
    else return .methodCall (.var "Object") "create" [prototypeExpr]

/-- Sets the prototype of an object that exists already, at the cursor. -/
def writePrototypeLink (id prototype : ValueId) : m Unit := do
  let prototypeExpr ← visit prototype
  let target ← reference id
  let stmt := setPrototypeOf target prototypeExpr
  if ← isInProgress prototype then
    defer prototype (.stmt (← get).bodies.current stmt none)
  else emit stmt

def writeEagerObject (id : ValueId) (object : ObjectValue) : m Unit := do
  let init ← construction visit id object
  declare context visit id init
  writeProperties visit id object.properties object.integrity

/-- Creates a placeholder for an object, and collects the statements that fill it in a body of their
own. -/
def writeLazyObject (settings : LazySettings) (id : ValueId) (object : ObjectValue) :
    m Unit := do
  let number ← lazyNumberFor id
  declare context visit id
    (.methodCall (.path settings.runtime) "createLazyObject" [.nat number])
  let body ← newBody (.lazyInitializer id) (← get).bodies.declarationBody
  setLazyBody id body
  inBody body do
    object.prototype.forM (writePrototypeLink visit id)
    writeProperties visit id object.properties object.integrity

/-- The settings by which an object is lazy, if it is: it must be selected, and be declared at the
top level, where the placeholders are filled. -/
def lazySettings? (object : ObjectValue) (declarationBody : BodyId) : Option LazySettings :=
  context.settings.lazyObjects.filter fun settings =>
    object.knownPath.isNone && (object.isLazy || settings.selectAll) &&
      declarationBody == Bodies.global

def delayedBody (function : ValueId) : m BodyId := do
  let session ← get
  match session.delayedBodies.get? function with
  | some body => return body
  | none =>
    let body ← newBody (.delayedInit function) session.bodies.declarationBody
    modify fun session =>
      { session with delayedBodies := session.delayedBodies.insert function body }
    return body

def writeDelayedObject (id : ValueId) (object : ObjectValue) (function : ValueId) :
    m Unit := do
  let name ← allocate id
  emit (.declare .var name none)
  let body ← delayedBody function
  inBody body do
    let init ← construction visit id object
    emit (.assign (.var name) init)
    complete context visit id
    writeProperties visit id object.properties object.integrity

/-- Declares an object that is the `prototype` of a function right after the function. -/
def writePrototypeObject (id : ValueId) (object : ObjectValue) (owner : ValueId) :
    m Unit := do
  let ownerExpr ← visit owner
  unless ← isAllocated id do
    let name ← allocate id
    updateInstance owner fun found =>
      { found with
        extras := found.extras ++ [.var name (.member ownerExpr "prototype")]
        hasPrototypeAlias := true }
    if ← isInProgress owner then
      start id
      defer owner (.prototype id)
    else writePrototypeProperties context visit id object

/-- The function on whose first call an object is created, if that function is the one whose parts
are being written. -/
def delayTarget? (object : ObjectValue) : m (Option ValueId) := do
  let innermost := (← get).openFunctions.head?
  return if context.settings.delayInitializations then
    object.delayInto.filter (some · = innermost) else none

def writeObject (id : ValueId) (object : ObjectValue) : m Unit := do
  match context.prototypeOwners.get? id with
  | some owner => writePrototypeObject context visit id object owner
  | none =>
    match ← delayTarget? context object with
    | some function => writeDelayedObject context visit id object function
    | none =>
      let _ ← allocate id
      match lazySettings? context object (← get).bodies.declarationBody with
      | some settings => writeLazyObject context visit settings id object
      | none => writeEagerObject context visit id object

/-! ## Captured bindings -/

def updateBinding (key : BindingKey) (change : Binding → Except Failure Binding) :
    m Unit := do
  match (← get).bindings.get? key with
  | none => throw (.unknownBinding key.scope key.name)
  | some binding =>
    let changed ← change binding
    modify fun session => { session with bindings := session.bindings.insert key changed }

def bindingValue (value : Option ValueId) : m Expr :=
  match value with
  | some id => visit id
  | none => return .undefined

def isPending (value : Option ValueId) : m Bool :=
  match value with
  | some id => isInProgress id
  | none => return false

def captureDirectly (key : BindingKey) (value : Option ValueId) : m Unit := do
  let expr ← bindingValue visit value
  let pending ← isPending value
  updateBinding key fun binding => Binding.setDirect { binding with pending } expr

def captureShared (key : BindingKey) (value : Option ValueId) : m Unit := do
  let name := s!"__captured_{(← get).sharedCaptures}"
  modify fun session => { session with sharedCaptures := session.sharedCaptures + 1 }
  updateBinding key fun binding => return { binding with storage := .shared name }
  match value with
  | none => emit (.declare .var name none)
  | some id =>
    let expr ← visit id
    if ← isInProgress id then
      emit (.declare .var name none)
      defer id (.stmt (← get).bodies.current (.assign (.var name) expr) none)
    else emit (.var name expr)

def captureInSlot (key : BindingKey) (value : Option ValueId) : m Unit := do
  let scope ← context.graph.scope key.scope
  let owner := scope.root.filter fun root => (context.graph.root? root).isSome
  modify fun session =>
    { session with captured := session.captured.capture key.scope owner scope.bindings.size }
  updateBinding key fun binding => return { binding with storage := .slot }
  match scope.slot? key.name with
  | none => throw (.undeclaredName key.scope key.name)
  | some slot =>
    let expr ← bindingValue visit value
    let captured ← (← get).captured.setSlot key.scope slot expr
    modify fun session => { session with captured }

def captureNew (key : BindingKey) : m Unit := do
  MonadSession.begins (.resolution key)
  let scope ← context.graph.scope key.scope
  let value := (scope.bindings.get? key.name).join
  modify fun session => { session with bindings := session.bindings.insert key { key, value } }
  if key ∉ context.modified then captureDirectly visit key value
  else if context.settings.simpleClosures then captureShared visit key value
  else captureInSlot context visit key value

/-- Finds the binding of a function's free name; a global name has none. -/
def capture (function : ValueId) (environment : Option ScopeId) (name : String) :
    m (Option BindingKey) := do
  match context.graph.declaringScope? environment name with
  | none => return none
  | some scope =>
    let key : BindingKey := ⟨scope, name⟩
    unless (← get).bindings.contains key do captureNew context visit key
    if ((← get).bindings.get? key).any (·.storage.isSlot) then
      updateInstance function (·.addScope scope)
    return some key

/-! ## Functions -/

def writeClassLinks (id : ValueId) (method : ClassMethod) : m Unit := do
  let superClass ←
    if method.kind = .constructor then method.superClass.mapM visit
    else do
      let _ ← visit method.constructor
      pure none
  let key := if method.isComputed then MemberKey.computed (.path method.key)
    else MemberKey.named method.key
  updateInstance id fun found =>
    { found with method := some {
        kind := method.kind, key, isStatic := method.isStatic
        classPrototype := method.classPrototype, constructor := method.constructor, superClass } }

def writeModules (id : ValueId) (modules : List String) : m Unit :=
  modules.forM fun name => do
    match context.graph.moduleReplacements.lookup name with
    | none => return
    | some value =>
      let expr ← visit value
      updateInstance id fun found => { found with modules := found.modules.insert name expr }

/-- All that a function needs before it can be defined: its class, its captured bindings and the
modules that it loads through an unassigned `require`. -/
def writeFunctionParts (id : ValueId) (function : FunctionValue) : m Unit := do
  function.classMethod.forM (writeClassLinks visit id)
  let facts ← context.factsOf function.code
  facts.unbound.forM fun (name, _) => do
    let key ← capture context visit id function.environment name
    updateInstance id fun found => { found with bindings := found.bindings.insert name key }
  unless "require" ∈ facts.modified do writeModules context visit id facts.requires

/-- Declares the flag for the first call of a function, if objects wait for it. -/
def attachDelayedInit (id : ValueId) : m Unit := do
  match (← get).delayedBodies.get? id with
  | none => return
  | some body =>
    let flag := s!"__init_{(← get).initFlags}"
    modify fun session => { session with initFlags := session.initFlags + 1 }
    updateInstance id fun found =>
      { found with
        extras := .declare .var flag none :: found.extras
        delayed := some { body, flag } }

/-- Notes the cursor as the place of a function's definition. -/
def place (id : ValueId) : m Unit := do
  let session ← get
  modify fun session => { session with serial := session.serial + 1 }
  updateInstance id fun found =>
    { found with insertionPoint := some session.bodies.position, serial := session.serial }

def rootOfBody (bodies : Bodies) (body : BodyId) : Option ValueId :=
  match bodies.kind body with
  | .root function => some function
  | _ => none

def withOpenFunction (id : ValueId) (action : m Unit) : m Unit := do
  modify fun session => { session with openFunctions := id :: session.openFunctions }
  action
  modify fun session => { session with openFunctions := session.openFunctions.tail }

def membersOfClass (function : FunctionValue) : List ValueId :=
  match function.classMethod with
  | some method =>
    if method.kind = .constructor then
      (context.classMembers.get? method.classPrototype).getD []
    else []
  | none => []

def writeFunction (id : ValueId) (function : FunctionValue) : m Unit := do
  let _ ← context.graph.codeBlock function.code
  let name ← allocate id
  let bodies := (← get).bodies
  let declarationBody := bodies.declarationBody
  start id
  modify fun session =>
    { session with
      instances := session.instances.insert id {
        function := id, code := function.code, name, declarationBody
        root := rootOfBody bodies declarationBody } }
  withOpenFunction id (writeFunctionParts context visit id function)
  attachDelayedInit id
  place id
  complete context visit id
  writeProperties visit id
    (function.properties.filter fun property => !context.isMemberSlot id true property) none
  (membersOfClass context function).forM fun other => do
    let _ ← visit other

/-! ## Values -/

def ensureWritten (id : ValueId) (write : m Unit) : m Unit := do
  unless ← isAllocated id do
    inBody (← get).bodies.declarationBody write

/-- The expression for a value at the cursor, which is written on the way when it is first
reached. -/
def visitValue (id : ValueId) : m Expr := do
  match ← context.graph.value id with
  | .primitive constant => return .literal constant
  | .object object =>
    match object.knownPath with
    | some path => return .path path
    | none =>
      ensureWritten id (writeObject context visit id object)
      reference id
  | .function function =>
    ensureWritten id (writeFunction context visit id function)
    reference id

end

variable {m : Type → Type} [MonadSession m]

def visitWithin (context : Context) : (fuel : Nat) → ValueId → m Expr
  | 0, id => throw (.nestedTooDeeply id)
  | fuel + 1, id => visitValue context (visitWithin context fuel) id

/-- The expression for a value at the cursor. On the way to a value each value is met at most twice
before it has a name: once itself, and once as the `prototype` of the function that is met next. -/
def writeValue (context : Context) (id : ValueId) : m Expr :=
  visitWithin context (2 * context.graph.values.size + 2) id

end Session

end HeapScript
