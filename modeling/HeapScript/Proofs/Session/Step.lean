import HeapScript.Session.Values
import HeapScript.Proofs.Output.Bodies
import HeapScript.Proofs.Session.Links

/-!
The steps of a session.

`Session.Step` says all that can happen to a session while values are written, each step with what
is known when it happens. What holds of every session is then shown step by step.
-/

namespace HeapScript

namespace Session

@[simp] abbrev HasName (session : Session) (id : ValueId) (name : String) : Prop :=
  session.identifiers.get? id = some name

@[simp] abbrev HasInstance (session : Session) (id : ValueId) (inst : FunctionInstance) : Prop :=
  session.instances.get? id = some inst

/-! ## Single changes -/

def allocating (session : Session) (id : ValueId) : Session :=
  { session with
    names := session.names.generate.2
    identifiers := session.identifiers.insert id session.names.generate.1
    declaredIn := session.declaredIn.insert id session.bodies.declarationBody }

def starting (session : Session) (id : ValueId) : Session :=
  { session with inProgress := session.inProgress.insert id }

def finishing (session : Session) (id : ValueId) : Session :=
  { session with
    inProgress := session.inProgress.filter (· ≠ id)
    deferred := session.deferred.erase id }

def deferring (session : Session) (awaited : ValueId) (work : Deferred) : Session :=
  { session with
    deferred := session.deferred.insert awaited
      ((session.deferred.get? awaited).getD [] ++ [work]) }

def emitting (session : Session) (body : BodyId) (stmt : Stmt) : Session :=
  { session with bodies := session.bodies.emitInto body stmt }

def entering (session : Session) (body : BodyId) : Session :=
  { session with bodies := session.bodies.enter body }

def leaving (session : Session) : Session :=
  { session with bodies := { session.bodies with entered := session.bodies.entered.tail } }

def adding (session : Session) (kind : BodyKind) (parent : BodyId) : Session :=
  { session with bodies := (session.bodies.newBody kind parent).2 }

def opening (session : Session) (id : ValueId) : Session :=
  { session with openFunctions := id :: session.openFunctions }

def closing (session : Session) : Session :=
  { session with openFunctions := session.openFunctions.tail }

def changing (session : Session) (id : ValueId) (change : FunctionInstance → FunctionInstance) :
    Session :=
  { session with instances := session.instances.modify id change }

def binding (session : Session) (key : BindingKey) (binding : Binding) : Session :=
  { session with bindings := session.bindings.insert key binding }

def locking (session : Session) (id : ValueId) (lock : PendingLock) : Session :=
  { session with locks := session.locks.insert id lock }

/-! ## Names at a place -/

def Settled (session : Session) (id : ValueId) : Prop :=
  (∃ name, session.identifiers.get? id = some name) ∧ id ∉ session.inProgress

def Sees (session : Session) (body : BodyId) (id : ValueId) : Prop :=
  ∃ home, session.declaredIn.get? id = some home ∧
    (home = Bodies.global ∨ session.bodies.isWithin body home = true)

/-- The variable that keeps the shared binding with the given number. -/
def sharedName (number : Nat) : String := s!"__captured_{number}"

/-- A name that a statement in a body may use: all values that it needs are complete, but for the
one that the statement waits for. -/
inductive Nameable (context : Context) (session : Session) (awaited : Option ValueId)
    (body : BodyId) (name : String) : Prop where
  | value (id : ValueId) (named : session.identifiers.get? id = some name)
      (complete : id ∉ session.inProgress ∨ awaited = some id) (sees : session.Sees body id)
  | outside (isOutside : name ∈ context.outsideNames)
  | filled (id : ValueId) (home : BodyId) (isLazy : session.lazyBody? id = some home)
      (inside : session.bodies.isWithin body home = true) (isParam : name = lazyParam)
  | shared (number : Nat) (used : number < session.sharedCaptures)
      (isShared : name = sharedName number)

inductive Refers (context : Context) (session : Session) (body : BodyId) (id : ValueId) :
    Expr → Prop where
  | primitive {constant : Constant}
      (isPrimitive : context.graph.values.get? id = some (.primitive constant)) :
      Refers context session body id (.literal constant)
  | known {object : ObjectValue} {path : String}
      (isObject : context.graph.values.get? id = some (.object object))
      (isKnown : object.knownPath = some path) : Refers context session body id (.path path)
  | named {name : String} (isBuilt : context.IsBuilt id)
      (named : session.identifiers.get? id = some name) (sees : session.Sees body id)
      (outside : ∀ home, session.lazyBody? id = some home →
        session.bodies.isWithin body home = false) :
      Refers context session body id (.var name)
  | filled {home : BodyId} {name : String} (isBuilt : context.IsBuilt id)
      (named : session.identifiers.get? id = some name)
      (isLazy : session.lazyBody? id = some home)
      (inside : session.bodies.isWithin body home = true) :
      Refers context session body id (.var lazyParam)

def Allows (context : Context) (session : Session) (awaited : Option ValueId) (body : BodyId)
    (stmt : Stmt) : Prop :=
  session.bodies.Has body ∧
    ∀ name ∈ stmt.usedNames false, session.Nameable context awaited body name

inductive CanWait (context : Context) (session : Session) (awaited : ValueId) :
    Deferred → Prop where
  | stmt {body : BodyId} {stmt : Stmt} {object : Option ValueId}
      (allowed : session.Allows context (some awaited) body stmt) :
      CanWait context session awaited (.stmt body stmt object)
  | prototype {object : ValueId} {name : String} {content : ObjectValue}
      (owned : context.prototypeOwners.get? object = some awaited)
      (named : session.identifiers.get? object = some name)
      (isObject : context.graph.values.get? object = some (.object content)) :
      CanWait context session awaited (.prototype object)

/-! ## Larger changes -/

def reachingFunction (session : Session) (id : ValueId) (code : CodeId) : Session :=
  let declarationBody := session.bodies.declarationBody
  { (session.allocating id).starting id with
    instances := session.instances.insert id {
      function := id, code, name := session.names.generate.1, declarationBody
      root := rootOfBody session.bodies declarationBody } }

def linking (session : Session) (name : String) : Option (ValueId × Expr) → Session
  | none => session
  | some (prototype, expr) =>
    session.deferring prototype
      (.stmt session.bodies.current (setPrototypeOf (.var name) expr) none)

def addAlias (name ownerName : String) (inst : FunctionInstance) : FunctionInstance :=
  { inst with
    extras := inst.extras ++ [.var name (.member (.var ownerName) "prototype")]
    hasPrototypeAlias := true }

def delaying (session : Session) (function : ValueId) : Session :=
  match session.delayedBodies.get? function with
  | some _ => session
  | none =>
    { session.adding (.delayedInit function) session.bodies.declarationBody with
      delayedBodies := session.delayedBodies.insert function session.bodies.arena.next }

def noting (session : Session) (id : ValueId) : Session :=
  session.changing id fun found =>
    if found.firstUsage.isNone ∧ found.declarationBody = session.bodies.current then
      { found with firstUsage := some session.bodies.position }
    else found

def declaringDelayed (session : Session) (id : ValueId) : Session :=
  (session.allocating id).emitting session.bodies.current
    (.declare .var session.names.generate.1 none)

def reachingDelayed (session : Session) (id function : ValueId) (body : BodyId) : Session :=
  (((session.declaringDelayed id).delaying function).entering body).starting id

def addingLazy (session : Session) (id : ValueId) : Session :=
  { session.adding (.lazyInitializer id) Bodies.global with
    lazyObjects := session.lazyObjects.insert id
      { number := session.lazyObjects.size + 1, body := some session.bodies.arena.next } }

def reachingAlias (session : Session) (id owner : ValueId) (ownerName : String) : Session :=
  let declared := (session.allocating id).changing owner
    (addAlias session.names.generate.1 ownerName)
  if session.inProgress.contains owner then
    (declared.starting id).deferring owner (.prototype id)
  else declared

theorem reachingAlias_of_mem {session : Session} {id owner : ValueId} {ownerName : String}
    (isWaiting : owner ∈ session.inProgress) : session.reachingAlias id owner ownerName =
      (((session.allocating id).changing owner
        (addAlias session.names.generate.1 ownerName)).starting id).deferring owner
          (.prototype id) :=
  if_pos (List.contains_iff_mem.mpr isWaiting)

theorem reachingAlias_of_not_mem {session : Session} {id owner : ValueId} {ownerName : String}
    (complete : owner ∉ session.inProgress) : session.reachingAlias id owner ownerName =
      (session.allocating id).changing owner (addAlias session.names.generate.1 ownerName) :=
  if_neg fun isWaiting => complete (List.contains_iff_mem.mp isWaiting)

def attachFlag (body : BodyId) (flag : String) (inst : FunctionInstance) : FunctionInstance :=
  { inst with
    extras := .declare .var flag none :: inst.extras
    delayed := some { body, flag } }

def placing (session : Session) (id : ValueId) : Session :=
  { session.changing id fun found =>
      { found with insertionPoint := some session.bodies.position, serial := session.serial } with
    serial := session.serial + 1 }

def sharing (session : Session) (key : BindingKey) (value : Option ValueId) : Session :=
  { session.binding key { key, value, storage := .shared (sharedName session.sharedCaptures) } with
    sharedCaptures := session.sharedCaptures + 1 }

def keeping (session : Session) (key : BindingKey) (value : Option ValueId) (owner : ScopeOwner)
    (slotCount : Nat) : Session :=
  { session.binding key { key, value, storage := .slot } with
    captured := session.captured.capture key.scope owner slotCount }

def filling (session : Session) (scope : ScopeId) (slot : Nat) (value : Expr) : Session :=
  { session with
    captured := { session.captured with
      scopes := session.captured.scopes.modify scope fun found =>
        { found with slots := found.slots.insert slot value } } }

end Session

/-! ## Steps -/

/-- An object that the script constructs itself. -/
structure Context.Constructs (context : Context) (id : ValueId) (object : ObjectValue) : Prop where
  isObject : context.graph.values.get? id = some (.object object)
  unknown : object.knownPath = none
  notOwned : context.prototypeOwners.get? id = none

theorem Context.Constructs.isBuilt {context : Context} {id : ValueId} {object : ObjectValue}
    (constructs : context.Constructs id object) : context.IsBuilt id :=
  .inl ⟨object, constructs.isObject, constructs.unknown⟩

/-- An object that is to be filled on its first use, wherever values are declared at the top level.
-/
def Context.IsLazy (context : Context) (id : ValueId) : Prop :=
  ∃ object settings, context.Constructs id object ∧
    Session.lazySettings? context object Bodies.global = some settings

def HeapGraph.bindingKey? (graph : HeapGraph) (environment : Option ScopeId) (name : String) :
    Option BindingKey :=
  (graph.declaringScope? environment name).map (⟨·, name⟩)

namespace Session

def AllowsHere (context : Context) (session : Session) (expr : Expr) : Prop :=
  ∀ name ∈ expr.usedNames false, session.Nameable context none session.bodies.current name

def AtDeclarations (session : Session) : Prop :=
  (session.bodies.kind session.bodies.current).declaresValues = true

def CanLink (context : Context) (session : Session) (link : Option (ValueId × Expr)) : Prop :=
  ∀ prototype expr, link = some (prototype, expr) →
    prototype ∈ session.inProgress ∧ session.Refers context session.bodies.current prototype expr

/-- The values that a function of a class is linked to have been visited. -/
structure LinksMethod (context : Context) (session : Session) (method : ClassMethod)
    (superClass : Option Expr) : Prop where
  declares : session.AtDeclarations
  superClass : ∀ expr, superClass = some expr → ∃ value, method.superClass = some value ∧
    method.kind = .constructor ∧ session.Refers context session.bodies.current value expr
  reached : method.kind ≠ .constructor → context.IsBuilt method.constructor →
    ∃ name, session.identifiers.get? method.constructor = some name

/-- The place of a function in its class, with the expression for the superclass. -/
def methodInstance (method : ClassMethod) (superClass : Option Expr) : MethodInstance where
  kind := method.kind
  key := if method.isComputed then .computed (.path method.key) else .named method.key
  isStatic := method.isStatic
  classPrototype := method.classPrototype
  constructor := method.constructor
  superClass := superClass

/-- A binding has been met, and the function knows its scope if the binding is kept in a slot. -/
def Captures (session : Session) (id : ValueId) (key : BindingKey) : Prop :=
  ∃ binding, session.bindings.get? key = some binding ∧ (binding.storage.isSlot = true →
    ∃ inst, session.instances.get? id = some inst ∧ key.scope ∈ inst.scopes)

/-- What can happen to the instance of a function before it is placed. -/
inductive Adjusts (context : Context) (session : Session) (id : ValueId) :
    (FunctionInstance → FunctionInstance) → Prop where
  | setMethod {function : FunctionValue} {method : ClassMethod} {superClass : Option Expr}
      (isFunction : context.graph.values.get? id = some (.function function))
      (isMethod : function.classMethod = some method)
      (linked : session.LinksMethod context method superClass) :
      Adjusts context session id fun inst =>
        { inst with method := some (methodInstance method superClass) }
  | bindName {function : FunctionValue} {name : String} {key : Option BindingKey}
      (isFunction : context.graph.values.get? id = some (.function function))
      (isFree : name ∈ context.freeNames function.code)
      (isKey : key = context.graph.bindingKey? function.environment name)
      (captures : ∀ key', key = some key' → session.Captures id key') :
      Adjusts context session id fun inst =>
        { inst with bindings := inst.bindings.insert name key }
  | bindModified {root : Root} {function : FunctionValue} {name : String} {key : Option BindingKey}
      (isRoot : root ∈ context.graph.roots) (isId : root.function = id)
      (isFunction : context.graph.values.get? id = some (.function function))
      (isModified : name ∈ root.modifiedBindings.map (·.1))
      (isKey : key = context.graph.bindingKey? function.environment name)
      (captures : ∀ key', key = some key' → session.Captures id key') :
      Adjusts context session id fun inst =>
        { inst with bindings := inst.bindings.insertIfNew name key }
  | addModule {value : ValueId} {name : String} {expr : Expr}
      (replaced : context.graph.moduleReplacements.lookup name = some value)
      (refers : session.Refers context session.bodies.current value expr)
      (declares : session.AtDeclarations) :
      Adjusts context session id fun inst => { inst with modules := inst.modules.insert name expr }
  | addScope {key : BindingKey} {binding : Binding}
      (isMet : session.bindings.get? key = some binding) (isSlot : binding.storage.isSlot = true) :
      Adjusts context session id (·.addScope key.scope)

/-- What can happen to a session while values are written. -/
inductive Step (context : Context) : Session → Session → Prop where
  -- Bodies and the cursor.
  | emit {session : Session} {body : BodyId} {stmt : Stmt}
      (allowed : session.Allows context none body stmt) :
      Step context session (session.emitting body stmt)
  | enter {session : Session} {body : BodyId} (present : session.bodies.Has body) :
      Step context session (session.entering body)
  | leave {session : Session} : Step context session session.leaving
  -- Objects.
  | reachObject {session : Session} {id : ValueId} {object : ObjectValue}
      (constructs : context.Constructs id object)
      (isNew : session.identifiers.get? id = none) (declares : session.AtDeclarations) :
      Step context session ((session.allocating id).starting id)
  | declareReached {session : Session} {id : ValueId} {object : ObjectValue} {name : String}
      {init : Expr} {link : Option (ValueId × Expr)} (constructs : context.Constructs id object)
      (named : session.identifiers.get? id = some name)
      (home : session.declaredIn.get? id = some session.bodies.current)
      (allowed : session.AllowsHere context init) (canLink : session.CanLink context link) :
      Step context session
        (((session.linking name link).emitting session.bodies.current
          (.var name init)).finishing id)
  | newLazy {session : Session} {id : ValueId} {name : String}
      (named : session.identifiers.get? id = some name)
      (isNew : session.lazyObjects.get? id = none)
      (home : session.declaredIn.get? id = some Bodies.global)
      (current : session.bodies.current = Bodies.global)
      (isLazy : context.IsLazy id) :
      Step context session (session.addingLazy id)
  | reachDelayed {session : Session} {id function : ValueId} {object : ObjectValue} {body : BodyId}
      (constructs : context.Constructs id object) (isDelayed : object.delayInto = some function)
      (isNew : session.identifiers.get? id = none) (declares : session.AtDeclarations)
      (home : session.declaredIn.get? function = some session.bodies.current)
      (isOpen : function ∈ session.openFunctions)
      (isBody : ((session.declaringDelayed id).delaying function).delayedBodies.get? function =
        some body) :
      Step context session (session.reachingDelayed id function body)
  | constructDelayed {session : Session} {id : ValueId} {object : ObjectValue} {name : String}
      {init : Expr} {link : Option (ValueId × Expr)} (constructs : context.Constructs id object)
      (named : session.identifiers.get? id = some name)
      (sees : session.Sees session.bodies.current id)
      (allowed : session.AllowsHere context init) (canLink : session.CanLink context link) :
      Step context session
        (((session.linking name link).emitting session.bodies.current
          (.assign (.var name) init)).finishing id)
  | reachAlias {session : Session} {id owner : ValueId} {object : ObjectValue} {ownerName : String}
      (isObject : context.graph.values.get? id = some (.object object))
      (unknown : object.knownPath = none)
      (owned : context.prototypeOwners.get? id = some owner)
      (isNew : session.identifiers.get? id = none) (declares : session.AtDeclarations)
      (hasOwner : ∃ inst, session.instances.get? owner = some inst)
      (ownerNamed : session.identifiers.get? owner = some ownerName) :
      Step context session (session.reachingAlias id owner ownerName)
  | finishAlias {session : Session} {id owner : ValueId} {object : ObjectValue}
      (isObject : context.graph.values.get? id = some (.object object))
      (owned : context.prototypeOwners.get? id = some owner) (complete : session.Settled owner) :
      Step context session (session.finishing id)
  -- Work that waits.
  | defer {session : Session} {awaited : ValueId} {work : Deferred}
      (isWaiting : awaited ∈ session.inProgress) (canWait : session.CanWait context awaited work) :
      Step context session (session.deferring awaited work)
  | lock {session : Session} {id : ValueId} {lock : PendingLock}
      (allowed : session.Allows context none lock.body lock.stmt) :
      Step context session (session.locking id lock)
  | unlock {session : Session} (id : ValueId) :
      Step context session { session with locks := session.locks.erase id }
  -- Functions.
  | reachFunction {session : Session} {id : ValueId} {function : FunctionValue}
      (isFunction : context.graph.values.get? id = some (.function function))
      (isNew : session.identifiers.get? id = none) (declares : session.AtDeclarations) :
      Step context session (session.reachingFunction id function.code)
  | openFunction {session : Session} {id : ValueId} {function : FunctionValue}
      (isFunction : context.graph.values.get? id = some (.function function))
      (isStarted : id ∈ session.inProgress) : Step context session (session.opening id)
  | closeFunction {session : Session} : Step context session session.closing
  | use {session : Session} (id : ValueId) : Step context session (session.noting id)
  | adjust {session : Session} {id : ValueId} {change : FunctionInstance → FunctionInstance}
      (adjusts : Adjusts context session id change) :
      Step context session (session.changing id change)
  | attachDelayed {session : Session} {id : ValueId} {body : BodyId}
      (delayed : session.delayedBodies.get? id = some body) :
      Step context session
        { session.changing id (attachFlag body s!"__init_{session.initFlags}") with
          initFlags := session.initFlags + 1 }
  | place {session : Session} {id : ValueId} {function : FunctionValue} {inst : FunctionInstance}
      (isFunction : context.graph.values.get? id = some (.function function))
      (isInstance : session.instances.get? id = some inst)
      (home : session.declaredIn.get? id = some session.bodies.current)
      (isClosed : id ∉ session.openFunctions) (isFirst : inst.insertionPoint = none)
      (isBound : ∀ name ∈ context.freeNames function.code, (inst.bindings.get? name).isSome)
      (isMethod : ∀ method, function.classMethod = some method → inst.method.isSome)
      (isAttached : ∀ body, session.delayedBodies.get? id = some body →
        ∃ flag, inst.delayed = some { body, flag }) :
      Step context session ((session.placing id).finishing id)
  -- Captured bindings.
  | meet {session : Session} {scope : Scope} (key : BindingKey)
      (isNew : session.bindings.get? key = none)
      (isScope : context.graph.scopes.get? key.scope = some scope)
      (declared : scope.declares key.name = true) (constant : key ∉ context.modified) :
      Step context session (session.binding key
        { key, value := context.graph.boundValue? key.scope key.name })
  | bake {session : Session} {key : BindingKey} {binding : Binding} {expr : Expr}
      (isMet : session.bindings.get? key = some binding)
      (undecided : binding.storage = .undecided)
      (refers : ∀ value, binding.value = some value →
        session.Refers context session.bodies.current value expr)
      (noValue : binding.value = none → expr = .undefined) (declares : session.AtDeclarations) :
      Step context session (session.binding key
        { binding with
          pending := binding.value.any fun value => decide (value ∈ session.inProgress)
          storage := .direct expr })
  | share {session : Session} {scope : Scope} (key : BindingKey)
      (isNew : session.bindings.get? key = none)
      (isScope : context.graph.scopes.get? key.scope = some scope)
      (declared : scope.declares key.name = true) (modified : key ∈ context.modified)
      (simple : context.settings.simpleClosures = true) :
      Step context session
        (session.sharing key (context.graph.boundValue? key.scope key.name))
  | keepInSlot {session : Session} {scope : Scope} (key : BindingKey)
      (isNew : session.bindings.get? key = none)
      (isScope : context.graph.scopes.get? key.scope = some scope)
      (declared : scope.declares key.name = true) (modified : key ∈ context.modified)
      (notSimple : context.settings.simpleClosures = false) :
      Step context session
        (session.keeping key (context.graph.boundValue? key.scope key.name)
          (scope.root.filter fun root => (context.graph.root? root).isSome) scope.bindings.size)
  | fillSlot {session : Session} {key : BindingKey} {scope : Scope} {slot : Nat} {expr : Expr}
      (isScope : context.graph.scopes.get? key.scope = some scope)
      (isSlot : scope.slot? key.name = some slot)
      (refers : ∀ value, context.graph.boundValue? key.scope key.name = some value →
        session.Refers context session.bodies.current value expr)
      (noValue : context.graph.boundValue? key.scope key.name = none → expr = .undefined)
      (declares : session.AtDeclarations) :
      Step context session (session.filling key.scope slot expr)

def Steps (context : Context) : Session → Session → Prop :=
  Relation.ReflTransGen (Step context)

end Session

end HeapScript
