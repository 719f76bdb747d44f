import HeapScript.Output.CapturedScopes
import HeapScript.Output.FreshNames
import HeapScript.Session.Context

/-!
The state of a session: the bodies written so far, and which values have been given names, are under
construction or wait for others.

The steps of a session can run in any monad that has such a state and can fail. `SessionM` is the
plain one. Another one may record what begins on the way.
-/

namespace HeapScript

inductive Deferred where
  /-- Adds a statement to a body. If it sets a property of `object`, the lock of that object waits
  for it, too. -/
  | stmt (body : BodyId) (stmt : Stmt) (object : Option ValueId)
  | prototype (object : ValueId)

/-- The lock of an object that waits for some of the object's properties. -/
structure PendingLock where
  remaining : Nat
  body : BodyId
  stmt : Stmt

structure LazyObject where
  -- A natural number stands for one of 32 bits. There are no more lazy objects than values.
  number : Nat
  /-- The body with the statements that fill the object, once the placeholder is declared. -/
  body : Option BodyId := none
deriving DecidableEq, Repr

structure Session where
  bodies : Bodies := .initial
  names : FreshNames := { stem := "_" }
  identifiers : SideTable .value String := {}
  declaredIn : SideTable .value BodyId := {}
  inProgress : List ValueId := []
  deferred : KeyedTable ValueId (List Deferred) := {}
  locks : KeyedTable ValueId PendingLock := {}
  /-- The functions whose parts are being written, the innermost first. -/
  openFunctions : List ValueId := []
  instances : KeyedTable ValueId FunctionInstance := {}
  bindings : KeyedTable BindingKey Binding := {}
  captured : CapturedScopes := {}
  delayedBodies : KeyedTable ValueId BodyId := {}
  lazyObjects : KeyedTable ValueId LazyObject := {}
  serial : Nat := 0
  initFlags : Nat := 0
  sharedCaptures : Nat := 0

/-- What begins when a value or a captured binding is reached for the first time. -/
inductive Beginning where
  | construction (id : ValueId)
  | resolution (key : BindingKey)
deriving DecidableEq, Repr

class MonadSession (m : Type → Type) extends Monad m, MonadStateOf Session m,
    MonadExceptOf Failure m, MonadLift (Except Failure) m where
  begins : Beginning → m Unit

abbrev SessionM := StateT Session (Except Failure)

/-- A plain session keeps no record of what begins. -/
@[default_instance] instance : MonadSession SessionM where
  begins _ := pure ()

namespace Session

@[simp] theorem begins_eq_pure (beginning : Beginning) :
    (MonadSession.begins beginning : SessionM Unit) = pure () := rfl

def initial (context : Context) : Session :=
  let usedNames := context.graph.usedNames context.facts
  let numberedRoots := context.graph.roots.zipIdx.map fun (root, index) => (root.function, index)
  { names := FreshNames.reserve { stem := "_" } usedNames
    captured := { rootSuffixes := KeyedTable.ofList numberedRoots } }

def lazyBody? (session : Session) (id : ValueId) : Option BodyId :=
  (session.lazyObjects.get? id).bind (·.body)

variable {m : Type → Type} [MonadSession m]

/-! ## Bodies -/

def updateBodies (change : Bodies → Bodies) : m Unit :=
  modify fun session => { session with bodies := change session.bodies }

def emit (stmt : Stmt) : m Unit := updateBodies (·.emit stmt)

def emitInto (body : BodyId) (stmt : Stmt) : m Unit := updateBodies (·.emitInto body stmt)

def newBody (kind : BodyKind) (parent : BodyId) : m BodyId := do
  let (id, bodies) := (← get).bodies.newBody kind parent
  updateBodies fun _ => bodies
  return id

/-- Runs an action with the cursor in a body, and moves the cursor back. -/
def inBody (body : BodyId) (action : m α) : m α := do
  updateBodies (·.enter body)
  let result ← action
  let (_, bodies) ← (← get).bodies.leave
  updateBodies fun _ => bodies
  return result

/-! ## Names and instances -/

/-- Gives a value the next free name and declares it in the current declaration body. -/
def allocate (id : ValueId) : m String := do
  MonadSession.begins (.construction id)
  let session ← get
  let (name, names) := session.names.generate
  set { session with
    names
    identifiers := session.identifiers.insert id name
    declaredIn := session.declaredIn.insert id session.bodies.declarationBody }
  return name

def identifier (id : ValueId) : m String := do
  match (← get).identifiers.get? id with
  | some name => return name
  | none => throw (.noIdentifier id)

def isAllocated (id : ValueId) : m Bool :=
  return (← get).identifiers.contains id

def instanceOf (id : ValueId) : m FunctionInstance := do
  match (← get).instances.get? id with
  | some found => return found
  | none => throw (.notInstance id)

def updateInstance (id : ValueId) (change : FunctionInstance → FunctionInstance) :
    m Unit := do
  let _ ← instanceOf id
  modify fun session => { session with instances := session.instances.modify id change }

def lazyNumberFor (id : ValueId) : m Nat := do
  let lazyObjects := (← get).lazyObjects
  match lazyObjects.get? id with
  | some object => return object.number
  | none =>
    let number := lazyObjects.size + 1
    modify fun session => { session with lazyObjects := session.lazyObjects.insert id { number } }
    return number

def setLazyBody (id : ValueId) (body : BodyId) : m Unit := do
  match (← get).lazyObjects.get? id with
  | some _ => modify fun session =>
      { session with lazyObjects := session.lazyObjects.modify id ({ · with body := some body }) }
  | none => throw (.noLazyNumber id)

/-- The parameter through which the filling of a lazy object sees the object. -/
def lazyParam : String := "obj"

/-- The expression for a value at the cursor: inside the filling of a lazy object the parameter
stands for the object. -/
def resolve (id : ValueId) : m Expr := do
  let session ← get
  let isFilled := (session.lazyBody? id).any session.bodies.currentIsWithin
  if isFilled then return .var lazyParam else return .var (← identifier id)

/-- Fails if a value that is declared in an optimized root is referred to outside of it. -/
def checkVisible (id : ValueId) : m Unit := do
  let session ← get
  match session.declaredIn.get? id with
  | none => return
  | some body =>
    match session.bodies.kind body with
    | .root _ => unless session.bodies.currentIsWithin body do throw (.escapesRoot id)
    | _ => return

/-- Notes the first use of an instance in its declaration body. Uses in bodies inside it run later
than the whole declaration body. -/
def noteUsage (id : ValueId) : m Unit :=
  modify fun session =>
    { session with
      instances := session.instances.modify id fun found =>
        if found.firstUsage.isNone ∧ found.declarationBody = session.bodies.current then
          { found with firstUsage := some session.bodies.position }
        else found }

def reference (id : ValueId) : m Expr := do
  checkVisible id
  noteUsage id
  resolve id

/-! ## Construction -/

def start (id : ValueId) : m Unit :=
  modify fun session => { session with inProgress := session.inProgress.insert id }

def isInProgress (id : ValueId) : m Bool :=
  return id ∈ (← get).inProgress

def defer (awaited : ValueId) (work : Deferred) : m Unit :=
  modify fun session =>
    let waiting := (session.deferred.get? awaited).getD []
    { session with deferred := session.deferred.insert awaited (waiting ++ [work]) }

/-- Counts a property towards the lock of its object, and writes the lock after the last one. -/
def releaseLock (object : ValueId) : m Unit := do
  match (← get).locks.get? object with
  | none => return
  | some lock =>
    if lock.remaining ≤ 1 then
      modify fun session => { session with locks := session.locks.erase object }
      emitInto lock.body lock.stmt
    else
      modify fun session =>
        { session with
          locks := session.locks.insert object { lock with remaining := lock.remaining - 1 } }

def finish (writePrototype : ValueId → m Unit) (id : ValueId) : m Unit := do
  let waiting := ((← get).deferred.get? id).getD []
  modify fun session =>
    { session with
      inProgress := session.inProgress.filter (· ≠ id)
      deferred := session.deferred.erase id }
  waiting.forM fun work =>
    match work with
    | .stmt body stmt object => do
      emitInto body stmt
      object.forM releaseLock
    | .prototype object => writePrototype object

end Session

end HeapScript
