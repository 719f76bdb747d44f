import HeapScript.Assembly.Definitions

/-!
Optimized roots: functions whose bodies hold the declarations of their local values and the
statements that were computed for them.
-/

namespace HeapScript

namespace Assembly

def writeBacks (written : Written) (inst : FunctionInstance) (record : RootRecord) :
    Except Failure (List Stmt) :=
  record.modifiedBindings.mapM fun (name, value) => do
    return .assign ((← written.replacementFor inst name).getD (.var name)) value

/-- Puts the waiting definitions into the body of a root, after which no more can be added. -/
def closeBody (body : BodyId) : AssemblyM Unit := do
  let assembly ← get
  let bodies ← assembly.splices.applyTo body assembly.bodies
  set { assembly with
    bodies
    splices := assembly.splices.without body
    takenBodies := body :: assembly.takenBodies }

def takeRootPrelude (root : ValueId) : AssemblyM (List Stmt) := do
  let prelude := ((← get).rootPreludes.get? root).getD []
  modify fun assembly => { assembly with rootPreludes := assembly.rootPreludes.erase root }
  return prelude

/-- The body of a root: the helpers for its captured scopes, the definitions of its functions, its
local values, its own statements, the assignments of captured names and the result. -/
def rootBody (written : Written) (inst : FunctionInstance) (record : RootRecord) :
    AssemblyM (List Stmt) := do
  closeBody record.body
  let bootstrap := written.session.captured.bootstrap (some record.function)
  let prelude ← takeRootPrelude record.function
  let prologue ← written.scopePrologue inst fun _ scope => written.selectorLiteral scope
  let values ← takeBody record.body
  let assignments ← writeBacks written inst record
  let result := record.result.toList.map fun value => Stmt.returnValue (some value)
  let init ← delayedInit inst
  return init ++ bootstrap ++ prelude ++ prologue ++ values ++ record.verbatim ++ assignments ++
    result

def releaseClass (written : Written) (prototype : ValueId) : AssemblyM Unit := do
  let remaining := ((← get).awaitedMembers.get? prototype).getD 0 - 1
  modify fun assembly =>
    { assembly with awaitedMembers := assembly.awaitedMembers.insert prototype remaining }
  if remaining = 0 then defineClass written prototype

def defineRoot (written : Written) (record : RootRecord) : AssemblyM Unit := do
  let inst ← written.instanceOf record.function
  let code ← written.context.graph.codeBlock inst.code
  let body ← rootBody written inst record
  let definition := { code.function with body }
  count fun report => { report with optimizedRoots := report.optimizedRoots + 1 }
  match inst.method with
  | none => addToPrelude record.parent (.var inst.name (.function definition) :: inst.extras)
  | some method =>
    addClassMember method code definition
    unless method.kind = .constructor do
      let group ← memberGroup written inst method
      spliceLate (← inst.definitionPoint) inst.serial group
    releaseClass written method.classPrototype

/-- The roots in the order of their definitions: inner ones before outer ones. -/
def definitionOrder (records : List RootRecord) : List RootRecord :=
  sortBy records fun left right => right.depth ≤ left.depth

theorem perm_definitionOrder (records : List RootRecord) :
    (definitionOrder records).Perm records :=
  perm_sortBy _ _

def awaitedMembersOf (written : Written) : Except Failure (KeyedTable ValueId Nat) :=
  written.roots.foldlM (fun awaited record => do
    match (← written.instanceOf record.function).method with
    | none => return awaited
    | some method =>
      let known := (awaited.get? method.classPrototype).getD 0
      return awaited.insert method.classPrototype (known + 1)) {}

def defineReadyClasses (written : Written) : AssemblyM Unit := do
  let assembly ← get
  let ready := assembly.classes.keys.filter fun prototype =>
    !assembly.awaitedMembers.contains prototype
  ready.forM (defineClass written)

def defineUpTo (written : Written) (records : List RootRecord) : AssemblyM Unit := do
  (← blockGroups written).forM fun group => defineBlock written group.code group.functions
  let awaitedMembers ← awaitedMembersOf written
  modify fun assembly => { assembly with awaitedMembers }
  defineReadyClasses written
  records.forM (defineRoot written)

def defineAll (written : Written) : AssemblyM Unit := do
  defineUpTo written (definitionOrder written.roots)
  match (← get).classes.keys with
  | [] => return
  | prototype :: _ => throw (.classNeverDefined prototype)

def applySplices : AssemblyM Unit := do
  let assembly ← get
  match assembly.splices.apply assembly.bodies with
  | (bodies, none) => set { assembly with bodies, splices := {} }
  | (_, some failure) => throw failure

/-- Defines all function instances and gives the statements at the start of the script. -/
def assemble (written : Written) : AssemblyM (List Stmt) := do
  defineAll written
  applySplices
  return written.session.captured.bootstrap none ++ (← get).globalPrelude

end Assembly

end HeapScript
