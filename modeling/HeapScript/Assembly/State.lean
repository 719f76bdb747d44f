import HeapScript.Assembly.Replacements
import HeapScript.Output.Splices
import HeapScript.Report

/-!
The state of the assembly, in which the function instances of a written heap are defined.
-/

namespace HeapScript

structure ClassNode where
  name : Option String := none
  constructor : ValueId
  hasConstructor : Bool := false
  superClass : Option Expr := none
  members : List ClassMember := []

structure Assembly where
  bodies : Bodies
  splices : Splices := {}
  classes : KeyedTable ValueId ClassNode := {}
  globalPrelude : List Stmt := []
  rootPreludes : KeyedTable ValueId (List Stmt) := {}
  takenBodies : List BodyId := []
  /-- For each class prototype the number of roots that are members and not built yet. -/
  awaitedMembers : KeyedTable ValueId Nat := {}
  factoryCount : Nat := 0
  report : Report := {}

abbrev AssemblyM := StateT Assembly (Except Failure)

namespace Assembly

def count (change : Report → Report) : AssemblyM Unit :=
  modify fun assembly => { assembly with report := change assembly.report }

def takeBody (body : BodyId) : AssemblyM (List Stmt) := do
  let (stmts, bodies) := (← get).bodies.take body
  modify fun assembly => { assembly with bodies }
  return stmts

/-- Adds a group of statements to those that are put into their bodies. -/
def splice (point : Position) (order : Nat) (stmts : List Stmt) : AssemblyM Unit :=
  modify fun assembly => { assembly with splices := assembly.splices.add point order stmts }

/-- Adds a group of statements when optimized roots may have been built already. -/
def spliceLate (point : Position) (order : Nat) (stmts : List Stmt) : AssemblyM Unit := do
  if point.body ∈ (← get).takenBodies then throw (.definitionAfterRoot point.body)
  splice point order stmts

/-- Adds definitions to the start of an optimized root or of the script. -/
def addToPrelude (placement : Option ValueId) (stmts : List Stmt) : AssemblyM Unit :=
  modify fun assembly =>
    match placement with
    | none => { assembly with globalPrelude := assembly.globalPrelude ++ stmts }
    | some root =>
      let prelude := (assembly.rootPreludes.get? root).getD []
      { assembly with rootPreludes := assembly.rootPreludes.insert root (prelude ++ stmts) }

/-- The statement by which an instance constructs objects on its first call. -/
def delayedInit (inst : FunctionInstance) : AssemblyM (List Stmt) := do
  match inst.delayed with
  | none => return []
  | some delayed =>
    let flag := Expr.var delayed.flag
    let stmts ← takeBody delayed.body
    return [.ifElse (.not flag) (.assign flag (.literal (.bool true)) :: stmts) []]

end Assembly

end HeapScript
