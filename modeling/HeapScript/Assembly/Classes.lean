import HeapScript.Assembly.State

/-!
Classes: the functions of the heap that belong to one class become the members of one class
expression, which is defined under the name of the constructor.
-/

namespace HeapScript

namespace ClassNode

/-- Adds a member; the constructor comes first and gives the class its name and superclass. -/
def add (node : ClassNode) (method : MethodInstance) (className : Option String)
    (definition : FunctionDef) : ClassNode :=
  let classMember : ClassMember :=
    { kind := method.kind, key := method.key, isStatic := method.isStatic
      function := { definition with name := none } }
  if method.kind = .constructor then
    { node with
      hasConstructor := true, name := className, superClass := method.superClass
      members := classMember :: node.members }
  else { node with members := node.members ++ [classMember] }

def definition (node : ClassNode) : ClassDef :=
  { name := node.name, superClass := node.superClass, members := node.members }

end ClassNode

namespace MethodInstance

def keyExpr (method : MethodInstance) : Expr :=
  match method.key with
  | .named name => .string name
  | .computed value => value

/-- The expression for a member of the class with the given name. Getters and setters are read from
the descriptor of their property. -/
def valueExpr (method : MethodInstance) (className : String) : Expr :=
  let holder := if method.isStatic then .var className else .member (.var className) "prototype"
  let descriptor :=
    Expr.methodCall (.var "Object") "getOwnPropertyDescriptor" [holder, method.keyExpr]
  match method.kind, method.key with
  | .getter, _ => .member descriptor "get"
  | .setter, _ => .member descriptor "set"
  | _, .named name => .member holder name
  | _, .computed value => .index holder value

end MethodInstance

namespace Assembly

def addClassMember (method : MethodInstance) (code : CodeBlock) (definition : FunctionDef) :
    AssemblyM Unit :=
  modify fun assembly =>
    let node := (assembly.classes.get? method.classPrototype).getD
      { constructor := method.constructor }
    { assembly with
      classes := assembly.classes.insert method.classPrototype
        (node.add method code.function.name definition) }

def memberGroup (written : Written) (inst : FunctionInstance) (method : MethodInstance) :
    Except Failure (List Stmt) := do
  let constructor ← written.instanceOf method.constructor
  return .var inst.name (method.valueExpr constructor.name) :: inst.extras

def defineClass (written : Written) (prototype : ValueId) : AssemblyM Unit := do
  match (← get).classes.get? prototype with
  | none => return
  | some node =>
    modify fun assembly => { assembly with classes := assembly.classes.erase prototype }
    unless node.hasConstructor do throw (.classWithoutConstructor prototype)
    let constructor ← written.instanceOf node.constructor
    let point ← constructor.definitionPoint
    spliceLate point constructor.serial
      (.var constructor.name (.classExpr node.definition) :: constructor.extras)

end Assembly

end HeapScript
