import HeapScript.Failure
import HeapScript.Syntax.Basic
import HeapScript.Table.Keyed

/-!
Heap graphs: the values, code blocks and captured scopes that are left when a script has been
evaluated, the effects that it had on the outside, and the functions that were optimized as a whole.
-/

namespace HeapScript

/-! ## Values -/

structure Property where
  key : String
  value : ValueId
deriving DecidableEq, Repr

inductive Integrity where
  | isSealed
  | frozen
deriving DecidableEq, Repr

structure ObjectValue where
  properties : List Property := []
  prototype : Option ValueId := none
  /-- A path that denotes the object already, so that it is never constructed. -/
  knownPath : Option String := none
  integrity : Option Integrity := none
  isLazy : Bool := false
  /-- The function on whose first call the object is constructed. -/
  delayInto : Option ValueId := none
deriving Repr, Inhabited

structure ClassMethod where
  kind : MethodKind
  key : String
  isStatic : Bool
  isComputed : Bool
  classPrototype : ValueId
  constructor : ValueId
  superClass : Option ValueId
deriving Repr

structure FunctionValue where
  code : CodeId
  environment : Option ScopeId := none
  properties : List Property := []
  prototype : Option ValueId := none
  classMethod : Option ClassMethod := none
deriving Repr

inductive HeapValue where
  | primitive (value : Constant)
  | object (value : ObjectValue)
  | function (value : FunctionValue)
deriving Repr

namespace HeapValue

def asObject? : HeapValue → Option ObjectValue
  | .object value => some value
  | _ => none

def asFunction? : HeapValue → Option FunctionValue
  | .function value => some value
  | _ => none

def isFunction (value : HeapValue) : Bool := value.asFunction?.isSome

end HeapValue

/-! ## Code and scopes -/

/-- The extent of a code block in the source text. -/
structure Span where
  first : Nat := 0
  last : Nat := 0
deriving DecidableEq, Repr, Inhabited

namespace Span

/-- The number of characters between the two ends, whichever comes first. -/
def size (span : Span) : Nat := (span.last - span.first) + (span.first - span.last)

def isEmpty (span : Span) : Bool := span.first == span.last

end Span

structure CodeBlock where
  function : FunctionDef
  span : Span := {}
  tag : Option Nat := none
deriving Inhabited

def CodeBlock.orderTag (code : CodeBlock) : Nat := code.tag.getD code.span.first

structure Scope where
  parent : Option ScopeId := none
  bindings : KeyedTable String (Option ValueId) := {}
  modified : List String := []
  /-- The optimized root whose call created the scope. -/
  root : Option ValueId := none
deriving Inhabited

namespace Scope

def slot? (scope : Scope) (name : String) : Option Nat := scope.bindings.position? name

def declares (scope : Scope) (name : String) : Bool := scope.bindings.contains name

end Scope

/-! ## Effects and roots -/

inductive Effect where
  | globalAssign (name : String) (value : ValueId)
  | propertyAssign (object : ValueId) (key : String) (value : ValueId)
  | call (callee : ValueId) (args : List ValueId)
deriving Repr

/-- An optimized root: a function whose whole body has been computed anew. -/
structure Root where
  function : ValueId
  /-- The final statements, which follow the declarations of the local values. -/
  body : List Stmt := []
  values : List ValueId := []
  /-- The captured names that the function assigns before it returns. -/
  modifiedBindings : List (String × ValueId) := []
  result : Option ValueId := none
  parent : Option ValueId := none
deriving Inhabited

structure HeapGraph where
  values : Arena .value HeapValue := {}
  codeBlocks : Arena .code CodeBlock := {}
  scopes : Arena .scope Scope := {}
  effects : List Effect := []
  roots : List Root := []
  /-- The values that stand in for loaded modules, in ascending order of the modules. -/
  moduleReplacements : List (String × ValueId) := []
deriving Inhabited

/-! ## Lookups -/

namespace HeapGraph

def value (graph : HeapGraph) (id : ValueId) : Except Failure HeapValue :=
  match graph.values.get? id with
  | some value => .ok value
  | none => .error (.unknownValue id)

def codeBlock (graph : HeapGraph) (id : CodeId) : Except Failure CodeBlock :=
  match graph.codeBlocks.get? id with
  | some code => .ok code
  | none => .error (.unknownCode id)

def scope (graph : HeapGraph) (id : ScopeId) : Except Failure Scope :=
  match graph.scopes.get? id with
  | some scope => .ok scope
  | none => .error (.unknownScope id)

def declaringScopeFrom? (graph : HeapGraph) (name : String) : (fuel : Nat) → Option ScopeId →
    Option ScopeId
  | 0, _ => none
  | _, none => none
  | fuel + 1, some id =>
    match graph.scopes.get? id with
    | none => none
    | some scope =>
      if scope.declares name then some id else graph.declaringScopeFrom? name fuel scope.parent

/-- The innermost scope around `environment` that declares a name. A chain of parents without
repetitions is not longer than the number of all scopes. -/
def declaringScope? (graph : HeapGraph) (environment : Option ScopeId) (name : String) :
    Option ScopeId :=
  graph.declaringScopeFrom? name graph.scopes.size environment

def root? (graph : HeapGraph) (function : ValueId) : Option Root :=
  graph.roots.find? (·.function = function)

end HeapGraph

end HeapScript
