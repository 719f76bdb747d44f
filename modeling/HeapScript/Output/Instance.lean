import HeapScript.Heap.Graph
import HeapScript.Output.Bodies

/-!
Function instances: the closures of the heap with all that is known about how they are written.
-/

namespace HeapScript

/-! ## Captured bindings -/

structure BindingKey where
  scope : ScopeId
  name : String
deriving DecidableEq, Repr

inductive Storage where
  | undecided
  | slot
  | shared (name : String)
  | direct (value : Expr)

namespace Storage

def isSlot : Storage → Bool
  | .slot => true
  | _ => false

/-- Whether all closures share a variable or slot, so that they see each other's assignments. -/
def isShared : Storage → Bool
  | .slot | .shared _ => true
  | _ => false

end Storage

structure Binding where
  key : BindingKey
  value : Option ValueId := none
  storage : Storage := .undecided
  pending : Bool := false

def Binding.setDirect (binding : Binding) (value : Expr) : Except Failure Binding :=
  match binding.storage with
  | .slot => .error (.directValueForSlot binding.key.scope binding.key.name)
  | _ => .ok { binding with storage := .direct value }

/-! ## Instances -/

structure MethodInstance where
  kind : MethodKind
  key : MemberKey
  isStatic : Bool
  classPrototype : ValueId
  constructor : ValueId
  superClass : Option Expr

structure DelayedInit where
  body : BodyId
  /-- The variable that tells whether the call has happened. -/
  flag : String

structure FunctionInstance where
  function : ValueId
  code : CodeId
  name : String
  /-- The free names with their captured bindings, or none for global names. -/
  bindings : KeyedTable String (Option BindingKey) := {}
  /-- The scopes whose arrays the instance reads, in the order of their first captures. -/
  scopes : List ScopeId := []
  modules : KeyedTable String Expr := {}
  declarationBody : BodyId
  /-- The optimized root in whose body the instance is declared. -/
  root : Option ValueId := none
  insertionPoint : Option Position := none
  serial : Nat := 0
  /-- The first place in the declaration body where the instance is used. -/
  firstUsage : Option Position := none
  method : Option MethodInstance := none
  delayed : Option DelayedInit := none
  hasPrototypeAlias : Bool := false
  /-- The statements that follow the definition at once. -/
  extras : List Stmt := []

/-- The variable of an instance that holds its captured scope with the given number. -/
def scopeLocalName (position : Nat) : String := s!"__scope_{position}"

def selectorParamName (position : Nat) : String := s!"__selector_{position}"

namespace FunctionInstance

def scopePosition? (inst : FunctionInstance) (scope : ScopeId) : Option Nat :=
  inst.scopes.findIdx? (· = scope)

def addScope (inst : FunctionInstance) (scope : ScopeId) : FunctionInstance :=
  if scope ∈ inst.scopes then inst else { inst with scopes := inst.scopes ++ [scope] }

def definitionPoint (inst : FunctionInstance) : Except Failure Position :=
  match inst.insertionPoint with
  | some point => .ok point
  | none => .error (.noInsertionPoint inst.function)

def usedBeforeDefinition (inst : FunctionInstance) : Except Failure Bool := do
  let point ← inst.definitionPoint
  return inst.firstUsage.any fun usage => !usage.isNotEarlierThan point

end FunctionInstance

end HeapScript
