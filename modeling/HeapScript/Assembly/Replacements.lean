import HeapScript.FreeNames.Replacement
import HeapScript.Session.Pass
import HeapScript.Syntax.ValueExpr

/-!
What the free names of function instances become, once all values have been written.
-/

namespace HeapScript

structure Written where
  context : Context
  session : Session
  roots : List RootRecord

namespace Written

def instanceOf (written : Written) (id : ValueId) : Except Failure FunctionInstance :=
  match written.session.instances.get? id with
  | some found => .ok found
  | none => .error (.notInstance id)

def bindingOf? (written : Written) (inst : FunctionInstance) (name : String) : Option Binding :=
  (inst.bindings.get? name).join.bind written.session.bindings.get?

def slotExpr (written : Written) (inst : FunctionInstance) (key : BindingKey) :
    Except Failure Expr := do
  match inst.scopePosition? key.scope with
  | none => throw (.scopeNotCaptured key.scope inst.function)
  | some position =>
    match (← written.context.graph.scope key.scope).slot? key.name with
    | none => throw (.undeclaredName key.scope key.name)
    | some slot => return .index (.var (scopeLocalName position)) (.nat slot)

/-- What a free name becomes in an instance; a global name stays. -/
def replacementFor (written : Written) (inst : FunctionInstance) (name : String) :
    Except Failure (Option Expr) := do
  match (inst.bindings.get? name).join with
  | none => return none
  | some key =>
    match written.session.bindings.get? key with
    | none => throw (.lostBinding inst.function name)
    | some binding =>
      match binding.storage with
      | .slot => return some (← written.slotExpr inst key)
      | .shared name => return some (.var name)
      | .direct value => return some value
      | .undecided => throw (.unresolvedBinding inst.function name)

def replacementsFor (written : Written) (inst : FunctionInstance) :
    Except Failure Replacements := do
  let names ← inst.bindings.keys.mapM fun name =>
    return (← written.replacementFor inst name).map (name, ·)
  return { names := names.reduceOption, modules := inst.modules.entries }

/-- The declarations of an instance's variables for captured scopes, with the given selectors. -/
def scopePrologue (written : Written) (inst : FunctionInstance)
    (selector : Nat → ScopeId → Except Failure Expr) : Except Failure (List Stmt) :=
  inst.scopes.zipIdx.mapM fun (scope, position) => do
    written.session.captured.initialization (scopeLocalName position) scope
      (← selector position scope)

def selectorLiteral (written : Written) (scope : ScopeId) : Except Failure Expr :=
  (written.session.captured.selector scope).map .nat

end Written

end HeapScript
