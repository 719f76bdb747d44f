import HeapScript.Failure
import HeapScript.Syntax.Basic
import HeapScript.Table.Keyed
import HeapScript.Table.Sorting

/-!
Captured scopes whose names are assigned again.

All closures over such a scope share one array with a slot for each declared name. The array is
created by an accessor function on first access and cached under the *selector* of the scope.
Selectors are numbered from zero for each *owner*: the top level of the script, or the optimized
root whose call creates the scope.
-/

namespace HeapScript

/-- The optimized root in which the arrays are kept, or none for the top level. -/
abbrev ScopeOwner := Option ValueId

structure CapturedScope where
  selector : Nat
  owner : ScopeOwner
  slotCount : Nat
  slots : KeyedTable Nat Expr := {}
deriving Inhabited

structure CapturedScopes where
  scopes : KeyedTable ScopeId CapturedScope := {}
  /-- How many selectors each owner has given away. -/
  counts : KeyedTable ScopeOwner Nat := {}
  /-- The numbers that mark the helper names of optimized roots. -/
  rootSuffixes : KeyedTable ValueId Nat := {}
deriving Inhabited

namespace CapturedScopes

def count (captured : CapturedScopes) (owner : ScopeOwner) : Nat :=
  (captured.counts.get? owner).getD 0

def ownedBy (captured : CapturedScopes) (owner : ScopeOwner) : List CapturedScope :=
  captured.scopes.values.filter (·.owner = owner)

/-- Gives a scope the next selector of its owner, unless it has one already. -/
def capture (captured : CapturedScopes) (scope : ScopeId) (owner : ScopeOwner) (slotCount : Nat) :
    CapturedScopes :=
  if captured.scopes.contains scope then captured
  else
    let selector := captured.count owner
    { captured with
      scopes := captured.scopes.insert scope { selector, owner, slotCount }
      counts := captured.counts.insert owner (selector + 1) }

def contains (captured : CapturedScopes) (scope : ScopeId) : Bool := captured.scopes.contains scope

def size (captured : CapturedScopes) : Nat := captured.scopes.size

def get (captured : CapturedScopes) (scope : ScopeId) : Except Failure CapturedScope :=
  match captured.scopes.get? scope with
  | some found => .ok found
  | none => .error (.scopeWithoutSelector scope)

def selector (captured : CapturedScopes) (scope : ScopeId) : Except Failure Nat :=
  (captured.get scope).map (·.selector)

def owner (captured : CapturedScopes) (scope : ScopeId) : Except Failure ScopeOwner :=
  (captured.get scope).map (·.owner)

def setSlot (captured : CapturedScopes) (scope : ScopeId) (slot : Nat) (value : Expr) :
    Except Failure CapturedScopes := do
  let _ ← captured.get scope
  return { captured with
    scopes := captured.scopes.modify scope fun found =>
      { found with slots := found.slots.insert slot value } }

/-! ## Helper names -/

def suffix (captured : CapturedScopes) (owner : ScopeOwner) : String :=
  match owner.bind captured.rootSuffixes.get? with
  | some number => s!"_{number}"
  | none => ""

def arrayName (captured : CapturedScopes) (owner : ScopeOwner) : String :=
  "__captured_scopes" ++ captured.suffix owner

def accessorName (captured : CapturedScopes) (owner : ScopeOwner) : String :=
  "__get_scope_binding" ++ captured.suffix owner

/-! ## Statements -/

def initialization (captured : CapturedScopes) (localName : String) (scope : ScopeId)
    (index : Expr) : Except Failure Stmt := do
  let owner ← captured.owner scope
  return .var localName (.logicalOr (.index (.var (captured.arrayName owner)) index)
    (.call (.var (captured.accessorName owner)) [index]))

def slotArray (scope : CapturedScope) : Expr :=
  .array ((List.range scope.slotCount).map fun slot => (scope.slots.get? slot).getD .undefined)

def accessorCase (scope : CapturedScope) : SwitchCase :=
  { test := .nat scope.selector
    body := [.assign (.var "__captured") (slotArray scope), .breakLoop] }

def arrayDeclaration? (captured : CapturedScopes) (owner : ScopeOwner) : Option Stmt :=
  if captured.count owner = 0 then none
  else some (.var (captured.arrayName owner) (.call (.var "Array") [.nat (captured.count owner)]))

def sortedOf (captured : CapturedScopes) (owner : ScopeOwner) : List CapturedScope :=
  sortBy (captured.ownedBy owner) (·.selector ≤ ·.selector)

def accessor (captured : CapturedScopes) (owner : ScopeOwner) : FunctionDef :=
  { name := some (captured.accessorName owner)
    params := [.plain "__selector"]
    body := [
      .declare .var "__captured" none,
      .switch (.var "__selector") ((captured.sortedOf owner).map accessorCase)
        (some [.throwMessage "Unknown scope selector"]),
      .assign (.index (.var (captured.arrayName owner)) (.var "__selector")) (.var "__captured"),
      .returnValue (some (.var "__captured"))] }

def accessor? (captured : CapturedScopes) (owner : ScopeOwner) : Option Stmt :=
  if (captured.ownedBy owner).isEmpty then none else some (.function (captured.accessor owner))

def bootstrap (captured : CapturedScopes) (owner : ScopeOwner) : List Stmt :=
  (captured.arrayDeclaration? owner).toList ++ (captured.accessor? owner).toList

end CapturedScopes

end HeapScript
