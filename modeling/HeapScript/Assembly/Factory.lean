import HeapScript.Assembly.Replacements

/-!
Plans for factories.

The closures of one code block may share a *factory*: a function that takes the values in which they
differ as leading parameters. A plan says for each captured free name whether it has one value in
all closures, which is *baked* into the factory, or *varies*. There is no plan if a name is global
in some closures only, or if closures use different shared variables or slots under one name.
-/

namespace HeapScript

structure FactoryArg where
  value : Expr
  risky : Bool

inductive NamePlan where
  | baked (value : Expr)
  | varying (args : List FactoryArg)

structure FactoryPlan where
  /-- The captured free names in order, the block's own name last. -/
  names : List (String × NamePlan)
  scopeCount : Nat
  modules : KeyedTable String Expr
  /-- The optimized root in whose body the closures are declared. -/
  placement : Option ValueId

namespace FactoryPlan

def bakedNames (plan : FactoryPlan) : List (String × Expr) :=
  plan.names.filterMap fun (name, choice) =>
    match choice with
    | .baked value => some (name, value)
    | .varying _ => none

def varyingNames (plan : FactoryPlan) : List String :=
  plan.names.filterMap fun (name, choice) =>
    match choice with
    | .baked _ => none
    | .varying _ => some name

/-- The arguments that the closure with the given number passes. -/
def argsOf (plan : FactoryPlan) (number : Nat) : List FactoryArg :=
  plan.names.filterMap fun (_, choice) =>
    match choice with
    | .baked _ => none
    | .varying args => args[number]?

/-- Whether one of the closure's arguments may be a function that is not defined yet. -/
def isRisky (plan : FactoryPlan) (number : Nat) : Bool :=
  (plan.argsOf number).any (·.risky)

end FactoryPlan

def allNeighbours (related : α → α → Bool) : List α → Bool
  | first :: second :: rest => related first second && allNeighbours related (second :: rest)
  | _ => true

/-- A free name in one closure: its replacement and its captured binding. -/
structure ResolvedName where
  value : Expr
  binding : Option Binding

namespace ResolvedName

def isShared (resolved : ResolvedName) : Bool :=
  resolved.binding.any (·.storage.isShared)

def sameHeapValue (left right : ResolvedName) : Bool :=
  match left.binding.bind (·.value), right.binding.bind (·.value) with
  | some value, some other => value == other
  | _, _ => false

def agrees (left right : ResolvedName) : Bool :=
  left.sameHeapValue right || left.value.sameReference right.value

end ResolvedName

namespace Written

/-- The free name in all closures; none where it is global. -/
def resolveName (written : Written) (instances : List FunctionInstance) (name : String) :
    Except Failure (List (Option ResolvedName)) :=
  instances.mapM fun inst => do
    let replacement ← written.replacementFor inst name
    return replacement.map fun value => ⟨value, written.bindingOf? inst name⟩

def factoryArg (written : Written) (resolved : ResolvedName) : FactoryArg :=
  { value := resolved.value
    risky := resolved.binding.any fun binding =>
      binding.pending || binding.value.any written.context.graph.isFunction }

def planCaptured (written : Written) (resolved : List ResolvedName) : Option NamePlan :=
  let shared := resolved.any (·.isShared)
  let agrees :=
    if shared then allNeighbours (fun left right => left.value.sameReference right.value) resolved
    else allNeighbours ResolvedName.agrees resolved
  match agrees, resolved with
  | true, first :: _ => some (.baked first.value)
  | _, _ => if shared then none else some (.varying (resolved.map written.factoryArg))

def planNames (written : Written) (instances : List FunctionInstance) :
    List String → Except Failure (Option (List (String × NamePlan)))
  | [] => return some []
  | name :: names => do
    let resolved ← written.resolveName instances name
    if resolved.all Option.isNone then written.planNames instances names
    else
      match (resolved.mapM id).bind written.planCaptured with
      | none => return none
      | some choice =>
        return (← written.planNames instances names).map ((name, choice) :: ·)

def sameOwners (written : Written) (left right : FunctionInstance) : Except Failure Bool :=
  (left.scopes.zip right.scopes).allM fun (scope, other) => do
    return (← written.session.captured.owner scope) == (← written.session.captured.owner other)

def sameModules (left right : KeyedTable String Expr) : Bool :=
  left.size == right.size && (left.entries.zip right.entries).all fun (entry, other) =>
    entry.1 == other.1 && entry.2.sameReference other.2

def planOwnName (code : CodeBlock) (facts : FunctionFacts) (instances : List FunctionInstance) :
    Option (List (String × NamePlan)) :=
  if facts.selfReference then
    code.function.name.map fun name =>
      [(name, .varying (instances.map fun inst => { value := .var inst.name, risky := true }))]
  else some []

def planFactory (written : Written) (code : CodeBlock) (facts : FunctionFacts)
    (instances : List FunctionInstance) : Except Failure (Option FactoryPlan) := do
  match instances with
  | [] => return none
  | first :: _ =>
    if instances.any fun inst =>
        inst.root ≠ first.root || !sameModules inst.modules first.modules then
      return none
    let sameScopes ← instances.allM fun inst =>
      if inst.scopes.length = first.scopes.length then written.sameOwners inst first
      else return false
    unless sameScopes do return none
    match ← written.planNames instances (facts.unbound.map (·.1)) with
    | none => return none
    | some names =>
      return (planOwnName code facts instances).map fun own =>
        { names := names ++ own
          scopeCount := first.scopes.length
          modules := first.modules
          placement := first.root }

end Written

end HeapScript
