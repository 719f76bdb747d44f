import HeapScript.Session.Values

/-!
The pass over a heap graph: all effects in their order, then all optimized roots.
-/

namespace HeapScript

structure RootRecord where
  function : ValueId
  body : BodyId
  parent : Option ValueId
  verbatim : List Stmt
  /-- The captured names that are assigned before the function returns. -/
  modifiedBindings : List (String × Expr)
  result : Option Expr
  depth : Nat
deriving Inhabited

namespace Session

variable {m : Type → Type} [MonadSession m]

/-! ## Effects -/

def effectStmt (context : Context) : Effect → m Stmt
  | .globalAssign name value => do
    return .assign (.member (.var "globalThis") name) (← writeValue context value)
  | .propertyAssign object key value => do
    let target ← writeValue context object
    return .assign (.member target key) (← writeValue context value)
  | .call callee args => do
    let function ← writeValue context callee
    return .expr (.call function (← args.mapM (writeValue context)))

def writeEffects (context : Context) : m Unit :=
  context.graph.effects.forM fun effect => do emit (← effectStmt context effect)

/-! ## Optimized roots -/

def nestingFrom (graph : HeapGraph) : (fuel : Nat) → Option ValueId → Nat
  | 0, _ => 0
  | _, none => 0
  | fuel + 1, some parent => nestingFrom graph fuel ((graph.root? parent).bind (·.parent)) + 1

/-- The number of roots around a root. In a cycle of parents it exceeds the number of all roots. -/
def nesting (graph : HeapGraph) (root : Root) : Nat :=
  nestingFrom graph (graph.roots.length + 1) root.parent

/-- All roots with their nesting, outer ones before inner ones. -/
def orderedRoots (graph : HeapGraph) : List (Nat × Root) :=
  sortBy (graph.roots.map fun root => (nesting graph root, root)) fun left right =>
    left.1 ≤ right.1

def recordedBody? (records : List RootRecord) (function : ValueId) : Option BodyId :=
  (records.reverse.find? (·.function = function)).map (·.body)

def parentBody (records : List RootRecord) (root : Root) : Except Failure BodyId :=
  match root.parent with
  | none => .ok Bodies.global
  | some parent =>
    match recordedBody? records parent with
    | some body => .ok body
    | none => .error (.rootWithoutBody parent)

def rootEnvironment (graph : HeapGraph) (function : ValueId) : Except Failure (Option ScopeId) := do
  match (← graph.value function).asFunction? with
  | some found => return found.environment
  | none => throw (.rootNotFunction function)

def captureModified (context : Context) (root : Root) (environment : Option ScopeId) :
    m Unit :=
  root.modifiedBindings.forM fun (name, _) => do
    let key ← capture context (writeValue context) root.function environment name
    updateInstance root.function fun found =>
      { found with bindings := found.bindings.insertIfNew name key }

def writeRoot (context : Context) (records : List RootRecord) (depth : Nat) (root : Root) :
    m RootRecord := do
  let outer ← parentBody records root
  inBody outer do
    let _ ← writeValue context root.function
  let environment ← rootEnvironment context.graph root.function
  inBody (← instanceOf root.function).declarationBody (captureModified context root environment)
  let body ← newBody (.root root.function) outer
  inBody body do
    root.values.forM fun value => do
      let _ ← writeValue context value
    let modifiedBindings ← root.modifiedBindings.mapM fun (name, value) =>
      return (name, ← writeValue context value)
    let result ← root.result.mapM (writeValue context)
    return {
      function := root.function, body, parent := root.parent, verbatim := root.body
      modifiedBindings, result, depth }

def writeRootsAfter (context : Context) : List RootRecord → List (Nat × Root) →
    m (List RootRecord)
  | records, [] => return records
  | records, (depth, root) :: rest => do
    let record ← writeRoot context records depth root
    writeRootsAfter context (records ++ [record]) rest

/-- Writes all roots, outer ones before inner ones. -/
def writeRoots (context : Context) : m (List RootRecord) :=
  writeRootsAfter context [] (orderedRoots context.graph)

end Session

end HeapScript
