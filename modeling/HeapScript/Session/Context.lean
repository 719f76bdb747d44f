import HeapScript.FreeNames.Mentions
import HeapScript.Heap.Validation
import HeapScript.Output.Instance
import HeapScript.Settings

/-!
What is known before the first value is written: the graph, the settings and the facts that are read
off the graph as a whole.
-/

namespace HeapScript

structure Context where
  graph : HeapGraph
  settings : Settings
  facts : Arena .code FunctionFacts
  prototypeOwners : KeyedTable ValueId ValueId
  classMembers : KeyedTable ValueId (List ValueId)
  modified : List BindingKey

namespace HeapGraph

def codeFacts (graph : HeapGraph) : Arena .code FunctionFacts :=
  .ofList (graph.codeBlocks.toList.map (·.function.facts))

def usedNames (graph : HeapGraph) (facts : Arena .code FunctionFacts) : List String :=
  facts.toList.flatMap (·.identifiers) ++ graph.roots.flatMap fun root => identifiersOf root.body

def functions (graph : HeapGraph) : List (ValueId × FunctionValue) :=
  graph.values.entries.filterMap fun (id, value) => value.asFunction?.map (id, ·)

def ownedPrototypes (function : FunctionValue) : List ValueId :=
  function.prototype.toList ++
    match function.classMethod with
    | some method => if method.kind = .constructor then [method.classPrototype] else []
    | none => []

/-- The owner of each prototype; the first function that claims it wins. -/
def prototypeOwners (graph : HeapGraph) : KeyedTable ValueId ValueId :=
  graph.functions.foldl (fun owners (id, function) =>
    (ownedPrototypes function).foldl
      (fun owners prototype => owners.insertIfNew prototype id) owners) {}

def classMembers (graph : HeapGraph) : KeyedTable ValueId (List ValueId) :=
  graph.functions.foldl (fun classes (id, function) =>
    match function.classMethod with
    | some method =>
      if method.kind = .constructor then classes
      else
        let members := (classes.get? method.classPrototype).getD []
        classes.insert method.classPrototype (members ++ [id])
    | none => classes) {}

def modifiedByFunction (graph : HeapGraph) (facts : Arena .code FunctionFacts)
    (function : FunctionValue) : Except Failure (List BindingKey) := do
  match function.environment with
  | none => return []
  | some environment =>
    match facts.get? function.code with
    | none => throw (.noFacts function.code)
    | some codeFacts =>
      let marked ← codeFacts.unbound.mapM fun (name, _) => do
        match graph.declaringScope? (some environment) name with
        | none => return []
        | some id =>
          let scope ← graph.scope id
          return if name ∈ scope.modified ∨ name ∈ codeFacts.modified then
            [⟨id, name⟩] else []
      return marked.flatten

def modifiedByRoot (graph : HeapGraph) (root : Root) : Except Failure (List BindingKey) := do
  let environment := (← graph.value root.function).asFunction?.bind (·.environment)
  return root.modifiedBindings.filterMap fun (name, _) =>
    (graph.declaringScope? environment name).map (⟨·, name⟩)

def modifiedBindings (graph : HeapGraph) (facts : Arena .code FunctionFacts) :
    Except Failure (List BindingKey) := do
  let byFunctions ← graph.functions.mapM fun (_, function) =>
    graph.modifiedByFunction facts function
  let byRoots ← graph.roots.mapM graph.modifiedByRoot
  return byFunctions.flatten ++ byRoots.flatten

end HeapGraph

namespace Context

/-- Checks a graph and collects what is needed to write it. -/
def prepare (graph : HeapGraph) (settings : Settings) : Except Failure Context := do
  graph.validate
  let facts := graph.codeFacts
  return {
    graph, settings, facts
    prototypeOwners := graph.prototypeOwners
    classMembers := graph.classMembers
    modified := ← graph.modifiedBindings facts }

def factsOf (context : Context) (code : CodeId) : Except Failure FunctionFacts :=
  match context.facts.get? code with
  | some facts => .ok facts
  | none => .error (.noFacts code)

/-- Whether a property is a member that a class definition installs on the given holder: on the
constructor for a static member, on the class prototype otherwise. -/
def isMemberSlot (context : Context) (holder : ValueId) (isStatic : Bool) (property : Property) :
    Bool :=
  match (context.graph.values.get? property.value).bind HeapValue.asFunction? with
  | some function => function.classMethod.any fun method =>
    let owner := if isStatic then method.constructor else method.classPrototype
    method.isStatic == isStatic && method.key == property.key && owner == holder
  | none => false

end Context

end HeapScript
