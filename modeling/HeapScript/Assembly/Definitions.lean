import HeapScript.Assembly.Classes
import HeapScript.Assembly.Factory

/-!
Definitions of the instances of a code block: a copy of the code for each of them, or one factory
with a stub for each.
-/

namespace HeapScript

namespace Assembly

/-! ## Copies -/

def defineClone (written : Written) (code : CodeBlock) (inst : FunctionInstance) :
    AssemblyM Unit := do
  let point ← inst.definitionPoint
  let replaced := code.function.replace (← written.replacementsFor inst)
  let prologue ← written.scopePrologue inst fun _ scope => written.selectorLiteral scope
  let init ← delayedInit inst
  let definition := { replaced with body := init ++ prologue ++ replaced.body }
  match inst.method with
  | none => splice point inst.serial (.var inst.name (.function definition) :: inst.extras)
  | some method =>
    addClassMember method code definition
    unless method.kind = .constructor do
      splice point inst.serial (← memberGroup written inst method)

/-! ## Factories -/

/-- The factory of a code block. Its leading parameters are the selectors of the captured scopes and
the varying names. -/
def factoryDefinition (written : Written) (code : CodeBlock) (plan : FactoryPlan) (name : String)
    (first : FunctionInstance) : Except Failure FunctionDef := do
  let replaced := code.function.replace
    { names := plan.bakedNames, modules := plan.modules.entries }
  let selectors := (List.range plan.scopeCount).map fun position =>
    Param.plain (selectorParamName position)
  let prologue ← written.scopePrologue first fun position _ =>
    return .var (selectorParamName position)
  return { replaced with
    name := some name
    params := selectors ++ plan.varyingNames.map Param.plain ++ replaced.params
    body := prologue ++ replaced.body
    isArrow := false }

/-- The parameters of a stub and the arguments that forward them. Default values stay with the
factory, where captured names have their meaning. -/
def forwardParams (function : ValueId) : List Param → Except Failure (List Param × List Expr)
  | [] => return ([], [])
  | param :: params => do
    let (kept, arg) ← match param with
      | .plain name | .withDefault name _ => pure (Param.plain name, Expr.var name)
      | .rest name => pure (Param.rest name, Expr.spread (.var name))
      | .pattern _ => throw (.patternNotForwarded function)
    let (otherParams, otherArgs) ← forwardParams function params
    return (kept :: otherParams, arg :: otherArgs)

def callStub (inst : FunctionInstance) (code : CodeBlock) (factory : String) (leading : List Expr) :
    AssemblyM Stmt := do
  let (params, args) ← forwardParams inst.function code.function.params
  let init ← delayedInit inst
  let call := Expr.methodCall (.var factory) "call" (.thisRef :: leading ++ args)
  return .function { name := some inst.name, params, body := init ++ [.returnValue (some call)] }

def bindStub (inst : FunctionInstance) (factory : String) (leading : List Expr) : Stmt :=
  .var inst.name (.methodCall (.var factory) "bind" (.null :: leading))

/-- Whether a closure has to call its factory: a bound factory has no receiver, no `prototype` and
no work of its own on the first call, and its arguments must exist when it is bound. -/
def needsCall (facts : FunctionFacts) (inst : FunctionInstance) (risky : Bool) :
    Except Failure Bool := do
  return inst.delayed.isSome || facts.usesThis || risky || (← inst.usedBeforeDefinition) ||
    inst.hasPrototypeAlias

def defineStub (written : Written) (code : CodeBlock) (facts : FunctionFacts) (plan : FactoryPlan)
    (factory : String) (number : Nat) (inst : FunctionInstance) : AssemblyM Unit := do
  let point ← inst.definitionPoint
  let selectors ← (inst.scopes.mapM written.selectorLiteral : Except Failure (List Expr))
  let leading := selectors ++ (plan.argsOf number).map (·.value)
  let stub ←
    if ← needsCall facts inst (plan.isRisky number) then do
      count fun report => { report with callStubs := report.callStubs + 1 }
      callStub inst code factory leading
    else do
      count fun report => { report with bindStubs := report.bindStubs + 1 }
      pure (bindStub inst factory leading)
  splice point inst.serial (stub :: inst.extras)

def defineFactory (written : Written) (code : CodeBlock) (facts : FunctionFacts)
    (plan : FactoryPlan) (first : FunctionInstance) (instances : List FunctionInstance) :
    AssemblyM Unit := do
  count fun report => { report with factoryBlocks := report.factoryBlocks + 1 }
  let name := s!"$f_{(← get).factoryCount}"
  modify fun assembly => { assembly with factoryCount := assembly.factoryCount + 1 }
  let definition ← factoryDefinition written code plan name first
  addToPrelude plan.placement [.function definition]
  instances.zipIdx.forM fun (inst, number) =>
    defineStub written code facts plan name number inst

/-! ## Code blocks -/

/-- Whether the closures of a code block are small and read no captured scope, so that each of them
is written out. -/
def shouldInline (settings : Settings) (code : CodeBlock) (instances : List FunctionInstance) :
    Bool :=
  instances.all (·.scopes.isEmpty) && code.span.size ≤ settings.inlineThreshold

/-- Whether the closures of a code block may share a factory, as far as the block itself goes. -/
def isShareable (settings : Settings) (code : CodeBlock) (facts : FunctionFacts)
    (instances : List FunctionInstance) : Bool :=
  !shouldInline settings code instances && 1 < instances.length && settings.factories &&
    !facts.usesArguments && instances.all (·.method.isNone) &&
    !(code.function.isArrow && facts.usesThis)

def defineBlock (written : Written) (id : CodeId) (functions : List ValueId) : AssemblyM Unit := do
  let settings := written.context.settings
  let code ← written.context.graph.codeBlock id
  let facts ← written.context.factsOf id
  let instances ← functions.mapM fun function => written.instanceOf function
  let plan ←
    if isShareable settings code facts instances then written.planFactory code facts instances
    else pure none
  match plan, instances with
  | some plan, first :: _ => defineFactory written code facts plan first instances
  | _, _ =>
    if shouldInline settings code instances then
      count fun report => { report with inlinedBlocks := report.inlinedBlocks + 1 }
    else
      count fun report => { report with clonedBlocks := report.clonedBlocks + 1 }
    instances.forM (defineClone written code)

structure BlockGroup where
  tag : Nat
  code : CodeId
  functions : List ValueId

def BlockGroup.comesFirst (left right : BlockGroup) : Bool :=
  left.tag < right.tag || (left.tag == right.tag && left.code.index ≤ right.code.index)

def blockGroups (written : Written) : Except Failure (List BlockGroup) := do
  let instances := written.session.instances.values.filter fun inst =>
    written.roots.all (·.function ≠ inst.function)
  let groups ← (instances.map (·.code)).eraseDups.mapM fun code => do
    let functions := (instances.filter (·.code = code)).map (·.function)
    return {
      tag := (← written.context.graph.codeBlock code).orderTag
      code
      functions := sortBy functions fun left right => left.index ≤ right.index : BlockGroup }
  return sortBy groups BlockGroup.comesFirst

end Assembly

end HeapScript
