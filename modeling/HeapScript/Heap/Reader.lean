import HeapScript.Heap.Graph
import HeapScript.Syntax.Reader
import HeapScript.Table.Sorting
import HeapScript.Text.NameSet

/-!
Reading heap graphs from JSON.
-/

namespace HeapScript

open Json

def Handle.ofJson? (json : Json) : Option (Handle kind) :=
  json.word?.map (⟨·⟩)

def Property.ofJson? (json : Json) : Option Property := do
  let fields ← json.fields? ["key", "value"]
  return {
    key := ← fields.required "key" string?
    value := ← fields.required "value" Handle.ofJson? }

def Integrity.ofJson? : Json → Option Integrity :=
  choice? [("Sealed", .isSealed), ("Frozen", .frozen)]

def ObjectValue.ofJson? (json : Json) : Option ObjectValue := do
  let fields ← json.fields?
    ["properties", "prototype", "alias", "integrity", "lazy", "delay_into"]
  return {
    properties := ← fields.withDefault "properties" (list? Property.ofJson?) []
    prototype := ← fields.optional "prototype" Handle.ofJson?
    knownPath := ← fields.optional "alias" string?
    integrity := ← fields.optional "integrity" Integrity.ofJson?
    isLazy := ← fields.withDefault "lazy" bool? false
    delayInto := ← fields.optional "delay_into" Handle.ofJson? }

def ClassMethod.ofJson? (json : Json) : Option ClassMethod := do
  let fields ← json.fields?
    ["kind", "key", "is_static", "computed", "class_prototype", "constructor", "super_class"]
  return {
    kind := ← fields.required "kind" MethodKind.ofJson?
    key := ← fields.required "key" string?
    isStatic := ← fields.withDefault "is_static" bool? false
    isComputed := ← fields.withDefault "computed" bool? false
    classPrototype := ← fields.required "class_prototype" Handle.ofJson?
    constructor := ← fields.required "constructor" Handle.ofJson?
    superClass := ← fields.optional "super_class" Handle.ofJson? }

def FunctionValue.ofJson? (json : Json) : Option FunctionValue := do
  let fields ← json.fields? ["code", "environment", "properties", "prototype", "class_method"]
  return {
    code := ← fields.required "code" Handle.ofJson?
    environment := ← fields.optional "environment" Handle.ofJson?
    properties := ← fields.withDefault "properties" (list? Property.ofJson?) []
    prototype := ← fields.optional "prototype" Handle.ofJson?
    classMethod := ← fields.optional "class_method" ClassMethod.ofJson? }

def HeapValue.ofJson? (json : Json) : Option HeapValue := do
  match ← json.variant? with
  | ("Primitive", some data) => (Constant.ofJson? data).map .primitive
  | ("Object", some data) => (ObjectValue.ofJson? data).map .object
  | ("Function", some data) => (FunctionValue.ofJson? data).map .function
  | _ => none

def Span.ofJson? (json : Json) : Option Span := do
  let fields ← json.fields? ["start", "end"]
  return { first := ← fields.required "start" word?, last := ← fields.required "end" word? }

def CodeBlock.ofJson? (json : Json) : Option CodeBlock := do
  let fields ← json.fields?
    ["name", "params", "body", "directives", "is_arrow", "is_generator", "is_async", "span", "tag"]
  return {
    function := {
      name := ← fields.optional "name" string?
      params := ← fields.withDefault "params" (list? Param.ofJson?) []
      body := ← fields.withDefault "body" (list? Stmt.ofJson?) []
      directives := ← fields.withDefault "directives" (list? string?) []
      isArrow := ← fields.withDefault "is_arrow" bool? false
      isGenerator := ← fields.withDefault "is_generator" bool? false
      isAsync := ← fields.withDefault "is_async" bool? false }
    span := ← fields.withDefault "span" Span.ofJson? {}
    tag := ← fields.optional "tag" word? }

def Scope.ofJson? (json : Json) : Option Scope := do
  let fields ← json.fields? ["parent", "bindings", "modified", "root"]
  return {
    parent := ← fields.optional "parent" Handle.ofJson?
    bindings := ⟨← fields.withDefault "bindings" (table? (nullable? Handle.ofJson?)) []⟩
    modified := NameSet.ofList (← fields.withDefault "modified" (list? string?) [])
    root := ← fields.optional "root" Handle.ofJson? }

def Effect.ofJson? (json : Json) : Option Effect := do
  match ← json.variant? with
  | ("GlobalAssign", some data) =>
    let fields ← data.fields? ["name", "value"]
    return .globalAssign (← fields.required "name" string?)
      (← fields.required "value" Handle.ofJson?)
  | ("PropertyAssign", some data) =>
    let fields ← data.fields? ["object", "key", "value"]
    return .propertyAssign (← fields.required "object" Handle.ofJson?)
      (← fields.required "key" string?) (← fields.required "value" Handle.ofJson?)
  | ("Call", some data) =>
    let fields ← data.fields? ["callee", "args"]
    return .call (← fields.required "callee" Handle.ofJson?)
      (← fields.required "args" (list? Handle.ofJson?))
  | _ => none

def Root.ofJson? (json : Json) : Option Root := do
  let fields ← json.fields?
    ["function", "body", "values", "modified_bindings", "result", "parent"]
  return {
    function := ← fields.required "function" Handle.ofJson?
    body := ← fields.withDefault "body" (list? Stmt.ofJson?) []
    values := ← fields.withDefault "values" (list? Handle.ofJson?) []
    modifiedBindings :=
      ← fields.withDefault "modified_bindings" (list? (pair? string? Handle.ofJson?)) []
    result := ← fields.optional "result" Handle.ofJson?
    parent := ← fields.optional "parent" Handle.ofJson? }

/-- Module replacements in ascending order of the modules. -/
def sortedReplacements (replacements : List (String × ValueId)) : List (String × ValueId) :=
  sortBy replacements fun left right => left.1 ≤ right.1

def HeapGraph.ofJson? (json : Json) : Option HeapGraph := do
  let fields ← json.fields? ["values", "code_blocks", "scopes", "effects", "additional_functions",
    "module_replacements"]
  return {
    values := .ofList (← fields.required "values" (list? HeapValue.ofJson?))
    codeBlocks := .ofList (← fields.required "code_blocks" (list? CodeBlock.ofJson?))
    scopes := .ofList (← fields.withDefault "scopes" (list? Scope.ofJson?) [])
    effects := ← fields.withDefault "effects" (list? Effect.ofJson?) []
    roots := ← fields.withDefault "additional_functions" (list? Root.ofJson?) []
    moduleReplacements := sortedReplacements
      (← fields.withDefault "module_replacements" (table? Handle.ofJson?) []) }

end HeapScript
