import HeapScript.Decimal.Positional
import HeapScript.Heap.Graph

/-!
The text of a heap graph for its readers: one line for each primitive value, function, scope, code
block, effect and root, and one for each property of an object.
-/

namespace HeapScript

def Double.dumpTexts : Double.SpecialTexts := ⟨"NaN", "inf"⟩

def Constant.dump : Constant → String
  | .undefined => "undefined"
  | .null => "null"
  | .bool true => "true"
  | .bool false => "false"
  | .number value => value.text Double.dumpTexts
  | .string value => Text.quoted value

def MethodKind.dump : MethodKind → String
  | .constructor => "Constructor"
  | .method => "Method"
  | .getter => "Getter"
  | .setter => "Setter"

/-- The text for an optional part, which is empty if the part is missing. -/
def dumpIfSome (part : Option α) (dump : α → String) : String :=
  (part.map dump).getD ""

def ObjectValue.dump (object : ObjectValue) : String :=
  match object.knownPath with
  | some path => s!"alias {path}\n"
  | none =>
    "object" ++ (if object.isLazy then " lazy" else "") ++
      dumpIfSome object.prototype (fun id => s!" proto=v{id}") ++
      dumpIfSome object.delayInto (fun id => s!" delay_into=v{id}") ++ " \x7b\n" ++
      String.join (object.properties.map fun property =>
        "  " ++ property.key ++ ": v" ++ toString property.value ++ "\n") ++ "\x7d\n"

def ClassMethod.dump (method : ClassMethod) : String :=
  " " ++ method.kind.dump ++ " " ++ (if method.isStatic then "static " else "") ++ method.key ++
    " of v" ++ toString method.classPrototype

def FunctionValue.dump (function : FunctionValue) : String :=
  "function c" ++ toString function.code ++
    dumpIfSome function.environment (fun id => s!" env=s{id}") ++
    dumpIfSome function.classMethod ClassMethod.dump ++ "\n"

def HeapValue.dump : HeapValue → String
  | .primitive value => value.dump ++ "\n"
  | .object plain => plain.dump
  | .function closure => closure.dump

def Scope.dumpBinding (scope : Scope) (name : String) (value : Option ValueId) : String :=
  name ++ (if name ∈ scope.modified then "*" else "") ++ dumpIfSome value (fun id => s!"=v{id}")

def Scope.dump (scope : Scope) : String :=
  let bindings := scope.bindings.entries.map fun (name, value) => scope.dumpBinding name value
  dumpIfSome scope.parent (fun id => s!" parent=s{id}") ++
    " [" ++ ", ".intercalate bindings ++ "]\n"

def CodeBlock.dump (code : CodeBlock) : String :=
  code.function.name.getD "<anonymous>" ++ s!" tag={code.orderTag}" ++
    s!" span={code.span.first}..{code.span.last}\n"

def Effect.dump : Effect → String
  | .globalAssign name value => s!"effect global {name} = v{value}\n"
  | .propertyAssign object key value => s!"effect v{object}.{key} = v{value}\n"
  | .call callee args =>
    s!"effect call v{callee}(" ++ ", ".intercalate (args.map fun id => s!"v{id}") ++ ")\n"

def Root.dump (root : Root) : String :=
  s!"root v{root.function} ({root.values.length} values, " ++
    s!"{root.modifiedBindings.length} modified bindings)\n"

def HeapGraph.dump (graph : HeapGraph) : String :=
  String.join (graph.values.entries.map fun (id, value) => s!"v{id} = " ++ value.dump) ++
    String.join (graph.scopes.entries.map fun (id, scope) => s!"s{id}" ++ scope.dump) ++
    String.join (graph.codeBlocks.entries.map fun (id, code) => s!"c{id} " ++ code.dump) ++
    String.join (graph.effects.map Effect.dump) ++ String.join (graph.roots.map Root.dump)

end HeapScript
