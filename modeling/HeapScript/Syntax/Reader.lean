import HeapScript.Json.Reader
import HeapScript.Syntax.Basic

/-!
Reading syntax trees from JSON. The tree of a value is never nested deeper than the value itself,
whose depth is the fuel of the readers.
-/

namespace HeapScript

open Json

/-! ## Constants and operators -/

def Constant.ofJson? (json : Json) : Option Constant := do
  match ← json.variant? with
  | ("Undefined", data) => bareCase data .undefined
  | ("Null", data) => bareCase data .null
  | ("Bool", some data) => data.bool?.map .bool
  | ("Number", some data) => data.double?.map .number
  | ("String", some data) => data.string?.map .string
  | _ => none

def BinaryOp.ofJson? : Json → Option BinaryOp :=
  choice? [("Add", .add), ("Sub", .sub), ("Mul", .mul), ("Div", .div), ("Rem", .rem),
    ("BitAnd", .bitAnd), ("BitOr", .bitOr), ("BitXor", .bitXor), ("Shl", .shiftLeft),
    ("Shr", .shiftRight), ("UShr", .shiftRightUnsigned)]

def CompareOp.ofJson? : Json → Option CompareOp :=
  choice? [("Eq", .strictEq), ("Ne", .strictNe), ("LooseEq", .looseEq), ("LooseNe", .looseNe),
    ("Lt", .lt), ("Le", .le), ("Gt", .gt), ("Ge", .ge), ("InstanceOf", .instanceOf)]

def UnaryOp.ofJson? : Json → Option UnaryOp :=
  choice? [("Neg", .neg), ("Plus", .plus), ("BitNot", .bitNot), ("Void", .void)]

def DeclarationKind.ofJson? : Json → Option DeclarationKind :=
  choice? [("Var", .var), ("Let", .letDecl), ("Const", .constDecl)]

def MethodKind.ofJson? : Json → Option MethodKind :=
  choice? [("Constructor", .constructor), ("Method", .method), ("Getter", .getter),
    ("Setter", .setter)]

/-! ## Trees -/

mutual

def exprFrom? : (fuel : Nat) → Json → Option Expr
  | 0, _ => none
  | fuel + 1, json => do
    let read := exprFrom? fuel
    match ← json.variant? with
    | ("Literal", some data) => (Constant.ofJson? data).map .literal
    | ("Var", some data) => data.string?.map .var
    | ("This", data) => bareCase data .thisRef
    | ("Super", data) => bareCase data .superRef
    | ("Binary", some data) =>
      let fields ← data.fields? ["op", "lhs", "rhs"]
      return .binary (← fields.required "op" BinaryOp.ofJson?) (← fields.required "lhs" read)
        (← fields.required "rhs" read)
    | ("Unary", some data) =>
      let fields ← data.fields? ["op", "expr"]
      return .unary (← fields.required "op" UnaryOp.ofJson?) (← fields.required "expr" read)
    | ("Cmp", some data) =>
      let fields ← data.fields? ["kind", "lhs", "rhs"]
      return .compare (← fields.required "kind" CompareOp.ofJson?)
        (← fields.required "lhs" read) (← fields.required "rhs" read)
    | ("Field", some data) =>
      let fields ← data.fields? ["object", "field"]
      return .member (← fields.required "object" read) (← fields.required "field" string?)
    | ("Index", some data) =>
      let fields ← data.fields? ["collection", "index"]
      return .index (← fields.required "collection" read) (← fields.required "index" read)
    | ("Call", some data) =>
      let fields ← data.fields? ["callee", "args"]
      return .call (← fields.required "callee" read) (← fields.required "args" (list? read))
    | ("New", some data) =>
      let fields ← data.fields? ["callee", "args"]
      return .construct (← fields.required "callee" read)
        (← fields.required "args" (list? read))
    | ("Ternary", some data) =>
      let fields ← data.fields? ["cond", "then_val", "else_val"]
      return .conditional (← fields.required "cond" read) (← fields.required "then_val" read)
        (← fields.required "else_val" read)
    | ("LogicalOr", some data) =>
      let fields ← data.fields? ["lhs", "rhs"]
      return .logicalOr (← fields.required "lhs" read) (← fields.required "rhs" read)
    | ("LogicalAnd", some data) =>
      let fields ← data.fields? ["lhs", "rhs"]
      return .logicalAnd (← fields.required "lhs" read) (← fields.required "rhs" read)
    | ("ArrayInit", some data) => (list? read data).map .array
    | ("ObjectInit", some data) =>
      let fields ← list? (pair? string? read) data
      return .object (fields.map fun (key, value) => ⟨key, value⟩)
    | ("Not", some data) => (read data).map .not
    | ("TypeOf", some data) => (read data).map .typeOf
    | ("In", some data) =>
      let fields ← data.fields? ["key", "object"]
      return .isIn (← fields.required "key" read) (← fields.required "object" read)
    | ("PostIncrement", some data) => (read data).map .postIncrement
    | ("PostDecrement", some data) => (read data).map .postDecrement
    | ("Spread", some data) => (read data).map .spread
    | ("Function", some data) => (functionFrom? fuel data).map .function
    | ("Class", some data) => (classFrom? fuel data).map .classExpr
    | _ => none

def stmtFrom? : (fuel : Nat) → Json → Option Stmt
  | 0, _ => none
  | fuel + 1, json => do
    let read := exprFrom? fuel
    let readBody := list? (stmtFrom? fuel)
    match ← json.variant? with
    | ("VarDecl", some data) =>
      let fields ← data.fields? ["kind", "name", "init"]
      return .declare (← fields.required "kind" DeclarationKind.ofJson?)
        (← fields.required "name" string?) (← fields.nullable "init" read)
    | ("Assign", some data) =>
      let fields ← data.fields? ["target", "value"]
      return .assign (← fields.required "target" read) (← fields.required "value" read)
    | ("CompoundAssign", some data) =>
      let fields ← data.fields? ["target", "op", "value"]
      return .compoundAssign (← fields.required "target" read)
        (← fields.required "op" BinaryOp.ofJson?) (← fields.required "value" read)
    | ("Expr", some data) => (read data).map .expr
    | ("If", some data) =>
      let fields ← data.fields? ["cond", "then_body", "else_body"]
      return .ifElse (← fields.required "cond" read) (← fields.required "then_body" readBody)
        (← fields.required "else_body" readBody)
    | ("While", some data) =>
      let fields ← data.fields? ["cond", "body"]
      return .whileLoop (← fields.required "cond" read) (← fields.required "body" readBody)
    | ("ForOf", some data) =>
      let fields ← data.fields? ["binding", "declare", "iterable", "body"]
      return .forOf (← fields.required "binding" string?) (← fields.required "declare" bool?)
        (← fields.required "iterable" read) (← fields.required "body" readBody)
    | ("Block", some data) => (readBody data).map .block
    | ("Return", some data) => (nullable? read data).map .returnValue
    | ("Break", data) => bareCase data .breakLoop
    | ("Continue", data) => bareCase data .continueLoop
    | ("Switch", some data) =>
      let fields ← data.fields? ["value", "cases", "default_body"]
      let cases ← fields.required "cases" (list? (pair? read readBody))
      return .switch (← fields.required "value" read)
        (cases.map fun (test, body) => ⟨test, body⟩)
        (← fields.nullable "default_body" readBody)
    | ("Throw", some data) => (read data).map .throwValue
    | ("FunctionDecl", some data) => (functionFrom? fuel data).map .function
    | _ => none

def paramFrom? : (fuel : Nat) → Json → Option Param
  | 0, _ => none
  | fuel + 1, json => do
    match ← json.variant? with
    | ("Ident", some data) => data.string?.map .plain
    | ("Rest", some data) => data.string?.map .rest
    | ("Default", some data) =>
      let fields ← data.fields? ["name", "value"]
      return .withDefault (← fields.required "name" string?)
        (← fields.required "value" (exprFrom? fuel))
    | ("Pattern", some data) => (exprFrom? fuel data).map .pattern
    | _ => none

def functionFrom? : (fuel : Nat) → Json → Option FunctionDef
  | 0, _ => none
  | fuel + 1, json => do
    let fields ← json.fields?
      ["name", "params", "body", "directives", "is_arrow", "is_generator", "is_async"]
    return {
      name := ← fields.optional "name" string?
      params := ← fields.withDefault "params" (list? (paramFrom? fuel)) []
      body := ← fields.withDefault "body" (list? (stmtFrom? fuel)) []
      directives := ← fields.withDefault "directives" (list? string?) []
      isArrow := ← fields.withDefault "is_arrow" bool? false
      isGenerator := ← fields.withDefault "is_generator" bool? false
      isAsync := ← fields.withDefault "is_async" bool? false }

def classFrom? : (fuel : Nat) → Json → Option ClassDef
  | 0, _ => none
  | fuel + 1, json => do
    let fields ← json.fields? ["name", "super_class", "members"]
    return {
      name := ← fields.nullable "name" string?
      superClass := ← fields.nullable "super_class" (exprFrom? fuel)
      members := ← fields.required "members" (list? (classMemberFrom? fuel)) }

def classMemberFrom? : (fuel : Nat) → Json → Option ClassMember
  | 0, _ => none
  | fuel + 1, json => do
    let fields ← json.fields? ["kind", "key", "is_static", "function"]
    return {
      kind := ← fields.required "kind" MethodKind.ofJson?
      key := ← fields.required "key" (memberKeyFrom? fuel)
      isStatic := ← fields.required "is_static" bool?
      function := ← fields.required "function" (functionFrom? fuel) }

def memberKeyFrom? : (fuel : Nat) → Json → Option MemberKey
  | 0, _ => none
  | fuel + 1, json => do
    match ← json.variant? with
    | ("Named", some data) => data.string?.map .named
    | ("Computed", some data) => (exprFrom? fuel data).map .computed
    | _ => none

end

def Expr.ofJson? (json : Json) : Option Expr := exprFrom? (json.depth + 1) json

def Stmt.ofJson? (json : Json) : Option Stmt := stmtFrom? (json.depth + 1) json

def Param.ofJson? (json : Json) : Option Param := paramFrom? (json.depth + 1) json

def FunctionDef.ofJson? (json : Json) : Option FunctionDef := functionFrom? (json.depth + 1) json

end HeapScript
