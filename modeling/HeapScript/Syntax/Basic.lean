import HeapScript.Decimal.Nearest

/-!
Syntax trees of JavaScript: expressions, statements, functions and classes.

The trees hold what a rebuilt script contains, not the whole language. Lists of expressions,
statements and the like are ordinary lists, so a traversal is a family of functions by structural
recursion, one for each kind of node and one for each kind of list.
-/

namespace HeapScript

/-! ## Constants and operators -/

inductive Constant where
  | undefined
  | null
  | bool (value : Bool)
  | number (value : Double)
  | string (value : String)
deriving DecidableEq, Repr, Inhabited

/-- Equality of constants as the script sees it: numbers are compared as numbers. -/
def Constant.same : Constant → Constant → Bool
  | .undefined, .undefined => true
  | .null, .null => true
  | .bool left, .bool right => left == right
  | .number left, .number right => left.sameNumber right
  | .string left, .string right => left == right
  | _, _ => false

inductive BinaryOp where
  | add | sub | mul | div | rem
  | bitAnd | bitOr | bitXor
  | shiftLeft | shiftRight | shiftRightUnsigned
deriving DecidableEq, Repr

inductive CompareOp where
  | strictEq | strictNe | looseEq | looseNe
  | lt | le | gt | ge
  | instanceOf
deriving DecidableEq, Repr

inductive UnaryOp where
  | neg | plus | bitNot | void
deriving DecidableEq, Repr

inductive DeclarationKind where
  | var | letDecl | constDecl
deriving DecidableEq, Repr

/-- Whether the declaration is scoped to its block rather than to its function. -/
def DeclarationKind.isLexical : DeclarationKind → Bool
  | .var => false
  | .letDecl | .constDecl => true

inductive MethodKind where
  | constructor | method | getter | setter
deriving DecidableEq, Repr

/-! ## Trees -/

mutual

inductive Expr where
  | literal (value : Constant)
  | var (name : String)
  | thisRef
  | superRef
  | binary (op : BinaryOp) (lhs rhs : Expr)
  | unary (op : UnaryOp) (operand : Expr)
  | compare (op : CompareOp) (lhs rhs : Expr)
  | member (object : Expr) (field : String)
  | index (collection index : Expr)
  | call (callee : Expr) (args : List Expr)
  | construct (callee : Expr) (args : List Expr)
  | conditional (condition thenValue elseValue : Expr)
  | logicalOr (lhs rhs : Expr)
  | logicalAnd (lhs rhs : Expr)
  | array (items : List Expr)
  | object (fields : List ObjectField)
  | not (operand : Expr)
  | typeOf (operand : Expr)
  | isIn (key object : Expr)
  | postIncrement (operand : Expr)
  | postDecrement (operand : Expr)
  | spread (operand : Expr)
  | function (definition : FunctionDef)
  | classExpr (definition : ClassDef)

structure ObjectField where
  key : String
  value : Expr

inductive Stmt where
  | declare (kind : DeclarationKind) (name : String) (init : Option Expr)
  | assign (target value : Expr)
  | compoundAssign (target : Expr) (op : BinaryOp) (value : Expr)
  | expr (value : Expr)
  | ifElse (condition : Expr) (thenBody elseBody : List Stmt)
  | whileLoop (condition : Expr) (body : List Stmt)
  /-- A loop over an iterable, whose variable is a new constant or one that exists already. -/
  | forOf (binding : String) (declares : Bool) (iterable : Expr) (body : List Stmt)
  | block (body : List Stmt)
  | returnValue (value : Option Expr)
  | breakLoop
  | continueLoop
  | switch (value : Expr) (cases : List SwitchCase) (defaultBody : Option (List Stmt))
  | throwValue (value : Expr)
  | function (definition : FunctionDef)

structure SwitchCase where
  test : Expr
  body : List Stmt

inductive Param where
  | plain (name : String)
  | rest (name : String)
  | withDefault (name : String) (value : Expr)
  /-- A destructuring pattern, written as an array or object literal of names. -/
  | pattern (shape : Expr)

/-- A function declaration, function expression, arrow function or class member body. -/
structure FunctionDef where
  name : Option String := none
  params : List Param := []
  body : List Stmt := []
  directives : List String := []
  isArrow : Bool := false
  isGenerator : Bool := false
  isAsync : Bool := false

structure ClassDef where
  name : Option String
  superClass : Option Expr
  members : List ClassMember

structure ClassMember where
  kind : MethodKind
  key : MemberKey
  isStatic : Bool
  function : FunctionDef

inductive MemberKey where
  | named (name : String)
  | computed (value : Expr)

end

instance : Inhabited Expr := ⟨.thisRef⟩
instance : Inhabited Stmt := ⟨.breakLoop⟩
instance : Inhabited FunctionDef := ⟨{}⟩

/-! ## Building trees -/

namespace Expr

def undefined : Expr := .literal .undefined

def null : Expr := .literal .null

def string (value : String) : Expr := .literal (.string value)

def nat (value : Nat) : Expr := .literal (.number (Double.ofNat value))

def methodCall (object : Expr) (method : String) (args : List Expr) : Expr :=
  .call (.member object method) args

def splitDots : List Char → List (List Char)
  | [] => [[]]
  | '.' :: chars => [] :: splitDots chars
  | char :: chars =>
    match splitDots chars with
    | [] => [[char]]
    | part :: parts => (char :: part) :: parts

/-- The member chain of a dotted path such as `globalThis.console.log`. -/
def path (dotted : String) : Expr :=
  match (splitDots dotted.toList).map String.ofList with
  | [] => .var dotted
  | first :: fields => fields.foldl .member (.var first)

def varName? : Expr → Option String
  | .var name => some name
  | _ => none

end Expr

namespace Stmt

def var (name : String) (init : Expr) : Stmt :=
  .declare .var name (some init)

def throwMessage (message : String) : Stmt :=
  .throwValue (.construct (.var "Error") [.string message])

end Stmt

/-! ## Names bound by parameters -/

mutual

def Expr.patternNames : Expr → List String
  | .var name => [name]
  | .array items => patternNamesOfItems items
  | .object fields => patternNamesOfFields fields
  | .spread operand => operand.patternNames
  | _ => []

def patternNamesOfItems : List Expr → List String
  | [] => []
  | item :: items => item.patternNames ++ patternNamesOfItems items

def patternNamesOfFields : List ObjectField → List String
  | [] => []
  | ⟨_, value⟩ :: fields => value.patternNames ++ patternNamesOfFields fields

end

def Param.boundNames : Param → List String
  | .plain name | .rest name | .withDefault name _ => [name]
  | .pattern shape => shape.patternNames

example :
    (Param.pattern (.array [.var "a", .spread (.var "b"), .thisRef])).boundNames = ["a", "b"] := rfl

end HeapScript
