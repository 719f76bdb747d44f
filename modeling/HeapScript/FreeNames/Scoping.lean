import HeapScript.Syntax.Basic

/-!
Which names a function or block binds, and what a name means in its surroundings.

A function binds its parameters, its `var` and function declarations wherever they stand outside
nested functions, its own `let` and `const` declarations and, unless it is an arrow, `arguments`.
A block binds its own `let` and `const` declarations.
-/

namespace HeapScript

/-! ## Declared names -/

/-- The names that a list of statements declares with `let` or `const`, outside nested blocks. -/
def lexicalNames : List Stmt → List String
  | [] => []
  | .declare .letDecl name _ :: stmts => name :: lexicalNames stmts
  | .declare .constDecl name _ :: stmts => name :: lexicalNames stmts
  | _ :: stmts => lexicalNames stmts

def switchNames (cases : List SwitchCase) (defaultBody : Option (List Stmt)) : List String :=
  cases.flatMap (fun switchCase => lexicalNames switchCase.body) ++
    lexicalNames (defaultBody.getD [])

mutual

def Stmt.hoistedNames : Stmt → List String
  | .declare .var name _ => [name]
  | .function definition => definition.name.toList
  | .ifElse _ thenBody elseBody => hoistedNames thenBody ++ hoistedNames elseBody
  | .whileLoop _ body => hoistedNames body
  | .forOf _ _ _ body => hoistedNames body
  | .block body => hoistedNames body
  | .switch _ cases none => hoistedNamesOfCases cases
  | .switch _ cases (some body) => hoistedNamesOfCases cases ++ hoistedNames body
  | _ => []

def hoistedNames : List Stmt → List String
  | [] => []
  | stmt :: stmts => stmt.hoistedNames ++ hoistedNames stmts

def hoistedNamesOfCases : List SwitchCase → List String
  | [] => []
  | ⟨_, body⟩ :: cases => hoistedNames body ++ hoistedNamesOfCases cases

end

namespace FunctionDef

def boundNames (definition : FunctionDef) : List String :=
  definition.params.flatMap Param.boundNames ++
    (if definition.isArrow then [] else ["arguments"]) ++
    hoistedNames definition.body ++ lexicalNames definition.body

def ownName (definition : FunctionDef) : Option String :=
  if definition.isArrow then none else definition.name

end FunctionDef

/-! ## Surroundings -/

structure Surroundings where
  bound : List String
  ownName : Option String
  /-- The number of functions other than arrows between the examined function and the node. -/
  depth : Nat
deriving Repr

inductive Meaning where
  | bound
  | arguments
  | itself
  | free
deriving DecidableEq, Repr

namespace Surroundings

def meaning (around : Surroundings) (name : String) : Meaning :=
  if name ∈ around.bound then .bound
  else if name = "arguments" ∧ around.depth = 0 then .arguments
  else if around.ownName = some name then .itself
  else .free

def within (around : Surroundings) (names : List String) : Surroundings :=
  { around with bound := names ++ around.bound }

/-- The surroundings inside a nested function whose scope holds the given names. -/
def withinFunction (around : Surroundings) (isArrow : Bool) (names : List String) : Surroundings :=
  let inner := around.within names
  if isArrow then inner else { inner with depth := around.depth + 1 }

end Surroundings

namespace FunctionDef

/-- The surroundings of the parameters and the body of the examined function. Its `arguments` are
not held as a bound name, because they have a meaning of their own. -/
def surroundings (definition : FunctionDef) : Surroundings :=
  let names := definition.boundNames
  { bound := names.filter (· ≠ "arguments")
    ownName := definition.ownName.filter (· ∉ names)
    depth := 0 }

/-- The names in the scope of a nested function. A function expression binds its own name, too. -/
def nestedNames (definition : FunctionDef) (isExpression : Bool) : List String :=
  (if isExpression then definition.ownName.toList else []) ++ definition.boundNames

end FunctionDef

/-! ## Module loads -/

/-- The module of a call `require("module")`, given by its callee and arguments. -/
def loadedModule? : Expr → List Expr → Option String
  | .var "require", [.literal (.string name)] => some name
  | _, _ => none

def Surroundings.freeLoad? (around : Surroundings) (callee : Expr) (args : List Expr) :
    Option String :=
  (loadedModule? callee args).filter fun _ => "require" ∉ around.bound

end HeapScript
