import HeapScript.FreeNames.Scoping

/-!
Putting expressions in the place of free names and of loaded modules.

Only free occurrences are replaced; names that a scope binds, `arguments` and the function's own
name stay. A loop over an iterable takes a plain name as its variable, so a replacement that is no
name is assigned from a temporary at the start of the loop body.
-/

namespace HeapScript

/-- The expressions that stand in for free names and for whole loads of modules. -/
structure Replacements where
  names : List (String × Expr) := []
  modules : List (String × Expr) := []

/-- The variable of a loop whose proper variable is no plain name. -/
def loopTemporary : String := "__for_of_value"

namespace Replacements

def forName? (replacements : Replacements) (around : Surroundings) (name : String) : Option Expr :=
  match around.meaning name with
  | .free => replacements.names.lookup name
  | _ => none

def forLoad? (replacements : Replacements) (around : Surroundings) (callee : Expr)
    (args : List Expr) : Option Expr := do
  replacements.modules.lookup (← around.freeLoad? callee args)

/-- A loop with the given body whose variable exists already. -/
def loop (replacements : Replacements) (around : Surroundings) (binding : String) (iterable : Expr)
    (body : List Stmt) : Stmt :=
  match replacements.forName? around binding with
  | none => .forOf binding false iterable body
  | some (.var name) => .forOf name false iterable body
  | some target =>
    .forOf loopTemporary true iterable (.assign target (.var loopTemporary) :: body)

end Replacements

mutual

def Expr.replace (replacements : Replacements) (around : Surroundings) : Expr → Expr
  | .literal value => .literal value
  | .var name => (replacements.forName? around name).getD (.var name)
  | .thisRef => .thisRef
  | .superRef => .superRef
  | .binary op lhs rhs =>
    .binary op (lhs.replace replacements around) (rhs.replace replacements around)
  | .unary op operand => .unary op (operand.replace replacements around)
  | .compare op lhs rhs =>
    .compare op (lhs.replace replacements around) (rhs.replace replacements around)
  | .member object field => .member (object.replace replacements around) field
  | .index collection index =>
    .index (collection.replace replacements around) (index.replace replacements around)
  | .call callee args =>
    (replacements.forLoad? around callee args).getD
      (.call (callee.replace replacements around) (replaceExprs replacements around args))
  | .construct callee args =>
    .construct (callee.replace replacements around) (replaceExprs replacements around args)
  | .conditional condition thenValue elseValue =>
    .conditional (condition.replace replacements around) (thenValue.replace replacements around)
      (elseValue.replace replacements around)
  | .logicalOr lhs rhs =>
    .logicalOr (lhs.replace replacements around) (rhs.replace replacements around)
  | .logicalAnd lhs rhs =>
    .logicalAnd (lhs.replace replacements around) (rhs.replace replacements around)
  | .array items => .array (replaceExprs replacements around items)
  | .object fields => .object (replaceFields replacements around fields)
  | .not operand => .not (operand.replace replacements around)
  | .typeOf operand => .typeOf (operand.replace replacements around)
  | .isIn key object => .isIn (key.replace replacements around) (object.replace replacements around)
  | .postIncrement operand => .postIncrement (operand.replace replacements around)
  | .postDecrement operand => .postDecrement (operand.replace replacements around)
  | .spread operand => .spread (operand.replace replacements around)
  | .function definition => .function (definition.replaceNested replacements around true)
  | .classExpr definition => .classExpr (definition.replace replacements around)

def replaceExprs (replacements : Replacements) (around : Surroundings) : List Expr → List Expr
  | [] => []
  | item :: items => item.replace replacements around :: replaceExprs replacements around items

def replaceFields (replacements : Replacements) (around : Surroundings) :
    List ObjectField → List ObjectField
  | [] => []
  | ⟨key, value⟩ :: fields =>
    ⟨key, value.replace replacements around⟩ :: replaceFields replacements around fields

def FunctionDef.replaceNested (replacements : Replacements) (around : Surroundings)
    (isExpression : Bool) : FunctionDef → FunctionDef
  | definition@⟨name, params, body, directives, isArrow, isGenerator, isAsync⟩ =>
    let inner := around.withinFunction isArrow (definition.nestedNames isExpression)
    ⟨name, replaceParams replacements inner params, replaceStmts replacements inner body,
      directives, isArrow, isGenerator, isAsync⟩

def replaceParams (replacements : Replacements) (around : Surroundings) : List Param → List Param
  | [] => []
  | .withDefault name value :: params =>
    .withDefault name (value.replace replacements around) ::
      replaceParams replacements around params
  | param :: params => param :: replaceParams replacements around params

def ClassDef.replace (replacements : Replacements) (around : Surroundings) : ClassDef → ClassDef
  | ⟨name, none, members⟩ =>
    ⟨name, none, replaceMembers replacements (around.within name.toList) members⟩
  | ⟨name, some superClass, members⟩ =>
    ⟨name, some (superClass.replace replacements around),
      replaceMembers replacements (around.within name.toList) members⟩

def replaceMembers (replacements : Replacements) (around : Surroundings) :
    List ClassMember → List ClassMember
  | [] => []
  | ⟨kind, key, isStatic, function⟩ :: members =>
    ⟨kind, key.replace replacements around, isStatic,
      function.replaceNested replacements around false⟩ ::
      replaceMembers replacements around members

def MemberKey.replace (replacements : Replacements) (around : Surroundings) : MemberKey → MemberKey
  | .named name => .named name
  | .computed value => .computed (value.replace replacements around)

def Stmt.replace (replacements : Replacements) (around : Surroundings) : Stmt → Stmt
  | .declare kind name none => .declare kind name none
  | .declare kind name (some init) => .declare kind name (some (init.replace replacements around))
  | .assign target value =>
    .assign (target.replace replacements around) (value.replace replacements around)
  | .compoundAssign target op value =>
    .compoundAssign (target.replace replacements around) op (value.replace replacements around)
  | .expr value => .expr (value.replace replacements around)
  | .ifElse condition thenBody elseBody =>
    .ifElse (condition.replace replacements around)
      (replaceStmts replacements (around.within (lexicalNames thenBody)) thenBody)
      (replaceStmts replacements (around.within (lexicalNames elseBody)) elseBody)
  | .whileLoop condition body =>
    .whileLoop (condition.replace replacements around)
      (replaceStmts replacements (around.within (lexicalNames body)) body)
  | .forOf binding true iterable body =>
    .forOf binding true (iterable.replace replacements around)
      (replaceStmts replacements (around.within (lexicalNames body ++ [binding])) body)
  | .forOf binding false iterable body =>
    replacements.loop around binding (iterable.replace replacements around)
      (replaceStmts replacements (around.within (lexicalNames body)) body)
  | .block body => .block (replaceStmts replacements (around.within (lexicalNames body)) body)
  | .returnValue none => .returnValue none
  | .returnValue (some value) => .returnValue (some (value.replace replacements around))
  | .breakLoop => .breakLoop
  | .continueLoop => .continueLoop
  | .switch value cases none =>
    let inner := around.within (switchNames cases none)
    .switch (value.replace replacements around) (replaceCases replacements inner cases) none
  | .switch value cases (some body) =>
    let inner := around.within (switchNames cases (some body))
    .switch (value.replace replacements around) (replaceCases replacements inner cases)
      (some (replaceStmts replacements inner body))
  | .throwValue value => .throwValue (value.replace replacements around)
  | .function definition => .function (definition.replaceNested replacements around false)

def replaceCases (replacements : Replacements) (around : Surroundings) :
    List SwitchCase → List SwitchCase
  | [] => []
  | ⟨test, body⟩ :: cases =>
    ⟨test.replace replacements around, replaceStmts replacements around body⟩ ::
      replaceCases replacements around cases

def replaceStmts (replacements : Replacements) (around : Surroundings) : List Stmt → List Stmt
  | [] => []
  | stmt :: stmts => stmt.replace replacements around :: replaceStmts replacements around stmts

end

def FunctionDef.replace (replacements : Replacements) (definition : FunctionDef) : FunctionDef :=
  let around := definition.surroundings
  { definition with
    params := replaceParams replacements around definition.params
    body := replaceStmts replacements around definition.body }

end HeapScript
