import HeapScript.Syntax.Basic

/-!
The names that a tree uses: those of its variables and of the loops over variables that exist
already.

With `inner` the insides of functions count as well. Without it the names are those whose values are
needed when a statement itself runs; a class needs its superclass and its computed keys.
-/

namespace HeapScript

mutual

def Expr.usedNames (inner : Bool) : Expr → List String
  | .literal _ | .thisRef | .superRef => []
  | .var name => [name]
  | .binary _ lhs rhs | .compare _ lhs rhs | .logicalOr lhs rhs | .logicalAnd lhs rhs
  | .index lhs rhs | .isIn lhs rhs => lhs.usedNames inner ++ rhs.usedNames inner
  | .unary _ operand | .not operand | .typeOf operand | .postIncrement operand
  | .postDecrement operand | .spread operand | .member operand _ => operand.usedNames inner
  | .call callee args | .construct callee args =>
    callee.usedNames inner ++ usedNamesOfExprs inner args
  | .conditional condition thenValue elseValue =>
    condition.usedNames inner ++ thenValue.usedNames inner ++ elseValue.usedNames inner
  | .array items => usedNamesOfExprs inner items
  | .object fields => usedNamesOfFields inner fields
  | .function definition => definition.usedNames inner
  | .classExpr definition => definition.usedNames inner

def usedNamesOfExprs (inner : Bool) : List Expr → List String
  | [] => []
  | item :: items => item.usedNames inner ++ usedNamesOfExprs inner items

def usedNamesOfFields (inner : Bool) : List ObjectField → List String
  | [] => []
  | ⟨_, value⟩ :: fields => value.usedNames inner ++ usedNamesOfFields inner fields

/-- The names inside a function, which do not count unless `inner` holds. -/
def FunctionDef.usedNames (inner : Bool) : FunctionDef → List String
  | ⟨_, params, body, _, _, _, _⟩ =>
    if inner then usedNamesOfParams inner params ++ usedNamesOfStmts inner body else []

def usedNamesOfParams (inner : Bool) : List Param → List String
  | [] => []
  | .withDefault _ value :: params => value.usedNames inner ++ usedNamesOfParams inner params
  | _ :: params => usedNamesOfParams inner params

def ClassDef.usedNames (inner : Bool) : ClassDef → List String
  | ⟨_, none, members⟩ => usedNamesOfMembers inner members
  | ⟨_, some superClass, members⟩ =>
    superClass.usedNames inner ++ usedNamesOfMembers inner members

def usedNamesOfMembers (inner : Bool) : List ClassMember → List String
  | [] => []
  | ⟨_, key, _, function⟩ :: members =>
    key.usedNames inner ++ function.usedNames inner ++ usedNamesOfMembers inner members

def MemberKey.usedNames (inner : Bool) : MemberKey → List String
  | .named _ => []
  | .computed value => value.usedNames inner

def Stmt.usedNames (inner : Bool) : Stmt → List String
  | .declare _ _ none | .returnValue none | .breakLoop | .continueLoop => []
  | .declare _ _ (some value) | .expr value | .returnValue (some value) | .throwValue value =>
    value.usedNames inner
  | .assign target value | .compoundAssign target _ value =>
    target.usedNames inner ++ value.usedNames inner
  | .ifElse condition thenBody elseBody =>
    condition.usedNames inner ++ usedNamesOfStmts inner thenBody ++
      usedNamesOfStmts inner elseBody
  | .whileLoop condition body => condition.usedNames inner ++ usedNamesOfStmts inner body
  | .forOf binding declares iterable body =>
    (if declares then [] else [binding]) ++ iterable.usedNames inner ++
      usedNamesOfStmts inner body
  | .block body => usedNamesOfStmts inner body
  | .switch value cases none => value.usedNames inner ++ usedNamesOfCases inner cases
  | .switch value cases (some body) =>
    value.usedNames inner ++ usedNamesOfCases inner cases ++ usedNamesOfStmts inner body
  | .function definition => definition.usedNames inner

def usedNamesOfCases (inner : Bool) : List SwitchCase → List String
  | [] => []
  | ⟨test, body⟩ :: cases =>
    test.usedNames inner ++ usedNamesOfStmts inner body ++ usedNamesOfCases inner cases

def usedNamesOfStmts (inner : Bool) : List Stmt → List String
  | [] => []
  | stmt :: stmts => stmt.usedNames inner ++ usedNamesOfStmts inner stmts

end

theorem mem_usedNamesOfExprs {inner : Bool} {items : List Expr} {name : String} :
    name ∈ usedNamesOfExprs inner items ↔ ∃ item ∈ items, name ∈ item.usedNames inner := by
  induction items with
  | nil => simp [usedNamesOfExprs]
  | cons item items induction => simp [usedNamesOfExprs, induction]

end HeapScript
