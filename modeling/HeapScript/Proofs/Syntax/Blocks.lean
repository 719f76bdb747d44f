import HeapScript.Proofs.Syntax.Induction
import HeapScript.Proofs.Syntax.References

/-!
The blocks of a tree: the lists of statements in it, at any depth, from the bodies of functions and
class members to the branches of conditionals, loops and switches. What a script declares is what
the statements of its blocks declare.
-/

namespace HeapScript

mutual

def Expr.blocks : Expr → List (List Stmt)
  | .literal _ | .var _ | .thisRef | .superRef => []
  | .binary _ lhs rhs | .compare _ lhs rhs | .logicalOr lhs rhs | .logicalAnd lhs rhs
  | .index lhs rhs | .isIn lhs rhs => lhs.blocks ++ rhs.blocks
  | .unary _ operand | .not operand | .typeOf operand | .postIncrement operand
  | .postDecrement operand | .spread operand | .member operand _ => operand.blocks
  | .call callee args | .construct callee args => callee.blocks ++ blocksOfExprs args
  | .conditional condition thenValue elseValue =>
    condition.blocks ++ thenValue.blocks ++ elseValue.blocks
  | .array items => blocksOfExprs items
  | .object fields => blocksOfFields fields
  | .function definition => definition.blocks
  | .classExpr definition => definition.blocks

def blocksOfExprs : List Expr → List (List Stmt)
  | [] => []
  | item :: items => item.blocks ++ blocksOfExprs items

def blocksOfFields : List ObjectField → List (List Stmt)
  | [] => []
  | ⟨_, value⟩ :: fields => value.blocks ++ blocksOfFields fields

def FunctionDef.blocks : FunctionDef → List (List Stmt)
  | ⟨_, params, body, _, _, _, _⟩ => blocksOfParams params ++ body :: blocksWithin body

/-- The blocks of default values. A pattern is taken to hold names only, and then has none
(`blocksOfParams_eq`). -/
def blocksOfParams : List Param → List (List Stmt)
  | [] => []
  | .withDefault _ value :: params => value.blocks ++ blocksOfParams params
  | _ :: params => blocksOfParams params

def ClassDef.blocks : ClassDef → List (List Stmt)
  | ⟨_, none, members⟩ => blocksOfMembers members
  | ⟨_, some superClass, members⟩ => superClass.blocks ++ blocksOfMembers members

def blocksOfMembers : List ClassMember → List (List Stmt)
  | [] => []
  | ⟨_, key, _, function⟩ :: members => key.blocks ++ function.blocks ++ blocksOfMembers members

def MemberKey.blocks : MemberKey → List (List Stmt)
  | .named _ => []
  | .computed value => value.blocks

def Stmt.blocks : Stmt → List (List Stmt)
  | .declare _ _ none | .returnValue none | .breakLoop | .continueLoop => []
  | .declare _ _ (some value) | .expr value | .returnValue (some value) | .throwValue value =>
    value.blocks
  | .assign target value | .compoundAssign target _ value => target.blocks ++ value.blocks
  | .ifElse condition thenBody elseBody =>
    condition.blocks ++ (thenBody :: blocksWithin thenBody) ++ (elseBody :: blocksWithin elseBody)
  | .whileLoop condition body => condition.blocks ++ body :: blocksWithin body
  | .forOf _ _ iterable body => iterable.blocks ++ body :: blocksWithin body
  | .block body => body :: blocksWithin body
  | .switch value cases none => value.blocks ++ blocksOfCases cases
  | .switch value cases (some body) =>
    value.blocks ++ blocksOfCases cases ++ body :: blocksWithin body
  | .function definition => definition.blocks

def blocksOfCases : List SwitchCase → List (List Stmt)
  | [] => []
  | ⟨test, body⟩ :: cases => test.blocks ++ (body :: blocksWithin body) ++ blocksOfCases cases

def blocksWithin : List Stmt → List (List Stmt)
  | [] => []
  | stmt :: stmts => stmt.blocks ++ blocksWithin stmts

end

def blocksOf (stmts : List Stmt) : List (List Stmt) := stmts :: blocksWithin stmts

def TreeAttribute.blocks : TreeAttribute (List (List Stmt)) where
  expr _ := Expr.blocks
  exprs _ := blocksOfExprs
  fields _ := blocksOfFields
  function _ := FunctionDef.blocks
  params := blocksOfParams
  classDef := ClassDef.blocks
  members := blocksOfMembers
  key := MemberKey.blocks
  stmt := Stmt.blocks
  cases := blocksOfCases
  stmts := blocksOf

/-- A pattern that holds names only, alone or in array and object literals. -/
inductive Expr.IsPattern : Expr → Prop where
  | var (name : String) : IsPattern (.var name)
  | spread {operand : Expr} (inner : IsPattern operand) : IsPattern (.spread operand)
  | array {items : List Expr} (inner : ∀ item ∈ items, IsPattern item) : IsPattern (.array items)
  | object {fields : List ObjectField} (inner : ∀ field ∈ fields, IsPattern field.value) :
      IsPattern (.object fields)

theorem blocksOfExprs_eq_nil {items : List Expr} (each : ∀ item ∈ items, item.blocks = []) :
    blocksOfExprs items = [] := by
  induction items with
  | nil => rfl
  | cons item items induction =>
    obtain ⟨first, rest⟩ := List.forall_mem_cons.mp each
    rw [blocksOfExprs, first, induction rest, List.append_nil]

theorem blocksOfFields_eq_nil {fields : List ObjectField}
    (each : ∀ field ∈ fields, field.value.blocks = []) : blocksOfFields fields = [] := by
  induction fields with
  | nil => rfl
  | cons field fields induction =>
    obtain ⟨first, rest⟩ := List.forall_mem_cons.mp each
    cases field
    rw [blocksOfFields, first, induction rest, List.append_nil]

theorem Expr.IsPattern.blocks_eq {shape : Expr} (isPattern : shape.IsPattern) :
    shape.blocks = [] := by
  induction isPattern with
  | var name => rfl
  | spread _ inner => exact inner
  | array _ inner => exact blocksOfExprs_eq_nil inner
  | object _ inner => exact blocksOfFields_eq_nil inner

def Param.blocks : Param → List (List Stmt)
  | .plain _ | .rest _ => []
  | .withDefault _ value | .pattern value => value.blocks

theorem blocksOfParams_eq {params : List Param}
    (patterns : ∀ shape, .pattern shape ∈ params → shape.IsPattern) :
    blocksOfParams params = params.flatMap Param.blocks := by
  induction params with
  | nil => rfl
  | cons param params induction =>
    have rest := induction fun shape member => patterns shape (List.mem_cons_of_mem _ member)
    rw [List.flatMap_cons, ← rest]
    cases param with
    | pattern shape => simp [blocksOfParams, Param.blocks,
        (patterns shape List.mem_cons_self).blocks_eq]
    | _ => rfl

@[simp] theorem blocksWithin_append (stmts others : List Stmt) :
    blocksWithin (stmts ++ others) = blocksWithin stmts ++ blocksWithin others := by
  induction stmts with
  | nil => rfl
  | cons stmt stmts induction => simp [blocksWithin, induction]

@[simp] theorem blocksOfMembers_append (members others : List ClassMember) :
    blocksOfMembers (members ++ others) = blocksOfMembers members ++ blocksOfMembers others := by
  induction members with
  | nil => rfl
  | cons member members induction =>
    cases member
    simp [blocksOfMembers, induction]

/-! ## Declarations -/

namespace Stmt

def declares : Stmt → List String
  | .declare _ name _ => [name]
  | .function definition => definition.name.toList
  | .forOf binding true _ _ => [binding]
  | _ => []

end Stmt

def declaredIn (blocks : List (List Stmt)) : List String :=
  blocks.flatMap fun block => block.flatMap Stmt.declares

@[simp, grind =] theorem declaredIn_nil : declaredIn [] = [] := rfl

@[simp, grind =] theorem declaredIn_cons (block : List Stmt) (blocks : List (List Stmt)) :
    declaredIn (block :: blocks) = block.flatMap Stmt.declares ++ declaredIn blocks := rfl

@[simp, grind =] theorem declaredIn_append (blocks others : List (List Stmt)) :
    declaredIn (blocks ++ others) = declaredIn blocks ++ declaredIn others :=
  List.flatMap_append

/-! ## Trees without blocks -/

theorem Expr.IsChain.blocks {expr : Expr} (chain : expr.IsChain) : expr.blocks = [] := by
  induction chain with
  | var name => rfl
  | member _ field induction => exact induction

theorem Expr.IsReference.blocks {expr : Expr} (isReference : expr.IsReference) :
    expr.blocks = [] := by
  cases isReference with
  | literal value => rfl
  | chain chain => exact chain.blocks
  | slot array position => rfl

end HeapScript
