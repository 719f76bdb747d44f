import HeapScript.FreeNames.Scoping
import HeapScript.Text.NameSet

/-!
The mentions of names in a function, from left to right, and the facts read off them.

A *mention* is a place where a name is declared or used, where `this` stands or where a module is
loaded. The free names of a function, the names that it assigns and the modules that it loads are
read off the list of its mentions.
-/

namespace HeapScript

inductive Mention where
  | declared (name : String)
  /-- The name is used with the given meaning, and assigned if `writes` holds. -/
  | used (name : String) (meaning : Meaning) (writes : Bool)
  | thisRef
  /-- A module is loaded through a `require` that no scope binds. -/
  | load (module : String)
deriving DecidableEq, Repr

/-! ## Walking the trees -/

namespace Surroundings

def use (around : Surroundings) (writes : Bool) (name : String) : Mention :=
  .used name (around.meaning name) writes

def loadMentions (around : Surroundings) (callee : Expr) (args : List Expr) : List Mention :=
  (around.freeLoad? callee args).toList.map .load

end Surroundings

def declarations (names : List String) : List Mention :=
  names.map .declared

mutual

/-- The mentions in an expression. With `writes` it is the target of an assignment: then the names
in it and in the array and object patterns around them are assigned. -/
def Expr.mentions (around : Surroundings) (writes : Bool) : Expr → List Mention
  | .var name => [around.use writes name]
  | .thisRef => if around.depth = 0 then [.thisRef] else []
  | .literal _ | .superRef => []
  | .binary _ lhs rhs | .compare _ lhs rhs | .logicalOr lhs rhs | .logicalAnd lhs rhs =>
    lhs.mentions around false ++ rhs.mentions around false
  | .unary _ operand | .not operand | .typeOf operand => operand.mentions around false
  | .spread operand => operand.mentions around writes
  | .postIncrement operand | .postDecrement operand => operand.mentions around true
  | .member object _ => object.mentions around false
  | .index collection index => collection.mentions around false ++ index.mentions around false
  | .call callee args =>
    around.loadMentions callee args ++ callee.mentions around false ++
      mentionsOfExprs around false args
  | .construct callee args => callee.mentions around false ++ mentionsOfExprs around false args
  | .conditional condition thenValue elseValue =>
    condition.mentions around false ++ thenValue.mentions around false ++
      elseValue.mentions around false
  | .isIn key object => key.mentions around false ++ object.mentions around false
  | .array items => mentionsOfExprs around writes items
  | .object fields => mentionsOfFields around writes fields
  | .function definition => definition.nestedMentions around true
  | .classExpr definition => definition.mentions around

def mentionsOfExprs (around : Surroundings) (writes : Bool) : List Expr → List Mention
  | [] => []
  | item :: items => item.mentions around writes ++ mentionsOfExprs around writes items

def mentionsOfFields (around : Surroundings) (writes : Bool) : List ObjectField → List Mention
  | [] => []
  | ⟨_, value⟩ :: fields => value.mentions around writes ++ mentionsOfFields around writes fields

def FunctionDef.nestedMentions (around : Surroundings) (isExpression : Bool) :
    FunctionDef → List Mention
  | definition@⟨_, params, body, _, isArrow, _, _⟩ =>
    let names := definition.nestedNames isExpression
    let inner := around.withinFunction isArrow names
    declarations names ++ mentionsOfParams inner params ++ mentionsOfStmts inner body

def mentionsOfParams (around : Surroundings) : List Param → List Mention
  | [] => []
  | .withDefault _ value :: params => value.mentions around false ++ mentionsOfParams around params
  | _ :: params => mentionsOfParams around params

def ClassDef.mentions (around : Surroundings) : ClassDef → List Mention
  | ⟨name, superClass, members⟩ =>
    (match superClass with
      | some superClass => superClass.mentions around false
      | none => []) ++
      declarations name.toList ++ mentionsOfMembers (around.within name.toList) members

def mentionsOfMembers (around : Surroundings) : List ClassMember → List Mention
  | [] => []
  | ⟨_, key, _, function⟩ :: members =>
    key.mentions around ++ function.nestedMentions around false ++
      mentionsOfMembers around members

def MemberKey.mentions (around : Surroundings) : MemberKey → List Mention
  | .named _ => []
  | .computed value => value.mentions around false

def Stmt.mentions (around : Surroundings) : Stmt → List Mention
  | .declare _ _ (some init) => init.mentions around false
  | .declare _ _ none => []
  | .assign target value => target.mentions around true ++ value.mentions around false
  | .compoundAssign target _ value => target.mentions around true ++ value.mentions around false
  | .expr value | .throwValue value | .returnValue (some value) => value.mentions around false
  | .returnValue none | .breakLoop | .continueLoop => []
  | .ifElse condition thenBody elseBody =>
    condition.mentions around false ++
      (declarations (lexicalNames thenBody) ++
        mentionsOfStmts (around.within (lexicalNames thenBody)) thenBody) ++
      (declarations (lexicalNames elseBody) ++
        mentionsOfStmts (around.within (lexicalNames elseBody)) elseBody)
  | .whileLoop condition body =>
    condition.mentions around false ++ declarations (lexicalNames body) ++
      mentionsOfStmts (around.within (lexicalNames body)) body
  | .forOf binding true iterable body =>
    let names := lexicalNames body ++ [binding]
    iterable.mentions around false ++ declarations names ++
      mentionsOfStmts (around.within names) body
  | .forOf binding false iterable body =>
    iterable.mentions around false ++ [around.use true binding] ++
      declarations (lexicalNames body) ++
      mentionsOfStmts (around.within (lexicalNames body)) body
  | .block body =>
    declarations (lexicalNames body) ++ mentionsOfStmts (around.within (lexicalNames body)) body
  | .switch value cases defaultBody =>
    let names := switchNames cases defaultBody
    let inner := around.within names
    value.mentions around false ++ declarations names ++ mentionsOfCases inner cases ++
      (match defaultBody with
        | some body => mentionsOfStmts inner body
        | none => [])
  | .function definition => definition.nestedMentions around false

def mentionsOfCases (around : Surroundings) : List SwitchCase → List Mention
  | [] => []
  | ⟨test, body⟩ :: cases =>
    test.mentions around false ++ mentionsOfStmts around body ++ mentionsOfCases around cases

def mentionsOfStmts (around : Surroundings) : List Stmt → List Mention
  | [] => []
  | stmt :: stmts => stmt.mentions around ++ mentionsOfStmts around stmts

end

def FunctionDef.mentions (definition : FunctionDef) : List Mention :=
  let around := definition.surroundings
  declarations (definition.ownName.toList ++ around.bound) ++
    mentionsOfParams around definition.params ++ mentionsOfStmts around definition.body

/-! ## Facts -/

namespace Mention

def name? : Mention → Option String
  | .declared name | .used name _ _ => some name
  | _ => none

def freeName? : Mention → Option String
  | .used name .free _ => some name
  | _ => none

def assignedFreeName? : Mention → Option String
  | .used name .free true => some name
  | _ => none

def module? : Mention → Option String
  | .load name => some name
  | _ => none

def hasMeaning (meaning : Meaning) : Mention → Bool
  | .used _ other _ => other == meaning
  | _ => false

end Mention

def firstOccurrences : List String → List String
  | [] => []
  | name :: names => name :: (firstOccurrences names).filter (· ≠ name)

def occurrenceCounts (names : List String) : List (String × Nat) :=
  (firstOccurrences names).map fun name => (name, names.count name)

structure FunctionFacts where
  unbound : List (String × Nat)
  modified : List String
  usesArguments : Bool
  usesThis : Bool
  /-- Whether the function refers to itself by its own name. -/
  selfReference : Bool
  /-- The modules that are loaded, in the order of the first loads. -/
  requires : List String
  /-- All names that are declared or used anywhere in the function. -/
  identifiers : List String
deriving Repr, Inhabited

def FunctionFacts.ofMentions (mentions : List Mention) : FunctionFacts where
  unbound := occurrenceCounts (mentions.filterMap Mention.freeName?)
  modified := NameSet.ofList (mentions.filterMap Mention.assignedFreeName?)
  usesArguments := mentions.any (Mention.hasMeaning .arguments)
  usesThis := mentions.any (· == .thisRef)
  selfReference := mentions.any (Mention.hasMeaning .itself)
  requires := firstOccurrences (mentions.filterMap Mention.module?)
  identifiers := NameSet.ofList (mentions.filterMap Mention.name?)

def FunctionDef.facts (definition : FunctionDef) : FunctionFacts :=
  .ofMentions definition.mentions

def identifiersOf (stmts : List Stmt) : List String :=
  FunctionDef.facts { body := stmts } |>.identifiers

example :
    let body := [Stmt.expr (.call (.var "f") [.var "x"])]
    (FunctionDef.facts { name := some "f", body }).unbound = [("x", 1)] := by
  decide

end HeapScript
