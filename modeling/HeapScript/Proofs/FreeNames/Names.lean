import HeapScript.Proofs.FreeNames.Occurrences
import HeapScript.Proofs.Syntax.Blocks

/-!
All names in a tree: its variables and what it binds, at any depth.

The code of a function mentions each of them, so they are among its identifiers. The name of an
arrow function or of a class member is not written out and does not count, and of a destructuring
pattern only the names do.
-/

namespace HeapScript

open List

mutual

def Expr.names : Expr → List String
  | .literal _ | .thisRef | .superRef => []
  | .var name => [name]
  | .binary _ lhs rhs | .compare _ lhs rhs | .logicalOr lhs rhs | .logicalAnd lhs rhs
  | .index lhs rhs | .isIn lhs rhs => lhs.names ++ rhs.names
  | .unary _ operand | .not operand | .typeOf operand | .postIncrement operand
  | .postDecrement operand | .spread operand | .member operand _ => operand.names
  | .call callee args | .construct callee args => callee.names ++ namesOfExprs args
  | .conditional condition thenValue elseValue =>
    condition.names ++ thenValue.names ++ elseValue.names
  | .array items => namesOfExprs items
  | .object fields => namesOfFields fields
  | .function definition => definition.ownName.toList ++ definition.names
  | .classExpr definition => definition.names

def namesOfExprs : List Expr → List String
  | [] => []
  | item :: items => item.names ++ namesOfExprs items

def namesOfFields : List ObjectField → List String
  | [] => []
  | ⟨_, value⟩ :: fields => value.names ++ namesOfFields fields

def FunctionDef.names : FunctionDef → List String
  | ⟨_, params, body, _, _, _, _⟩ => namesOfParams params ++ namesOfStmts body

def namesOfParams : List Param → List String
  | [] => []
  | .plain name :: params | .rest name :: params => name :: namesOfParams params
  | .withDefault name value :: params => name :: value.names ++ namesOfParams params
  | .pattern shape :: params => shape.patternNames ++ namesOfParams params

def ClassDef.names : ClassDef → List String
  | ⟨name, none, members⟩ => name.toList ++ namesOfMembers members
  | ⟨name, some superClass, members⟩ => name.toList ++ superClass.names ++ namesOfMembers members

def namesOfMembers : List ClassMember → List String
  | [] => []
  | ⟨_, key, _, function⟩ :: members => key.names ++ function.names ++ namesOfMembers members

def MemberKey.names : MemberKey → List String
  | .named _ => []
  | .computed value => value.names

def Stmt.names : Stmt → List String
  | .returnValue none | .breakLoop | .continueLoop => []
  | .declare _ name none => [name]
  | .declare _ name (some value) => name :: value.names
  | .expr value | .returnValue (some value) | .throwValue value => value.names
  | .assign target value | .compoundAssign target _ value => target.names ++ value.names
  | .ifElse condition thenBody elseBody =>
    condition.names ++ namesOfStmts thenBody ++ namesOfStmts elseBody
  | .whileLoop condition body => condition.names ++ namesOfStmts body
  | .forOf binding _ iterable body => binding :: iterable.names ++ namesOfStmts body
  | .block body => namesOfStmts body
  | .switch value cases none => value.names ++ namesOfCases cases
  | .switch value cases (some body) => value.names ++ namesOfCases cases ++ namesOfStmts body
  | .function definition => definition.name.toList ++ definition.names

def namesOfCases : List SwitchCase → List String
  | [] => []
  | ⟨test, body⟩ :: cases => test.names ++ namesOfStmts body ++ namesOfCases cases

def namesOfStmts : List Stmt → List String
  | [] => []
  | stmt :: stmts => stmt.names ++ namesOfStmts stmts

end

/-! ## Names are mentioned -/

def mentioned (mentions : List Mention) : List String := mentions.filterMap Mention.name?

@[simp, grind =] theorem mentioned_append (mentions others : List Mention) :
    mentioned (mentions ++ others) = mentioned mentions ++ mentioned others :=
  filterMap_append

@[simp, grind =] theorem mentioned_declarations (names : List String) :
    mentioned (declarations names) = names := by
  induction names with
  | nil => rfl
  | cons name names induction => exact congrArg (name :: ·) induction

@[simp, grind =] theorem mentioned_use (around : Surroundings) (writes : Bool) (name : String) :
    mentioned [around.use writes name] = [name] := rfl

theorem mem_lexicalNames_cons {stmt : Stmt} {stmts : List Stmt} {name : String} :
    name ∈ lexicalNames (stmt :: stmts) ↔ name ∈ lexicalNames [stmt] ∨
    name ∈ lexicalNames stmts := by
  cases stmt with
  | declare kind other init => cases kind <;> simp [lexicalNames]
  | _ => simp [lexicalNames]

def scopedNames (occurrences : List Occurrence) : List String :=
  occurrences.flatMap fun occurrence => occurrence.scopes.flatMap CodeScope.names

@[simp, grind =] theorem scopedNames_append (occurrences others : List Occurrence) :
    scopedNames (occurrences ++ others) = scopedNames occurrences ++ scopedNames others :=
  flatMap_append

@[simp, grind =] theorem scopedNames_nil : scopedNames [] = [] := rfl

@[simp, grind =] theorem scopedNames_singleton (name : String) (writes : Bool) :
    scopedNames [{ name, writes }] = [] := rfl

@[grind =] theorem mem_scopedNames_under {occurrences : List Occurrence} {scope : CodeScope}
    {name : String} : name ∈ scopedNames (occurrences.map (·.under scope)) ↔
      occurrences ≠ [] ∧ name ∈ scope.names ∨ name ∈ scopedNames occurrences := by
  induction occurrences with
  | nil => simp [scopedNames]
  | cons occurrence occurrences induction =>
    simp only [scopedNames, map_cons, flatMap_cons, mem_append] at induction ⊢
    rw [induction]
    simp only [Occurrence.under, flatMap_cons, mem_append]
    grind

section

variable {name : String}

/-- The names in a tree and those that its scopes bind are mentioned in it. What parameters bind is
mentioned with their function, and what statements hoist or declare with the block around them. -/
theorem mem_mentioned_steps : TreeMotive.Steps {
    expr := fun expr => ∀ around writes,
      name ∈ expr.names ++ scopedNames (expr.occurrences writes) →
      name ∈ mentioned (expr.mentions around writes)
    exprs := fun items => ∀ around writes,
      name ∈ namesOfExprs items ++ scopedNames (occurrencesOfExprs writes items) →
      name ∈ mentioned (mentionsOfExprs around writes items)
    fields := fun fields => ∀ around writes,
      name ∈ namesOfFields fields ++ scopedNames (occurrencesOfFields writes fields) →
      name ∈ mentioned (mentionsOfFields around writes fields)
    function := fun definition => ∀ around isExpression,
      isExpression = true ∧ name ∈ definition.ownName.toList ∨
        name ∈ definition.names ++ scopedNames (definition.nestedOccurrences isExpression) →
      name ∈ mentioned (definition.nestedMentions around isExpression)
    params := fun params => ∀ around,
      name ∈ namesOfParams params ++ scopedNames (occurrencesOfParams params) →
      name ∈ params.flatMap Param.boundNames ∨ name ∈ mentioned (mentionsOfParams around params)
    classDef := fun definition => ∀ around,
      name ∈ definition.names ++ scopedNames definition.occurrences →
      name ∈ mentioned (definition.mentions around)
    members := fun members => ∀ around,
      name ∈ namesOfMembers members ++ scopedNames (occurrencesOfMembers members) →
      name ∈ mentioned (mentionsOfMembers around members)
    key := fun key => ∀ around, name ∈ key.names ++ scopedNames key.occurrences →
      name ∈ mentioned (key.mentions around)
    stmt := fun stmt => ∀ around, name ∈ stmt.names ++ scopedNames stmt.occurrences →
      name ∈ stmt.hoistedNames ∨ name ∈ lexicalNames [stmt] ∨
        name ∈ mentioned (stmt.mentions around)
    cases := fun cases => ∀ around,
      name ∈ namesOfCases cases ++ scopedNames (occurrencesOfCases cases) →
      name ∈ hoistedNamesOfCases cases ∨
        name ∈ cases.flatMap (fun switchCase => lexicalNames switchCase.body) ∨
        name ∈ mentioned (mentionsOfCases around cases)
    stmts := fun stmts => ∀ around,
      name ∈ namesOfStmts stmts ++ scopedNames (occurrencesOfStmts stmts) →
      name ∈ hoistedNames stmts ∨ name ∈ lexicalNames stmts ∨
        name ∈ mentioned (mentionsOfStmts around stmts) } := by
  constructor
  case declare =>
    intro kind own around member
    cases kind <;> grind [Stmt.names, Stmt.occurrences, Stmt.hoistedNames, lexicalNames]
  case declareInit =>
    intro kind own value inValue around member
    cases kind <;> grind [Stmt.names, Stmt.occurrences, Stmt.hoistedNames, lexicalNames,
      Stmt.mentions]
  case forOf =>
    intro binding declares iterable body inIterable inBody around member
    have first := inIterable around
    cases declares with
    | true =>
      have inner := inBody (around.within (lexicalNames body ++ [binding]))
      have own : name ∈ mentioned (declarations (lexicalNames body ++ [binding])) ↔
          name ∈ lexicalNames body ∨ name = binding := by simp
      grind [Stmt.names, Stmt.occurrences, CodeScope.names, Stmt.hoistedNames, Stmt.mentions]
    | false =>
      have inner := inBody (around.within (lexicalNames body))
      have own : name ∈ mentioned [around.use true binding] ↔ name = binding := by simp
      grind [Stmt.names, Stmt.occurrences, CodeScope.names, Stmt.hoistedNames, Stmt.mentions]
  all_goals
    dsimp only
    grind [Expr.names, Expr.occurrences, Expr.mentions, namesOfExprs, occurrencesOfExprs,
      mentionsOfExprs, namesOfFields, occurrencesOfFields, mentionsOfFields, FunctionDef.names,
      FunctionDef.nestedOccurrences, FunctionDef.nestedMentions, FunctionDef.nestedNames,
      FunctionDef.boundNames, namesOfParams, occurrencesOfParams, mentionsOfParams,
      Param.boundNames, ClassDef.names, ClassDef.occurrences, ClassDef.mentions, namesOfMembers,
      occurrencesOfMembers, mentionsOfMembers, MemberKey.names, MemberKey.occurrences,
      MemberKey.mentions, Stmt.names, Stmt.occurrences, Stmt.hoistedNames, Stmt.mentions,
      switchNames, CodeScope.names, namesOfCases, occurrencesOfCases, hoistedNamesOfCases,
      mentionsOfCases, namesOfStmts, occurrencesOfStmts, hoistedNames, mentionsOfStmts,
      mem_lexicalNames_cons]

end

/-- The names that a function mentions are its own name, which an arrow does not have, those in its
parameters and body, and what scopes inside it bind. -/
theorem FunctionDef.mem_identifiers {definition : FunctionDef} {name : String}
    (member : name ∈ definition.ownName.toList ++ definition.names ++
      scopedNames definition.occurrences)
    (notArguments : name ≠ "arguments") :
    name ∈ definition.facts.identifiers := by
  refine NameSet.mem_ofList.mpr (show name ∈ mentioned definition.mentions from ?_)
  have inParams := (@mem_mentioned_steps name).params definition.params definition.surroundings
  have inBody := (@mem_mentioned_steps name).stmts definition.body definition.surroundings
  have inside : name ∈ definition.names →
      name ∈ namesOfParams definition.params ∨ name ∈ namesOfStmts definition.body := by
    cases definition
    exact mem_append.mp
  grind [FunctionDef.mentions, FunctionDef.surroundings, FunctionDef.boundNames,
    FunctionDef.occurrences]

/-! ## Declarations -/

section

variable {name : String}

theorem Stmt.mem_names_of_declares {stmt : Stmt} (declared : name ∈ stmt.declares) :
    name ∈ stmt.names := by
  cases stmt with
  | declare kind other init => cases init <;> grind [Stmt.declares, Stmt.names]
  | forOf binding isNew iterable body => cases isNew <;> grind [Stmt.declares, Stmt.names]
  | function definition => exact mem_append_left _ declared
  | _ => cases declared

def TreeAttribute.names : TreeAttribute (List String) where
  expr _ := Expr.names
  exprs _ := namesOfExprs
  fields _ := namesOfFields
  function _ := FunctionDef.names
  params := namesOfParams
  classDef := ClassDef.names
  members := namesOfMembers
  key := MemberKey.names
  stmt := Stmt.names
  cases := namesOfCases
  stmts := namesOfStmts

theorem mem_names_steps : (TreeMotive.relating .blocks .names fun blocks names =>
    name ∈ declaredIn blocks → name ∈ names).Steps := by
  constructor <;> simp only [TreeMotive.relating, TreeAttribute.blocks, TreeAttribute.names,
    blocksOf, forall_const]
  case consStmt =>
    intro stmt stmts inStmt inStmts declared
    have own := @Stmt.mem_names_of_declares name stmt
    grind [blocksWithin, namesOfStmts]
  all_goals
    grind [Expr.blocks, Expr.names, blocksOfExprs, namesOfExprs, blocksOfFields, namesOfFields,
      FunctionDef.blocks, FunctionDef.names, blocksOfParams, namesOfParams, ClassDef.blocks,
      ClassDef.names, blocksOfMembers, namesOfMembers, MemberKey.blocks, MemberKey.names,
      Stmt.blocks, Stmt.names, blocksOfCases, namesOfCases, blocksWithin, namesOfStmts]

theorem FunctionDef.mem_names {definition : FunctionDef}
    (declared : name ∈ declaredIn definition.blocks) : name ∈ definition.names :=
  mem_names_steps.function definition false declared

theorem mem_names_of_stmts {stmts : List Stmt}
    (declared : name ∈ declaredIn (stmts :: blocksWithin stmts)) : name ∈ namesOfStmts stmts :=
  mem_names_steps.stmts stmts declared

end

end HeapScript
