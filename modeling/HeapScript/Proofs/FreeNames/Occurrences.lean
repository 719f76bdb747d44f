import HeapScript.Proofs.FreeNames.Meanings

/-!
The free occurrences of names in a function.

An *occurrence* of a name is a variable, or the head of a loop over a variable that exists already.
It is kept with all scopes that stand around it inside the function, and it is free if none of them
binds its name. The facts about a function are exactly those of its free occurrences
(`facts_of_freeOccurrences`).
-/

namespace HeapScript

open List

variable {name : String} {stmt : Stmt} {definition : FunctionDef}

/-! ## What scopes bind -/

/-- The lists of statements that stand directly in a statement, outside functions. -/
def Stmt.innerBlocks : Stmt → List (List Stmt)
  | .ifElse _ thenBody elseBody => [thenBody, elseBody]
  | .whileLoop _ body | .forOf _ _ _ body | .block body => [body]
  | .switch _ cases defaultBody => cases.map (·.body) ++ defaultBody.toList
  | _ => []

/-- A statement declares a name with `var` or as a function, wherever in it outside functions. -/
inductive Stmt.Hoists (name : String) : Stmt → Prop where
  | var (init : Option Expr) : Hoists name (.declare .var name init)
  | function {definition : FunctionDef} (isNamed : definition.name = some name) :
      Hoists name (.function definition)
  | within {stmt inner : Stmt} {block : List Stmt} (isBlock : block ∈ stmt.innerBlocks)
      (isInner : inner ∈ block) (hoists : Hoists name inner) : Hoists name stmt

def DeclaresLexically (stmts : List Stmt) (name : String) : Prop :=
  (∃ init, Stmt.declare .letDecl name init ∈ stmts) ∨
    ∃ init, Stmt.declare .constDecl name init ∈ stmts

def FunctionDef.Declares (definition : FunctionDef) (name : String) : Prop :=
  (∃ param ∈ definition.params, name ∈ param.boundNames) ∨
    (∃ stmt ∈ definition.body, stmt.Hoists name) ∨ DeclaresLexically definition.body name

inductive CodeScope where
  | function (definition : FunctionDef) (isExpression : Bool)
  | block (stmts : List Stmt)
  | switch (cases : List SwitchCase) (defaultBody : Option (List Stmt))
  | loop (binding : String)
  | members (className : Option String)

namespace CodeScope

def Binds (name : String) : CodeScope → Prop
  | .function definition isExpression =>
    definition.Declares name ∨
      definition.isArrow = false ∧
        (name = "arguments" ∨ isExpression = true ∧ definition.name = some name)
  | .block stmts => DeclaresLexically stmts name
  | .switch cases defaultBody =>
    (∃ switchCase ∈ cases, DeclaresLexically switchCase.body name) ∨
      ∃ body, defaultBody = some body ∧ DeclaresLexically body name
  | .loop binding => name = binding
  | .members className => className = some name

def names : CodeScope → List String
  | .function definition isExpression => definition.nestedNames isExpression
  | .block stmts => lexicalNames stmts
  | .switch cases defaultBody => switchNames cases defaultBody
  | .loop binding => [binding]
  | .members className => className.toList

end CodeScope

/-! ## Occurrences -/

structure Occurrence where
  name : String
  writes : Bool
  scopes : List CodeScope := []

def Occurrence.under (scope : CodeScope) (occurrence : Occurrence) : Occurrence :=
  { occurrence with scopes := scope :: occurrence.scopes }

mutual

/-- The occurrences in an expression from left to right. With `writes` the expression is assigned;
of its parts, those of arrays, objects and spreads are assigned with it. -/
def Expr.occurrences (writes : Bool) : Expr → List Occurrence
  | .var name => [{ name, writes }]
  | .literal _ | .thisRef | .superRef => []
  | .binary _ lhs rhs | .compare _ lhs rhs | .logicalOr lhs rhs | .logicalAnd lhs rhs
  | .index lhs rhs | .isIn lhs rhs => lhs.occurrences false ++ rhs.occurrences false
  | .unary _ operand | .not operand | .typeOf operand | .member operand _ =>
    operand.occurrences false
  | .postIncrement operand | .postDecrement operand => operand.occurrences true
  | .call callee args | .construct callee args =>
    callee.occurrences false ++ occurrencesOfExprs false args
  | .conditional condition thenValue elseValue =>
    condition.occurrences false ++ thenValue.occurrences false ++ elseValue.occurrences false
  | .spread operand => operand.occurrences writes
  | .array items => occurrencesOfExprs writes items
  | .object fields => occurrencesOfFields writes fields
  | .function definition => definition.nestedOccurrences true
  | .classExpr definition => definition.occurrences

def occurrencesOfExprs (writes : Bool) : List Expr → List Occurrence
  | [] => []
  | item :: items => item.occurrences writes ++ occurrencesOfExprs writes items

def occurrencesOfFields (writes : Bool) : List ObjectField → List Occurrence
  | [] => []
  | ⟨_, value⟩ :: fields => value.occurrences writes ++ occurrencesOfFields writes fields

def FunctionDef.nestedOccurrences (isExpression : Bool) : FunctionDef → List Occurrence
  | definition@⟨_, params, body, _, _, _, _⟩ =>
    (occurrencesOfParams params ++ occurrencesOfStmts body).map
      (·.under (.function definition isExpression))

def occurrencesOfParams : List Param → List Occurrence
  | [] => []
  | .withDefault _ value :: params => value.occurrences false ++ occurrencesOfParams params
  | _ :: params => occurrencesOfParams params

/-- The heritage of a class stands outside the scope of its name. -/
def ClassDef.occurrences : ClassDef → List Occurrence
  | ⟨name, none, members⟩ => (occurrencesOfMembers members).map (·.under (.members name))
  | ⟨name, some superClass, members⟩ =>
    superClass.occurrences false ++ (occurrencesOfMembers members).map (·.under (.members name))

def occurrencesOfMembers : List ClassMember → List Occurrence
  | [] => []
  | ⟨_, key, _, function⟩ :: members =>
    key.occurrences ++ function.nestedOccurrences false ++ occurrencesOfMembers members

def MemberKey.occurrences : MemberKey → List Occurrence
  | .named _ => []
  | .computed value => value.occurrences false

/-- The occurrences in a statement from left to right; a loop assigns its variable after its
iterable has been evaluated. -/
def Stmt.occurrences : Stmt → List Occurrence
  | .declare _ _ none | .returnValue none | .breakLoop | .continueLoop => []
  | .declare _ _ (some value) | .expr value | .returnValue (some value) | .throwValue value =>
    value.occurrences false
  | .assign target value | .compoundAssign target _ value =>
    target.occurrences true ++ value.occurrences false
  | .ifElse condition thenBody elseBody =>
    condition.occurrences false ++
      (occurrencesOfStmts thenBody).map (·.under (.block thenBody)) ++
      (occurrencesOfStmts elseBody).map (·.under (.block elseBody))
  | .whileLoop condition body =>
    condition.occurrences false ++ (occurrencesOfStmts body).map (·.under (.block body))
  | .forOf binding true iterable body =>
    iterable.occurrences false ++
      ((occurrencesOfStmts body).map (·.under (.block body))).map (·.under (.loop binding))
  | .forOf binding false iterable body =>
    iterable.occurrences false ++ [{ name := binding, writes := true }] ++
      (occurrencesOfStmts body).map (·.under (.block body))
  | .block body => (occurrencesOfStmts body).map (·.under (.block body))
  | .switch value cases none =>
    value.occurrences false ++ (occurrencesOfCases cases).map (·.under (.switch cases none))
  | .switch value cases (some body) =>
    value.occurrences false ++
      (occurrencesOfCases cases ++ occurrencesOfStmts body).map
        (·.under (.switch cases (some body)))
  | .function definition => definition.nestedOccurrences false

def occurrencesOfCases : List SwitchCase → List Occurrence
  | [] => []
  | ⟨test, body⟩ :: cases =>
    test.occurrences false ++ occurrencesOfStmts body ++ occurrencesOfCases cases

def occurrencesOfStmts : List Stmt → List Occurrence
  | [] => []
  | stmt :: stmts => stmt.occurrences ++ occurrencesOfStmts stmts

end

namespace FunctionDef

def occurrences (definition : FunctionDef) : List Occurrence :=
  occurrencesOfParams definition.params ++ occurrencesOfStmts definition.body

/-- An occurrence is free: neither a scope inside the function nor the function itself binds its
name, and it means neither the function nor its arguments. -/
structure IsFree (definition : FunctionDef) (occurrence : Occurrence) : Prop where
  unbound : ∀ scope ∈ occurrence.scopes, ¬scope.Binds occurrence.name
  notDeclared : ¬definition.Declares occurrence.name
  notArguments : occurrence.name ≠ "arguments"
  notItself : definition.isArrow = false → definition.name ≠ some occurrence.name

end FunctionDef

/-! ## Scopes bind the names that the walk finds -/

theorem mem_lexicalNames {stmts : List Stmt} :
    name ∈ lexicalNames stmts ↔ DeclaresLexically stmts name := by
  induction stmts with
  | nil => simp [lexicalNames, DeclaresLexically]
  | cons stmt stmts induction =>
    simp only [DeclaresLexically, mem_cons, exists_or] at induction ⊢
    cases stmt with
    | declare kind other init => cases kind <;> simp [lexicalNames, induction, or_assoc,
        or_left_comm]
    | _ => simp [lexicalNames, induction]

theorem mem_hoistedNames {stmts : List Stmt} :
    name ∈ hoistedNames stmts ↔ ∃ stmt ∈ stmts, name ∈ stmt.hoistedNames := by
  induction stmts with
  | nil => simp [hoistedNames]
  | cons stmt stmts induction => simp [hoistedNames, induction]

theorem mem_hoistedNamesOfCases {cases : List SwitchCase} :
    name ∈ hoistedNamesOfCases cases ↔ ∃ block ∈ cases.map (·.body), name ∈ hoistedNames block := by
  induction cases with
  | nil => simp [hoistedNamesOfCases]
  | cons first cases induction =>
    obtain ⟨test, body⟩ := first
    rw [hoistedNamesOfCases, mem_append, induction]
    simp only [map_cons, mem_cons, exists_eq_or_imp]

theorem Stmt.mem_hoistedNames_of_block {block : List Stmt} (isBlock : block ∈ stmt.innerBlocks)
    (member : name ∈ HeapScript.hoistedNames block) : name ∈ stmt.hoistedNames := by
  cases stmt with
  | ifElse condition thenBody elseBody =>
    simp only [innerBlocks, mem_cons, not_mem_nil, or_false] at isBlock
    rcases isBlock with rfl | rfl
    · exact mem_append_left _ member
    · exact mem_append_right _ member
  | whileLoop _ body | forOf _ _ _ body | block body => rwa [mem_singleton.mp isBlock] at member
  | switch value cases defaultBody =>
    rcases mem_append.mp isBlock with isCase | isDefault
    · have ofCases := mem_hoistedNamesOfCases.mpr ⟨block, isCase, member⟩
      cases defaultBody with
      | none => exact ofCases
      | some body => exact mem_append_left _ ofCases
    · obtain rfl := Option.mem_toList.mp isDefault
      exact mem_append_right _ member
  | _ => cases isBlock

theorem Stmt.Hoists.mem (hoists : stmt.Hoists name) : name ∈ stmt.hoistedNames := by
  induction hoists with
  | var init => exact mem_singleton.mpr rfl
  | function isNamed => exact Option.mem_toList.mpr isNamed
  | within isBlock isInner _ member =>
    exact mem_hoistedNames_of_block isBlock (mem_hoistedNames.mpr ⟨_, isInner, member⟩)

theorem Stmt.hoists_of_block {block : List Stmt} (isBlock : block ∈ stmt.innerBlocks)
    (hoists : ∃ inner ∈ block, inner.Hoists name) : stmt.Hoists name :=
  hoists.elim fun _ found => .within isBlock found.1 found.2

mutual

theorem Stmt.hoists_of_mem :
    (stmt : Stmt) → name ∈ stmt.hoistedNames → stmt.Hoists name
  | .declare .var _ init, member => by
      rw [mem_singleton.mp member]
      exact .var init
  | .function _, member => .function (Option.mem_toList.mp member)
  | .ifElse _ thenBody elseBody, member => by
      rcases mem_append.mp member with member | member
      · exact Stmt.hoists_of_block (by simp [Stmt.innerBlocks])
          (hoists_of_mem_block thenBody member)
      · exact Stmt.hoists_of_block (by simp [Stmt.innerBlocks])
          (hoists_of_mem_block elseBody member)
  | .whileLoop _ body, member | .forOf _ _ _ body, member | .block body, member =>
    Stmt.hoists_of_block (mem_singleton.mpr rfl) (hoists_of_mem_block body member)
  | .switch _ cases none, member => by
      obtain ⟨block, isBlock, hoists⟩ := hoists_of_mem_cases cases member
      exact Stmt.hoists_of_block (mem_append_left _ isBlock) hoists
  | .switch _ cases (some body), member => by
      rcases mem_append.mp member with member | member
      · obtain ⟨block, isBlock, hoists⟩ := hoists_of_mem_cases cases member
        exact Stmt.hoists_of_block (mem_append_left _ isBlock) hoists
      · exact Stmt.hoists_of_block (by simp [Stmt.innerBlocks]) (hoists_of_mem_block body member)

theorem hoists_of_mem_block :
    (stmts : List Stmt) → name ∈ hoistedNames stmts → ∃ stmt ∈ stmts, stmt.Hoists name
  | stmt :: stmts, member => by
      rcases mem_append.mp member with member | member
      · exact ⟨stmt, mem_cons_self, stmt.hoists_of_mem member⟩
      · obtain ⟨other, isOther, hoists⟩ := hoists_of_mem_block stmts member
        exact ⟨other, mem_cons_of_mem _ isOther, hoists⟩

theorem hoists_of_mem_cases :
    (cases : List SwitchCase) → name ∈ hoistedNamesOfCases cases →
      ∃ block ∈ cases.map (·.body), ∃ stmt ∈ block, stmt.Hoists name
  | ⟨_, body⟩ :: cases, member => by
      rcases mem_append.mp member with member | member
      · exact ⟨body, mem_cons_self, hoists_of_mem_block body member⟩
      · obtain ⟨block, isBlock, hoists⟩ := hoists_of_mem_cases cases member
        exact ⟨block, mem_cons_of_mem _ isBlock, hoists⟩

end


namespace FunctionDef

theorem declares_iff :
    definition.Declares name ↔
      name ∈ definition.params.flatMap Param.boundNames ++ hoistedNames definition.body ++
        lexicalNames definition.body := by
  have hoisted : (∃ stmt ∈ definition.body, stmt.Hoists name) ↔
      name ∈ hoistedNames definition.body :=
    ⟨fun ⟨_, isStmt, hoists⟩ => mem_hoistedNames.mpr ⟨_, isStmt, hoists.mem⟩,
      hoists_of_mem_block definition.body⟩
  simp only [Declares, hoisted, ← mem_lexicalNames, mem_append, mem_flatMap, or_assoc]

end FunctionDef

theorem CodeScope.mem_names {scope : CodeScope} : name ∈ scope.names ↔ scope.Binds name := by
  cases scope with
  | function definition isExpression =>
    simp only [names, FunctionDef.nestedNames, FunctionDef.boundNames, Binds,
      FunctionDef.declares_iff, mem_append]
    cases isArrow : definition.isArrow <;> cases isExpression <;>
      simp [FunctionDef.ownName, isArrow] <;> grind
  | block stmts => exact mem_lexicalNames
  | switch cases defaultBody =>
    cases defaultBody with
    | none => simp [names, switchNames, Binds, mem_lexicalNames, lexicalNames]
    | some body => simp [names, switchNames, Binds, mem_lexicalNames]
  | loop binding => exact mem_singleton
  | members className => exact Option.mem_toList

instance (scope : CodeScope) (name : String) : Decidable (scope.Binds name) :=
  decidable_of_iff _ CodeScope.mem_names

namespace FunctionDef

instance (definition : FunctionDef) (name : String) : Decidable (definition.Declares name) :=
  decidable_of_iff _ declares_iff.symm

instance (definition : FunctionDef) (occurrence : Occurrence) :
    Decidable (definition.IsFree occurrence) :=
  decidable_of_iff
    ((∀ scope ∈ occurrence.scopes, ¬scope.Binds occurrence.name) ∧
      ¬definition.Declares occurrence.name ∧ occurrence.name ≠ "arguments" ∧
      (definition.isArrow = false → definition.name ≠ some occurrence.name))
    ⟨fun ⟨unbound, notDeclared, notArguments, notItself⟩ =>
        ⟨unbound, notDeclared, notArguments, notItself⟩,
      fun ⟨unbound, notDeclared, notArguments, notItself⟩ =>
        ⟨unbound, notDeclared, notArguments, notItself⟩⟩

def freeOccurrences (definition : FunctionDef) : List Occurrence :=
  definition.occurrences.filter definition.IsFree

end FunctionDef

/-! ## The walk finds the free occurrences -/

def Mention.freeUse? : Mention → Option (String × Bool)
  | .used name .free writes => some (name, writes)
  | _ => none

namespace Surroundings

/-- No scope around binds the name, and it means neither the examined function nor its
arguments. -/
def Leaves (around : Surroundings) (name : String) : Prop :=
  name ∉ around.bound ∧ name ≠ "arguments" ∧ around.ownName ≠ some name

instance (around : Surroundings) (name : String) : Decidable (around.Leaves name) :=
  inferInstanceAs (Decidable (_ ∧ _ ∧ _))

def freeUse? (around : Surroundings) (occurrence : Occurrence) : Option (String × Bool) :=
  if (∀ scope ∈ occurrence.scopes, ¬scope.Binds occurrence.name) ∧
    around.Leaves occurrence.name then
    some (occurrence.name, occurrence.writes)
  else none

@[simp] theorem freeUse?_under (around : Surroundings) (scope : CodeScope)
    (occurrence : Occurrence) : around.freeUse? (occurrence.under scope) =
      (around.within scope.names).freeUse? occurrence := by
  simp only [freeUse?, Occurrence.under, Leaves, within, forall_mem_cons, mem_append,
    CodeScope.mem_names, not_or]
  congr 1
  grind

@[simp] theorem freeUse?_comp_under (around : Surroundings) (scope : CodeScope) :
    (around.freeUse? ∘ fun occurrence => occurrence.under scope) =
      (around.within scope.names).freeUse? :=
  funext (around.freeUse?_under scope)

/-- The depth does not matter, because a function that is no arrow binds `arguments`. -/
theorem freeUse?_withinFunction (around : Surroundings) (isArrow : Bool) (names : List String) :
    (around.withinFunction isArrow names).freeUse? = (around.within names).freeUse? := by
  funext occurrence
  cases isArrow <;> rfl

variable {inner around : Surroundings}

theorem Inside.freeUse?_use (inside : inner.Inside around) (top : around.depth = 0) (writes : Bool)
    (name : String) : (inner.use writes name).freeUse? = inner.freeUse? { name, writes } := by
  by_cases isBound : name ∈ inner.bound
  · simp [use, meaning, freeUse?, Leaves, isBound, Mention.freeUse?]
  · by_cases isArguments : name = "arguments"
    · have atTop : inner.depth = 0 := by
        rcases inside.depth with same | member
        · exact same.trans top
        · exact absurd (isArguments ▸ member) isBound
      simp [use, meaning, freeUse?, Leaves, isArguments ▸ isBound, isArguments, atTop,
        Mention.freeUse?]
    · by_cases isItself : inner.ownName = some name
      · simp [use, meaning, freeUse?, Leaves, isBound, isArguments, isItself, Mention.freeUse?]
      · simp [use, meaning, freeUse?, Leaves, isBound, isArguments, isItself, Mention.freeUse?]

end Surroundings

@[simp] theorem filterMap_declarations (names : List String) :
    (declarations names).filterMap Mention.freeUse? = [] := by
  simp [declarations, Mention.freeUse?]

@[simp] theorem Surroundings.filterMap_loadMentions (around : Surroundings) (callee : Expr)
    (args : List Expr) :
    (around.loadMentions callee args).filterMap Mention.freeUse? = [] := by
  simp [loadMentions, Mention.freeUse?]

section Walk

open Surroundings

variable {around : Surroundings}

def TreeAttribute.occurrences : TreeAttribute (List Occurrence) where
  expr := Expr.occurrences
  exprs := occurrencesOfExprs
  fields := occurrencesOfFields
  function := FunctionDef.nestedOccurrences
  params := occurrencesOfParams
  classDef := ClassDef.occurrences
  members := occurrencesOfMembers
  key := MemberKey.occurrences
  stmt := Stmt.occurrences
  cases := occurrencesOfCases
  stmts := occurrencesOfStmts

theorem freeUses_eq_steps (top : around.depth = 0) :
    (TreeMotive.relating .mentions .occurrences fun mentions occurrences =>
      ∀ inner, inner.Inside around → (mentions inner).filterMap Mention.freeUse? =
        occurrences.filterMap inner.freeUse?).Steps := by
  constructor <;> dsimp only [TreeMotive.relating, TreeAttribute.mentions,
    TreeAttribute.occurrences]
  case var =>
    intro name writes inner inside
    simp [Expr.mentions, Expr.occurrences, filterMap_cons, inside.freeUse?_use top writes name]
  case thisRef =>
    intro _ inner _
    by_cases isTop : inner.depth = 0 <;>
      simp [Expr.mentions, Expr.occurrences, isTop, Mention.freeUse?]
  case functionDef =>
    intro name directives isArrow isGenerator isAsync params body inParams inBody
      isExpression inner inside
    have scope := inside.withinFunction
      ⟨name, params, body, directives, isArrow, isGenerator, isAsync⟩ isExpression
    simp only [FunctionDef.nestedMentions, FunctionDef.nestedOccurrences, filterMap_append,
      filterMap_declarations, nil_append, map_append, filterMap_map,
      freeUse?_comp_under, inParams _ scope, inBody _ scope, freeUse?_withinFunction,
      CodeScope.names]
  case forOf =>
    intro binding declares iterable body inIterable inBody inner inside
    have scopes : (inner.within [binding]).within (lexicalNames body) =
        inner.within (lexicalNames body ++ [binding]) := by
      simp [Surroundings.within]
    cases declares with
    | true =>
      simp only [Stmt.mentions, Stmt.occurrences, filterMap_append, filterMap_declarations,
        append_nil, filterMap_map, freeUse?_comp_under, CodeScope.names, scopes,
        inIterable _ _ inside, inBody _ (inside.within _)]
    | false =>
      simp [Stmt.mentions, Stmt.occurrences, CodeScope.names, filterMap_cons,
        inIterable _ _ inside, inside.freeUse?_use top true binding, inBody _ (inside.within _)]
  all_goals
    intros
    simp_all [-Bool.forall_bool, Expr.mentions, Expr.occurrences, mentionsOfExprs,
      occurrencesOfExprs, mentionsOfFields,
      occurrencesOfFields, mentionsOfParams, occurrencesOfParams, ClassDef.mentions,
      ClassDef.occurrences, mentionsOfMembers, occurrencesOfMembers, MemberKey.mentions,
      MemberKey.occurrences, Stmt.mentions, Stmt.occurrences, mentionsOfCases, occurrencesOfCases,
      mentionsOfStmts, occurrencesOfStmts, CodeScope.names, Surroundings.Inside.within]

end Walk

/-! ## Facts -/

theorem pairwise_firstOccurrences (names : List String) :
    (firstOccurrences names).Pairwise fun first second =>
      names.idxOf first < names.idxOf second := by
  induction names with
  | nil => exact List.Pairwise.nil
  | cons name names induction =>
    have later : ∀ other ∈ (firstOccurrences names).filter (· ≠ name),
        (name :: names).idxOf other = names.idxOf other + 1 := by
      intro other member
      have different : other ≠ name := of_decide_eq_true (mem_filter.mp member).2
      rw [idxOf_cons, beq_false_of_ne different.symm, cond_false]
    rw [firstOccurrences, pairwise_cons]
    constructor
    · intro other member
      rw [later other member]
      simp
    · refine (induction.filter (· ≠ name)).imp_of_mem ?_
      intro first second isFirst isSecond before
      rw [later first isFirst, later second isSecond]
      exact Nat.succ_lt_succ before

namespace FunctionDef

theorem mem_boundNames_iff (notArguments : name ≠ "arguments") :
    name ∈ definition.boundNames ↔ definition.Declares name := by
  rw [declares_iff]
  cases isArrow : definition.isArrow <;> simp [boundNames, isArrow, notArguments]

/-- A function can refer to itself by its own name unless it declares the name anew. -/
theorem ownName_surroundings_iff (notArguments : name ≠ "arguments") :
    definition.surroundings.ownName = some name ↔
      (definition.isArrow = false ∧ definition.name = some name) ∧ ¬definition.Declares name := by
  rw [← mem_boundNames_iff notArguments]
  cases isArrow : definition.isArrow <;>
    simp [surroundings, ownName, isArrow, Option.filter_eq_some_iff]

theorem leaves_surroundings :
    definition.surroundings.Leaves name ↔
      ¬definition.Declares name ∧ name ≠ "arguments" ∧
        (definition.isArrow = false → definition.name ≠ some name) := by
  by_cases isArguments : name = "arguments"
  · simp [Surroundings.Leaves, isArguments]
  · have own := @ownName_surroundings_iff _ definition isArguments
    rw [Surroundings.Leaves, mem_surroundings_bound, mem_boundNames_iff isArguments]
    grind

theorem freeUse?_surroundings (occurrence : Occurrence) :
    definition.surroundings.freeUse? occurrence =
      if definition.IsFree occurrence then some (occurrence.name, occurrence.writes) else none := by
  have same : ((∀ scope ∈ occurrence.scopes, ¬scope.Binds occurrence.name) ∧
      definition.surroundings.Leaves occurrence.name) ↔ definition.IsFree occurrence := by
    rw [leaves_surroundings]
    exact ⟨fun ⟨unbound, notDeclared, notArguments, notItself⟩ =>
        ⟨unbound, notDeclared, notArguments, notItself⟩,
      fun free => ⟨free.unbound, free.notDeclared, free.notArguments, free.notItself⟩⟩
  simp only [Surroundings.freeUse?, same]

theorem freeUses_eq (definition : FunctionDef) :
    definition.mentions.filterMap Mention.freeUse? =
      definition.freeOccurrences.map fun occurrence => (occurrence.name, occurrence.writes) := by
  have start := Surroundings.Inside.refl definition.surroundings
  have walk := freeUses_eq_steps (show definition.surroundings.depth = 0 from rfl)
  have inParams := walk.params definition.params _ start
  have inBody := walk.stmts definition.body _ start
  dsimp only [TreeAttribute.mentions, TreeAttribute.occurrences] at inParams inBody
  have atRoot := funext (freeUse?_surroundings : ∀ occurrence,
    definition.surroundings.freeUse? occurrence = _)
  rw [freeOccurrences, ← filterMap_eq_map, filterMap_filter]
  simp only [mentions, filterMap_append, filterMap_declarations, nil_append, occurrences,
    inParams, inBody, atRoot, Function.comp_apply, decide_eq_true_eq]

theorem freeNames_eq (definition : FunctionDef) :
    definition.mentions.filterMap Mention.freeName? =
      definition.freeOccurrences.map Occurrence.name := by
  have split : Mention.freeName? = fun mention => mention.freeUse?.map Prod.fst := by
    funext mention
    cases mention with
    | used name meaning writes => cases meaning <;> rfl
    | _ => rfl
  rw [split, ← map_filterMap, freeUses_eq, map_map]
  rfl

theorem mem_modified :
    name ∈ definition.facts.modified ↔
      ∃ occurrence ∈ definition.freeOccurrences,
        occurrence.name = name ∧ occurrence.writes = true := by
  have split : ∀ mention : Mention, mention.assignedFreeName? = some name ↔
      mention.freeUse? = some (name, true) := by
    intro mention
    cases mention with
    | used other meaning writes =>
      cases meaning <;> cases writes <;> simp [Mention.assignedFreeName?, Mention.freeUse?]
    | _ => simp [Mention.assignedFreeName?, Mention.freeUse?]
  calc name ∈ definition.facts.modified
    _ ↔ name ∈ definition.mentions.filterMap Mention.assignedFreeName? := NameSet.mem_ofList
    _ ↔ (name, true) ∈ definition.mentions.filterMap Mention.freeUse? := by
      simp only [mem_filterMap, split]
    _ ↔ _ := by
      rw [freeUses_eq]
      simp

/-- The facts about a function are those of its free occurrences. Each name is listed with the
number of its free occurrences, in the order of the first ones, and the assigned names are those
with a free occurrence that is assigned. -/
theorem facts_of_freeOccurrences (definition : FunctionDef) :
    (∀ name count, (name, count) ∈ definition.facts.unbound ↔
      0 < count ∧ count = definition.freeOccurrences.countP (·.name = name)) ∧
    ((definition.facts.unbound.map (·.1)).Pairwise fun first second =>
      (definition.freeOccurrences.map (·.name)).idxOf first <
        (definition.freeOccurrences.map (·.name)).idxOf second) ∧
    ∀ name, name ∈ definition.facts.modified ↔
      ∃ occurrence ∈ definition.freeOccurrences,
        occurrence.name = name ∧ occurrence.writes = true := by
  refine ⟨?_, ?_, fun name => mem_modified⟩
  · intro name count
    have counts : (definition.freeOccurrences.map (·.name)).count name =
        definition.freeOccurrences.countP (·.name = name) := by
      simp only [List.count_eq_countP, List.countP_map]
      congr 1
    simp only [facts, FunctionFacts.ofMentions, occurrenceCounts, freeNames_eq, List.mem_map,
      Prod.mk.injEq, mem_firstOccurrences]
    rw [← counts]
    constructor
    · rintro ⟨_, ⟨occurrence, isFree, rfl⟩, rfl, rfl⟩
      exact ⟨List.count_pos_iff.mpr (List.mem_map_of_mem isFree), rfl⟩
    · rintro ⟨positive, rfl⟩
      exact ⟨name, List.mem_map.mp (List.count_pos_iff.mp positive), rfl, rfl⟩
  · rw [unbound_names, freeNames_eq]
    exact pairwise_firstOccurrences _

example :
    let hides : FunctionDef := { params := [.plain "x"], body := [.assign (.var "x") (.var "z")] }
    (freeOccurrences { body := [.forOf "x" false (.var "y") [.expr (.function hides)]] }).map
      (fun occurrence => (occurrence.name, occurrence.writes)) =
        [("y", false), ("x", true), ("z", false)] := by
  decide

/-! ## Default values of parameters -/

def FreeInDefault (definition : FunctionDef) (name : String) : Prop :=
  ∃ own value, .withDefault own value ∈ definition.params ∧
    ∃ occurrence ∈ value.occurrences false, occurrence.name = name ∧
      ∀ scope ∈ occurrence.scopes, ¬scope.Binds name

def DeclaresInBody (definition : FunctionDef) (name : String) : Prop :=
  (∃ stmt ∈ definition.body, stmt.Hoists name) ∨ DeclaresLexically definition.body name

theorem mem_occurrencesOfParams {params : List Param} {occurrence : Occurrence} :
    occurrence ∈ occurrencesOfParams params ↔
      ∃ own value, .withDefault own value ∈ params ∧ occurrence ∈ value.occurrences false := by
  induction params with
  | nil => simp [occurrencesOfParams]
  | cons param params induction =>
    cases param
    case withDefault own value =>
      simp only [occurrencesOfParams, List.mem_append, induction, mem_cons]
      grind
    all_goals simp [occurrencesOfParams, induction]

theorem mem_unbound_iff_exists :
    name ∈ definition.facts.unbound.map (·.1) ↔
      ∃ occurrence ∈ definition.freeOccurrences, occurrence.name = name := by
  rw [unbound_names, mem_firstOccurrences, freeNames_eq, mem_map]

/-- Default values see the declarations of the body. A name that is free in a default value, that
no parameter binds and that means neither the function nor its arguments, is a free name of the
function exactly if the body does not declare it. -/
theorem mem_unbound_iff_of_default (free : definition.FreeInDefault name)
    (notParam : ∀ param ∈ definition.params, name ∉ param.boundNames)
    (notItself : definition.isArrow = false → definition.name ≠ some name)
    (notArguments : name ≠ "arguments") :
    name ∈ definition.facts.unbound.map (·.1) ↔ ¬definition.DeclaresInBody name := by
  have declares : definition.Declares name ↔ definition.DeclaresInBody name :=
    ⟨fun declares => declares.resolve_left
      fun ⟨param, isParam, binds⟩ => notParam param isParam binds, .inr⟩
  rw [mem_unbound_iff_exists, ← declares]
  constructor
  · rintro ⟨occurrence, isFree, rfl⟩
    exact (of_decide_eq_true (mem_filter.mp isFree).2).notDeclared
  · intro notDeclared
    obtain ⟨own, value, isParam, occurrence, occurs, rfl, unbound⟩ := free
    have isOccurrence : occurrence ∈ definition.occurrences :=
      mem_append_left _ (mem_occurrencesOfParams.mpr ⟨own, value, isParam, occurs⟩)
    exact ⟨occurrence, mem_filter.mpr ⟨isOccurrence,
      decide_eq_true ⟨unbound, notDeclared, notArguments, notItself⟩⟩, rfl⟩

def withDefault (body : List Stmt) : FunctionDef :=
  { params := [.withDefault "a" (.var "x")], body }

theorem withDefault_freeInDefault (body : List Stmt) : (withDefault body).FreeInDefault "x" :=
  ⟨"a", .var "x", mem_singleton.mpr rfl, { name := "x", writes := false }, mem_singleton.mpr rfl,
    rfl, nofun⟩

theorem mem_unbound_of_default_inner :
    "x" ∈ (withDefault [.function { body := [.declare .var "x" none] }]).facts.unbound.map
    (·.1) := by
  refine (mem_unbound_iff_of_default (withDefault_freeInDefault _) (by decide) nofun
    (by decide)).mpr fun inBody => ?_
  have declares : (withDefault [.function { body := [.declare .var "x" none] }]).Declares "x" :=
    .inr inBody
  revert declares
  decide

/-- The variable that the body declares hides the one that the default value means. -/
theorem withDefault_hidden :
    (withDefault [.declare .var "x" none]).FreeInDefault "x" ∧
      "x" ∉ (withDefault [.declare .var "x" none]).facts.unbound.map (·.1) :=
  ⟨withDefault_freeInDefault _, by decide⟩

end FunctionDef

end HeapScript
