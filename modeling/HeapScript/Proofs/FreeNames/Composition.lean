import HeapScript.Proofs.FreeNames.Attributes

/-!
Replacing names in two rounds.

A round of replacements leaves every declaration in place, so a second round sees the scopes of the
first one. Two rounds are one round if the expressions that the first one puts in are left alone by
the second one.
-/

namespace HeapScript

/-! ## Declarations stay -/

namespace Replacements

theorem lexicalNames_loop (replacements : Replacements) (around : Surroundings) (binding : String)
    (iterable : Expr) (body rest : List Stmt) :
    lexicalNames (replacements.loop around binding iterable body :: rest) = lexicalNames rest := by
  unfold loop
  split <;> rfl

theorem hoistedNames_loop (replacements : Replacements) (around : Surroundings) (binding : String)
    (iterable : Expr) (body : List Stmt) :
    (replacements.loop around binding iterable body).hoistedNames = hoistedNames body := by
  unfold loop
  split <;> simp [Stmt.hoistedNames, hoistedNames]

end Replacements

theorem lexicalNames_replace (replacements : Replacements) (around : Surroundings) (stmt : Stmt)
    {stmts replaced : List Stmt} (same : lexicalNames replaced = lexicalNames stmts) :
    lexicalNames (stmt.replace replacements around :: replaced) = lexicalNames (stmt :: stmts) := by
  cases stmt with
  | declare kind name init => cases kind <;> cases init <;> simp [Stmt.replace, lexicalNames, same]
  | forOf binding declares iterable body =>
    cases declares with
    | true => simpa [Stmt.replace, lexicalNames] using same
    | false => simpa [Stmt.replace, Replacements.lexicalNames_loop, lexicalNames] using same
  | returnValue value => cases value <;> simpa [Stmt.replace, lexicalNames] using same
  | switch value cases defaultBody =>
    cases defaultBody <;> simpa [Stmt.replace, lexicalNames] using same
  | _ => simpa [Stmt.replace, lexicalNames] using same

@[simp] theorem lexicalNames_replaceStmts (replacements : Replacements) (around : Surroundings)
    (stmts : List Stmt) :
    lexicalNames (replaceStmts replacements around stmts) = lexicalNames stmts := by
  induction stmts with
  | nil => rfl
  | cons stmt stmts induction => exact lexicalNames_replace replacements around stmt induction

@[simp] theorem switchNames_replaceCases (replacements : Replacements)
    (inner : Surroundings) (cases : List SwitchCase) (defaultBody : Option (List Stmt)) :
    switchNames (replaceCases replacements inner cases)
        (defaultBody.map (replaceStmts replacements inner)) = switchNames cases defaultBody := by
  have bodies : (replaceCases replacements inner cases).flatMap
      (fun switchCase => lexicalNames switchCase.body) =
        cases.flatMap fun switchCase => lexicalNames switchCase.body := by
    induction cases with
    | nil => rfl
    | cons first cases induction =>
      obtain ⟨test, body⟩ := first
      simp [replaceCases, induction]
  cases defaultBody <;> simp [switchNames, bodies]

mutual

@[simp] theorem Stmt.hoistedNames_replace (replacements : Replacements) (around : Surroundings) :
    (stmt : Stmt) → (stmt.replace replacements around).hoistedNames = stmt.hoistedNames
  | .declare kind name none => by cases kind <;> simp [Stmt.replace, Stmt.hoistedNames]
  | .declare kind name (some init) => by cases kind <;> simp [Stmt.replace, Stmt.hoistedNames]
  | .assign _ _ | .compoundAssign _ _ _ | .expr _ | .returnValue none | .returnValue (some _)
  | .breakLoop | .continueLoop | .throwValue _ => by simp [Stmt.replace, Stmt.hoistedNames]
  | .ifElse _ thenBody elseBody => by
      simp [Stmt.replace, Stmt.hoistedNames, hoistedNames_replaceStmts _ _ thenBody,
        hoistedNames_replaceStmts _ _ elseBody]
  | .whileLoop _ body | .forOf _ true _ body | .block body => by
      simp [Stmt.replace, Stmt.hoistedNames, hoistedNames_replaceStmts _ _ body]
  | .forOf _ false _ body => by
      simp [Stmt.replace, Replacements.hoistedNames_loop, Stmt.hoistedNames,
        hoistedNames_replaceStmts _ _ body]
  | .switch _ cases none => by
      simp [Stmt.replace, Stmt.hoistedNames, hoistedNamesOfCases_replaceCases _ _ cases]
  | .switch _ cases (some body) => by
      simp [Stmt.replace, Stmt.hoistedNames, hoistedNamesOfCases_replaceCases _ _ cases,
        hoistedNames_replaceStmts _ _ body]
  | .function ⟨_, _, _, _, _, _, _⟩ => by
      simp [Stmt.replace, FunctionDef.replaceNested, Stmt.hoistedNames]

@[simp] theorem hoistedNames_replaceStmts (replacements : Replacements) (around : Surroundings) :
    (stmts : List Stmt) → hoistedNames (replaceStmts replacements around stmts) = hoistedNames stmts
  | [] => rfl
  | stmt :: stmts => by
      simp [replaceStmts, hoistedNames, Stmt.hoistedNames_replace _ _ stmt,
        hoistedNames_replaceStmts _ _ stmts]

@[simp] theorem hoistedNamesOfCases_replaceCases (replacements : Replacements)
    (around : Surroundings) : (cases : List SwitchCase) →
    hoistedNamesOfCases (replaceCases replacements around cases) = hoistedNamesOfCases cases
  | [] => rfl
  | ⟨_, body⟩ :: cases => by
      simp [replaceCases, hoistedNamesOfCases, hoistedNames_replaceStmts _ _ body,
        hoistedNamesOfCases_replaceCases _ _ cases]

end

@[simp] theorem boundNames_replaceParams (replacements : Replacements) (around : Surroundings)
    (params : List Param) :
    (replaceParams replacements around params).flatMap Param.boundNames =
      params.flatMap Param.boundNames := by
  induction params with
  | nil => rfl
  | cons param params induction => cases param <;> simp [replaceParams, Param.boundNames, induction]

namespace FunctionDef

@[simp] theorem nestedNames_replaceNested (replacements : Replacements) (around : Surroundings)
    (isExpression : Bool) (definition : FunctionDef) :
    (definition.replaceNested replacements around isExpression).nestedNames isExpression =
      definition.nestedNames isExpression := by
  obtain ⟨name, params, body, directives, isArrow, isGenerator, isAsync⟩ := definition
  simp [replaceNested, nestedNames, ownName, boundNames]

@[simp] theorem surroundings_replace (replacements : Replacements) (definition : FunctionDef) :
    (definition.replace replacements).surroundings = definition.surroundings := by
  simp [replace, surroundings, ownName, boundNames]

end FunctionDef

/-! ## Two rounds -/

/-- Whether two surroundings differ at most in the temporary of loops, which only the first round
puts in. -/
structure Surroundings.AgreesWith (around other : Surroundings) : Prop where
  bound : ∀ name, name ≠ loopTemporary → (name ∈ other.bound ↔ name ∈ around.bound)
  ownName : other.ownName = around.ownName
  depth : other.depth = around.depth

namespace Surroundings.AgreesWith

variable {around other : Surroundings}

theorem refl (around : Surroundings) : around.AgreesWith around :=
  ⟨fun _ _ => Iff.rfl, rfl, rfl⟩

section

variable (agrees : around.AgreesWith other)

include agrees

theorem meaning_eq {name : String} (different : name ≠ loopTemporary) :
    other.meaning name = around.meaning name := by
  simp [meaning, agrees.bound name different, agrees.ownName, agrees.depth]

theorem within (names : List String) : (around.within names).AgreesWith (other.within names) where
  bound name different := by simp [Surroundings.within, agrees.bound name different]
  ownName := agrees.ownName
  depth := agrees.depth

theorem withinFunction (isArrow : Bool) (names : List String) :
    (around.withinFunction isArrow names).AgreesWith (other.withinFunction isArrow names) := by
  cases isArrow with
  | true => exact agrees.within names
  | false =>
    exact ⟨(agrees.within names).bound, agrees.ownName, congrArg (· + 1) agrees.depth⟩

/-- The body of a loop over the temporary is inside a scope that holds it. -/
theorem withinTemporary (names : List String) :
    (around.within names).AgreesWith (other.within (names ++ [loopTemporary])) where
  bound name different := by
    simp [Surroundings.within, agrees.bound name different, different]
  ownName := agrees.ownName
  depth := agrees.depth

end

end Surroundings.AgreesWith

namespace Replacements

/-- Whether an expression stays as it is wherever it stands. -/
def Ignores (replacements : Replacements) (value : Expr) : Prop :=
  ∀ around, value.replace replacements around = value

structure Composes (first second both : Replacements) : Prop where
  replaced : ∀ name value, first.names.lookup name = some value →
    both.names.lookup name = some value ∧ second.Ignores value
  kept : ∀ name, first.names.lookup name = none →
    both.names.lookup name = second.names.lookup name
  loaded : ∀ name value, first.modules.lookup name = some value → second.Ignores value
  sameLoads : both.modules = first.modules
  noLoads : second.modules = []
  temporary : second.names.lookup loopTemporary = none

variable {first second both : Replacements} {around other : Surroundings}

theorem forName?_of_agrees (temporary : second.names.lookup loopTemporary = none)
    (agrees : around.AgreesWith other) (name : String) :
    second.forName? other name = second.forName? around name := by
  by_cases isTemporary : name = loopTemporary
  · subst isTemporary
    unfold forName?
    split <;> split <;> simp [temporary]
  · simp [forName?, agrees.meaning_eq isTemporary]

namespace Composes

section

variable (composes : Composes first second both)

include composes

theorem forName?_of_some {name : String} {value : Expr}
    (found : first.forName? around name = some value) :
    both.forName? around name = some value ∧ second.Ignores value := by
  unfold forName? at found ⊢
  split at found
  · exact composes.replaced name value found
  · cases found

theorem forName?_of_none (agrees : around.AgreesWith other) {name : String}
    (missing : first.forName? around name = none) :
    both.forName? around name = second.forName? other name := by
  rw [forName?_of_agrees composes.temporary agrees]
  unfold forName? at missing ⊢
  split at missing
  · exact composes.kept name missing
  · rfl

theorem replace_var (agrees : around.AgreesWith other) (name : String) :
    ((Expr.var name).replace first around).replace second other =
      (Expr.var name).replace both around := by
  simp only [Expr.replace]
  cases found : first.forName? around name with
  | none => simp [composes.forName?_of_none agrees found, Expr.replace]
  | some value =>
    obtain ⟨same, ignored⟩ := composes.forName?_of_some found
    simp [same, ignored other]

/-- The first round replaces the same loads as both rounds together, and the second one none. -/
theorem forLoad?_cases (around : Surroundings) (callee : Expr) (args : List Expr) :
    both.forLoad? around callee args = first.forLoad? around callee args ∧
      (∀ value, first.forLoad? around callee args = some value → second.Ignores value) := by
  refine ⟨by simp [forLoad?, composes.sameLoads], ?_⟩
  intro value found
  simp only [forLoad?, Option.bind_eq_bind, Option.bind_eq_some_iff] at found
  obtain ⟨name, _, found⟩ := found
  exact composes.loaded name value found

theorem forLoad?_second (around : Surroundings) (callee : Expr) (args : List Expr) :
    second.forLoad? around callee args = none := by
  simp [forLoad?, composes.noLoads]

/-- A loop whose variable exists already, given that two rounds over its parts are one round. -/
theorem replace_loop (agrees : around.AgreesWith other) (binding : String)
    {iterable iterable' : Expr} {body body' : List Stmt}
    (iterables : iterable.replace second other = iterable')
    (bodies : ∀ inner, (around.within (lexicalNames body)).AgreesWith inner →
      replaceStmts second inner body = body') :
    (first.loop around binding iterable body).replace second other =
      both.loop around binding iterable' body' := by
  have plainBody : replaceStmts second (other.within (lexicalNames body)) body = body' :=
    bodies _ (agrees.within _)
  cases found : first.forName? around binding with
  | none =>
    simp only [loop, found, Stmt.replace, iterables, plainBody]
    rw [composes.forName?_of_none agrees found]
  | some value =>
    obtain ⟨same, ignored⟩ := composes.forName?_of_some found
    by_cases isName : ∃ name, value = .var name
    · obtain ⟨name, rfl⟩ := isName
      simp only [loop, found, same, Stmt.replace, iterables, plainBody]
      -- The second round leaves the new loop variable alone, so it stays a plain name.
      have stays : (second.forName? other name).getD (.var name) = .var name := by
        simpa [Expr.replace] using ignored other
      cases again : second.forName? other name with
      | none => rfl
      | some target => simp_all
    · have temporaryBody := bodies _ (agrees.withinTemporary (lexicalNames body))
      have stays : second.forName?
          (other.within (lexicalNames body ++ [loopTemporary])) loopTemporary = none := by
        simp [forName?, Surroundings.meaning, Surroundings.within]
      cases value <;> simp_all [loop, Stmt.replace, replaceStmts, lexicalNames, Expr.replace,
        Ignores]

end

end Composes

end Replacements

section Rounds

variable {first second both : Replacements}

theorem replace_replace_steps (composes : first.Composes second both) :
    (TreeMotive.relating (.replaced (.replaced .itself)) (.replaced .itself) fun twice once =>
      ∀ around other, around.AgreesWith other →
        twice first around second other = once both around).Steps := by
  constructor <;> simp only [TreeMotive.relating, TreeAttribute.replaced, TreeAttribute.itself,
    Sigma.mk.injEq, heq_eq_eq, true_and, forall_const]
  case var => exact fun name _ _ agrees => composes.replace_var agrees name
  case call =>
    intro callee args inCallee inArgs around other agrees
    obtain ⟨same, ignored⟩ := composes.forLoad?_cases around callee args
    simp only [Expr.replace, same]
    cases found : first.forLoad? around callee args with
    | some value => simpa using ignored value found other
    | none =>
      simp [Expr.replace, composes.forLoad?_second, inCallee _ _ agrees, inArgs _ _ agrees]
  case functionDef =>
    intro name directives isArrow isGenerator isAsync params body inParams inBody isExpression
      around other agrees
    have inner := agrees.withinFunction isArrow (FunctionDef.nestedNames
      ⟨name, params, body, directives, isArrow, isGenerator, isAsync⟩ isExpression)
    have names := FunctionDef.nestedNames_replaceNested first around isExpression
      ⟨name, params, body, directives, isArrow, isGenerator, isAsync⟩
    simp only [FunctionDef.replaceNested] at names ⊢
    rw [names, inParams _ _ inner, inBody _ _ inner]
  case forOf =>
    intro binding declares iterable body inIterable inBody around other agrees
    cases declares with
    | true => simp [Stmt.replace, inIterable _ _ agrees, inBody _ _ (agrees.within _)]
    | false =>
      simp only [Stmt.replace]
      refine composes.replace_loop agrees binding (inIterable _ _ agrees) ?_
      intro inner agreesInner
      rw [lexicalNames_replaceStmts] at agreesInner
      exact inBody _ _ agreesInner
  case switch =>
    intro value cases inValue inCases around other agrees
    have names := switchNames_replaceCases first (around.within (switchNames cases none)) cases none
    simp only [Option.map_none] at names
    simp [Stmt.replace, names, inValue _ _ agrees, inCases _ _ (agrees.within _)]
  case switchDefault =>
    intro value cases body inValue inCases inBody around other agrees
    have names := switchNames_replaceCases first
      (around.within (switchNames cases (some body))) cases
      (some body)
    simp only [Option.map_some] at names
    simp [Stmt.replace, names, inValue _ _ agrees, inCases _ _ (agrees.within _),
      inBody _ _ (agrees.within _)]
  all_goals
    intros
    simp_all [Expr.replace, replaceExprs, replaceFields, replaceParams, ClassDef.replace,
      replaceMembers, MemberKey.replace, Stmt.replace, replaceCases, replaceStmts,
      Surroundings.AgreesWith.within]

theorem FunctionDef.replace_replace (composes : first.Composes second both)
    (definition : FunctionDef) :
    (definition.replace first).replace second = definition.replace both := by
  have same := Surroundings.AgreesWith.refl definition.surroundings
  have steps := replace_replace_steps composes
  have params := eq_of_heq (Sigma.mk.inj (steps.params definition.params _ _ same)).2
  have body := eq_of_heq (Sigma.mk.inj (steps.stmts definition.body _ _ same)).2
  have around := FunctionDef.surroundings_replace first definition
  simp only [FunctionDef.replace] at around ⊢
  rw [around, params, body]

end Rounds

end HeapScript
