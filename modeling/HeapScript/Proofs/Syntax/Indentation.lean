import HeapScript.Proofs.Syntax.Induction
import HeapScript.Proofs.Text.StringLiteral
import HeapScript.Script
import Mathlib.Data.List.Basic
import Mathlib.Data.List.TakeWhile

/-!
The margin of a text is put before each of its lines.

What is printed at a margin is what is printed at none, moved to the right, as long as no name in
it contains a line end.
-/

namespace HeapScript

open List

/-! ## Names in texts -/

mutual

def Expr.rawNames : Expr → List String
  | .literal _ | .thisRef | .superRef => []
  | .var name => [name]
  | .binary _ lhs rhs | .compare _ lhs rhs | .logicalOr lhs rhs | .logicalAnd lhs rhs
  | .index lhs rhs | .isIn lhs rhs => lhs.rawNames ++ rhs.rawNames
  | .unary _ operand | .not operand | .typeOf operand | .postIncrement operand
  | .postDecrement operand | .spread operand | .member operand _ => operand.rawNames
  | .call callee args | .construct callee args => callee.rawNames ++ rawNamesOfExprs args
  | .conditional condition thenValue elseValue =>
    condition.rawNames ++ thenValue.rawNames ++ elseValue.rawNames
  | .array items => rawNamesOfExprs items
  | .object fields => rawNamesOfFields fields
  | .function definition => definition.ownName.toList ++ definition.rawNames
  | .classExpr definition => definition.rawNames

def rawNamesOfExprs : List Expr → List String
  | [] => []
  | item :: items => item.rawNames ++ rawNamesOfExprs items

def rawNamesOfFields : List ObjectField → List String
  | [] => []
  | ⟨_, value⟩ :: fields => value.rawNames ++ rawNamesOfFields fields

def FunctionDef.rawNames : FunctionDef → List String
  | ⟨_, params, body, _, _, _, _⟩ => rawNamesOfParams params ++ rawNamesOfStmts body

def rawNamesOfParams : List Param → List String
  | [] => []
  | .plain name :: params | .rest name :: params => name :: rawNamesOfParams params
  | .withDefault name value :: params => name :: (value.rawNames ++ rawNamesOfParams params)
  | .pattern shape :: params => shape.rawNames ++ rawNamesOfParams params

def ClassDef.rawNames : ClassDef → List String
  | ⟨name, none, members⟩ => name.toList ++ rawNamesOfMembers members
  | ⟨name, some superClass, members⟩ =>
    name.toList ++ superClass.rawNames ++ rawNamesOfMembers members

def rawNamesOfMembers : List ClassMember → List String
  | [] => []
  | ⟨_, key, _, function⟩ :: members =>
    key.rawNames ++ function.rawNames ++ rawNamesOfMembers members

def MemberKey.rawNames : MemberKey → List String
  | .named _ => []
  | .computed value => value.rawNames

def Stmt.rawNames : Stmt → List String
  | .returnValue none | .breakLoop | .continueLoop => []
  | .declare _ name none => [name]
  | .declare _ name (some value) => name :: value.rawNames
  | .expr value | .returnValue (some value) | .throwValue value => value.rawNames
  | .assign target value | .compoundAssign target _ value => target.rawNames ++ value.rawNames
  | .ifElse condition thenBody elseBody =>
    condition.rawNames ++ rawNamesOfStmts thenBody ++ rawNamesOfStmts elseBody
  | .whileLoop condition body => condition.rawNames ++ rawNamesOfStmts body
  | .forOf binding _ iterable body => binding :: (iterable.rawNames ++ rawNamesOfStmts body)
  | .block body => rawNamesOfStmts body
  | .switch value cases none => value.rawNames ++ rawNamesOfCases cases
  | .switch value cases (some body) =>
    value.rawNames ++ rawNamesOfCases cases ++ rawNamesOfStmts body
  | .function definition => definition.ownName.toList ++ definition.rawNames

def rawNamesOfCases : List SwitchCase → List String
  | [] => []
  | ⟨test, body⟩ :: cases => test.rawNames ++ rawNamesOfStmts body ++ rawNamesOfCases cases

def rawNamesOfStmts : List Stmt → List String
  | [] => []
  | stmt :: stmts => stmt.rawNames ++ rawNamesOfStmts stmts

end

/-! ## Lines -/

def lines : List Char → List (List Char)
  | [] => []
  | char :: rest =>
    if char = '\n' then ['\n'] :: lines rest
    else
      match lines rest with
      | [] => [[char]]
      | line :: others => (char :: line) :: others

def indented (columns : Nat) (text : String) : String :=
  String.join ((lines text.toList).map fun line => margin columns ++ String.ofList line)

example : indented 2 "if (a) \x7b\n  b;\n\x7d\n" = "  if (a) \x7b\n    b;\n  \x7d\n" := by
  decide

def OneLine (text : String) : Prop := '\n' ∉ text.toList

instance (text : String) : Decidable (OneLine text) :=
  inferInstanceAs (Decidable (_ ∉ _))

def EndsLine (text : String) : Prop :=
  text.toList.takeWhile (· ≠ '\n') ++ ['\n'] = text.toList

instance (text : String) : Decidable (EndsLine text) :=
  inferInstanceAs (Decidable (_ = _))

/-- The text with a margin put after each of its line ends. -/
def shift (columns : Nat) (text : String) : String :=
  String.ofList (text.toList.flatMap fun char =>
    if char = '\n' then '\n' :: replicate columns ' ' else [char])

section

variable {columns : Nat} {text : String}

@[simp] theorem shift_append (columns : Nat) (first second : String) :
    shift columns (first ++ second) = shift columns first ++ shift columns second := by
  simp [shift, String.ofList_append]

@[simp] theorem shift_of_oneLine (oneLine : OneLine text) : shift columns text = text := by
  have same : text.toList.flatMap (fun char =>
      if char = '\n' then '\n' :: replicate columns ' ' else [char]) =
      text.toList.flatMap ([·]) :=
    flatMap_congr fun char member => if_neg (ne_of_mem_of_not_mem member oneLine)
  rw [shift, same, flatMap_singleton', String.ofList_toList]

@[simp] theorem shift_of_endsLine (endsLine : EndsLine text) :
    shift columns text = text ++ margin columns := by
  have parts : text = String.ofList (text.toList.takeWhile (· ≠ '\n')) ++ "\n" := by
    rw [← String.toList_inj, String.toList_append, String.toList_ofList]
    exact endsLine.symm
  have oneLine : OneLine (String.ofList (text.toList.takeWhile (· ≠ '\n'))) := by
    rw [OneLine, String.toList_ofList]
    exact fun member => by simpa using mem_takeWhile_imp member
  have lineEnd : shift columns "\n" = "\n" ++ margin columns := by
    simp [shift, margin]
  rw [parts, shift_append, shift_of_oneLine oneLine, lineEnd, String.append_assoc]

@[simp] theorem margin_add (columns more : Nat) :
    margin (columns + more) = margin columns ++ margin more := by
  simp [margin, ← String.ofList_append]

theorem prefix_shift {start chars : List Char} (oneLine : '\n' ∉ start) :
    start <+: chars.flatMap (fun char =>
      if char = '\n' then '\n' :: replicate columns ' ' else [char]) ↔ start <+: chars := by
  induction start generalizing chars with
  | nil => simp
  | cons first start induction =>
    obtain ⟨notEnd, oneLine⟩ := not_or.mp (mt mem_cons.mpr oneLine)
    cases chars with
    | nil => simp
    | cons char chars =>
      by_cases isEnd : char = '\n'
      · simp [isEnd, Ne.symm notEnd, cons_prefix_cons]
      · simp [isEnd, cons_prefix_cons, induction oneLine]

theorem startsWith_shift {start : String} (oneLine : OneLine start) :
    (shift columns text).startsWith start = text.startsWith start := by
  rw [Bool.eq_iff_iff, String.startsWith_string_iff, String.startsWith_string_iff, shift,
    String.toList_ofList, prefix_shift oneLine]

end

/-! ## Parts of texts -/

section

variable {columns : Nat} {text : String}

@[simp] theorem shift_margin (more : Nat) : shift columns (margin more) = margin more :=
  shift_of_oneLine (by simp [OneLine, margin])

@[simp] theorem shift_binaryOp (op : BinaryOp) : shift columns op.text = op.text :=
  shift_of_oneLine (by cases op <;> decide)

@[simp] theorem shift_compareOp (op : CompareOp) : shift columns op.text = op.text :=
  shift_of_oneLine (by cases op <;> decide)

@[simp] theorem shift_unaryOp (op : UnaryOp) : shift columns op.text = op.text :=
  shift_of_oneLine (by cases op <;> decide)

@[simp] theorem shift_declarationKind (kind : DeclarationKind) :
    shift columns kind.text = kind.text :=
  shift_of_oneLine (by cases kind <;> decide)

theorem oneLine_append (first second : String) :
    OneLine (first ++ second) ↔ OneLine first ∧ OneLine second := by
  simp [OneLine]

theorem oneLine_literal (text : String) : OneLine (Text.literal text) := by
  simp only [Text.literal, oneLine_append]
  refine ⟨⟨by decide, fun member => ?_⟩, by decide⟩
  exact absurd (Text.isPrinted_of_mem_escape text member) (by decide)

theorem oneLine_of_isIdentifier (isName : Text.isIdentifier text = true) : OneLine text := by
  intro member
  unfold Text.isIdentifier at isName
  split at isName
  · cases isName
  · rename_i chars
    rw [chars] at member
    exact absurd (all_eq_true.mp (Bool.and_eq_true_iff.mp isName).2 _ member) (by decide)

theorem oneLine_positional (decimal : Decimal) : OneLine decimal.positional := by
  have noEnd : '\n' ∉ Decimal.digitsText decimal.digits := fun member =>
    absurd (Nat.isDigit_of_mem_toDigits (by decide) (by decide) member) (by decide)
  simp only [OneLine, Decimal.positional]
  split_ifs
  · simp [noEnd]
  · simp [mt mem_of_mem_take noEnd, mt mem_of_mem_drop noEnd]
  · simp [noEnd]

@[simp] theorem shift_constant (value : Constant) : shift columns value.text = value.text := by
  apply shift_of_oneLine
  cases value with
  | undefined | null => decide
  | bool value => cases value <;> decide
  | string value => exact oneLine_literal value
  | number value =>
    simp only [Constant.text, Double.text]
    split_ifs
    case pos => decide
    all_goals refine (oneLine_append _ _).mpr ⟨by decide, ?_⟩
    case pos | neg => decide
    all_goals exact oneLine_positional _

@[simp] theorem shift_keyText (name : String) : shift columns (keyText name) = keyText name := by
  apply shift_of_oneLine
  unfold keyText
  split
  · exact oneLine_of_isIdentifier ‹_›
  · exact oneLine_literal name

@[simp] theorem shift_fieldText (object field : String) :
    shift columns (fieldText object field) = fieldText (shift columns object) field := by
  unfold fieldText
  split
  · rename_i isName
    have isOneLine := oneLine_of_isIdentifier isName
    simp (disch := first | assumption | decide)
  · simp (disch := first | decide | exact oneLine_literal field)

@[simp] theorem shift_parenthesized :
    shift columns (parenthesized text) = parenthesized (shift columns text) := by
  simp (disch := decide) [parenthesized]

@[simp] theorem shift_commaSeparated (texts : List String) :
    shift columns (commaSeparated texts) = commaSeparated (texts.map (shift columns)) := by
  unfold commaSeparated
  induction texts with
  | nil => rfl
  | cons first texts induction =>
    cases texts with
    | nil => simp
    | cons second texts =>
      simp (disch := decide) only [map_cons, String.intercalate_cons_cons, shift_append,
        shift_of_oneLine] at induction ⊢
      rw [induction]

@[simp] theorem shift_objectText (texts : List String) :
    shift columns (objectText texts) = objectText (texts.map (shift columns)) := by
  cases texts with
  | nil => exact shift_of_oneLine (by decide)
  | cons first texts => simp (disch := decide) [objectText]

theorem shift_ite_parenthesized (test : Bool) :
    shift columns (if test then parenthesized text else text) =
      if test then parenthesized (shift columns text) else shift columns text := by
  cases test <;> simp [shift_parenthesized]

variable (operand : Expr)

@[simp] theorem shift_asOperand :
    shift columns (operand.asOperand text) = operand.asOperand (shift columns text) :=
  shift_ite_parenthesized _

@[simp] theorem shift_asObject :
    shift columns (operand.asObject text) = operand.asObject (shift columns text) :=
  shift_ite_parenthesized _

@[simp] theorem shift_asConstructor :
    shift columns (operand.asConstructor text) = operand.asConstructor (shift columns text) :=
  shift_ite_parenthesized _

@[simp] theorem shift_assignmentText (value : String) :
    shift columns (assignmentText text value) =
      assignmentText (shift columns text) (shift columns value) := by
  simp (disch := decide) only [assignmentText, startsWith_shift, shift_ite_parenthesized,
    shift_append, shift_of_oneLine]

@[simp] theorem shift_expressionStatementText :
    shift columns (expressionStatementText text) =
      expressionStatementText (shift columns text) := by
  have starts : startsLikeStatement (shift columns text) = startsLikeStatement text := by
    simp (disch := decide) only [startsLikeStatement, startsWith_shift]
  simp only [expressionStatementText, starts, shift_ite_parenthesized]

end

/-! ## Trees -/

def Plain (names : List String) : Prop := ∀ name ∈ names, OneLine name

instance (names : List String) : Decidable (Plain names) :=
  inferInstanceAs (Decidable (∀ name ∈ names, _))

theorem plain_append (first second : List String) :
    Plain (first ++ second) ↔ Plain first ∧ Plain second := forall_mem_append

theorem plain_cons (name : String) (names : List String) :
    Plain (name :: names) ↔ OneLine name ∧ Plain names := forall_mem_cons

section

variable (columns : Nat)

def Moves (text : Nat → String) : Prop := ∀ more, text (columns + more) = shift columns (text more)

def MoveAll (texts : Nat → List String) : Prop :=
  ∀ more, texts (columns + more) = (texts more).map (shift columns)

def LinesMove (text : Nat → String) : Prop :=
  ∀ more rest, text (columns + more) ++ (margin columns ++ rest) =
    margin columns ++ (shift columns (text more) ++ rest)

def movingTrees : TreeMotive where
  expr expr := Plain expr.rawNames → Moves columns expr.text
  exprs items := Plain (rawNamesOfExprs items) → MoveAll columns (exprTexts · items)
  fields fields := Plain (rawNamesOfFields fields) → MoveAll columns (fieldTexts · fields)
  function definition := Plain definition.rawNames →
    MoveAll columns (paramTexts · definition.params) ∧
      LinesMove columns (stmtsText · definition.body)
  params params := Plain (rawNamesOfParams params) → MoveAll columns (paramTexts · params)
  classDef definition := Plain definition.rawNames → Moves columns definition.text
  members members := Plain (rawNamesOfMembers members) → LinesMove columns (membersText · members)
  key key := Plain key.rawNames → Moves columns key.text
  stmt stmt := Plain stmt.rawNames → LinesMove columns stmt.text
  cases cases := Plain (rawNamesOfCases cases) → LinesMove columns (casesText · cases)
  stmts stmts := Plain (rawNamesOfStmts stmts) → LinesMove columns (stmtsText · stmts)

variable {columns}

theorem linesMove_directives (directives : List String) :
    LinesMove columns (directivesText · directives) := by
  intro more rest
  unfold directivesText
  induction directives with
  | nil => simp [shift]
  | cons directive directives induction =>
    simp (disch := first | decide | exact oneLine_literal _) [directiveText, String.append_assoc,
      induction]

theorem oneLine_asyncText (definition : FunctionDef) : OneLine definition.asyncText := by
  unfold FunctionDef.asyncText
  split <;> decide

theorem oneLine_starText (definition : FunctionDef) : OneLine definition.starText := by
  unfold FunctionDef.starText
  split <;> decide

theorem shift_headText {definition : FunctionDef} (plain : Plain definition.ownName.toList)
    (params : List String) :
    shift columns (definition.headText params) =
      definition.headText (params.map (shift columns)) := by
  have async := oneLine_asyncText definition
  have star := oneLine_starText definition
  simp only [FunctionDef.headText]
  split
  · simp (disch := first | assumption | decide)
  · rename_i notArrow
    have name : OneLine (definition.name.getD "") := by
      cases isName : definition.name with
      | none => decide
      | some name => exact plain name (by simp [FunctionDef.ownName, notArrow, isName])
    simp (disch := first | assumption | decide)

@[simp] theorem shift_headText_member (classMember : ClassMember) (key : String) :
    shift columns (classMember.headText key) = classMember.headText (shift columns key) := by
  have isStatic : OneLine classMember.staticText := by
    unfold ClassMember.staticText
    split <;> decide
  have async := oneLine_asyncText classMember.function
  have star := oneLine_starText classMember.function
  unfold ClassMember.headText
  split <;> simp (disch := first | assumption | decide)

theorem moves_function {definition : FunctionDef} (plain : Plain definition.ownName.toList)
    (moves : MoveAll columns (paramTexts · definition.params) ∧
      LinesMove columns (stmtsText · definition.body)) :
    Moves columns definition.text := by
  obtain ⟨name, params, body, directives, isArrow, isGenerator, isAsync⟩ := definition
  obtain ⟨params, body⟩ := moves
  have directives := @linesMove_directives columns directives
  intro more
  simp only [MoveAll, LinesMove] at params body directives
  simp (disch := first | assumption | decide) [FunctionDef.text, shift_headText plain, params,
    String.append_assoc, Nat.add_assoc, directives, body]

theorem movingTrees_steps : (movingTrees columns).Steps := by
  constructor <;> simp only [movingTrees, Moves, MoveAll, LinesMove, Expr.rawNames, rawNamesOfExprs,
    rawNamesOfFields, FunctionDef.rawNames, rawNamesOfParams, ClassDef.rawNames, rawNamesOfMembers,
    MemberKey.rawNames, Stmt.rawNames, rawNamesOfCases, rawNamesOfStmts, plain_append, plain_cons,
    and_imp]
  case functionExpr => exact fun moves name plain => moves_function name (moves plain)
  case functionStmt =>
    intro definition moves name plain more rest
    simp (disch := decide) [Stmt.text, moves_function name (moves plain) more, String.append_assoc]
  case functionDef =>
    intro _ _ _ _ _ params body inParams inBody plain plain'
    exact ⟨inParams plain, inBody plain'⟩
  case consMember =>
    intro kind isStatic key function members inKey inFunction inMembers plain plain' plain'' more
      rest
    obtain ⟨name, params, body, directives, isArrow, isGenerator, isAsync⟩ := function
    obtain ⟨inParams, inBody⟩ := inFunction plain'
    have directives := @linesMove_directives columns directives
    simp only [LinesMove] at directives
    simp (disch := first | assumption | decide) [membersText, ClassMember.text, String.append_assoc,
      Nat.add_assoc, *]
  case ifElse =>
    intro condition thenBody elseBody
    intros
    cases hasElse : elseBody.isEmpty <;>
      simp (disch := first | assumption | decide) [*, Stmt.text, String.append_assoc, Nat.add_assoc]
  case plainClass | derivedClass =>
    intro name
    intros
    cases name <;> simp only [plain_cons, Option.toList] at * <;>
      simp (disch := first | assumption | exact And.left ‹_› | decide) [*, ClassDef.text,
        String.append_assoc, Nat.add_assoc]
  case forOf =>
    intro binding declares
    intros
    cases declares <;>
      simp (disch := first | assumption | decide) [*, Stmt.text, String.append_assoc, Nat.add_assoc]
  all_goals
    intros
    simp (disch := first | assumption | decide) [*, Expr.text, exprTexts, fieldTexts, paramTexts,
      Param.text, membersText, MemberKey.text, Stmt.text, casesText, stmtsText, Expr.operatorText,
      String.append_assoc, Nat.add_assoc]

theorem LinesMove.append {first second : Nat → String} (moves : LinesMove columns first)
    (moves' : LinesMove columns second) :
    LinesMove columns fun margin => first margin ++ second margin := by
  intro more rest
  simp only [LinesMove] at moves moves'
  simp only [String.append_assoc, moves, moves', shift_append]

end

/-! ## Whole texts -/

section

variable {columns : Nat} {first second text : String}

def IsLines (text : String) : Prop := ∀ char, text.toList.getLast? = some char → char = '\n'

theorem isLines_append_of_getLast? (ends : second.toList.getLast? = some '\n') :
    IsLines (first ++ second) := by
  simp [IsLines, ends]

theorem IsLines.append (isLines : IsLines first) (isLines' : IsLines second) :
    IsLines (first ++ second) := by
  intro char isLast
  simp only [String.toList_append, getLast?_append] at isLast
  cases ends : second.toList.getLast? with
  | none => exact isLines char (by simpa [ends] using isLast)
  | some last => exact isLines' char (by simpa [ends] using isLast)

theorem isLines_directives (directives : List String) :
    IsLines (directivesText columns directives) := by
  unfold directivesText
  induction directives with
  | nil => simp [IsLines]
  | cons directive directives induction =>
    rw [map_cons, String.join_cons]
    exact (isLines_append_of_getLast? (by decide)).append induction

theorem isLines_stmt (stmt : Stmt) : IsLines (stmt.text columns) := by
  fun_cases Stmt.text columns stmt <;> exact isLines_append_of_getLast? (by decide)

theorem isLines_stmts (stmts : List Stmt) : IsLines (stmtsText columns stmts) := by
  induction stmts with
  | nil => simp [IsLines, stmtsText]
  | cons stmt stmts induction => exact (isLines_stmt stmt).append induction

theorem eq_nil_of_lines {chars : List Char} (noLines : lines chars = []) : chars = [] := by
  cases chars with
  | nil => rfl
  | cons char chars =>
    unfold lines at noLines
    split at noLines
    · cases noLines
    · split at noLines <;> cases noLines

theorem flatMap_lines_append {before chars : List Char}
    (isLines : ∀ char, chars.getLast? = some char → char = '\n') :
    (lines chars).flatMap (before ++ ·) ++ before =
      before ++ chars.flatMap fun char => if char = '\n' then '\n' :: before else [char] := by
  induction chars with
  | nil => simp [lines]
  | cons char chars induction =>
    have induction := induction fun last isLast => isLines last (by simp [getLast?_cons, isLast])
    by_cases isEnd : char = '\n'
    · simp [lines, isEnd, induction]
    · -- The line goes on, for the text ends with a line end.
      cases isRest : lines chars with
      | nil => exact absurd (isLines char (by simp [eq_nil_of_lines isRest])) isEnd
      | cons line others => simpa [lines, isEnd, isRest] using induction

theorem indented_append_margin (isLines : IsLines text) :
    indented columns text ++ margin columns = margin columns ++ shift columns text := by
  have spread := @flatMap_lines_append (replicate columns ' ') _ isLines
  rw [← String.toList_inj]
  simpa [indented, margin, shift, flatMap_map] using spread

theorem LinesMove.eq_indented {text : Nat → String} (moves : LinesMove columns text)
    (isLines : IsLines (text 0)) : text columns = indented columns (text 0) := by
  have moved := moves 0 ""
  simp only [Nat.add_zero, String.append_empty, ← indented_append_margin isLines] at moved
  exact (String.append_left_inj _).mp moved

theorem scriptText_wrapped (directives : List String) (stmts : List Stmt) :
    scriptText [] [Script.wrapped directives stmts] =
      "(function () \x7b\n" ++ (directivesText 2 directives ++ stmtsText 2 stmts) ++
        "\x7d).call(this);\n" := by
  have opens : ∀ text, expressionStatementText ("(" ++ text) = "(" ++ text := fun text =>
    if_neg (by simp [startsLikeStatement, String.startsWith_string_iff])
  have isName : Text.isIdentifier "call" = true := by decide
  have noMargin : margin 0 = "" := rfl
  have noDirectives : directivesText 0 [] = "" := rfl
  rw [← String.toList_inj]
  simp [scriptText, noDirectives, noMargin, stmtsText, Script.wrapped, Stmt.text, Expr.methodCall,
    Expr.text, exprTexts, Expr.asOperand, Expr.asObject, Expr.needsParens, fieldText, isName,
    FunctionDef.text, FunctionDef.headText, FunctionDef.asyncText, FunctionDef.starText, paramTexts,
    parenthesized, commaSeparated, opens, String.append_assoc]

end

/-- What a script says within a function is what it says without one, moved to the right. In the
same way, the margin of statements is put before each of their lines. -/
theorem text_indented :
    (∀ script : Script, Plain (rawNamesOfStmts script.stmts) →
      { script with wrap := true }.text =
        "(function () \x7b\n" ++ indented 2 { script with wrap := false }.text ++
          "\x7d).call(this);\n") ∧
    ∀ stmts, Plain (rawNamesOfStmts stmts) → ∀ columns,
      stmtsText columns stmts = indented columns (stmtsText 0 stmts) := by
  have moves : ∀ {columns} stmts, Plain (rawNamesOfStmts stmts) →
      LinesMove columns (stmtsText · stmts) := fun stmts => movingTrees_steps.stmts stmts
  refine ⟨fun script plain => ?_, fun stmts plain columns =>
    (moves stmts plain).eq_indented (isLines_stmts stmts)⟩
  have both := (@linesMove_directives 2 script.directives).append (moves script.stmts plain)
  have within := both.eq_indented
    ((isLines_directives script.directives).append (isLines_stmts script.stmts))
  exact (scriptText_wrapped _ _).trans (congrArg (_ ++ · ++ _) within)

def waitingScript : Script where
  directives := ["use strict"]
  prelude := []
  body := [.function { name := some "wait", body := [.whileLoop (.var "busy") [.continueLoop]] }]
  wrap := false
  report := {}

theorem waitingScript_indented :
    { waitingScript with wrap := true }.text =
        "(function () \x7b\n" ++ indented 2 waitingScript.text ++ "\x7d).call(this);\n" ∧
      stmtsText 4 waitingScript.stmts = indented 4 (stmtsText 0 waitingScript.stmts) := by
  have plain : Plain (rawNamesOfStmts waitingScript.stmts) := by decide
  exact ⟨text_indented.1 waitingScript plain, text_indented.2 _ plain 4⟩

end HeapScript
