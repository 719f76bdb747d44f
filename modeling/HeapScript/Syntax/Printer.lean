import HeapScript.Decimal.Positional
import HeapScript.Syntax.Basic
import HeapScript.Text.Identifier
import HeapScript.Text.StringLiteral

/-!
The text of syntax trees.

Every statement ends its last line. Nested bodies stand two columns further to the right; the
text of an expression depends on the margin only through the function and class bodies in it.
-/

namespace HeapScript

/-! ## Words and operators -/

def Double.scriptTexts : Double.SpecialTexts := ⟨"NaN", "Infinity"⟩

def Constant.text : Constant → String
  | .undefined => "undefined"
  | .null => "null"
  | .bool true => "true"
  | .bool false => "false"
  | .number value => value.text Double.scriptTexts
  | .string value => Text.literal value

def BinaryOp.text : BinaryOp → String
  | .add => "+"
  | .sub => "-"
  | .mul => "*"
  | .div => "/"
  | .rem => "%"
  | .bitAnd => "&"
  | .bitOr => "|"
  | .bitXor => "^"
  | .shiftLeft => "<<"
  | .shiftRight => ">>"
  | .shiftRightUnsigned => ">>>"

def CompareOp.text : CompareOp → String
  | .strictEq => "==="
  | .strictNe => "!=="
  | .looseEq => "=="
  | .looseNe => "!="
  | .lt => "<"
  | .le => "<="
  | .gt => ">"
  | .ge => ">="
  | .instanceOf => "instanceof"

/-- The operator with the blank that a word needs after it. -/
def UnaryOp.text : UnaryOp → String
  | .neg => "-"
  | .plus => "+"
  | .bitNot => "~"
  | .void => "void "

def DeclarationKind.text : DeclarationKind → String
  | .var => "var"
  | .letDecl => "let"
  | .constDecl => "const"

/-! ## Small forms -/

def margin (columns : Nat) : String :=
  String.ofList (List.replicate columns ' ')

def commaSeparated (parts : List String) : String :=
  ", ".intercalate parts

def parenthesized (text : String) : String :=
  "(" ++ text ++ ")"

def keyText (name : String) : String :=
  if Text.isIdentifier name then name else Text.literal name

def fieldText (object field : String) : String :=
  if Text.isIdentifier field then object ++ "." ++ field
  else object ++ "[" ++ Text.literal field ++ "]"

def objectText : List String → String
  | [] => "\x7b\x7d"
  | fields => "\x7b " ++ commaSeparated fields ++ " \x7d"

def directiveText (columns : Nat) (directive : String) : String :=
  margin columns ++ Text.literal directive ++ ";\n"

def directivesText (columns : Nat) (directives : List String) : String :=
  String.join (directives.map (directiveText columns))

namespace FunctionDef

def asyncText (definition : FunctionDef) : String :=
  if definition.isAsync then "async " else ""

def starText (definition : FunctionDef) : String :=
  if definition.isGenerator then "*" else ""

/-- Everything before the body, up to the opening brace. -/
def headText (definition : FunctionDef) (params : List String) : String :=
  let params := parenthesized (commaSeparated params)
  if definition.isArrow then definition.asyncText ++ params ++ " =>"
  else definition.asyncText ++ "function" ++ definition.starText ++ " " ++
    definition.name.getD "" ++ params

end FunctionDef

namespace ClassMember

def staticText (classMember : ClassMember) : String :=
  if classMember.isStatic then "static " else ""

def headText (classMember : ClassMember) (key : String) : String :=
  match classMember.kind with
  | .constructor => "constructor"
  | .getter => classMember.staticText ++ "get " ++ key
  | .setter => classMember.staticText ++ "set " ++ key
  | .method => classMember.staticText ++ classMember.function.asyncText ++
      classMember.function.starText ++ key

end ClassMember

namespace Expr

/-- Whether the expression is put in parentheses when it is an operand. -/
def needsParens : Expr → Bool
  | .literal (.number value) => value.negative
  | .binary .. | .compare .. | .conditional .. | .logicalOr .. | .logicalAnd ..
  | .unary .. | .not _ | .typeOf _ | .isIn .. | .function _ | .classExpr _ => true
  | _ => false

def isNumber : Expr → Bool
  | .literal (.number _) => true
  | _ => false

def isCall : Expr → Bool
  | .call .. => true
  | _ => false

def asOperand (operand : Expr) (text : String) : String :=
  if operand.needsParens then parenthesized text else text

def operatorText (lhs rhs : Expr) (lhsText op rhsText : String) : String :=
  lhs.asOperand lhsText ++ " " ++ op ++ " " ++ rhs.asOperand rhsText

/-- The object of a field access with the given text. A number would swallow the dot. -/
def asObject (object : Expr) (text : String) : String :=
  if object.isNumber || object.needsParens then parenthesized text else text

/-- The class of a `new` with the given text. The arguments of a call in it would be taken for
those of the `new`. -/
def asConstructor (callee : Expr) (text : String) : String :=
  if callee.isCall || callee.needsParens then parenthesized text else text

end Expr

/-- Whether the text of an expression would be read as a block or a declaration at the start of
a statement. -/
def startsLikeStatement (text : String) : Bool :=
  text.startsWith "\x7b" || text.startsWith "function" || text.startsWith "class"

def assignmentText (target value : String) : String :=
  let assignment := target ++ " = " ++ value
  if target.startsWith "\x7b" then parenthesized assignment else assignment

def expressionStatementText (text : String) : String :=
  if startsLikeStatement text then parenthesized text else text

/-! ## Trees -/

mutual

def Expr.text (columns : Nat) : Expr → String
  | .literal value => value.text
  | .var name => name
  | .thisRef => "this"
  | .superRef => "super"
  | .binary op lhs rhs => Expr.operatorText lhs rhs (lhs.text columns) op.text (rhs.text columns)
  | .unary op operand => op.text ++ operand.asOperand (operand.text columns)
  | .compare op lhs rhs => Expr.operatorText lhs rhs (lhs.text columns) op.text (rhs.text columns)
  | .member object field => fieldText (object.asObject (object.text columns)) field
  | .index collection index =>
    collection.asOperand (collection.text columns) ++ "[" ++ index.text columns ++ "]"
  | .call callee args =>
    callee.asOperand (callee.text columns) ++
      parenthesized (commaSeparated (exprTexts columns args))
  | .construct callee args =>
    "new " ++ callee.asConstructor (callee.text columns) ++
      parenthesized (commaSeparated (exprTexts columns args))
  | .conditional condition thenValue elseValue =>
    condition.asOperand (condition.text columns) ++
      " ? " ++ thenValue.asOperand (thenValue.text columns) ++
      " : " ++ elseValue.asOperand (elseValue.text columns)
  | .logicalOr lhs rhs => Expr.operatorText lhs rhs (lhs.text columns) "||" (rhs.text columns)
  | .logicalAnd lhs rhs => Expr.operatorText lhs rhs (lhs.text columns) "&&" (rhs.text columns)
  | .array items => "[" ++ commaSeparated (exprTexts columns items) ++ "]"
  | .object fields => objectText (fieldTexts columns fields)
  | .not operand => "!" ++ operand.asOperand (operand.text columns)
  | .typeOf operand => "typeof " ++ operand.asOperand (operand.text columns)
  | .isIn key object => Expr.operatorText key object (key.text columns) "in" (object.text columns)
  | .postIncrement operand => operand.asOperand (operand.text columns) ++ "++"
  | .postDecrement operand => operand.asOperand (operand.text columns) ++ "--"
  | .spread operand => "..." ++ operand.asOperand (operand.text columns)
  | .function definition => definition.text columns
  | .classExpr definition => definition.text columns

def exprTexts (columns : Nat) : List Expr → List String
  | [] => []
  | item :: items => item.text columns :: exprTexts columns items

def fieldTexts (columns : Nat) : List ObjectField → List String
  | [] => []
  | ⟨key, value⟩ :: fields =>
    (keyText key ++ ": " ++ value.text columns) :: fieldTexts columns fields

def FunctionDef.text (columns : Nat) : FunctionDef → String
  | definition@⟨_, params, body, directives, _, _, _⟩ =>
    definition.headText (paramTexts columns params) ++ " \x7b\n" ++
      directivesText (columns + 2) directives ++ stmtsText (columns + 2) body ++
      margin columns ++ "\x7d"

def paramTexts (columns : Nat) : List Param → List String
  | [] => []
  | param :: params => param.text columns :: paramTexts columns params

def Param.text (columns : Nat) : Param → String
  | .plain name => name
  | .rest name => "..." ++ name
  | .withDefault name value => name ++ " = " ++ value.text columns
  | .pattern shape => shape.text columns

def ClassDef.text (columns : Nat) : ClassDef → String
  | ⟨name, superClass, members⟩ =>
    "class" ++ (match name with | some name => " " ++ name | none => "") ++
      (match superClass with
        | some superClass => " extends " ++ superClass.asOperand (superClass.text columns)
        | none => "") ++
      " \x7b\n" ++ membersText (columns + 2) members ++ margin columns ++ "\x7d"

def membersText (columns : Nat) : List ClassMember → String
  | [] => ""
  | classMember :: members => classMember.text columns ++ membersText columns members

def ClassMember.text (columns : Nat) : ClassMember → String
  | classMember@⟨_, key, _, ⟨_, params, body, directives, _, _, _⟩⟩ =>
    margin columns ++ classMember.headText (key.text columns) ++
      parenthesized (commaSeparated (paramTexts columns params)) ++ " \x7b\n" ++
      directivesText (columns + 2) directives ++ stmtsText (columns + 2) body ++
      margin columns ++ "\x7d\n"

def MemberKey.text (columns : Nat) : MemberKey → String
  | .named name => keyText name
  | .computed value => "[" ++ value.text columns ++ "]"

def Stmt.text (columns : Nat) : Stmt → String
  | .declare kind name none => margin columns ++ kind.text ++ " " ++ name ++ ";\n"
  | .declare kind name (some init) =>
    margin columns ++ kind.text ++ " " ++ name ++ " = " ++ init.text columns ++ ";\n"
  | .assign target value =>
    margin columns ++ assignmentText (target.text columns) (value.text columns) ++ ";\n"
  | .compoundAssign target op value =>
    margin columns ++ target.text columns ++ " " ++ op.text ++ "= " ++ value.text columns ++ ";\n"
  | .expr value => margin columns ++ expressionStatementText (value.text columns) ++ ";\n"
  | .ifElse condition thenBody elseBody =>
    margin columns ++ "if " ++ parenthesized (condition.text columns) ++ " \x7b\n" ++
      stmtsText (columns + 2) thenBody ++
      (if elseBody.isEmpty then "" else margin columns ++ "\x7d else \x7b\n") ++
      stmtsText (columns + 2) elseBody ++ margin columns ++ "\x7d\n"
  | .whileLoop condition body =>
    margin columns ++ "while " ++ parenthesized (condition.text columns) ++ " \x7b\n" ++
      stmtsText (columns + 2) body ++ margin columns ++ "\x7d\n"
  | .forOf binding declares iterable body =>
    margin columns ++ "for (" ++ (if declares then "const " else "") ++ binding ++ " of " ++
      iterable.text columns ++ ") \x7b\n" ++
      stmtsText (columns + 2) body ++ margin columns ++ "\x7d\n"
  | .block body =>
    margin columns ++ "\x7b\n" ++ stmtsText (columns + 2) body ++ margin columns ++ "\x7d\n"
  | .returnValue none => margin columns ++ "return;\n"
  | .returnValue (some value) => margin columns ++ "return " ++ value.text columns ++ ";\n"
  | .breakLoop => margin columns ++ "break;\n"
  | .continueLoop => margin columns ++ "continue;\n"
  | .switch value cases defaultBody =>
    margin columns ++ "switch " ++ parenthesized (value.text columns) ++ " \x7b\n" ++
      casesText columns cases ++
      (match defaultBody with
        | some body => margin columns ++ "  default:\n" ++ stmtsText (columns + 4) body
        | none => "") ++
      margin columns ++ "\x7d\n"
  | .throwValue value => margin columns ++ "throw " ++ value.text columns ++ ";\n"
  | .function definition => margin columns ++ definition.text columns ++ "\n"

/-- The cases of a switch at the margin `columns`: their labels stand two columns further to the
right and their bodies four. -/
def casesText (columns : Nat) : List SwitchCase → String
  | [] => ""
  | ⟨test, body⟩ :: cases =>
    margin columns ++ "  case " ++ test.text columns ++ ":\n" ++ stmtsText (columns + 4) body ++
      casesText columns cases

def stmtsText (columns : Nat) : List Stmt → String
  | [] => ""
  | stmt :: stmts => stmt.text columns ++ stmtsText columns stmts

end

def scriptText (directives : List String) (stmts : List Stmt) : String :=
  directivesText 0 directives ++ stmtsText 0 stmts

example : (Expr.methodCall (.function {}) "call" [.thisRef]).text 0 =
    "(function () \x7b\n\x7d).call(this)" := by
  decide

end HeapScript
