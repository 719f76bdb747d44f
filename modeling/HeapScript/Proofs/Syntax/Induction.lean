import HeapScript.Syntax.Basic

/-!
Induction over all sorts of trees at once.

A property of trees is a `TreeMotive`, one predicate for each sort. Its `Steps` say that a tree has
the property if its parts have it; then all trees have it (`Steps.all`).
-/

namespace HeapScript

/-- What is to be shown of the trees of each sort. -/
structure TreeMotive where
  expr : Expr → Prop
  exprs : List Expr → Prop
  fields : List ObjectField → Prop
  function : FunctionDef → Prop
  params : List Param → Prop
  classDef : ClassDef → Prop
  members : List ClassMember → Prop
  key : MemberKey → Prop
  stmt : Stmt → Prop
  cases : List SwitchCase → Prop
  stmts : List Stmt → Prop

namespace TreeMotive

/-- A tree has the property if its parts have it. -/
structure Steps (m : TreeMotive) : Prop where
  literal (value : Constant) : m.expr (.literal value)
  var (name : String) : m.expr (.var name)
  thisRef : m.expr .thisRef
  superRef : m.expr .superRef
  binary (op : BinaryOp) {lhs rhs : Expr} : m.expr lhs → m.expr rhs → m.expr (.binary op lhs rhs)
  unary (op : UnaryOp) {operand : Expr} : m.expr operand → m.expr (.unary op operand)
  compare (op : CompareOp) {lhs rhs : Expr} : m.expr lhs → m.expr rhs → m.expr (.compare op lhs rhs)
  member (field : String) {object : Expr} : m.expr object → m.expr (.member object field)
  index {collection index : Expr} :
    m.expr collection → m.expr index → m.expr (.index collection index)
  call {callee : Expr} {args : List Expr} : m.expr callee → m.exprs args →
    m.expr (.call callee args)
  construct {callee : Expr} {args : List Expr} :
    m.expr callee → m.exprs args → m.expr (.construct callee args)
  conditional {condition thenValue elseValue : Expr} : m.expr condition → m.expr thenValue →
    m.expr elseValue → m.expr (.conditional condition thenValue elseValue)
  logicalOr {lhs rhs : Expr} : m.expr lhs → m.expr rhs → m.expr (.logicalOr lhs rhs)
  logicalAnd {lhs rhs : Expr} : m.expr lhs → m.expr rhs → m.expr (.logicalAnd lhs rhs)
  array {items : List Expr} : m.exprs items → m.expr (.array items)
  object {fields : List ObjectField} : m.fields fields → m.expr (.object fields)
  not {operand : Expr} : m.expr operand → m.expr (.not operand)
  typeOf {operand : Expr} : m.expr operand → m.expr (.typeOf operand)
  isIn {key object : Expr} : m.expr key → m.expr object → m.expr (.isIn key object)
  postIncrement {operand : Expr} : m.expr operand → m.expr (.postIncrement operand)
  postDecrement {operand : Expr} : m.expr operand → m.expr (.postDecrement operand)
  spread {operand : Expr} : m.expr operand → m.expr (.spread operand)
  functionExpr {definition : FunctionDef} :
    m.function definition → m.expr (.function definition)
  classExpr {definition : ClassDef} : m.classDef definition → m.expr (.classExpr definition)
  noExprs : m.exprs []
  consExpr {item : Expr} {items : List Expr} : m.expr item → m.exprs items → m.exprs (item :: items)
  noFields : m.fields []
  consField (key : String) {value : Expr} {fields : List ObjectField} :
    m.expr value → m.fields fields → m.fields (⟨key, value⟩ :: fields)
  functionDef (name : Option String) (directives : List String) (isArrow isGenerator isAsync : Bool)
    {params : List Param} {body : List Stmt} : m.params params → m.stmts body →
    m.function ⟨name, params, body, directives, isArrow, isGenerator, isAsync⟩
  noParams : m.params []
  plain (name : String) {params : List Param} : m.params params → m.params (.plain name :: params)
  rest (name : String) {params : List Param} : m.params params → m.params (.rest name :: params)
  withDefault (name : String) {value : Expr} {params : List Param} :
    m.expr value → m.params params → m.params (.withDefault name value :: params)
  pattern {shape : Expr} {params : List Param} :
    m.expr shape → m.params params → m.params (.pattern shape :: params)
  plainClass (name : Option String) {members : List ClassMember} :
    m.members members → m.classDef ⟨name, none, members⟩
  derivedClass (name : Option String) {superClass : Expr} {members : List ClassMember} :
    m.expr superClass → m.members members → m.classDef ⟨name, some superClass, members⟩
  noMembers : m.members []
  consMember (kind : MethodKind) (isStatic : Bool) {key : MemberKey} {function : FunctionDef}
    {members : List ClassMember} : m.key key → m.function function → m.members members →
    m.members (⟨kind, key, isStatic, function⟩ :: members)
  named (name : String) : m.key (.named name)
  computed {value : Expr} : m.expr value → m.key (.computed value)
  declare (kind : DeclarationKind) (name : String) : m.stmt (.declare kind name none)
  declareInit (kind : DeclarationKind) (name : String) {init : Expr} :
    m.expr init → m.stmt (.declare kind name (some init))
  assign {target value : Expr} : m.expr target → m.expr value → m.stmt (.assign target value)
  compoundAssign (op : BinaryOp) {target value : Expr} :
    m.expr target → m.expr value → m.stmt (.compoundAssign target op value)
  exprStmt {value : Expr} : m.expr value → m.stmt (.expr value)
  ifElse {condition : Expr} {thenBody elseBody : List Stmt} : m.expr condition →
    m.stmts thenBody → m.stmts elseBody → m.stmt (.ifElse condition thenBody elseBody)
  whileLoop {condition : Expr} {body : List Stmt} :
    m.expr condition → m.stmts body → m.stmt (.whileLoop condition body)
  forOf (binding : String) (declares : Bool) {iterable : Expr} {body : List Stmt} :
    m.expr iterable → m.stmts body → m.stmt (.forOf binding declares iterable body)
  block {body : List Stmt} : m.stmts body → m.stmt (.block body)
  returnNone : m.stmt (.returnValue none)
  returnValue {value : Expr} : m.expr value → m.stmt (.returnValue (some value))
  breakLoop : m.stmt .breakLoop
  continueLoop : m.stmt .continueLoop
  switch {value : Expr} {cases : List SwitchCase} :
    m.expr value → m.cases cases → m.stmt (.switch value cases none)
  switchDefault {value : Expr} {cases : List SwitchCase} {body : List Stmt} :
    m.expr value → m.cases cases → m.stmts body → m.stmt (.switch value cases (some body))
  throwValue {value : Expr} : m.expr value → m.stmt (.throwValue value)
  functionStmt {definition : FunctionDef} :
    m.function definition → m.stmt (.function definition)
  noCases : m.cases []
  consCase {test : Expr} {body : List Stmt} {cases : List SwitchCase} :
    m.expr test → m.stmts body → m.cases cases → m.cases (⟨test, body⟩ :: cases)
  noStmts : m.stmts []
  consStmt {stmt : Stmt} {stmts : List Stmt} :
    m.stmt stmt → m.stmts stmts → m.stmts (stmt :: stmts)

namespace Steps

variable {m : TreeMotive} (steps : m.Steps)
include steps

mutual

theorem expr : ∀ expr : Expr, m.expr expr
  | .literal _ => steps.literal _
  | .var _ => steps.var _
  | .thisRef => steps.thisRef
  | .superRef => steps.superRef
  | .binary _ lhs rhs => steps.binary _ (expr lhs) (expr rhs)
  | .unary _ operand => steps.unary _ (expr operand)
  | .compare _ lhs rhs => steps.compare _ (expr lhs) (expr rhs)
  | .member object _ => steps.member _ (expr object)
  | .index collection index => steps.index (expr collection) (expr index)
  | .call callee args => steps.call (expr callee) (exprs args)
  | .construct callee args => steps.construct (expr callee) (exprs args)
  | .conditional condition thenValue elseValue =>
    steps.conditional (expr condition) (expr thenValue) (expr elseValue)
  | .logicalOr lhs rhs => steps.logicalOr (expr lhs) (expr rhs)
  | .logicalAnd lhs rhs => steps.logicalAnd (expr lhs) (expr rhs)
  | .array items => steps.array (exprs items)
  | .object members => steps.object (fields members)
  | .not operand => steps.not (expr operand)
  | .typeOf operand => steps.typeOf (expr operand)
  | .isIn key object => steps.isIn (expr key) (expr object)
  | .postIncrement operand => steps.postIncrement (expr operand)
  | .postDecrement operand => steps.postDecrement (expr operand)
  | .spread operand => steps.spread (expr operand)
  | .function definition => steps.functionExpr (function definition)
  | .classExpr definition => steps.classExpr (classDef definition)

theorem exprs : ∀ items : List Expr, m.exprs items
  | [] => steps.noExprs
  | item :: items => steps.consExpr (expr item) (exprs items)

theorem fields : ∀ items : List ObjectField, m.fields items
  | [] => steps.noFields
  | ⟨_, value⟩ :: items => steps.consField _ (expr value) (fields items)

theorem function : ∀ definition : FunctionDef, m.function definition
  | ⟨_, inputs, body, _, _, _, _⟩ => steps.functionDef _ _ _ _ _ (params inputs) (stmts body)

theorem params : ∀ items : List Param, m.params items
  | [] => steps.noParams
  | .plain _ :: items => steps.plain _ (params items)
  | .rest _ :: items => steps.rest _ (params items)
  | .withDefault _ value :: items => steps.withDefault _ (expr value) (params items)
  | .pattern shape :: items => steps.pattern (expr shape) (params items)

theorem classDef : ∀ definition : ClassDef, m.classDef definition
  | ⟨_, none, items⟩ => steps.plainClass _ (members items)
  | ⟨_, some superClass, items⟩ => steps.derivedClass _ (expr superClass) (members items)

theorem members : ∀ items : List ClassMember, m.members items
  | [] => steps.noMembers
  | ⟨_, own, _, method⟩ :: items => steps.consMember _ _ (key own) (function method) (members items)

theorem key : ∀ own : MemberKey, m.key own
  | .named _ => steps.named _
  | .computed value => steps.computed (expr value)

theorem stmt : ∀ stmt : Stmt, m.stmt stmt
  | .declare _ _ none => steps.declare _ _
  | .declare _ _ (some init) => steps.declareInit _ _ (expr init)
  | .assign target value => steps.assign (expr target) (expr value)
  | .compoundAssign target _ value => steps.compoundAssign _ (expr target) (expr value)
  | .expr value => steps.exprStmt (expr value)
  | .ifElse condition thenBody elseBody =>
    steps.ifElse (expr condition) (stmts thenBody) (stmts elseBody)
  | .whileLoop condition body => steps.whileLoop (expr condition) (stmts body)
  | .forOf _ _ iterable body => steps.forOf _ _ (expr iterable) (stmts body)
  | .block body => steps.block (stmts body)
  | .returnValue none => steps.returnNone
  | .returnValue (some value) => steps.returnValue (expr value)
  | .breakLoop => steps.breakLoop
  | .continueLoop => steps.continueLoop
  | .switch value items none => steps.switch (expr value) (cases items)
  | .switch value items (some body) => steps.switchDefault (expr value) (cases items) (stmts body)
  | .throwValue value => steps.throwValue (expr value)
  | .function definition => steps.functionStmt (function definition)

theorem cases : ∀ items : List SwitchCase, m.cases items
  | [] => steps.noCases
  | ⟨test, body⟩ :: items => steps.consCase (expr test) (stmts body) (cases items)

theorem stmts : ∀ items : List Stmt, m.stmts items
  | [] => steps.noStmts
  | item :: items => steps.consStmt (stmt item) (stmts items)

end

end Steps

end TreeMotive

/-! ## Attributes -/

universe u v

/-- A value of the trees of each sort. It may depend on whether an expression is written to, and on
whether a function is an expression. -/
structure TreeAttribute (α : Type u) where
  expr : Bool → Expr → α
  exprs : Bool → List Expr → α
  fields : Bool → List ObjectField → α
  function : Bool → FunctionDef → α
  params : List Param → α
  classDef : ClassDef → α
  members : List ClassMember → α
  key : MemberKey → α
  stmt : Stmt → α
  cases : List SwitchCase → α
  stmts : List Stmt → α

def TreeMotive.relating {α : Type u} {β : Type v} (first : TreeAttribute α)
    (second : TreeAttribute β) (related : α → β → Prop) : TreeMotive where
  expr expr := ∀ writes, related (first.expr writes expr) (second.expr writes expr)
  exprs items := ∀ writes, related (first.exprs writes items) (second.exprs writes items)
  fields fields := ∀ writes, related (first.fields writes fields) (second.fields writes fields)
  function definition := ∀ isExpression,
    related (first.function isExpression definition) (second.function isExpression definition)
  params params := related (first.params params) (second.params params)
  classDef definition := related (first.classDef definition) (second.classDef definition)
  members members := related (first.members members) (second.members members)
  key key := related (first.key key) (second.key key)
  stmt stmt := related (first.stmt stmt) (second.stmt stmt)
  cases cases := related (first.cases cases) (second.cases cases)
  stmts stmts := related (first.stmts stmts) (second.stmts stmts)

end HeapScript
