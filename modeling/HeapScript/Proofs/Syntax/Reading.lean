import HeapScript.Proofs.Text.StringLiteral
import HeapScript.Syntax.Printer
import Mathlib.Order.Filter.AtTopBot.Basic
import Mathlib.Order.Filter.Finite
import Mathlib.Data.Set.Finite.List

/-!
The text of an expression determines the expression.

An operand starts with a word, a quote or a bracket and goes on with its suffixes; all other
operands stand in parentheses. So a reader that looks at the next characters only finds the
expression again, as long as no number, function, class or `new` is in it. The reader gets fuel for
nested expressions, and what is said of it holds for any amount that is large enough.
-/

namespace HeapScript

open List

/-! ## The reader -/

namespace Expr

def words : List (List Char × Expr) :=
  [("undefined".toList, .literal .undefined), ("null".toList, .literal .null),
    ("true".toList, .literal (.bool true)), ("false".toList, .literal (.bool false)),
    ("this".toList, .thisRef), ("super".toList, .superRef)]

def prefixes : List (List Char × (Expr → Expr)) :=
  [("void".toList, .unary .void), ("typeof".toList, .typeOf)]

def operators : List (List Char × (Expr → Expr → Expr)) :=
  [BinaryOp.add, .sub, .mul, .div, .rem, .bitAnd, .bitOr, .bitXor, .shiftLeft, .shiftRight,
    .shiftRightUnsigned].map (fun op => (op.text.toList, .binary op)) ++
  [CompareOp.strictEq, .strictNe, .looseEq, .looseNe, .lt, .le, .gt, .ge, .instanceOf].map
    (fun op => (op.text.toList, .compare op)) ++
  [("||".toList, .logicalOr), ("&&".toList, .logicalAnd), ("in".toList, .isIn)]

def readWord (chars : List Char) : List Char × List Char :=
  (chars.takeWhile Text.isIdentifierChar, chars.dropWhile Text.isIdentifierChar)

def readList {α : Type} (read : List Char → Option (α × List Char)) :
    Nat → List Char → Option (List α × List Char)
  | 0, _ => none
  | fuel + 1, chars =>
    match read chars with
    | none => some ([], chars)
    | some (item, ',' :: chars) => (readList read fuel (chars.drop 1)).map (.map (item :: ·) id)
    | some (item, chars) => some ([item], chars)

def readKey (chars : List Char) : Option (List Char × List Char) :=
  match readWord chars with
  | ([], '"' :: chars) => Text.unescape chars
  | word => some word

def readField (read : List Char → Option (Expr × List Char)) (chars : List Char) :
    Option (ObjectField × List Char) := do
  let (key, chars) ← readKey chars
  let (value, chars) ← read (chars.drop 2)
  return (⟨String.ofList key, value⟩, chars)

mutual

def readExpr : Nat → List Char → Option (Expr × List Char)
  | 0, _ => none
  | fuel + 1, chars => do
    let (lhs, chars) ← readTerm fuel chars
    match chars with
    | ' ' :: after =>
      let op := after.takeWhile (· != ' ')
      let operand := after.drop (op.length + 1)
      match operators.lookup op with
      | some build => (readTerm fuel operand).map (.map (build lhs) id)
      | none =>
        if op = ['?'] then do
          let (thenValue, chars) ← readTerm fuel operand
          (readTerm fuel (chars.drop 3)).map (.map (.conditional lhs thenValue) id)
        else return (lhs, chars)
    | _ => return (lhs, chars)

def readTerm : Nat → List Char → Option (Expr × List Char)
  | 0, _ => none
  | fuel + 1, chars =>
    match readWord chars with
    | ([], '-' :: chars) => (readTerm fuel chars).map (.map (.unary .neg) id)
    | ([], '+' :: chars) => (readTerm fuel chars).map (.map (.unary .plus) id)
    | ([], '~' :: chars) => (readTerm fuel chars).map (.map (.unary .bitNot) id)
    | ([], '!' :: chars) => (readTerm fuel chars).map (.map .not id)
    | ([], '.' :: chars) => (readTerm fuel (chars.drop 2)).map (.map .spread id)
    | ([], '(' :: chars) => do
      let (value, chars) ← readExpr fuel chars
      readSuffixes fuel value (chars.drop 1)
    | ([], '[' :: chars) => do
      let (items, chars) ← readList (readExpr fuel) fuel chars
      readSuffixes fuel (.array items) (chars.drop 1)
    | ([], '\x7b' :: '\x7d' :: chars) => readSuffixes fuel (.object []) chars
    | ([], '\x7b' :: chars) => do
      let (fields, chars) ← readList (readField (readExpr fuel)) fuel (chars.drop 1)
      readSuffixes fuel (.object fields) (chars.drop 2)
    | ([], '"' :: chars) => do
      let (text, chars) ← Text.unescape chars
      readSuffixes fuel (.literal (.string (String.ofList text))) chars
    | ([], _) => none
    | (word, chars) =>
      match prefixes.lookup word with
      | some build => (readTerm fuel (chars.drop 1)).map (.map build id)
      | none => readSuffixes fuel ((words.lookup word).getD (.var (String.ofList word))) chars

def readSuffixes : Nat → Expr → List Char → Option (Expr × List Char)
  | fuel + 1, value, '.' :: chars =>
    readSuffixes fuel (.member value (String.ofList (readWord chars).1)) (readWord chars).2
  | fuel + 1, value, '[' :: chars => do
    let (position, chars) ← readExpr fuel chars
    readSuffixes fuel (.index value position) (chars.drop 1)
  | fuel + 1, value, '(' :: chars => do
    let (args, chars) ← readList (readExpr fuel) fuel chars
    readSuffixes fuel (.call value args) (chars.drop 1)
  | fuel + 1, value, '+' :: '+' :: chars => readSuffixes fuel (.postIncrement value) chars
  | fuel + 1, value, '-' :: '-' :: chars => readSuffixes fuel (.postDecrement value) chars
  | _, value, chars => some (value, chars)

end

example : readExpr 9 ((Expr.spread (.array [.thisRef])).text 0).toList =
    some (.spread (.array [.thisRef]), []) := by
  cbv

/-! ## Texts that can be read -/

def unspread : Expr → Expr
  | .spread value => value
  | value => value

/-- Expressions whose texts can be read back. -/
inductive Readable : Expr → Prop where
  | literal (notNumber : ∀ number, value ≠ .number number) : Readable (.literal value)
  | var (isIdentifier : Text.isIdentifier name)
      (isFree : name.toList ∉ words.map (·.1) ++ prefixes.map (·.1)) : Readable (.var name)
  | thisRef : Readable .thisRef
  | superRef : Readable .superRef
  | binary : Readable lhs → Readable rhs → Readable (.binary op lhs rhs)
  | unary : Readable operand → Readable (.unary op operand)
  | compare : Readable lhs → Readable rhs → Readable (.compare op lhs rhs)
  | member (isIdentifier : Text.isIdentifier field) :
      Readable holder → Readable (.member holder field)
  | index : Readable collection → Readable position → Readable (.index collection position)
  | call : Readable callee → (∀ arg ∈ args, Readable arg.unspread) → Readable (.call callee args)
  | conditional : Readable condition → Readable thenValue → Readable elseValue →
      Readable (.conditional condition thenValue elseValue)
  | logicalOr : Readable lhs → Readable rhs → Readable (.logicalOr lhs rhs)
  | logicalAnd : Readable lhs → Readable rhs → Readable (.logicalAnd lhs rhs)
  | array : (∀ item ∈ items, Readable item.unspread) → Readable (.array items)
  | object : (∀ field ∈ fields, Readable field.value) → Readable (.object fields)
  | not : Readable operand → Readable (.not operand)
  | typeOf : Readable operand → Readable (.typeOf operand)
  | isIn : Readable key → Readable holder → Readable (.isIn key holder)
  | postIncrement : Readable operand → Readable (.postIncrement operand)
  | postDecrement : Readable operand → Readable (.postDecrement operand)

/-- What may follow an expression. -/
inductive Closes : List Char → Prop where
  | nothing : Closes []
  | comma : Closes (',' :: rest)
  | parenthesis : Closes (')' :: rest)
  | bracket : Closes (']' :: rest)
  | brace : Closes (' ' :: '\x7d' :: rest)

/-- What may follow an operand. -/
inductive Stops : List Char → Prop where
  | closes (closes : Closes rest) : Stops rest
  | blank : Stops (' ' :: rest)

def Ends (rest : List Char) : Prop := ∀ char ∈ rest.head?, Text.isIdentifierChar char = false

variable {columns fuel : Nat} {chars rest : List Char} {value lhs rhs : Expr}

theorem Stops.ends (stops : Stops rest) : Ends rest := by
  rcases stops with ⟨⟨⟩⟩ | _ <;> rintro char ⟨⟩ <;> rfl

theorem Stops.readSuffixes_eq (stops : Stops rest) (fuel : Nat) (value : Expr) :
    readSuffixes fuel value rest = some (value, rest) := by
  rcases stops with ⟨⟨⟩⟩ | _ <;> cases fuel <;> simp [readSuffixes]

theorem readWord_cons (char : Char) (outside : Text.isIdentifierChar char = false)
    (rest : List Char) : readWord (char :: rest) = ([], char :: rest) := by
  simp [readWord, outside]

theorem readWord_append {word : List Char} (isWord : word.all Text.isIdentifierChar)
    (ends : Ends rest) : readWord (word ++ rest) = (word, rest) := by
  have inside : ∀ char ∈ word, Text.isIdentifierChar char = true := by simpa using isWord
  have outside : readWord rest = ([], rest) := by
    cases rest with
    | nil => rfl
    | cons char rest => exact readWord_cons char (ends char rfl) rest
  obtain ⟨taken, dropped⟩ := Prod.mk.inj outside
  rw [readWord, takeWhile_append_of_pos inside, dropWhile_append_of_pos inside, taken,
    dropped, append_nil]

theorem Closes.readExpr_succ (closes : Closes rest)
    (reads : readTerm fuel chars = some (value, rest)) :
    readExpr (fuel + 1) chars = some (value, rest) := by
  have noOperator : ∀ more, operators.lookup ('\x7d' :: more) = none := fun _ => rfl
  rw [readExpr, reads]
  cases closes <;> simp [noOperator]

open Filter

def ReadsTerm (columns : Nat) (value : Expr) : Prop :=
  ∃ used, ∀ᶠ fuel in atTop, ∀ rest, Ends rest →
    readTerm (fuel + used) ((value.asOperand (value.text columns)).toList ++ rest) =
      readSuffixes fuel value rest

def ReadsExpr (columns : Nat) (value : Expr) : Prop :=
  ∀ᶠ fuel in atTop, ∀ rest, Closes rest →
    readExpr fuel ((value.text columns).toList ++ rest) = some (value, rest)

theorem eventually_of_add {Holds : Nat → Prop} (used : Nat)
    (later : ∀ᶠ fuel in atTop, Holds (fuel + used)) : ∀ᶠ fuel in atTop, Holds fuel := by
  rw [← map_add_atTop_eq_nat used]
  exact later

theorem ReadsTerm.operand (reads : ReadsTerm columns value) : ∀ᶠ fuel in atTop, ∀ rest, Stops rest →
    readTerm fuel ((value.asOperand (value.text columns)).toList ++ rest) = some (value, rest) := by
  obtain ⟨used, reads⟩ := reads
  refine eventually_of_add used (reads.mono fun fuel reads rest stops => ?_)
  rw [reads rest stops.ends, stops.readSuffixes_eq]

theorem ReadsTerm.readsExpr (reads : ReadsTerm columns value) (plain : value.needsParens = false) :
    ReadsExpr columns value := by
  refine eventually_of_add 1 (reads.operand.mono fun fuel reads rest closes => ?_)
  have reads := reads rest (.closes closes)
  rw [asOperand, plain] at reads
  exact closes.readExpr_succ reads

theorem ReadsExpr.readsTerm (reads : ReadsExpr columns value) (parens : value.needsParens = true) :
    ReadsTerm columns value := by
  refine ⟨1, reads.mono fun fuel reads rest _ => ?_⟩
  have isRead := reads (')' :: rest) .parenthesis
  simp [asOperand, parens, parenthesized, readTerm, readWord_cons '(' rfl, isRead]

theorem readsExpr_unary {build : Expr → Expr} (op : String) (operand : ReadsTerm columns value)
    (step : ∀ fuel rest, readTerm (fuel + 1) (op.toList ++ rest) =
      (readTerm fuel rest).map (.map build id))
    (isText : (build value).text columns = op ++ value.asOperand (value.text columns)) :
    ReadsExpr columns (build value) := by
  refine eventually_of_add 2 (operand.operand.mono fun fuel reads rest closes => ?_)
  refine closes.readExpr_succ ?_
  rw [isText, String.toList_append, append_assoc, step, reads rest (.closes closes)]
  rfl

theorem readsExpr_operator {build : Expr → Expr → Expr} (op : String) (left : ReadsTerm columns lhs)
    (right : ReadsTerm columns rhs) (isOperator : operators.lookup op.toList = some build)
    (noBlank : op.toList.all (· != ' '))
    (isText : (build lhs rhs).text columns =
      operatorText lhs rhs (lhs.text columns) op (rhs.text columns)) :
    ReadsExpr columns (build lhs rhs) := by
  refine eventually_of_add 1 ?_
  filter_upwards [left.operand, right.operand] with fuel left right rest closes
  have isOp : ∀ more, (op.toList ++ ' ' :: more).takeWhile (· != ' ') = op.toList := fun more => by
    rw [takeWhile_append_of_pos (by simpa using noBlank)]
    simp
  simp [isText, operatorText, readExpr, left _ .blank, isOp, isOperator,
    right rest (.closes closes)]

theorem readsExpr_conditional {condition thenValue elseValue : Expr}
    (first : ReadsTerm columns condition) (second : ReadsTerm columns thenValue)
    (third : ReadsTerm columns elseValue) :
    ReadsExpr columns (.conditional condition thenValue elseValue) := by
  refine eventually_of_add 1 ?_
  filter_upwards [first.operand, second.operand, third.operand] with
    fuel first second third rest closes
  have noOperator : operators.lookup ['?'] = none := rfl
  simp [text, readExpr, first _ .blank, second _ .blank, noOperator,
    third rest (.closes closes)]

theorem readsTerm_suffix (suffix : List Char) (reads : ReadsTerm columns lhs)
    (isText : (value.asOperand (value.text columns)).toList =
      (lhs.asOperand (lhs.text columns)).toList ++ suffix)
    (ends : ∀ rest, Ends (suffix ++ rest))
    (step : ∀ᶠ fuel in atTop, ∀ rest, Ends rest →
      readSuffixes (fuel + 1) lhs (suffix ++ rest) = readSuffixes fuel value rest) :
    ReadsTerm columns value := by
  obtain ⟨used, reads⟩ := reads
  refine ⟨used + 1, ?_⟩
  filter_upwards [(tendsto_add_atTop_nat 1).eventually reads, step] with fuel reads step rest isEnd
  rw [isText, append_assoc, Nat.add_comm used, ← Nat.add_assoc, reads _ (ends rest),
    step rest isEnd]

theorem readWord_of_identifier {word : String} (isIdentifier : Text.isIdentifier word)
    (ends : Ends rest) :
    readWord (word.toList ++ rest) = (word.toList, rest) ∧ word.toList ≠ [] := by
  unfold Text.isIdentifier at isIdentifier
  split at isIdentifier
  · cases isIdentifier
  · rename_i first letters isWord
    rw [isWord]
    exact ⟨readWord_append (Bool.and_eq_true_iff.mp isIdentifier).2 ends, cons_ne_nil _ _⟩

theorem readsTerm_word (word : String) (isIdentifier : Text.isIdentifier word)
    (isValue : prefixes.lookup word.toList = none)
    (isWord : (words.lookup word.toList).getD (.var word) = value)
    (isText : value.asOperand (value.text columns) = word) : ReadsTerm columns value := by
  refine ⟨1, .of_forall fun fuel rest ends => ?_⟩
  obtain ⟨isRead, nonempty⟩ := readWord_of_identifier isIdentifier ends
  obtain ⟨first, letters, isCons⟩ := exists_cons_of_ne_nil nonempty
  have isName : String.ofList (first :: letters) = word := isCons ▸ String.ofList_toList
  rw [isText, readTerm, isRead]
  rw [isCons] at isValue isWord ⊢
  simp only [isValue, isName, isWord]

theorem readsTerm_string (text : String) : ReadsTerm columns (.literal (.string text)) := by
  refine ⟨1, .of_forall fun fuel rest ends => ?_⟩
  simp [asOperand, needsParens, Expr.text, Constant.text, Text.literal, readTerm,
    readWord_cons '"' rfl, Text.unescape_escape]

/-! ## Lists -/

theorem readList_eq {α : Type} {read : List Char → Option (α × List Char)} {text : α → List Char}
    {items : List α} (reads : ∀ item ∈ items, ∀ rest, Closes rest →
      read (text item ++ rest) = some (item, rest)) (closes : Closes rest)
    (none : items = [] → read rest = none) (isEnd : rest.head? ≠ some ',')
    (enough : items.length < fuel) :
    readList read fuel ([',', ' '].intercalate (items.map text) ++ rest) = some (items, rest) := by
  induction items generalizing fuel with
  | nil =>
    obtain ⟨fuel, rfl⟩ := Nat.exists_eq_add_of_lt enough
    simp [readList, none rfl]
  | cons item items induction =>
    obtain ⟨first, reads⟩ := forall_mem_cons.mp reads
    obtain ⟨fuel, rfl⟩ := Nat.exists_eq_add_of_le' (Nat.succ_le_of_lt (Nat.zero_lt_of_lt enough))
    cases items with
    | nil =>
      rw [map_singleton, intercalate_singleton, readList, first rest closes]
      cases closes <;> simp_all
    | cons next items =>
      have isRest := induction reads (by simp) (Nat.lt_of_succ_lt_succ enough)
      rw [map_cons] at isRest
      rw [map_cons, map_cons, intercalate_cons_cons]
      simp [readList, first _ .comma, isRest]

theorem exprTexts_eq (items : List Expr) : exprTexts columns items = items.map (text columns) := by
  induction items with
  | nil => rfl
  | cons item items induction => rw [exprTexts, induction, map_cons]

theorem fieldTexts_eq (fields : List ObjectField) : fieldTexts columns fields =
    fields.map fun field => keyText field.key ++ ": " ++ field.value.text columns := by
  induction fields with
  | nil => rfl
  | cons field fields induction =>
    obtain ⟨key, value⟩ := field
    rw [fieldTexts, induction, map_cons]

theorem readsItems {items : List Expr} {close : Char} (isClose : close = ')' ∨ close = ']')
    (reads : ∀ item ∈ items, ReadsExpr columns item) : ∀ᶠ fuel in atTop, ∀ rest,
      readList (readExpr fuel) fuel
        ((commaSeparated (exprTexts columns items)).toList ++ close :: rest) =
        some (items, close :: rest) := by
  have all := (eventually_all_finite (finite_toSet items)).mpr reads
  filter_upwards [all, eventually_gt_atTop items.length] with fuel reads enough rest
  have closes : Closes (close :: rest) := by
    rcases isClose with rfl | rfl
    exacts [.parenthesis, .bracket]
  have unread : readExpr fuel (close :: rest) = none := by
    rcases isClose with rfl | rfl <;> rcases fuel with _ | _ | fuel <;> rfl
  have isEnd : (close :: rest).head? ≠ some ',' := by rcases isClose with rfl | rfl <;> simp
  have isRead := readList_eq reads closes (fun _ => unread) isEnd enough
  simpa [commaSeparated, exprTexts_eq, String.toList_intercalate, Function.comp_def] using isRead

theorem readKey_eq (key : String) (ends : Ends rest) :
    readKey ((keyText key).toList ++ rest) = some (key.toList, rest) := by
  unfold keyText
  split
  · rename_i isIdentifier
    obtain ⟨isRead, nonempty⟩ := readWord_of_identifier isIdentifier ends
    obtain ⟨first, letters, isCons⟩ := exists_cons_of_ne_nil nonempty
    rw [readKey, isRead, isCons]
  · simp [readKey, Text.literal, readWord_cons '"' rfl, Text.unescape_escape]

theorem readField_eq {read : List Char → Option (Expr × List Char)} {field : ObjectField}
    (reads : read ((field.value.text columns).toList ++ rest) = some (field.value, rest)) :
    readField read ((keyText field.key ++ ": " ++ field.value.text columns).toList ++ rest) =
      some (field, rest) := by
  have isKey : ∀ more, readKey ((keyText field.key).toList ++ ':' :: more) =
      some (field.key.toList, ':' :: more) := fun more => readKey_eq _ (by rintro char ⟨⟩; rfl)
  obtain ⟨key, value⟩ := field
  simp [readField, isKey, reads]

theorem readsFields {fields : List ObjectField}
    (reads : ∀ field ∈ fields, ReadsExpr columns field.value) (nonempty : fields ≠ []) :
    ∀ᶠ fuel in atTop, ∀ rest,
      readList (readField (readExpr fuel)) fuel
        ((commaSeparated (fieldTexts columns fields)).toList ++ ' ' :: '\x7d' :: rest) =
        some (fields, ' ' :: '\x7d' :: rest) := by
  have all := (eventually_all_finite (finite_toSet fields)).mpr reads
  filter_upwards [all, eventually_gt_atTop fields.length] with fuel reads enough rest
  have isRead := readList_eq (fun field member rest closes =>
    readField_eq (reads field member rest closes)) (@Closes.brace rest) (absurd · nonempty)
    (by simp) enough
  simpa [commaSeparated, fieldTexts_eq, String.toList_intercalate, Function.comp_def] using isRead

/-! ## All expressions -/

theorem readsTerm_array {items : List Expr} (reads : ∀ item ∈ items, ReadsExpr columns item) :
    ReadsTerm columns (.array items) := by
  refine ⟨1, (readsItems (.inr rfl) reads).mono fun fuel reads rest _ => ?_⟩
  simp [asOperand, needsParens, text, readTerm, readWord_cons '[' rfl, reads rest]

theorem readsTerm_object {fields : List ObjectField}
    (reads : ∀ field ∈ fields, ReadsExpr columns field.value) :
    ReadsTerm columns (.object fields) := by
  cases fields with
  | nil =>
    refine ⟨1, .of_forall fun fuel rest _ => ?_⟩
    simp [asOperand, needsParens, text, fieldTexts, objectText, readTerm, readWord_cons '\x7b' rfl]
  | cons field fields =>
    refine ⟨1, (readsFields reads (cons_ne_nil _ _)).mono fun fuel reads rest _ => ?_⟩
    rw [fieldTexts_eq, map_cons] at reads
    simp [asOperand, needsParens, text, fieldTexts_eq, objectText, readTerm,
      readWord_cons '\x7b' rfl, reads rest]

theorem readsTerm_member {object : Expr} {field : String} (isIdentifier : Text.isIdentifier field)
    (notNumber : object.isNumber = false) (reads : ReadsTerm columns object) :
    ReadsTerm columns (.member object field) := by
  refine readsTerm_suffix ('.' :: field.toList) reads ?_ (by rintro rest char ⟨⟩; rfl)
    (.of_forall fun fuel rest ends => ?_)
  · change (fieldText (object.asObject (object.text columns)) field).toList = _
    simp [asOperand, asObject, notNumber, fieldText, isIdentifier]
  · simp [readSuffixes, (readWord_of_identifier isIdentifier ends).1]

theorem readsTerm_index {position : Expr} (reads : ReadsTerm columns value)
    (readsPosition : ReadsExpr columns position) : ReadsTerm columns (.index value position) := by
  refine readsTerm_suffix ('[' :: (position.text columns).toList ++ [']']) reads
    (by simp [asOperand, needsParens, text]) (by rintro rest char ⟨⟩; rfl)
    (readsPosition.mono fun fuel reads rest _ => ?_)
  simp [readSuffixes, reads _ .bracket]

theorem readsTerm_call {args : List Expr} (reads : ReadsTerm columns value)
    (readsArgs : ∀ arg ∈ args, ReadsExpr columns arg) : ReadsTerm columns (.call value args) := by
  refine readsTerm_suffix ('(' :: (commaSeparated (exprTexts columns args)).toList ++ [')']) reads
    (by simp [asOperand, needsParens, text, parenthesized]) (by rintro rest char ⟨⟩; rfl)
    ((readsItems (.inl rfl) readsArgs).mono fun fuel reads rest _ => ?_)
  simp [readSuffixes, reads rest]

theorem readsItem {item : Expr}
    (reads : ReadsTerm columns item.unspread ∧ ReadsExpr columns item.unspread) :
    ReadsExpr columns item := by
  cases item
  case spread value => exact readsExpr_unary "..." reads.1 (fun _ _ => rfl) rfl
  all_goals exact reads.2

theorem Readable.reads (readable : Readable value) :
    ReadsTerm columns value ∧ ReadsExpr columns value := by
  have plain : ∀ {value}, ReadsTerm columns value → value.needsParens = false →
      ReadsTerm columns value ∧ ReadsExpr columns value :=
    fun term plain => ⟨term, term.readsExpr plain⟩
  have parens : ∀ {value}, ReadsExpr columns value → value.needsParens = true →
      ReadsTerm columns value ∧ ReadsExpr columns value :=
    fun expr parens => ⟨expr.readsTerm parens, expr⟩
  induction readable with
  | @literal value notNumber =>
    cases value with
    | undefined => exact plain (readsTerm_word "undefined" rfl rfl rfl rfl) rfl
    | null => exact plain (readsTerm_word "null" rfl rfl rfl rfl) rfl
    | bool value =>
      cases value with
      | false => exact plain (readsTerm_word "false" rfl rfl rfl rfl) rfl
      | true => exact plain (readsTerm_word "true" rfl rfl rfl rfl) rfl
    | number number => exact absurd rfl (notNumber number)
    | string text => exact plain (readsTerm_string text) rfl
  | @var name isIdentifier isFree =>
    have unknown : ∀ {α : Type} {table : List (List Char × α)}, name.toList ∉ table.map (·.1) →
        table.lookup name.toList = none := fun isFree =>
      lookup_eq_none_iff.mpr fun entry member => by
        simpa using fun same => isFree (mem_map.mpr ⟨entry, member, same.symm⟩)
    obtain ⟨noWord, noPrefix⟩ := not_or.mp (mem_append.not.mp isFree)
    exact plain (readsTerm_word name isIdentifier (unknown noPrefix)
      (by rw [unknown noWord]; rfl) rfl) rfl
  | thisRef => exact plain (readsTerm_word "this" rfl rfl rfl rfl) rfl
  | superRef => exact plain (readsTerm_word "super" rfl rfl rfl rfl) rfl
  | @binary _ _ op _ _ lhs rhs =>
    exact parens (readsExpr_operator op.text lhs.1 rhs.1 (by cases op <;> rfl)
      (by cases op <;> rfl) rfl) rfl
  | @unary _ op _ operand =>
    exact parens (readsExpr_unary op.text operand.1 (by cases op <;> exact fun _ _ => rfl) rfl) rfl
  | @compare _ _ op _ _ lhs rhs =>
    exact parens (readsExpr_operator op.text lhs.1 rhs.1 (by cases op <;> rfl)
      (by cases op <;> rfl) rfl) rfl
  | @member _ object isIdentifier readable reads =>
    have notNumber : object.isNumber = false := by
      cases readable with
      | @literal value notNumber => cases value <;> first | rfl | exact absurd rfl (notNumber _)
      | _ => rfl
    exact plain (readsTerm_member isIdentifier notNumber reads.1) rfl
  | index _ _ collection position => exact plain (readsTerm_index collection.1 position.2) rfl
  | call _ _ callee args =>
    exact plain (readsTerm_call callee.1 fun arg member => readsItem (args arg member)) rfl
  | conditional _ _ _ condition thenValue elseValue =>
    exact parens (readsExpr_conditional condition.1 thenValue.1 elseValue.1) rfl
  | logicalOr _ _ lhs rhs => exact parens (readsExpr_operator "||" lhs.1 rhs.1 rfl rfl rfl) rfl
  | logicalAnd _ _ lhs rhs => exact parens (readsExpr_operator "&&" lhs.1 rhs.1 rfl rfl rfl) rfl
  | array _ items =>
    exact plain (readsTerm_array fun item member => readsItem (items item member)) rfl
  | object _ fields =>
    exact plain (readsTerm_object fun field member => (fields field member).2) rfl
  | not _ operand => exact parens (readsExpr_unary "!" operand.1 (fun _ _ => rfl) rfl) rfl
  | typeOf _ operand => exact parens (readsExpr_unary "typeof " operand.1 (fun _ _ => rfl) rfl) rfl
  | isIn _ _ key object => exact parens (readsExpr_operator "in" key.1 object.1 rfl rfl rfl) rfl
  | postIncrement _ operand =>
    exact plain (readsTerm_suffix ['+', '+'] operand.1 (by simp [asOperand, text, needsParens])
      (by rintro rest char ⟨⟩; rfl) (.of_forall fun _ _ _ => rfl)) rfl
  | postDecrement _ operand =>
    exact plain (readsTerm_suffix ['-', '-'] operand.1 (by simp [asOperand, text, needsParens])
      (by rintro rest char ⟨⟩; rfl) (.of_forall fun _ _ _ => rfl)) rfl

/-- No two expressions that can be read back have the same text. -/
theorem text_injective {left right : Expr} (isLeft : Readable left) (isRight : Readable right)
    (same : left.text columns = right.text columns) : left = right := by
  obtain ⟨fuel, readsLeft, readsRight⟩ := (isLeft.reads.2.and isRight.reads.2).exists
  have found := readsLeft [] .nothing
  rw [same, readsRight [] .nothing] at found
  exact (Prod.mk.inj (Option.some.inj found)).1.symm

theorem text_injective_methodCall :
    (methodCall (.var "a") "b" [.spread (.array [.var "c"])]).text 0 = "a.b(...[c])" ∧
    methodCall (.var "a") "b" [.spread (.array [.var "c"])] =
      .call (.member (.var "a") "b") [.spread (.array [.var "c"])] := by
  have isReadable : Readable (.call (.member (.var "a") "b") [.spread (.array [.var "c"])]) :=
    .call (.member rfl (.var rfl (by decide))) (List.forall_mem_singleton.mpr
      (.array (List.forall_mem_singleton.mpr (.var rfl (by decide)))))
  have same : (methodCall (.var "a") "b" [.spread (.array [.var "c"])]).text 0 =
      (Expr.call (.member (.var "a") "b") [.spread (.array [.var "c"])]).text 0 := rfl
  exact ⟨by decide +kernel, text_injective isReadable isReadable same⟩

end Expr

end HeapScript
