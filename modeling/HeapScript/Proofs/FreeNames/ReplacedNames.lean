import HeapScript.Proofs.FreeNames.Attributes
import HeapScript.Proofs.FreeNames.UsedNames

/-!
Where the names in replaced code come from.

Each of them is mentioned in the code already, or belongs to an expression that stands for a free
name or a loaded module of the code, or is the temporary of a loop.
-/

namespace HeapScript

open List

namespace Replacements

/-- A name that code uses after a replacement because of a mention. -/
inductive Makes (replacements : Replacements) (mention : Mention) (name : String) : Prop where
  | kept (isName : mention.name? = some name)
  | put {other : String} {writes : Bool} {value : Expr}
      (isFree : mention = .used other .free writes)
      (isReplaced : replacements.names.lookup other = some value)
      (isUsed : name ∈ value.usedNames true)
  | loaded {module : String} {value : Expr} (isLoad : mention = .load module)
      (isReplaced : replacements.modules.lookup module = some value)
      (isUsed : name ∈ value.usedNames true)

def Yields (replacements : Replacements) (mentions : List Mention) (name : String) : Prop :=
  name = loopTemporary ∨ ∃ mention ∈ mentions, replacements.Makes mention name

variable {replacements : Replacements} {around : Surroundings} {name : String}

theorem yields_append {mentions others : List Mention} :
    replacements.Yields (mentions ++ others) name ↔
      replacements.Yields mentions name ∨ replacements.Yields others name := by
  simp only [Yields, mem_append, or_and_right, exists_or]
  exact or_or_distrib_left

theorem yields_var {own : String} (writes : Bool)
    (used : name ∈ ((replacements.forName? around own).getD (.var own)).usedNames true) :
    replacements.Yields [around.use writes own] name := by
  refine .inr ⟨_, mem_singleton.mpr rfl, ?_⟩
  cases found : replacements.forName? around own with
  | none =>
    rw [found] at used
    exact .kept (congrArg some (mem_singleton.mp used).symm)
  | some value =>
    rw [found] at used
    unfold forName? at found
    split at found
    · rename_i isFree
      exact .put (by rw [Surroundings.use, isFree]) found used
    · cases found

theorem yields_load {callee : Expr} {args : List Expr} {value : Expr}
    (found : replacements.forLoad? around callee args = some value)
    (used : name ∈ value.usedNames true) :
    replacements.Yields (around.loadMentions callee args) name := by
  obtain ⟨module, isLoad, isReplaced⟩ := Option.bind_eq_some_iff.mp found
  refine .inr ⟨.load module, ?_, .loaded rfl isReplaced used⟩
  simp [Surroundings.loadMentions, isLoad]

theorem yields_loop {binding : String} {iterable : Expr} {body : List Stmt}
    (used : name ∈ (replacements.loop around binding iterable body).usedNames true) :
    replacements.Yields [around.use true binding] name ∨ name ∈ iterable.usedNames true ∨
      name ∈ usedNamesOfStmts true body := by
  unfold loop at used
  split at used
  · rename_i missing
    simp only [Stmt.usedNames, Bool.false_eq_true, if_false, mem_append, or_assoc] at used
    refine used.imp_left fun isBinding => yields_var true ?_
    rwa [missing]
  · rename_i other found
    simp only [Stmt.usedNames, Bool.false_eq_true, if_false, mem_append, or_assoc] at used
    refine used.imp_left fun isOther => yields_var true ?_
    rwa [found]
  · rename_i target _ found
    simp only [Stmt.usedNames, if_true, usedNamesOfStmts, Expr.usedNames, mem_append,
      nil_append, mem_singleton] at used
    rcases used with used | (used | rfl) | used
    · exact .inr (.inl used)
    · exact .inl (yields_var true (by rwa [found]))
    · exact .inl (.inl rfl)
    · exact .inr (.inr used)

end Replacements

variable {replacements : Replacements} {name : String}

def TreeAttribute.usedNames : TreeAttribute (List String) where
  expr _ := Expr.usedNames true
  exprs _ := usedNamesOfExprs true
  fields _ := usedNamesOfFields true
  function _ := FunctionDef.usedNames true
  params := usedNamesOfParams true
  classDef := ClassDef.usedNames true
  members := usedNamesOfMembers true
  key := MemberKey.usedNames true
  stmt := Stmt.usedNames true
  cases := usedNamesOfCases true
  stmts := usedNamesOfStmts true

theorem yields_replace_steps :
    (TreeMotive.relating .mentions (.replaced .usedNames) fun mentions used =>
      ∀ around, name ∈ used replacements around →
        replacements.Yields (mentions around) name).Steps := by
  constructor <;> dsimp only [TreeMotive.relating, TreeAttribute.mentions, TreeAttribute.replaced,
    TreeAttribute.usedNames]
  case var => exact fun own writes around used => Replacements.yields_var writes used
  case call =>
    intro callee args inCallee inArgs writes around used
    simp only [Expr.mentions, Replacements.yields_append]
    cases found : replacements.forLoad? around callee args with
    | some value =>
      simp only [Expr.replace, found, Option.getD_some] at used
      exact .inl (.inl (Replacements.yields_load found used))
    | none =>
      simp only [Expr.replace, found, Option.getD_none, Expr.usedNames, mem_append] at used
      exact used.imp (.inr ∘ inCallee false around) (inArgs false around)
  case forOf =>
    intro binding declares iterable body inIterable inBody around used
    cases declares <;> simp only [Stmt.mentions, Replacements.yields_append]
    · rcases Replacements.yields_loop used with yields | used | used
      · exact .inl (.inl (.inr yields))
      · exact .inl (.inl (.inl (inIterable false around used)))
      · exact .inr (inBody _ used)
    · simp only [Stmt.replace, Stmt.usedNames, if_true, nil_append, mem_append] at used
      exact used.imp (.inl ∘ inIterable false around) (inBody _)
  all_goals
    grind [Expr.replace, Expr.usedNames, Expr.mentions, replaceExprs, usedNamesOfExprs,
      mentionsOfExprs, replaceFields, usedNamesOfFields, mentionsOfFields,
      FunctionDef.replaceNested, FunctionDef.usedNames, FunctionDef.nestedMentions, replaceParams,
      usedNamesOfParams, mentionsOfParams, ClassDef.replace, ClassDef.usedNames, ClassDef.mentions,
      replaceMembers, usedNamesOfMembers, mentionsOfMembers, MemberKey.replace, MemberKey.usedNames,
      MemberKey.mentions, Stmt.replace, Stmt.usedNames, Stmt.mentions, replaceCases,
      usedNamesOfCases, mentionsOfCases, replaceStmts, usedNamesOfStmts, mentionsOfStmts,
      Replacements.yields_append]

end HeapScript
