import HeapScript.Proofs.FreeNames.Meanings

/-!
What the replaced code of a function depends on.

A round of replacements looks up the free names and the loaded modules that the facts about the
function list, and nothing else; and where every name stands for itself, the function stays as it is
(`replace_determined`).
-/

namespace HeapScript

open List

namespace Replacements

/-! ## Replacements that do the same -/

def forFree (replacements : Replacements) (name : String) : Expr :=
  (replacements.names.lookup name).getD (.var name)

structure AgreeOn (first second : Replacements) (mentions : List Mention) : Prop where
  names : ∀ name writes, .used name .free writes ∈ mentions →
    first.forFree name = second.forFree name
  modules : ∀ module, .load module ∈ mentions →
    first.modules.lookup module = second.modules.lookup module

variable {first second : Replacements} {around : Surroundings}

@[grind =] theorem agreeOn_append {mentions others : List Mention} :
    AgreeOn first second (mentions ++ others) ↔
      AgreeOn first second mentions ∧ AgreeOn first second others := by
  constructor
  · intro agree
    exact ⟨⟨fun name writes used => agree.names name writes (mem_append_left _ used),
        fun module load => agree.modules module (mem_append_left _ load)⟩,
      ⟨fun name writes used => agree.names name writes (mem_append_right _ used),
        fun module load => agree.modules module (mem_append_right _ load)⟩⟩
  · rintro ⟨left, right⟩
    constructor
    · intro name writes used
      rcases mem_append.mp used with used | used
      · exact left.names name writes used
      · exact right.names name writes used
    · intro module load
      rcases mem_append.mp load with load | load
      · exact left.modules module load
      · exact right.modules module load

/-- A name becomes what stands in its place if it is free, and stays otherwise. -/
theorem replace_var (replacements : Replacements) (around : Surroundings) (name : String) :
    (Expr.var name).replace replacements around =
      if around.meaning name = .free then replacements.forFree name else .var name := by
  unfold Expr.replace forName? forFree
  cases around.meaning name <;> rfl

/-- A loop whose variable exists already assigns what its variable becomes. -/
theorem loop_eq (replacements : Replacements) (around : Surroundings) (binding : String)
    (iterable : Expr) (body : List Stmt) :
    replacements.loop around binding iterable body =
      match (Expr.var binding).replace replacements around with
      | .var name => .forOf name false iterable body
      | target =>
        .forOf loopTemporary true iterable (.assign target (.var loopTemporary) :: body) := by
  unfold loop Expr.replace
  cases replacements.forName? around binding with
  | none => rfl
  | some target => cases target <;> rfl

namespace AgreeOn

theorem replace_var {writes : Bool} {name : String}
    (agree : AgreeOn first second [around.use writes name]) :
    (Expr.var name).replace first around = (Expr.var name).replace second around := by
  rw [Replacements.replace_var, Replacements.replace_var]
  split
  · next free =>
    refine agree.names name writes ?_
    rw [Surroundings.use, free]
    exact mem_singleton.mpr rfl
  · rfl

theorem loop {binding : String} (agree : AgreeOn first second [around.use true binding])
    (iterable : Expr) (body : List Stmt) :
    first.loop around binding iterable body = second.loop around binding iterable body := by
  rw [loop_eq, loop_eq, agree.replace_var]

theorem forLoad? {callee : Expr} {args : List Expr}
    (agree : AgreeOn first second (around.loadMentions callee args)) :
    first.forLoad? around callee args = second.forLoad? around callee args := by
  unfold Replacements.forLoad?
  cases isLoad : around.freeLoad? callee args with
  | none => rfl
  | some module =>
    refine agree.modules module ?_
    simp [Surroundings.loadMentions, isLoad]

end AgreeOn

end Replacements

/-! ## The same code -/

section SameCode

open Replacements

variable {first second : Replacements}

theorem replace_congr_steps :
    (TreeMotive.relating .mentions (.replaced .itself) fun mentions replaced =>
      ∀ around, AgreeOn first second (mentions around) →
        replaced first around = replaced second around).Steps := by
  constructor <;> simp only [TreeMotive.relating, TreeAttribute.mentions, TreeAttribute.replaced,
    TreeAttribute.itself, Sigma.mk.injEq, heq_eq_eq, true_and]
  case var => exact fun _ _ _ agree => agree.replace_var
  case call =>
    intro callee args inCallee inArgs writes around agree
    simp only [Expr.mentions, agreeOn_append] at agree
    obtain ⟨⟨loads, callees⟩, others⟩ := agree
    simp [Expr.replace, loads.forLoad?, inCallee _ _ callees, inArgs _ _ others]
  case forOf =>
    intro binding declares iterable body inIterable inBody around agree
    cases declares with
    | true => grind [Stmt.mentions, Stmt.replace]
    | false =>
      simp only [Stmt.mentions, agreeOn_append] at agree
      obtain ⟨⟨⟨iterables, atHead⟩, _⟩, bodies⟩ := agree
      simp [Stmt.replace, inIterable _ _ iterables, inBody _ bodies, atHead.loop]
  all_goals
    grind [Expr.mentions, Expr.replace, mentionsOfExprs, replaceExprs, mentionsOfFields,
      replaceFields, FunctionDef.nestedMentions, FunctionDef.replaceNested, mentionsOfParams,
      replaceParams, ClassDef.mentions, ClassDef.replace, mentionsOfMembers, replaceMembers,
      MemberKey.mentions, MemberKey.replace, Stmt.mentions, Stmt.replace, mentionsOfCases,
      replaceCases, mentionsOfStmts, replaceStmts]

end SameCode

/-! ## No replacement -/

namespace Replacements

@[simp] theorem forName?_nothing (around : Surroundings) (name : String) :
    forName? {} around name = none := by
  unfold forName?
  split <;> rfl

@[simp] theorem forLoad?_nothing (around : Surroundings) (callee : Expr) (args : List Expr) :
    forLoad? {} around callee args = none := by
  unfold forLoad?
  cases around.freeLoad? callee args <;> rfl

@[simp] theorem loop_nothing (around : Surroundings) (binding : String) (iterable : Expr)
    (body : List Stmt) : loop {} around binding iterable body =
      .forOf binding false iterable body := by
  simp [loop]

end Replacements

theorem replace_nothing_steps :
    (TreeMotive.relating .itself (.replaced .itself) fun tree replaced =>
      ∀ around, replaced {} around = tree).Steps := by
  constructor <;> simp only [TreeMotive.relating, TreeAttribute.replaced, TreeAttribute.itself,
    Sigma.mk.injEq, heq_eq_eq, true_and, forall_const]
  case forOf =>
    intro binding declares iterable body inIterable inBody around
    cases declares <;> simp_all [Stmt.replace]
  all_goals
    intros
    simp_all [Expr.replace, replaceExprs, replaceFields, FunctionDef.replaceNested, replaceParams,
      ClassDef.replace, replaceMembers, MemberKey.replace, Stmt.replace, replaceCases, replaceStmts]

@[simp] theorem replaceParams_nothing (around : Surroundings) (params : List Param) :
    replaceParams {} around params = params :=
  eq_of_heq (Sigma.mk.inj (replace_nothing_steps.params params around)).2

@[simp] theorem replaceStmts_nothing (around : Surroundings) (stmts : List Stmt) :
    replaceStmts {} around stmts = stmts :=
  eq_of_heq (Sigma.mk.inj (replace_nothing_steps.stmts stmts around)).2

/-! ## Functions -/

namespace FunctionDef

open Replacements

theorem replace_congr {definition : FunctionDef} {first second : Replacements}
    (agree : AgreeOn first second definition.mentions) :
    definition.replace first = definition.replace second := by
  simp only [mentions, agreeOn_append] at agree
  obtain ⟨⟨_, inParams⟩, inBody⟩ := agree
  have params := eq_of_heq (Sigma.mk.inj (replace_congr_steps.params _ _ inParams)).2
  have body := eq_of_heq (Sigma.mk.inj (replace_congr_steps.stmts _ _ inBody)).2
  simp only [replace, params, body]

theorem agreeOn_of_facts {definition : FunctionDef} {first second : Replacements}
    (names : ∀ name ∈ definition.facts.unbound.map (·.1),
      first.names.lookup name = second.names.lookup name)
    (modules : ∀ module ∈ definition.facts.requires,
      first.modules.lookup module = second.modules.lookup module) :
    AgreeOn first second definition.mentions := by
  constructor
  · intro name writes used
    have isFree : name ∈ definition.facts.unbound.map (·.1) := by
      rw [unbound_names, mem_firstOccurrences]
      exact mem_filterMap.mpr ⟨_, used, rfl⟩
    rw [forFree, forFree, names name isFree]
  · intro module load
    refine modules module ?_
    exact mem_firstOccurrences.mpr (mem_filterMap.mpr ⟨_, load, rfl⟩)

/-- Replacing depends on what the facts list, and on nothing else. Two rounds of replacements
that agree on the free names and the loaded modules give the same function, and a round in which no
module is replaced and names stand for themselves leaves the function as it is. -/
theorem replace_determined (definition : FunctionDef) :
    (∀ first second : Replacements,
      (∀ name ∈ definition.facts.unbound.map (·.1),
        first.names.lookup name = second.names.lookup name) →
      (∀ module ∈ definition.facts.requires,
        first.modules.lookup module = second.modules.lookup module) →
      definition.replace first = definition.replace second) ∧
    ∀ own : Replacements, own.modules = [] →
      (∀ name value, own.names.lookup name = some value → value = .var name) →
      definition.replace own = definition := by
  constructor
  · intro first second names modules
    exact replace_congr (agreeOn_of_facts names modules)
  · intro own noModules ownNames
    have agree : AgreeOn own {} definition.mentions := by
      constructor
      · intro name writes _
        cases found : own.names.lookup name with
        | none => simp [forFree, found]
        | some value => simp [forFree, found, ownNames name value found]
      · intro module _
        rw [noModules]
    calc definition.replace own
      _ = definition.replace {} := replace_congr agree
      _ = definition := by
        cases definition
        simp [replace]

def loadingLoop : FunctionDef :=
  { body := [.forOf "x" false (.call (.var "require") [.string "m"]) [.expr (.var "y")]] }

theorem replace_determined_loadingLoop :
    loadingLoop.replace { names := [("x", .var "a"), ("z", .var "b")] } =
        loadingLoop.replace { names := [("x", .var "a")], modules := [("other", .var "c")] } ∧
      loadingLoop.replace { names := [("x", .var "x"), ("y", .var "y")] } = loadingLoop := by
  have free : loadingLoop.facts.unbound.map (·.1) = ["require", "x", "y"] := by decide
  have loads : loadingLoop.facts.requires = ["m"] := by decide
  constructor
  · apply (replace_determined loadingLoop).1
    · simp [free, List.lookup_cons]
    · simp [loads, List.lookup_cons]
  · apply (replace_determined loadingLoop).2 _ rfl
    intro name value found
    simp only [List.lookup_cons, List.lookup_nil] at found
    grind

end FunctionDef

end HeapScript
