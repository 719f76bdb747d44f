import HeapScript.Proofs.FreeNames.Occurrences

/-!
The loads of modules in a function.

A *load site* is a call `require("module")`, kept with all scopes that stand around it inside the
function. A module counts as loaded if no scope binds the `require` of one of its sites. This is a
free occurrence, unless it means the examined function itself (`requires_areFree`,
`namedRequire_loads`).
-/

namespace HeapScript

open List

structure LoadSite where
  module : String
  scopes : List CodeScope := []

namespace LoadSite

def under (scope : CodeScope) (site : LoadSite) : LoadSite :=
  { site with scopes := scope :: site.scopes }

def callee (site : LoadSite) : Occurrence :=
  { name := "require", writes := false, scopes := site.scopes }

end LoadSite

mutual

def Expr.loadSites : Expr → List LoadSite
  | .var _ | .literal _ | .thisRef | .superRef => []
  | .binary _ lhs rhs | .compare _ lhs rhs | .logicalOr lhs rhs | .logicalAnd lhs rhs
  | .index lhs rhs | .isIn lhs rhs => lhs.loadSites ++ rhs.loadSites
  | .unary _ operand | .not operand | .typeOf operand | .member operand _ | .spread operand
  | .postIncrement operand | .postDecrement operand => operand.loadSites
  | .call callee args =>
    (loadedModule? callee args).toList.map (fun module => { module }) ++ callee.loadSites ++
      loadSitesOfExprs args
  | .construct callee args => callee.loadSites ++ loadSitesOfExprs args
  | .conditional condition thenValue elseValue =>
    condition.loadSites ++ thenValue.loadSites ++ elseValue.loadSites
  | .array items => loadSitesOfExprs items
  | .object fields => loadSitesOfFields fields
  | .function definition => definition.nestedLoadSites true
  | .classExpr definition => definition.loadSites

def loadSitesOfExprs : List Expr → List LoadSite
  | [] => []
  | item :: items => item.loadSites ++ loadSitesOfExprs items

def loadSitesOfFields : List ObjectField → List LoadSite
  | [] => []
  | ⟨_, value⟩ :: fields => value.loadSites ++ loadSitesOfFields fields

def FunctionDef.nestedLoadSites (isExpression : Bool) : FunctionDef → List LoadSite
  | definition@⟨_, params, body, _, _, _, _⟩ =>
    (loadSitesOfParams params ++ loadSitesOfStmts body).map
      (·.under (.function definition isExpression))

def loadSitesOfParams : List Param → List LoadSite
  | [] => []
  | .withDefault _ value :: params => value.loadSites ++ loadSitesOfParams params
  | _ :: params => loadSitesOfParams params

def ClassDef.loadSites : ClassDef → List LoadSite
  | ⟨name, none, members⟩ => (loadSitesOfMembers members).map (·.under (.members name))
  | ⟨name, some superClass, members⟩ =>
    superClass.loadSites ++ (loadSitesOfMembers members).map (·.under (.members name))

def loadSitesOfMembers : List ClassMember → List LoadSite
  | [] => []
  | ⟨_, key, _, function⟩ :: members =>
    key.loadSites ++ function.nestedLoadSites false ++ loadSitesOfMembers members

def MemberKey.loadSites : MemberKey → List LoadSite
  | .named _ => []
  | .computed value => value.loadSites

def Stmt.loadSites : Stmt → List LoadSite
  | .declare _ _ none | .returnValue none | .breakLoop | .continueLoop => []
  | .declare _ _ (some value) | .expr value | .returnValue (some value) | .throwValue value =>
    value.loadSites
  | .assign target value | .compoundAssign target _ value => target.loadSites ++ value.loadSites
  | .ifElse condition thenBody elseBody =>
    condition.loadSites ++ (loadSitesOfStmts thenBody).map (·.under (.block thenBody)) ++
      (loadSitesOfStmts elseBody).map (·.under (.block elseBody))
  | .whileLoop condition body =>
    condition.loadSites ++ (loadSitesOfStmts body).map (·.under (.block body))
  | .forOf binding true iterable body =>
    iterable.loadSites ++
      ((loadSitesOfStmts body).map (·.under (.block body))).map (·.under (.loop binding))
  | .forOf _ false iterable body =>
    iterable.loadSites ++ (loadSitesOfStmts body).map (·.under (.block body))
  | .block body => (loadSitesOfStmts body).map (·.under (.block body))
  | .switch value cases none =>
    value.loadSites ++ (loadSitesOfCases cases).map (·.under (.switch cases none))
  | .switch value cases (some body) =>
    value.loadSites ++
      (loadSitesOfCases cases ++ loadSitesOfStmts body).map (·.under (.switch cases (some body)))
  | .function definition => definition.nestedLoadSites false

def loadSitesOfCases : List SwitchCase → List LoadSite
  | [] => []
  | ⟨test, body⟩ :: cases => test.loadSites ++ loadSitesOfStmts body ++ loadSitesOfCases cases

def loadSitesOfStmts : List Stmt → List LoadSite
  | [] => []
  | stmt :: stmts => stmt.loadSites ++ loadSitesOfStmts stmts

end

def FunctionDef.loadSites (definition : FunctionDef) : List LoadSite :=
  loadSitesOfParams definition.params ++ loadSitesOfStmts definition.body

def TreeAttribute.loadSites : TreeAttribute (List LoadSite) where
  expr _ := Expr.loadSites
  exprs _ := loadSitesOfExprs
  fields _ := loadSitesOfFields
  function := FunctionDef.nestedLoadSites
  params := loadSitesOfParams
  classDef := ClassDef.loadSites
  members := loadSitesOfMembers
  key := MemberKey.loadSites
  stmt := Stmt.loadSites
  cases := loadSitesOfCases
  stmts := loadSitesOfStmts

/-! ## The walk finds the loads -/

namespace Surroundings

def loads (around : Surroundings) (sites : List LoadSite) : List String :=
  (sites.filter fun site => (around.freeUse? site.callee).isSome).map (·.module)

variable (around : Surroundings)

@[simp] theorem loads_nil : around.loads [] = [] := rfl

@[simp] theorem loads_append (sites others : List LoadSite) :
    around.loads (sites ++ others) = around.loads sites ++ around.loads others := by
  simp [loads]

@[simp] theorem loads_under (scope : CodeScope) (sites : List LoadSite) :
    around.loads (sites.map (·.under scope)) = (around.within scope.names).loads sites := by
  have callee : ∀ site : LoadSite, (site.under scope).callee = site.callee.under scope :=
    fun _ => rfl
  simp only [loads, filter_map, map_map, Function.comp_def, callee, freeUse?_under]
  rfl

theorem loads_withinFunction (isArrow : Bool) (names : List String) :
    (around.withinFunction isArrow names).loads = (around.within names).loads := by
  funext sites
  simp only [loads, freeUse?_withinFunction]

variable {around}

/-- A `require` that does not mean the examined function is free where no scope binds it. -/
theorem modules_loadMentions (other : around.ownName ≠ some "require") (callee : Expr)
    (args : List Expr) :
    (around.loadMentions callee args).filterMap Mention.module? =
      around.loads ((loadedModule? callee args).toList.map fun module => { module }) := by
  unfold loadMentions freeLoad? loads
  cases loadedModule? callee args with
  | none => rfl
  | some module =>
    by_cases isBound : "require" ∈ around.bound <;>
      simp [freeUse?, LoadSite.callee, Leaves, other, isBound, Option.filter_some, Mention.module?]

end Surroundings

@[simp] theorem modules_declarations (names : List String) :
    (declarations names).filterMap Mention.module? = [] := by
  simp [declarations, Mention.module?]

@[simp] theorem Surroundings.module?_use (around : Surroundings) (writes : Bool) (name : String) :
    (around.use writes name).module? = none := rfl

open Surroundings in
theorem modules_eq_steps : (TreeMotive.relating .mentions .loadSites fun mentions sites =>
    ∀ inner : Surroundings, inner.ownName ≠ some "require" →
      (mentions inner).filterMap Mention.module? = inner.loads sites).Steps := by
  constructor <;> dsimp only [TreeMotive.relating, TreeAttribute.mentions, TreeAttribute.loadSites]
  case thisRef =>
    intro _ inner _
    by_cases isTop : inner.depth = 0 <;> simp [Expr.mentions, Expr.loadSites, isTop,
      Mention.module?]
  case functionDef =>
    intro name directives isArrow isGenerator isAsync params body inParams inBody isExpression inner
      other
    have same : ∀ names, (inner.withinFunction isArrow names).ownName ≠ some "require" := by
      intro names
      cases isArrow <;> exact other
    simp only [FunctionDef.nestedMentions, FunctionDef.nestedLoadSites, filterMap_append,
      modules_declarations, nil_append, loads_under, loads_append, inParams _ (same _),
      inBody _ (same _), loads_withinFunction, CodeScope.names]
  case forOf =>
    intro binding declares iterable body inIterable inBody inner other
    have scopes : (inner.within [binding]).within (lexicalNames body) =
        inner.within (lexicalNames body ++ [binding]) := by
      simp [Surroundings.within]
    cases declares with
    | true =>
      simp only [Stmt.mentions, Stmt.loadSites, filterMap_append, modules_declarations, append_nil,
        loads_append, loads_under, CodeScope.names, scopes, inIterable _ _ other,
        inBody (inner.within _) other]
    | false =>
      simp [Stmt.mentions, Stmt.loadSites, CodeScope.names, filterMap_cons, inIterable _ _ other,
        inBody (inner.within _) other]
  all_goals
    intros
    simp_all [-Bool.forall_bool, Expr.mentions, Expr.loadSites, mentionsOfExprs, loadSitesOfExprs,
      mentionsOfFields, loadSitesOfFields, mentionsOfParams, loadSitesOfParams, ClassDef.mentions,
      ClassDef.loadSites, mentionsOfMembers, loadSitesOfMembers, MemberKey.mentions,
      MemberKey.loadSites, Stmt.mentions, Stmt.loadSites, mentionsOfCases, loadSitesOfCases,
      mentionsOfStmts, loadSitesOfStmts, CodeScope.names, modules_loadMentions, within]

theorem callees_under {sites : List LoadSite} {occurrences : List Occurrence}
    (callees : ∀ site ∈ sites, site.callee ∈ occurrences) (scope : CodeScope) :
    ∀ site ∈ sites.map (·.under scope), site.callee ∈ occurrences.map (·.under scope) := by
  intro site member
  obtain ⟨inner, isInner, rfl⟩ := mem_map.mp member
  exact mem_map.mpr ⟨inner.callee, callees inner isInner, rfl⟩

theorem callees_occur_steps : (TreeMotive.relating .loadSites .occurrences fun sites occurrences =>
    ∀ site ∈ sites, site.callee ∈ occurrences).Steps := by
  constructor <;> dsimp only [TreeMotive.relating, TreeAttribute.loadSites,
    TreeAttribute.occurrences]
  case call =>
    intro callee args inCallee inArgs _
    simp only [Expr.loadSites, Expr.occurrences, forall_mem_append]
    refine ⟨⟨?_, ?_⟩, ?_⟩
    · intro site member
      unfold loadedModule? at member
      split at member
      · obtain rfl : site = _ := mem_singleton.mp member
        exact mem_append_left _ mem_cons_self
      · cases member
    · exact fun site member => mem_append_left _ (inCallee _ site member)
    · exact fun site member => mem_append_right _ (inArgs _ site member)
  case functionDef =>
    intro name directives isArrow isGenerator isAsync params body inParams inBody isExpression
    refine callees_under ?_ _
    grind
  case forOf =>
    intro binding declares iterable body inIterable inBody
    have inScope := callees_under inBody (.block body)
    cases declares with
    | true => grind [Stmt.loadSites, Stmt.occurrences, callees_under inScope (.loop binding)]
    | false => grind [Stmt.loadSites, Stmt.occurrences]
  all_goals
    grind [Expr.loadSites, Expr.occurrences, loadSitesOfExprs, occurrencesOfExprs,
      loadSitesOfFields, occurrencesOfFields, loadSitesOfParams, occurrencesOfParams,
      ClassDef.loadSites, ClassDef.occurrences, loadSitesOfMembers, occurrencesOfMembers,
      MemberKey.loadSites, MemberKey.occurrences, Stmt.loadSites, Stmt.occurrences,
      loadSitesOfCases, occurrencesOfCases, loadSitesOfStmts, occurrencesOfStmts, callees_under]

/-! ## Functions -/

namespace FunctionDef

variable {definition : FunctionDef}

theorem modules_eq (other : definition.surroundings.ownName ≠ some "require") :
    definition.mentions.filterMap Mention.module? =
      (definition.loadSites.filter fun site => definition.IsFree site.callee).map (·.module) := by
  have inParams := modules_eq_steps.params definition.params _ other
  have inBody := modules_eq_steps.stmts definition.body _ other
  dsimp only [TreeAttribute.mentions, TreeAttribute.loadSites] at inParams inBody
  have isFree : ∀ occurrence, (definition.surroundings.freeUse? occurrence).isSome =
      decide (definition.IsFree occurrence) := by
    intro occurrence
    rw [freeUse?_surroundings]
    split <;> simp_all
  simp only [mentions, filterMap_append, modules_declarations, nil_append, inParams, inBody,
    loadSites, Surroundings.loads, isFree, filter_append, map_append]

theorem callee_mem_occurrences {site : LoadSite} (isSite : site ∈ definition.loadSites) :
    site.callee ∈ definition.occurrences := by
  rcases mem_append.mp isSite with isSite | isSite
  · exact mem_append_left _ (callees_occur_steps.params _ site isSite)
  · exact mem_append_right _ (callees_occur_steps.stmts _ site isSite)

/-- A call `require("module")` stays as it is where a scope binds `require`. -/
theorem replace_load {replacements : Replacements} {around : Surroundings} {callee : Expr}
    {args : List Expr} (isLoad : loadedModule? callee args ≠ none)
    (isBound : "require" ∈ around.bound) :
    (Expr.call callee args).replace replacements around = .call callee args := by
  unfold loadedModule? at isLoad
  split at isLoad
  · simp [Expr.replace, replaceExprs, Replacements.forLoad?, Replacements.forName?, isBound,
      Surroundings.freeLoad?, Surroundings.meaning, loadedModule?, Option.filter_some]
  · exact absurd rfl isLoad

/-- A load of a module is a call of a free `require`. The modules of a function are those of the
calls `require("module")` whose `require` is a free occurrence, so `require` is one of its free
names if it loads any. Wherever in the function `require` means something else, a round of
replacements leaves such a call as it is. -/
theorem requires_areFree (definition : FunctionDef)
    (hidden : definition.isArrow = false → definition.name = some "require" →
      definition.Declares "require") :
    (∀ module, module ∈ definition.facts.requires ↔
      ∃ site ∈ definition.loadSites, site.module = module ∧
        site.callee ∈ definition.freeOccurrences) ∧
    (definition.facts.requires ≠ [] → "require" ∈ definition.facts.unbound.map (·.1)) ∧
    ∀ inner : Surroundings, inner.Inside definition.surroundings →
      inner.meaning "require" ≠ .free → ∀ replacements callee args,
      loadedModule? callee args ≠ none →
      (Expr.call callee args).replace replacements inner = .call callee args := by
  have other : definition.surroundings.ownName ≠ some "require" := by
    rw [ne_eq, ownName_surroundings_iff (by decide)]
    rintro ⟨⟨isFunction, isName⟩, notDeclared⟩
    exact notDeclared (hidden isFunction isName)
  have loads : ∀ module, module ∈ definition.facts.requires ↔
      ∃ site ∈ definition.loadSites, site.module = module ∧
        site.callee ∈ definition.freeOccurrences := by
    intro module
    simp only [facts, FunctionFacts.ofMentions, mem_firstOccurrences, modules_eq other, mem_map,
      mem_filter, freeOccurrences, decide_eq_true_eq]
    constructor
    · rintro ⟨site, ⟨isSite, free⟩, isModule⟩
      exact ⟨site, isSite, isModule, callee_mem_occurrences isSite, free⟩
    · rintro ⟨site, isSite, isModule, -, free⟩
      exact ⟨site, ⟨isSite, free⟩, isModule⟩
  refine ⟨loads, ?_, ?_⟩
  · intro anyLoad
    obtain ⟨module, isLoaded⟩ := exists_mem_of_ne_nil _ anyLoad
    obtain ⟨site, -, -, free⟩ := (loads module).mp isLoaded
    exact mem_unbound_iff_exists.mpr ⟨site.callee, free, rfl⟩
  · intro inner inside notFree replacements callee args isLoad
    by_cases isBound : "require" ∈ inner.bound
    · exact replace_load isLoad isBound
    · exact absurd (by simp [Surroundings.meaning, isBound, inside.ownName, other]) notFree

def twoRequires : FunctionDef :=
  let load (module : String) : Stmt := .expr (.call (.var "require") [.string module])
  { body := [load "m", .expr (.function { params := [.plain "require"], body := [load "n"] })] }

theorem twoRequires_areFree :
    twoRequires.facts.requires = ["m"] ∧
      (∃ site ∈ twoRequires.loadSites, site.module = "m" ∧
        site.callee ∈ twoRequires.freeOccurrences) ∧
      "require" ∈ twoRequires.facts.unbound.map (·.1) ∧
      (Expr.call (.var "require") [.string "n"]).replace { modules := [("n", .null)] }
        (twoRequires.surroundings.within ["require"]) = .call (.var "require") [.string "n"] := by
  obtain ⟨loads, isUnbound, kept⟩ := requires_areFree twoRequires nofun
  have isLoaded : twoRequires.facts.requires = ["m"] := by decide
  refine ⟨isLoaded, (loads "m").mp (by simp [isLoaded]), isUnbound (by simp [isLoaded]), ?_⟩
  exact kept _ ((Surroundings.Inside.refl _).within _) (by decide) _ _ _ nofun

def namedRequire : FunctionDef :=
  { name := some "require", body := [.expr (.call (.var "require") [.string "m"])] }

/-- The call counts as a load and is replaced, although its `require` means the function. -/
theorem namedRequire_loads :
    namedRequire.facts.requires = ["m"] ∧ namedRequire.facts.unbound = [] ∧
      (∀ site ∈ namedRequire.loadSites, ¬namedRequire.IsFree site.callee) ∧
      (namedRequire.replace { modules := [("m", .null)] }).loadSites.length = 0 := by
  decide

end FunctionDef

end HeapScript
