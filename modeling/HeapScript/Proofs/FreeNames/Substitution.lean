import HeapScript.Proofs.FreeNames.Composition
import HeapScript.Proofs.FreeNames.Meanings
import HeapScript.Proofs.FreeNames.UsedNames

/-!
Replacing free names without capture.

Where the expressions that are put in bring no name that occurs in a function already, each free
occurrence of a name turns into the free occurrences of the variables of its expression, and nothing
else changes (`facts_replace`).
-/

namespace HeapScript

open List

variable {name : String} {names : List String} {mentions : List Mention} {meaning : Meaning}

/-! ## What is put in -/

/-- An expression is built from constants, variables, members and indices. -/
inductive Expr.IsAccess : Expr → Prop where
  | literal (value : Constant) : IsAccess (.literal value)
  | var (name : String) : IsAccess (.var name)
  | member {object : Expr} (isAccess : object.IsAccess) (field : String) :
      IsAccess (.member object field)
  | index {collection index : Expr} (isAccess : collection.IsAccess) (isIndex : index.IsAccess) :
      IsAccess (.index collection index)

namespace Replacements

def PutsIn (replacements : Replacements) (name : String) : Prop :=
  ∃ other value, replacements.names.lookup other = some value ∧ name ∈ value.usedNames true

/-- Only names are replaced, and only by accesses that do not use the temporary of loops. -/
structure ArePlain (replacements : Replacements) : Prop where
  noModules : replacements.modules = []
  accesses : ∀ name value, replacements.names.lookup name = some value → value.IsAccess
  noTemporary : ¬replacements.PutsIn loopTemporary

def Avoids (replacements : Replacements) (mentions : List Mention) : Prop :=
  ∀ mention ∈ mentions, ∀ name ∈ mention.name?,
    name ≠ loopTemporary ∧ ¬replacements.PutsIn name

/-- The surroundings of a node before and after the replacement. All variables that are put in are
free there. -/
structure Leads (replacements : Replacements) (around other : Surroundings) : Prop where
  agrees : around.AgreesWith other
  free : ∀ name, replacements.PutsIn name → other.meaning name = .free

variable {replacements : Replacements} {around other : Surroundings}

theorem avoids_append {others : List Mention} :
    replacements.Avoids (mentions ++ others) ↔
      replacements.Avoids mentions ∧ replacements.Avoids others :=
  forall_mem_append

theorem avoids_declarations :
    replacements.Avoids (declarations names) ↔
      ∀ name ∈ names, name ≠ loopTemporary ∧ ¬replacements.PutsIn name := by
  simp [Avoids, declarations, Mention.name?]

end Replacements

theorem Surroundings.meaning_within_of_free {around : Surroundings}
    (free : around.meaning name = .free) (unbound : name ∉ names) :
    (around.within names).meaning name = .free := by
  simp only [meaning, within, mem_append, unbound, false_or] at free ⊢
  exact free

namespace Replacements.Leads

variable {replacements : Replacements} {around other : Surroundings}

section

variable (leads : replacements.Leads around other)

include leads

theorem within (avoids : replacements.Avoids (declarations names)) :
    replacements.Leads (around.within names) (other.within names) where
  agrees := leads.agrees.within names
  free name isPut := by
    refine Surroundings.meaning_within_of_free (leads.free name isPut) fun member => ?_
    exact (avoids_declarations.mp avoids name member).2 isPut

theorem withinFunction (isArrow : Bool) (avoids : replacements.Avoids (declarations names)) :
    replacements.Leads (around.withinFunction isArrow names)
      (other.withinFunction isArrow names) where
  agrees := leads.agrees.withinFunction isArrow names
  free name isPut := by
    have free := (leads.within avoids).free name isPut
    cases isArrow with
    | true => exact free
    | false =>
      simp only [Surroundings.withinFunction, Surroundings.meaning] at free ⊢
      grind

theorem withinTemporary (plain : replacements.ArePlain)
    (avoids : replacements.Avoids (declarations names)) :
    replacements.Leads (around.within names) (other.within (names ++ [loopTemporary])) where
  agrees := leads.agrees.withinTemporary names
  free name isPut := by
    refine Surroundings.meaning_within_of_free (leads.free name isPut) fun member => ?_
    rcases mem_append.mp member with member | isTemporary
    · exact (avoids_declarations.mp avoids name member).2 isPut
    · exact plain.noTemporary (mem_singleton.mp isTemporary ▸ isPut)

end

end Replacements.Leads

/-! ## Mentions that reach out -/

/-- What a mention of something outside all inner scopes says, apart from assignments. -/
def Mention.outward? : Mention → Option Mention
  | .used _ .bound _ => none
  | .used name meaning _ => some (.used name meaning false)
  | .thisRef => some .thisRef
  | _ => none

def outward (mentions : List Mention) : List Mention := mentions.filterMap Mention.outward?

@[simp] theorem outward_nil : outward [] = [] := rfl

@[simp] theorem outward_append (mentions others : List Mention) :
    outward (mentions ++ others) = outward mentions ++ outward others := filterMap_append

@[simp] theorem outward_declarations (names : List String) : outward (declarations names) = [] := by
  simp [outward, declarations, Mention.outward?]

@[simp] theorem outward_loadMentions (around : Surroundings) (callee : Expr) (args : List Expr) :
    outward (around.loadMentions callee args) = [] := by
  simp [outward, Surroundings.loadMentions, Mention.outward?]

theorem Surroundings.outward_use (around : Surroundings) (writes : Bool) (name : String) :
    outward [around.use writes name] =
      if around.meaning name = .bound then [] else [.used name (around.meaning name) false] := by
  simp only [outward, filterMap_cons, use]
  cases around.meaning name <;> rfl

namespace Replacements

variable {replacements : Replacements} {around other : Surroundings}

def variablesFor (replacements : Replacements) (name : String) : List String :=
  match replacements.names.lookup name with
  | some value => value.usedNames true
  | none => [name]

def spread (replacements : Replacements) : Mention → List Mention
  | .used name .free _ => (replacements.variablesFor name).map (.used · .free false)
  | mention => [mention]

/-- An expression that is put in mentions its variables, all of which are free. -/
theorem outward_access {value : Expr} (isAccess : value.IsAccess)
    (free : ∀ name ∈ value.usedNames true, other.meaning name = .free) (writes : Bool) :
    outward (value.mentions other writes) = (value.usedNames true).map (.used · .free false) := by
  induction isAccess generalizing writes with
  | literal value => rfl
  | var name =>
    have isFree : other.meaning name = .free := free name (mem_singleton.mpr rfl)
    simp [Expr.mentions, Surroundings.outward_use, isFree, Expr.usedNames]
  | member isAccess field induction =>
    simp only [Expr.mentions, Expr.usedNames] at free ⊢
    exact induction free false
  | index isAccess isIndex first second =>
    simp only [Expr.mentions, Expr.usedNames, forall_mem_append, outward_append,
      map_append] at free ⊢
    rw [first free.1 false, second free.2 false]

/-- A replaced name turns into mentions of the variables of its replacement, wherever that stands.
-/
theorem outward_put (plain : replacements.ArePlain) {value : Expr}
    (found : replacements.forName? around name = some value)
    (free : ∀ other', replacements.PutsIn other' → other.meaning other' = .free)
    (isTarget writes : Bool) :
    outward (value.mentions other isTarget) =
      (outward [around.use writes name]).flatMap replacements.spread := by
  unfold forName? at found
  cases meaning : around.meaning name with
  | free =>
    rw [meaning] at found
    have isAccess := plain.accesses name value found
    have freeHere : ∀ used ∈ value.usedNames true, other.meaning used = .free :=
      fun used member => free used ⟨name, value, found, member⟩
    rw [outward_access isAccess freeHere, Surroundings.outward_use]
    simp [meaning, spread, variablesFor, found]
  | _ =>
    rw [meaning] at found
    cases found

theorem outward_kept (leads : replacements.Leads around other)
    (missing : replacements.forName? around name = none) (different : name ≠ loopTemporary)
    (writes : Bool) :
    outward [other.use writes name] =
      (outward [around.use writes name]).flatMap replacements.spread := by
  rw [Surroundings.outward_use, Surroundings.outward_use, leads.agrees.meaning_eq different]
  unfold forName? at missing
  cases meaning : around.meaning name with
  | free =>
    rw [meaning] at missing
    simp [spread, variablesFor, missing]
  | _ => simp [spread]

theorem outward_replace_var (plain : replacements.ArePlain)
    (leads : replacements.Leads around other) {writes : Bool}
    (avoids : replacements.Avoids [around.use writes name]) :
    outward (((Expr.var name).replace replacements around).mentions other writes) =
      (outward [around.use writes name]).flatMap replacements.spread := by
  have different : name ≠ loopTemporary := (avoids _ (mem_singleton.mpr rfl) name rfl).1
  cases found : replacements.forName? around name with
  | none =>
    simp only [Expr.replace, found, Option.getD_none, Expr.mentions]
    exact outward_kept leads found different writes
  | some value =>
    simp only [Expr.replace, found, Option.getD_some]
    exact outward_put plain found leads.free writes writes

theorem outward_loop (plain : replacements.ArePlain) (leads : replacements.Leads around other)
    {binding : String} (avoids : replacements.Avoids [around.use true binding])
    (iterable : Expr) (body : List Stmt) {mentioned : List Mention}
    (declared : replacements.Avoids (declarations (lexicalNames body)))
    (bodies : ∀ inner, replacements.Leads (around.within (lexicalNames body)) inner →
      outward (mentionsOfStmts inner body) = mentioned) :
    outward ((replacements.loop around binding iterable body).mentions other) =
      outward (iterable.mentions other false) ++
        (outward [around.use true binding]).flatMap replacements.spread ++ mentioned := by
  have plainBody := bodies _ (leads.within declared)
  have different : binding ≠ loopTemporary := (avoids _ (mem_singleton.mpr rfl) binding rfl).1
  cases found : replacements.forName? around binding with
  | none =>
    simp only [loop, found, Stmt.mentions, outward_append, outward_declarations, append_nil,
      plainBody, outward_kept leads found different]
  | some value =>
    by_cases isName : ∃ name, value = .var name
    · obtain ⟨name, rfl⟩ := isName
      have put := outward_put plain found leads.free true true
      rw [Expr.mentions] at put
      simp only [loop, found, Stmt.mentions, outward_append, outward_declarations,
        append_nil, plainBody, put]
    · -- The replacement is assigned at the start of the body, inside the scope of the temporary.
      have inner := leads.withinTemporary plain declared
      have temporary : outward [(other.within (lexicalNames body ++ [loopTemporary])).use false
          loopTemporary] = [] := by
        simp [Surroundings.outward_use, Surroundings.meaning, Surroundings.within]
      have isLoop : replacements.loop around binding iterable body =
          .forOf loopTemporary true iterable (.assign value (.var loopTemporary) :: body) := by
        cases value with
        | var name => exact absurd ⟨name, rfl⟩ isName
        | _ => simp only [loop, found]
      simp only [isLoop, Stmt.mentions, lexicalNames, mentionsOfStmts, Expr.mentions,
        outward_append, outward_declarations, nil_append, temporary, bodies _ inner,
        outward_put plain found inner.free true true, append_assoc]

end Replacements

section Walk

open Replacements

variable {replacements : Replacements}

theorem outward_replace_steps (plain : replacements.ArePlain) :
    (TreeMotive.relating .mentions (.replaced .mentions) fun before after =>
      ∀ around other, replacements.Leads around other → replacements.Avoids (before around) →
        outward (after replacements around other) =
          (outward (before around)).flatMap replacements.spread).Steps := by
  constructor <;> dsimp only [TreeMotive.relating, TreeAttribute.mentions, TreeAttribute.replaced]
  case var => exact fun _ _ _ _ leads avoids => outward_replace_var plain leads avoids
  case thisRef =>
    intro _ around other leads _
    by_cases top : around.depth = 0 <;>
      simp [Expr.replace, Expr.mentions, leads.agrees.depth, top, outward, Mention.outward?, spread]
  case call =>
    intro callee args inCallee inArgs writes around other leads avoids
    simp only [Expr.mentions, avoids_append] at avoids
    obtain ⟨⟨_, callees⟩, others⟩ := avoids
    have noLoad : replacements.forLoad? around callee args = none := by
      simp [forLoad?, plain.noModules]
    simp [Expr.replace, noLoad, Expr.mentions, inCallee _ _ _ leads callees,
      inArgs _ _ _ leads others]
  case functionDef =>
    intro name directives isArrow isGenerator isAsync params body inParams inBody isExpression
      around other leads avoids
    simp only [FunctionDef.nestedMentions, avoids_append] at avoids
    obtain ⟨⟨declared, ofParams⟩, ofBody⟩ := avoids
    have inner := leads.withinFunction isArrow declared
    have names := FunctionDef.nestedNames_replaceNested replacements around isExpression
      ⟨name, params, body, directives, isArrow, isGenerator, isAsync⟩
    simp only [FunctionDef.replaceNested] at names
    simp only [FunctionDef.replaceNested, FunctionDef.nestedMentions, names, outward_append,
      outward_declarations, nil_append, flatMap_append, inParams _ _ inner ofParams,
      inBody _ _ inner ofBody]
  case forOf =>
    intro binding declares iterable body inIterable inBody around other leads avoids
    cases declares <;> simp only [Stmt.mentions, avoids_append] at avoids
    · obtain ⟨⟨⟨ofIterable, atHead⟩, declared⟩, ofBody⟩ := avoids
      have names := lexicalNames_replaceStmts replacements (around.within (lexicalNames body)) body
      have head := outward_loop plain leads atHead (iterable.replace replacements around)
        (replaceStmts replacements (around.within (lexicalNames body)) body) (by rwa [names])
        fun inner leadsInner => inBody _ _ (by rwa [names] at leadsInner) ofBody
      simp only [Stmt.replace, head, Stmt.mentions, outward_append, outward_declarations,
        append_nil, flatMap_append, inIterable _ _ _ leads ofIterable]
    · obtain ⟨⟨ofIterable, declared⟩, ofBody⟩ := avoids
      simp [Stmt.replace, Stmt.mentions, inIterable _ _ _ leads ofIterable,
        inBody _ _ (leads.within declared) ofBody]
  case switch =>
    intro value cases inValue inCases around other leads avoids
    simp only [Stmt.mentions, avoids_append] at avoids
    obtain ⟨⟨⟨ofValue, declared⟩, ofCases⟩, _⟩ := avoids
    have names := switchNames_replaceCases replacements (around.within (switchNames cases none))
      cases none
    simp only [Option.map_none] at names
    simp [Stmt.replace, Stmt.mentions, names, inValue _ _ _ leads ofValue,
      inCases _ _ (leads.within declared) ofCases]
  case switchDefault =>
    intro value cases body inValue inCases inBody around other leads avoids
    simp only [Stmt.mentions, avoids_append] at avoids
    obtain ⟨⟨⟨ofValue, declared⟩, ofCases⟩, ofBody⟩ := avoids
    have names := switchNames_replaceCases replacements
      (around.within (switchNames cases (some body))) cases (some body)
    simp only [Option.map_some] at names
    simp [Stmt.replace, Stmt.mentions, names, inValue _ _ _ leads ofValue,
      inCases _ _ (leads.within declared) ofCases, inBody _ _ (leads.within declared) ofBody]
  all_goals
    intros
    simp_all [-Bool.forall_bool, Expr.replace, Expr.mentions, replaceExprs, mentionsOfExprs,
      replaceFields,
      mentionsOfFields, replaceParams, mentionsOfParams, ClassDef.replace, ClassDef.mentions,
      replaceMembers, mentionsOfMembers, MemberKey.replace, MemberKey.mentions, Stmt.replace,
      Stmt.mentions, replaceCases, mentionsOfCases, replaceStmts, mentionsOfStmts, avoids_append,
      Replacements.Leads.within]

end Walk

/-! ## Functions -/

namespace FunctionDef

open Replacements

variable {definition : FunctionDef} {replacements : Replacements}

theorem outward_replace (plain : replacements.ArePlain)
    (avoids : replacements.Avoids definition.mentions)
    (leads : replacements.Leads definition.surroundings definition.surroundings) :
    outward (definition.replace replacements).mentions =
      (outward definition.mentions).flatMap replacements.spread := by
  have around := surroundings_replace replacements definition
  simp only [mentions, avoids_append] at avoids
  obtain ⟨⟨_, inParams⟩, inBody⟩ := avoids
  simp only [mentions, around, outward_append, outward_declarations, nil_append,
    flatMap_append]
  have steps := outward_replace_steps plain
  exact congr (congrArg (· ++ ·) (steps.params definition.params _ _ leads inParams))
    (steps.stmts definition.body _ _ leads inBody)

/-- A variable that is none of the function's identifiers is free in it. -/
theorem meaning_surroundings_of_not_identifier (unused : name ∉ definition.facts.identifiers)
    (different : name ≠ "arguments") : definition.surroundings.meaning name = .free := by
  have isDeclared : ∀ other ∈ definition.ownName.toList ++ definition.surroundings.bound,
      other ∈ definition.facts.identifiers := by
    intro other member
    refine NameSet.mem_ofList.mpr (mem_filterMap.mpr ⟨.declared other, ?_, rfl⟩)
    exact mem_append_left _ (mem_append_left _ (mem_map_of_mem member))
  have notBound : name ∉ definition.surroundings.bound :=
    fun member => unused (isDeclared name (mem_append_right _ member))
  have notItself : definition.surroundings.ownName ≠ some name := by
    intro isOwn
    have own : definition.ownName = some name := (Option.filter_eq_some_iff.mp isOwn).1
    exact unused (isDeclared name (mem_append_left _ (Option.mem_toList.mpr own)))
  simp [Surroundings.meaning, notBound, different, notItself]

/-! ## Facts -/

theorem mem_unbound_iff :
    name ∈ definition.facts.unbound.map (·.1) ↔
      .used name .free false ∈ outward definition.mentions := by
  rw [unbound_names, mem_firstOccurrences]
  simp only [outward, mem_filterMap]
  constructor
  · rintro ⟨mention, member, isFree⟩
    refine ⟨mention, member, ?_⟩
    unfold Mention.freeName? at isFree
    split at isFree
    · cases isFree
      rfl
    · cases isFree
  · rintro ⟨mention, member, isOutward⟩
    refine ⟨mention, member, ?_⟩
    unfold Mention.outward? at isOutward
    split at isOutward <;> cases isOutward
    rfl

end FunctionDef

theorem any_thisRef_iff : mentions.any (· == .thisRef) = true ↔ .thisRef ∈ outward mentions := by
  simp only [any_eq_true, beq_iff_eq, exists_eq_right, outward, mem_filterMap]
  constructor
  · intro member
    exact ⟨.thisRef, member, rfl⟩
  · rintro ⟨mention, member, isOutward⟩
    unfold Mention.outward? at isOutward
    split at isOutward <;> cases isOutward
    exact member

theorem any_hasMeaning_iff (isOuter : meaning ≠ .bound) :
    mentions.any (Mention.hasMeaning meaning) = true ↔
      ∃ name, .used name meaning false ∈ outward mentions := by
  simp only [any_eq_true, outward, mem_filterMap]
  constructor
  · rintro ⟨mention, member, hasMeaning⟩
    unfold Mention.hasMeaning at hasMeaning
    split at hasMeaning
    · rename_i name other writes
      obtain rfl := eq_of_beq hasMeaning
      refine ⟨name, _, member, ?_⟩
      cases other with
      | bound => exact absurd rfl isOuter
      | _ => rfl
    · cases hasMeaning
  · rintro ⟨name, mention, member, isOutward⟩
    refine ⟨mention, member, ?_⟩
    unfold Mention.outward? at isOutward
    split at isOutward <;> cases isOutward
    exact beq_self_eq_true _

namespace Replacements

variable {replacements : Replacements} {mentions : List Mention}

theorem mem_flatMap_spread {mention : Mention}
    (kept : ∀ name writes, mention ≠ .used name .free writes) :
    mention ∈ mentions.flatMap replacements.spread ↔ mention ∈ mentions := by
  rw [mem_flatMap]
  constructor
  · rintro ⟨origin, isOrigin, member⟩
    unfold spread at member
    split at member
    · obtain ⟨name, _, rfl⟩ := mem_map.mp member
      exact absurd rfl (kept name false)
    · rwa [mem_singleton.mp member]
  · intro member
    refine ⟨mention, member, ?_⟩
    unfold spread
    split
    · exact absurd rfl (kept _ _)
    · exact mem_singleton.mpr rfl

theorem free_mem_flatMap_spread :
    .used name .free false ∈ mentions.flatMap replacements.spread ↔
      ∃ other writes, .used other .free writes ∈ mentions ∧
        name ∈ replacements.variablesFor other := by
  rw [mem_flatMap]
  constructor
  · rintro ⟨origin, isOrigin, member⟩
    unfold spread at member
    split at member
    · rename_i other writes
      obtain ⟨_, isVariable, same⟩ := mem_map.mp member
      cases same
      exact ⟨other, writes, isOrigin, isVariable⟩
    · rename_i isOther
      exact absurd (mem_singleton.mp member).symm (isOther name false)
  · rintro ⟨other, writes, isOrigin, isVariable⟩
    exact ⟨_, isOrigin, mem_map_of_mem isVariable⟩

end Replacements

theorem writes_of_mem_outward {writes : Bool}
    (member : .used name meaning writes ∈ outward mentions) : writes = false := by
  obtain ⟨mention, _, isOutward⟩ := mem_filterMap.mp member
  unfold Mention.outward? at isOutward
  split at isOutward <;> cases isOutward
  rfl

theorem Replacements.any_hasMeaning_eq {replacements : Replacements} {before after : List Mention}
    (same : outward after = (outward before).flatMap replacements.spread)
    (isOuter : meaning ≠ .bound) (notFree : meaning ≠ .free) :
    after.any (Mention.hasMeaning meaning) = before.any (Mention.hasMeaning meaning) := by
  have kept : ∀ name, .used name meaning false ∈ outward after ↔
      .used name meaning false ∈ outward before := by
    intro name
    rw [same]
    refine mem_flatMap_spread fun other writes isFree => notFree ?_
    cases isFree
    rfl
  rw [Bool.eq_iff_iff, any_hasMeaning_iff isOuter, any_hasMeaning_iff isOuter]
  simp only [kept]

namespace FunctionDef

open Replacements

theorem mem_unbound_replace {definition : FunctionDef} {replacements : Replacements}
    (same : outward (definition.replace replacements).mentions =
      (outward definition.mentions).flatMap replacements.spread) :
    name ∈ (definition.replace replacements).facts.unbound.map (·.1) ↔
      ∃ other ∈ definition.facts.unbound.map (·.1), name ∈ replacements.variablesFor other := by
  rw [mem_unbound_iff, same, free_mem_flatMap_spread]
  constructor
  · rintro ⟨other, writes, isFree, isVariable⟩
    obtain rfl := writes_of_mem_outward isFree
    exact ⟨other, mem_unbound_iff.mpr isFree, isVariable⟩
  · rintro ⟨other, isFree, isVariable⟩
    exact ⟨other, false, mem_unbound_iff.mp isFree, isVariable⟩

/-- Replacing substitutes the free names, without capture. Let only names be replaced, by accesses
whose variables do not occur in the function, are not `arguments` and not the temporary of loops,
which does not occur in the function either. Then a name is free in the result if it is free in the
function and not replaced, or is a variable of the replacement of a free name; and the uses of
`this`, of `arguments` and of the function itself stay. -/
theorem facts_replace (definition : FunctionDef) (replacements : Replacements)
    (noModules : replacements.modules = [])
    (accesses : ∀ name value, replacements.names.lookup name = some value → value.IsAccess)
    (fresh : ∀ name value, replacements.names.lookup name = some value →
      ∀ used ∈ value.usedNames true,
        used ∉ definition.facts.identifiers ∧ used ≠ "arguments" ∧ used ≠ loopTemporary)
    (noTemporary : loopTemporary ∉ definition.facts.identifiers) :
    (∀ name, name ∈ (definition.replace replacements).facts.unbound.map (·.1) ↔
      (name ∈ definition.facts.unbound.map (·.1) ∧ replacements.names.lookup name = none) ∨
        ∃ other ∈ definition.facts.unbound.map (·.1), ∃ value,
          replacements.names.lookup other = some value ∧ name ∈ value.usedNames true) ∧
    (definition.replace replacements).facts.usesThis = definition.facts.usesThis ∧
    (definition.replace replacements).facts.usesArguments = definition.facts.usesArguments ∧
    (definition.replace replacements).facts.selfReference = definition.facts.selfReference := by
  have plain : replacements.ArePlain := by
    refine ⟨noModules, accesses, ?_⟩
    rintro ⟨name, value, found, member⟩
    exact (fresh name value found _ member).2.2 rfl
  have avoids : replacements.Avoids definition.mentions := by
    intro mention member name isName
    have isIdentifier : name ∈ definition.facts.identifiers :=
      NameSet.mem_ofList.mpr (List.mem_filterMap.mpr ⟨mention, member, isName⟩)
    refine ⟨fun isTemporary => noTemporary (isTemporary ▸ isIdentifier), ?_⟩
    rintro ⟨other, value, found, isPut⟩
    exact (fresh other value found name isPut).1 isIdentifier
  have leads : replacements.Leads definition.surroundings definition.surroundings := by
    refine ⟨.refl _, ?_⟩
    rintro name ⟨other, value, found, isPut⟩
    obtain ⟨unused, different, _⟩ := fresh other value found name isPut
    exact meaning_surroundings_of_not_identifier unused different
  have same := outward_replace plain avoids leads
  refine ⟨?_, ?_, any_hasMeaning_eq same (by decide) (by decide),
    any_hasMeaning_eq same (by decide) (by decide)⟩
  · intro name
    rw [mem_unbound_replace same]
    constructor
    · rintro ⟨other, isFree, isVariable⟩
      unfold variablesFor at isVariable
      cases found : replacements.names.lookup other with
      | none =>
        rw [found] at isVariable
        obtain rfl := List.mem_singleton.mp isVariable
        exact .inl ⟨isFree, found⟩
      | some value =>
        rw [found] at isVariable
        exact .inr ⟨other, isFree, value, found, isVariable⟩
    · rintro (⟨isFree, missing⟩ | ⟨other, isFree, value, found, isVariable⟩)
      · exact ⟨name, isFree, by simp [variablesFor, missing]⟩
      · exact ⟨other, isFree, by simpa [variablesFor, found] using isVariable⟩
  · have kept : .thisRef ∈ outward (definition.replace replacements).mentions ↔
        .thisRef ∈ outward definition.mentions := by
      rw [same]
      exact mem_flatMap_spread (by simp)
    exact Bool.eq_iff_iff.mpr (any_thisRef_iff.trans (kept.trans any_thisRef_iff.symm))

/-- A function with a loop over `x` and a function inside that hides it, where `x` is replaced by a
slot and `y` by a variable. -/
theorem facts_replace_loop :
    let hides : FunctionDef := { params := [.plain "x"], body := [.returnValue (some (.var "x"))] }
    let definition : FunctionDef :=
      { name := some "f"
        body := [.forOf "x" false (.var "y")
          [.expr (.function hides), .expr (.call (.var "f") [])]] }
    let replacements : Replacements :=
      { names := [("x", .index (.var "__scope_0") (.nat 1)), ("y", .var "_3")] }
    (∀ name, name ∈ (definition.replace replacements).facts.unbound.map (·.1) ↔
      name ∈ ["__scope_0", "_3"]) ∧
    (definition.replace replacements).facts.selfReference = true := by
  intro hides definition replacements
  have free : definition.facts.unbound.map (·.1) = ["y", "x"] := by decide
  have identifiers : definition.facts.identifiers = ["arguments", "f", "x", "y"] := by decide
  have entries : ∀ name value, replacements.names.lookup name = some value →
      name = "x" ∧ value = .index (.var "__scope_0") (.nat 1) ∨ name = "y" ∧ value = .var "_3" := by
    intro name value found
    simp only [replacements, List.lookup_cons, List.lookup_nil] at found
    grind
  obtain ⟨unbound, -, -, self⟩ := facts_replace definition replacements rfl
    (by
      intro name value found
      rcases entries name value found with ⟨-, rfl⟩ | ⟨-, rfl⟩
      · exact .index (.var _) (.literal _)
      · exact .var _)
    (by
      intro name value found
      rw [identifiers]
      rcases entries name value found with ⟨-, rfl⟩ | ⟨-, rfl⟩ <;>
        simp [Expr.usedNames, Expr.nat, loopTemporary])
    (by simp [identifiers, loopTemporary])
  constructor
  · intro name
    rw [unbound name, free]
    simp only [replacements, List.mem_cons, List.not_mem_nil, or_false, List.lookup_cons, Expr.nat,
      List.lookup_nil, exists_eq_or_imp, String.reduceBEq, BEq.rfl, Option.some.injEq,
      exists_eq_left', Expr.usedNames, exists_eq_left, List.append_nil]
    grind
  · rw [self]
    decide

end FunctionDef

end HeapScript
