import HeapScript.Proofs.Assembly.Replacements
import HeapScript.Proofs.FreeNames.Meanings

/-!
What a plan for a factory says of the closures that share it.

A name in the plan is captured in all closures, and a free name that is not in the plan is global in
all of them. The value of a baked name is that of each closure, but for the sign of a zero.
-/

namespace HeapScript

open List

variable {value : Expr} {number : Nat}

/-! ## Neighbours -/

/-- What holds between neighbours and can be chained holds between the first item and all. -/
theorem first_of_allNeighbours {α : Type} {related : α → α → Bool} (Same : α → α → Prop)
    (refl : ∀ item, Same item item)
    (trans : ∀ left middle right, Same left middle → Same middle right → Same left right)
    {first : α} {items : List α}
    (same : ∀ left ∈ first :: items, ∀ right ∈ first :: items, related left right = true →
      Same left right)
    (neighbours : allNeighbours related (first :: items) = true) :
    ∀ item ∈ first :: items, Same first item := by
  induction items generalizing first with
  | nil =>
    intro item member
    rw [mem_singleton.mp member]
    exact refl first
  | cons second items induction =>
    simp only [allNeighbours, Bool.and_eq_true] at neighbours
    have next : Same first second := same first (by simp) second (by simp) neighbours.1
    have rest := induction (fun left member right member' =>
      same left (mem_cons_of_mem _ member) right (mem_cons_of_mem _ member'))
      neighbours.2
    intro item member
    rcases mem_cons.mp member with rfl | member
    · exact refl item
    · exact trans first second item next (rest item member)

theorem related_of_getElem? {α β : Type} {Related : α → β → Prop} {items : List α}
    {others : List β} (related : List.Forall₂ Related items others) {item : α} {other : β}
    (isItem : items[number]? = some item) (isOther : others[number]? = some other) :
    Related item other := by
  obtain ⟨bound, rfl⟩ := List.getElem?_eq_some_iff.mp isItem
  obtain ⟨bound', rfl⟩ := List.getElem?_eq_some_iff.mp isOther
  exact related.get bound bound'

/-! ## Entries of a plan -/

namespace FactoryPlan

variable {plan : FactoryPlan} {name : String}

theorem mem_bakedNames :
    (name, value) ∈ plan.bakedNames ↔ (name, NamePlan.baked value) ∈ plan.names := by
  simp only [bakedNames, mem_filterMap]
  constructor
  · rintro ⟨⟨other, choice⟩, member, found⟩
    cases choice with
    | baked _ => simp_all
    | varying _ => simp at found
  · intro member
    exact ⟨(name, .baked value), member, rfl⟩

theorem mem_map_bakedNames :
    name ∈ plan.bakedNames.map (·.1) ↔ ∃ value, (name, NamePlan.baked value) ∈ plan.names := by
  simp only [mem_map, Prod.exists, exists_and_right, exists_eq_right, mem_bakedNames]

theorem mem_varyingNames :
    name ∈ plan.varyingNames ↔ ∃ args, (name, NamePlan.varying args) ∈ plan.names := by
  simp only [varyingNames, mem_filterMap]
  constructor
  · rintro ⟨⟨other, choice⟩, member, found⟩
    cases choice with
    | baked _ => simp at found
    | varying args => exact ⟨args, by simp_all⟩
  · rintro ⟨args, member⟩
    exact ⟨(name, .varying args), member, rfl⟩

theorem varyingNames_sublist (plan : FactoryPlan) :
    plan.varyingNames.Sublist (plan.names.map (·.1)) := by
  unfold varyingNames
  induction plan.names with
  | nil => exact .slnil
  | cons entry names induction =>
    obtain ⟨name, choice⟩ := entry
    cases choice with
    | baked _ => exact .cons _ (by simpa using induction)
    | varying _ => exact .cons_cons _ (by simpa using induction)

/-- The arguments of a closure stand in the order of the varying names. -/
theorem forall₂_argsOf
    (long : ∀ name args, (name, NamePlan.varying args) ∈ plan.names → number < args.length) :
    List.Forall₂ (fun name arg => ∃ args, (name, NamePlan.varying args) ∈ plan.names ∧
      args[number]? = some arg) plan.varyingNames (plan.argsOf number) := by
  have entries : ∀ names : List (String × NamePlan), names ⊆ plan.names →
      List.Forall₂ (fun name arg => ∃ args, (name, NamePlan.varying args) ∈ plan.names ∧
        args[number]? = some arg)
        { plan with names }.varyingNames ({ plan with names }.argsOf number) := by
    intro names subset
    unfold varyingNames argsOf at *
    induction names with
    | nil => exact .nil
    | cons entry names induction =>
      have rest := induction (subset_of_cons_subset subset)
      obtain ⟨name, choice⟩ := entry
      have member : (name, choice) ∈ plan.names := subset mem_cons_self
      cases choice with
      | baked _ => simpa using rest
      | varying args =>
        have found := List.getElem?_eq_getElem (long name args member)
        simp only [filterMap_cons, found]
        exact .cons ⟨args, member, found⟩ rest
  exact entries plan.names (List.Subset.refl _)

end FactoryPlan

namespace Written

variable {written : Written} {instances : List FunctionInstance} {name : String}
  {resolved : List ResolvedName} {results : List (Option ResolvedName)}

/-! ## Names of a plan -/

def ResolvesAll (written : Written) (instances : List FunctionInstance) (name : String)
    (resolved : List ResolvedName) : Prop :=
  List.Forall₂ (fun inst found => written.replacementFor inst name = .ok (some found.value) ∧
    found.binding = written.bindingOf? inst name) instances resolved

def IsGlobal (written : Written) (instances : List FunctionInstance) (name : String) : Prop :=
  ∀ inst ∈ instances, written.replacementFor inst name = .ok none

inductive Planned (written : Written) (instances : List FunctionInstance) :
    List String → List (String × NamePlan) → Prop where
  | nil : Planned written instances [] []
  | global {name : String} {names : List String} {plans : List (String × NamePlan)}
      (isGlobal : written.IsGlobal instances name) (rest : Planned written instances names plans) :
      Planned written instances (name :: names) plans
  | captured {name : String} {names : List String} {plans : List (String × NamePlan)}
      {resolved : List ResolvedName} {choice : NamePlan}
      (resolves : written.ResolvesAll instances name resolved)
      (isChoice : written.planCaptured resolved = some choice)
      (rest : Planned written instances names plans) :
      Planned written instances (name :: names) ((name, choice) :: plans)

section

variable (found : written.resolveName instances name = .ok results)

include found

theorem forall₂_of_resolveName :
    List.Forall₂ (fun inst result => ∃ replacement,
      written.replacementFor inst name = .ok replacement ∧
      result = replacement.map fun value => ⟨value, written.bindingOf? inst name⟩)
      instances results := by
  refine (mapM_eq_ok.mp found).imp fun inst result isResult => ?_
  obtain ⟨replacement, isReplacement, same⟩ := bind_eq_ok.mp isResult
  exact ⟨replacement, isReplacement, (pure_eq_ok.mp same).symm⟩

theorem isGlobal_of_resolveName (none_ : results.all Option.isNone = true) :
    written.IsGlobal instances name := by
  have pairs := forall₂_of_resolveName found
  clear found
  intro inst member
  induction pairs with
  | nil => cases member
  | cons first rest induction =>
    simp only [all_cons, Bool.and_eq_true] at none_
    rcases mem_cons.mp member with rfl | member
    · obtain ⟨replacement, isReplacement, rfl⟩ := first
      cases replacement with
      | none => exact isReplacement
      | some _ => simp at none_
    · exact induction none_.2 member

theorem resolvesAll_of_resolveName (all : results.mapM id = some resolved) :
    written.ResolvesAll instances name resolved := by
  have pairs := forall₂_of_resolveName found
  clear found
  induction pairs generalizing resolved with
  | nil =>
    obtain rfl : resolved = [] := by simpa using all.symm
    exact .nil
  | cons first rest induction =>
    simp only [List.mapM_cons, id_eq, Option.bind_eq_bind, Option.bind_eq_some_iff] at all
    obtain ⟨item, isItem, others, areOthers, same⟩ := all
    obtain rfl : resolved = item :: others := by simpa using same.symm
    obtain ⟨replacement, isReplacement, isResult⟩ := first
    refine .cons ?_ (induction areOthers)
    rw [isItem] at isResult
    obtain ⟨value, rfl, rfl⟩ := Option.map_eq_some_iff.mp isResult.symm
    exact ⟨isReplacement, rfl⟩

end

theorem planned_of_planNames {names : List String} {plans : List (String × NamePlan)}
    (found : written.planNames instances names = .ok (some plans)) :
    written.Planned instances names plans := by
  induction names generalizing plans with
  | nil =>
    obtain rfl : [] = plans := Option.some.inj (pure_eq_ok.mp found)
    exact .nil
  | cons name names induction =>
    obtain ⟨results, isResolved, found⟩ := bind_eq_ok.mp found
    split at found
    · rename_i none_
      exact .global (isGlobal_of_resolveName isResolved none_) (induction found)
    · split at found
      · simp [pure_eq_ok] at found
      · rename_i choice isChoice
        obtain ⟨resolved, all, isChoice⟩ := Option.bind_eq_some_iff.mp isChoice
        obtain ⟨rest, isRest, same⟩ := bind_eq_ok.mp found
        obtain ⟨others, rfl, rfl⟩ := Option.map_eq_some_iff.mp (pure_eq_ok.mp same)
        exact .captured (resolvesAll_of_resolveName isResolved all) isChoice (induction isRest)

namespace Planned

variable {names : List String} {plans : List (String × NamePlan)}

theorem sublist (planned : written.Planned instances names plans) :
    (plans.map (·.1)).Sublist names := by
  induction planned with
  | nil => exact .slnil
  | global _ _ induction => exact .cons _ induction
  | captured _ _ _ induction => exact .cons_cons _ induction

theorem of_mem (planned : written.Planned instances names plans) {choice : NamePlan}
    (member : (name, choice) ∈ plans) : ∃ resolved,
      written.ResolvesAll instances name resolved ∧
        written.planCaptured resolved = some choice := by
  induction planned with
  | nil => cases member
  | global _ _ induction => exact induction member
  | captured resolves isChoice _ induction =>
    rcases mem_cons.mp member with same | member
    · cases same
      exact ⟨_, resolves, isChoice⟩
    · exact induction member

theorem isGlobal (planned : written.Planned instances names plans) (member : name ∈ names)
    (missing : name ∉ plans.map (·.1)) : written.IsGlobal instances name := by
  induction planned with
  | nil => cases member
  | global isGlobal _ induction =>
    rcases mem_cons.mp member with rfl | member
    · exact isGlobal
    · exact induction member missing
  | captured _ _ _ induction =>
    simp only [map_cons, mem_cons, not_or] at missing
    rcases mem_cons.mp member with rfl | member
    · exact absurd rfl missing.1
    · exact induction member missing.2

end Planned

/-! ## Baked and varying names -/

inductive Chosen (written : Written) (resolved : List ResolvedName) : NamePlan → Prop where
  | bakedShared {first : ResolvedName} {others : List ResolvedName}
      (isFirst : resolved = first :: others)
      (agree : allNeighbours (fun left right => left.value.sameReference right.value) resolved =
        true) :
      Chosen written resolved (.baked first.value)
  | baked {first : ResolvedName} {others : List ResolvedName} (isFirst : resolved = first :: others)
      (notShared : ∀ item ∈ resolved, item.isShared = false)
      (agree : allNeighbours ResolvedName.agrees resolved = true) :
      Chosen written resolved (.baked first.value)
  | varying (notShared : ∀ item ∈ resolved, item.isShared = false) :
      Chosen written resolved (.varying (resolved.map written.factoryArg))

theorem chosen_of_planCaptured {choice : NamePlan}
    (found : written.planCaptured resolved = some choice) : written.Chosen resolved choice := by
  unfold planCaptured at found
  by_cases shared : resolved.any (·.isShared) = true
  · simp only [shared, if_true] at found
    split at found
    · rename_i first others agree
      obtain rfl := Option.some.inj found
      exact .bakedShared rfl agree
    · cases found
  · have notShared : ∀ item ∈ resolved, item.isShared = false := by simpa using shared
    simp only [shared] at found
    split at found
    · rename_i first others agree
      obtain rfl := Option.some.inj found
      exact .baked rfl notShared agree
    · obtain rfl := Option.some.inj found
      exact .varying notShared

theorem ResolvesAll.of_mem (resolves : written.ResolvesAll instances name resolved)
    {found : ResolvedName} (member : found ∈ resolved) : ∃ inst ∈ instances, ∃ key binding,
      written.Resolves inst name key binding found.value ∧ found.binding = some binding := by
  obtain ⟨inst, isInst, known⟩ := exists_related resolves.flip member
  obtain ⟨key, binding, resolves⟩ := resolves_of_replacementFor known.1
  exact ⟨inst, isInst, key, binding, resolves, known.2.trans (bindingOf?_of_resolves resolves)⟩

theorem Chosen.exists_mem (chosen : written.Chosen resolved (.baked value)) :
    ∃ found ∈ resolved, found.value = value := by
  cases chosen with
  | bakedShared isFirst _ => exact ⟨_, isFirst ▸ mem_cons_self, rfl⟩
  | baked isFirst _ _ => exact ⟨_, isFirst ▸ mem_cons_self, rfl⟩

/-- Closures that agree on a name have the same value for it, but for the sign of a zero. -/
theorem sameUpToZeros_of_agrees (complete : written.Complete) {inst inst' : FunctionInstance}
    {key key' : BindingKey} {binding binding' : Binding} {left right : ResolvedName}
    (resolves : written.Resolves inst name key binding left.value)
    (resolves' : written.Resolves inst' name key' binding' right.value)
    (isBinding : left.binding = some binding) (isBinding' : right.binding = some binding')
    (notShared : left.isShared = false) (notShared' : right.isShared = false)
    (agrees : left.agrees right = true) : left.value.SameUpToZeros right.value := by
  simp only [ResolvedName.agrees, Bool.or_eq_true] at agrees
  rcases agrees with sameValue | sameReference
  · have direct := resolves.direct (by simpa [ResolvedName.isShared, isBinding] using notShared)
    have direct' := resolves'.direct (by simpa [ResolvedName.isShared, isBinding'] using notShared')
    simp only [ResolvedName.sameHeapValue, isBinding, isBinding', Option.bind_some] at sameValue
    split at sameValue
    · rename_i id other isValue isOther
      obtain rfl : id = other := eq_of_beq sameValue
      have denotes := (denotes_of_direct complete resolves.isMet direct).1 id isValue
      have denotes' := (denotes_of_direct complete resolves'.isMet direct').1 id isOther
      exact .inl (denotes.unique denotes')
    · cases sameValue
  · exact (resolves.isReference complete).sameUpToZeros
      (resolves'.isReference complete) sameReference

theorem ResolvesAll.sameUpToZeros (complete : written.Complete)
    (resolves : written.ResolvesAll instances name resolved)
    (chosen : written.Chosen resolved (.baked value)) :
    ∀ found ∈ resolved, value.SameUpToZeros found.value := by
  cases chosen with
  | bakedShared isFirst agree =>
    subst isFirst
    refine first_of_allNeighbours (fun left right => left.value.SameUpToZeros right.value)
      (fun _ => .inl rfl) (fun _ _ _ => .trans) (fun left member right member' same => ?_) agree
    obtain ⟨_, _, _, _, known, _⟩ := resolves.of_mem member
    obtain ⟨_, _, _, _, known', _⟩ := resolves.of_mem member'
    exact (known.isReference complete).sameUpToZeros (known'.isReference complete) same
  | baked isFirst notShared agree =>
    subst isFirst
    refine first_of_allNeighbours (fun left right => left.value.SameUpToZeros right.value)
      (fun _ => .inl rfl) (fun _ _ _ => .trans) (fun left member right member' same => ?_) agree
    obtain ⟨_, _, _, _, known, isBinding⟩ := resolves.of_mem member
    obtain ⟨_, _, _, _, known', isBinding'⟩ := resolves.of_mem member'
    exact sameUpToZeros_of_agrees complete known known' isBinding isBinding'
      (notShared left member) (notShared right member') same

/-! ## Whole plans -/

variable {code : CodeBlock} {first : FunctionInstance} {plan : FactoryPlan}

/-- What is known of a plan for the closures of a code block. -/
structure PlanFacts (written : Written) (code : CodeBlock) (first : FunctionInstance)
    (instances : List FunctionInstance) (plan : FactoryPlan) : Prop where
  placement : plan.placement = first.root
  modules : plan.modules = first.modules
  sameModules : ∀ inst ∈ instances, sameModules inst.modules first.modules = true
  scopeCount : plan.scopeCount = first.scopes.length
  sameLength : ∀ inst ∈ instances, inst.scopes.length = first.scopes.length
  sameOwners : ∀ inst ∈ instances, written.sameOwners inst first = .ok true
  names : ∃ captured own, plan.names = captured ++ own ∧
    written.Planned instances (code.function.facts.unbound.map (·.1)) captured ∧
    planOwnName code code.function.facts instances = some own

theorem planFacts_of_planFactory {others : List FunctionInstance}
    (found : written.planFactory code code.function.facts (first :: others) = .ok (some plan)) :
    written.PlanFacts code first (first :: others) plan := by
  simp only [planFactory] at found
  split at found
  · simp [pure_eq_ok] at found
  · rename_i same
    obtain ⟨sameScopes, areSame, found⟩ := bind_eq_ok.mp found
    split at found
    swap
    · simp [pure_eq_ok] at found
    rename_i isSame
    subst isSame
    obtain ⟨names, isPlanned, found⟩ := bind_eq_ok.mp found
    split at found
    · simp [pure_eq_ok] at found
    rename_i captured
    obtain ⟨own, isOwn, rfl⟩ := Option.map_eq_some_iff.mp (pure_eq_ok.mp found)
    have scopes : ∀ inst ∈ first :: others, inst.scopes.length = first.scopes.length ∧
        written.sameOwners inst first = .ok true := by
      intro inst member
      have isSame := allM_eq_ok_true.mp areSame inst member
      split at isSame
      · rename_i sameLength
        exact ⟨sameLength, isSame⟩
      · simp [pure_eq_ok] at isSame
    refine ⟨rfl, rfl, fun inst member => ?_, rfl, fun inst member => (scopes inst member).1,
      fun inst member => (scopes inst member).2,
      captured, own, rfl, planned_of_planNames isPlanned, isOwn⟩
    simp only [any_eq_true, not_exists, not_and, Bool.or_eq_true, not_or] at same
    simpa using (same inst member).2

/-- The argument that a closure passes for a varying name: itself for the block's own name, and
otherwise what its copy of the code would have in the place of the name. -/
def PassesFor (written : Written) (code : CodeBlock) (inst : FunctionInstance) (name : String)
    (value : Expr) : Prop :=
  if code.function.facts.selfReference = true ∧ code.function.name = some name then
    value = .var inst.name
  else written.replacementFor inst name = .ok (some value)

/-- The block's own name is in the plan if the block refers to itself. -/
theorem planOwnName_cases {own : List (String × NamePlan)}
    (isOwn : planOwnName code code.function.facts instances = some own) :
    code.function.facts.selfReference = false ∧ own = [] ∨
      code.function.facts.selfReference = true ∧ ∃ name, code.function.name = some name ∧
        own = [(name, .varying
          (instances.map fun inst => { value := .var inst.name, risky := true }))] := by
  unfold planOwnName at isOwn
  split at isOwn
  · rename_i refers
    obtain ⟨name, isName, rfl⟩ := Option.map_eq_some_iff.mp isOwn
    exact .inr ⟨refers, name, isName, rfl⟩
  · rename_i refers
    exact .inl ⟨by simpa using refers, (Option.some.inj isOwn).symm⟩

namespace PlanFacts

variable {args : List FactoryArg}

theorem baked (facts : written.PlanFacts code first instances plan)
    (member : (name, NamePlan.baked value) ∈ plan.names) :
    name ∈ code.function.facts.unbound.map (·.1) ∧ ∃ resolved,
      written.ResolvesAll instances name resolved ∧ written.Chosen resolved (.baked value) := by
  obtain ⟨captured, own, isNames, planned, isOwn⟩ := facts.names
  rw [isNames] at member
  rcases mem_append.mp member with member | member
  · obtain ⟨resolved, resolves, isChoice⟩ := planned.of_mem member
    exact ⟨planned.sublist.subset (mem_map_of_mem member), resolved, resolves,
      chosen_of_planCaptured isChoice⟩
  · rcases planOwnName_cases isOwn with ⟨_, rfl⟩ | ⟨_, _, _, rfl⟩
    · cases member
    · simp at member

/-- What a varying name stands for in each closure. -/
inductive Varies (written : Written) (code : CodeBlock) (instances : List FunctionInstance)
    (name : String) : List FactoryArg → Prop where
  | captured {resolved : List ResolvedName}
      (isFree : name ∈ code.function.facts.unbound.map (·.1))
      (resolves : written.ResolvesAll instances name resolved)
      (notShared : ∀ found ∈ resolved, found.isShared = false) :
      Varies written code instances name (resolved.map written.factoryArg)
  | itself (refers : code.function.facts.selfReference = true)
      (isName : code.function.name = some name) :
      Varies written code instances name
        (instances.map fun inst => { value := .var inst.name, risky := true })

section

variable (facts : written.PlanFacts code first instances plan)

include facts

theorem varying (member : (name, NamePlan.varying args) ∈ plan.names) :
    Varies written code instances name args := by
  obtain ⟨captured, own, isNames, planned, isOwn⟩ := facts.names
  rw [isNames] at member
  rcases mem_append.mp member with member | member
  · obtain ⟨resolved, resolves, isChoice⟩ := planned.of_mem member
    have isFree := planned.sublist.subset (mem_map_of_mem member)
    cases chosen_of_planCaptured isChoice with
    | varying notShared => exact .captured isFree resolves notShared
  · rcases planOwnName_cases isOwn with ⟨_, rfl⟩ | ⟨refers, _, isName, rfl⟩
    · cases member
    · simp only [mem_singleton, Prod.mk.injEq, NamePlan.varying.injEq] at member
      obtain ⟨rfl, rfl⟩ := member
      exact .itself refers isName

theorem nodup : (plan.names.map (·.1)).Nodup := by
  obtain ⟨captured, own, isNames, planned, isOwn⟩ := facts.names
  have distinct := planned.sublist.nodup code.function.nodup_unbound
  rw [isNames, map_append]
  rcases planOwnName_cases isOwn with ⟨_, rfl⟩ | ⟨refers, name, isName, rfl⟩
  · simpa using distinct
  · obtain ⟨-, -, notFree⟩ := FunctionDef.ownName_of_selfReference refers isName
    refine nodup_append.mpr ⟨distinct, by simp, ?_⟩
    intro other member _ isOwn same
    obtain rfl := mem_singleton.mp isOwn
    exact notFree (same ▸ planned.sublist.subset member)

theorem not_mem_boundNames (member : name ∈ plan.names.map (·.1)) :
    name ∉ code.function.boundNames := by
  obtain ⟨⟨_, choice⟩, planned, rfl⟩ := mem_map.mp member
  cases choice with
  | baked value => exact FunctionDef.not_mem_boundNames_of_unbound (facts.baked planned).1
  | varying args =>
    cases facts.varying planned with
    | captured isFree _ _ => exact FunctionDef.not_mem_boundNames_of_unbound isFree
    | itself refers isName =>
      obtain ⟨-, notBound, -⟩ := FunctionDef.ownName_of_selfReference refers isName
      exact notBound

end

theorem Varies.length_eq (varies : Varies written code instances name args) :
    args.length = instances.length := by
  cases varies with
  | captured _ resolves _ => simpa using resolves.length_eq.symm
  | itself _ _ => simp

theorem Varies.passesFor (varies : Varies written code instances name args)
    {inst : FunctionInstance} {arg : FactoryArg} (isInstance : instances[number]? = some inst)
    (isArg : args[number]? = some arg) : written.PassesFor code inst name arg.value := by
  unfold PassesFor
  cases varies with
  | captured isFree resolves _ =>
    have different : ¬(code.function.facts.selfReference = true ∧
        code.function.name = some name) := by
      rintro ⟨refers, isName⟩
      obtain ⟨-, -, notFree⟩ := FunctionDef.ownName_of_selfReference refers isName
      exact notFree isFree
    rw [if_neg different]
    rw [List.getElem?_map, Option.map_eq_some_iff] at isArg
    obtain ⟨found, isFound, rfl⟩ := isArg
    exact (related_of_getElem? resolves isInstance isFound).1
  | itself refers isName =>
    rw [if_pos ⟨refers, isName⟩]
    simp only [List.getElem?_map, isInstance, Option.map_some, Option.some.injEq] at isArg
    rw [← isArg]

end PlanFacts

end Written

end HeapScript
