import HeapScript.Proofs.Session.Housing
import HeapScript.Proofs.Session.Naming

/-!
What the definition of a function carries with it.

The flag for the first call and the aliases of the `prototype` follow the definition at once: each
`prototype` object that has been reached has one alias, with its owner. A member of a class knows
its place in the class. With that all is said that every step of a session keeps.
-/

namespace HeapScript

open List

def CapturedScopes.SlotsRefer (captured : CapturedScopes) : Prop :=
  ∀ found ∈ captured.scopes.values, ∀ value ∈ found.slots.values, value.IsReference

def FunctionInstance.extraNames (inst : FunctionInstance) : List String :=
  inst.extras.flatMap Stmt.declares

namespace Session

variable {id target : ValueId}

theorem extraNames_addAlias (name ownerName : String) (inst : FunctionInstance) :
    (addAlias name ownerName inst).extraNames = inst.extraNames ++ [name] := by
  simp [FunctionInstance.extraNames, addAlias, Stmt.var, Stmt.declares]

variable {context : Context} {before after session : Session}

/-- A statement that follows the definition of a function. -/
inductive Extra (context : Context) (session : Session) (id : ValueId) : Stmt → Prop where
  | flag (number : Nat) : Extra context session id (.declare .var s!"__init_{number}" none)
  | alias {object : ValueId} {value : ObjectValue} {name ownerName : String}
      (isObject : context.graph.values.get? object = some (.object value))
      (owned : context.Owned object id) (named : session.identifiers.get? object = some name) :
      Extra context session id (.var name (.member (.var ownerName) "prototype"))

theorem Extra.of_extends {stmt : Stmt} (extra : Extra context before id stmt)
    (extends_ : Extends before after) : Extra context after id stmt := by
  cases extra with
  | flag number => exact .flag number
  | «alias» isObject owned named => exact .alias isObject owned (extends_.identifiers _ _ named)

/-- All that a step does to what follows the definitions, unless it reaches a `prototype`. -/
structure KeepsAliases (context : Context) (before after : Session) : Prop where
  reached : ∀ object value owner, context.graph.values.get? object = some (.object value) →
    context.Owned object owner →
    after.identifiers.get? object = before.identifiers.get? object
  extras : ∀ id later, after.instances.get? id = some later →
    later.extras = [] ∧ before.identifiers.get? id = none ∨
    ∃ inst, before.instances.get? id = some inst ∧ (later.extras = inst.extras ∨
      ∃ number : Nat, later.extras = .declare .var s!"__init_{number}" none :: inst.extras)

namespace KeepsAliases

theorem of_eq (sameNames : after.identifiers = before.identifiers)
    (sameInstances : after.instances = before.instances) : KeepsAliases context before after where
  reached _ _ _ _ _ := by rw [sameNames]
  extras _ later found := .inr ⟨later, sameInstances ▸ found, .inl rfl⟩

theorem of_changing {change : FunctionInstance → FunctionInstance}
    (isChanged : after.instances = (before.changing target change).instances)
    (sameNames : after.identifiers = before.identifiers)
    (same : ∀ inst, (change inst).extras = inst.extras) :
    KeepsAliases context before after where
  reached _ _ _ _ _ := by rw [sameNames]
  extras id later found := by
    obtain ⟨inst, isInstance, rfl | ⟨rfl, rfl⟩⟩ := instances_changing (isChanged ▸ found)
    · exact .inr ⟨later, isInstance, .inl rfl⟩
    · exact .inr ⟨inst, isInstance, .inl (same inst)⟩

theorem of_allocating {object : ObjectValue} (constructs : context.Constructs target object)
    (sameNames : after.identifiers = (before.allocating target).identifiers)
    (sameInstances : after.instances = before.instances) : KeepsAliases context before after where
  reached other _ owner _ owned := by
    have different : other ≠ target := by
      rintro rfl
      simp [Context.Owned, constructs.notOwned] at owned
    rw [sameNames, allocating, SideTable.get?_insert, if_neg different]
  extras _ later found := .inr ⟨later, sameInstances ▸ found, .inl rfl⟩

end KeepsAliases

theorem Step.alias_cases (step : Step context before after) :
    KeepsAliases context before after ∨ ∃ id owner object inst ownerName,
      context.IsObject id object ∧ context.Owned id owner ∧
      before.identifiers.get? id = none ∧ before.instances.get? owner = some inst ∧
      after = before.reachingAlias id owner ownerName := by
  cases step
  case reachAlias isObject unknown owned isNew declares hasOwner ownerNamed =>
      obtain ⟨inst, isInstance⟩ := hasOwner
      exact .inr ⟨_, _, _, inst, _, isObject, owned, isNew, isInstance, rfl⟩
  case reachObject constructs isNew declares => exact .inl (.of_allocating constructs rfl rfl)
  case reachDelayed constructs isDelayed isNew declares home isOpen isBody =>
      refine .inl (.of_allocating constructs ?_ (instances_delaying _ _))
      simp [reachingDelayed, starting, entering, declaringDelayed, emitting]
  case declareReached | constructDelayed =>
      cases ‹Option (ValueId × Expr)› <;> exact .inl (.of_eq rfl rfl)
  case reachFunction target function isFunction isNew declares =>
      refine .inl ⟨fun other value _ isObject _ => ?_, fun id later found => ?_⟩
      · have different : other ≠ target := by
          rintro rfl
          simp [isFunction] at isObject
        simp [reachingFunction, starting, allocating, SideTable.get?_insert, different]
      · simp only [reachingFunction, KeyedTable.get?_insert] at found
        split at found
        · rename_i same
          subst same
          cases found
          exact .inl ⟨rfl, isNew⟩
        · exact .inr ⟨later, found, .inl rfl⟩
  case use id =>
      refine .inl (.of_changing rfl rfl fun inst => ?_)
      split <;> rfl
  case adjust adjusts => exact .inl (.of_changing rfl rfl fun inst => (adjusts.keeps inst).2.2.1)
  case place id _ _ _ _ _ _ _ _ _ _ =>
      have isChanged : ((before.placing id).finishing id).instances =
          (before.changing id fun found => { found with
            insertionPoint := some before.bodies.position
            serial := before.serial }).instances := rfl
      exact .inl (.of_changing isChanged rfl fun _ => rfl)
  case attachDelayed id body delayed =>
      refine .inl ⟨fun _ _ _ _ _ => rfl, fun other later found => ?_⟩
      obtain ⟨inst, isInstance, rfl | ⟨rfl, rfl⟩⟩ := instances_changing found
      · exact .inr ⟨later, isInstance, .inl rfl⟩
      · exact .inr ⟨inst, isInstance, .inr ⟨_, rfl⟩⟩
  all_goals exact .inl (.of_eq rfl rfl)

theorem instances_reachingAlias (session : Session) (id owner : ValueId) (ownerName : String) :
    (session.reachingAlias id owner ownerName).instances =
      (session.changing owner (addAlias session.names.generate.1 ownerName)).instances := by
  unfold reachingAlias
  split <;> rfl

theorem identifiers_reachingAlias (session : Session) (id owner : ValueId) (ownerName : String) :
    (session.reachingAlias id owner ownerName).identifiers =
      (session.allocating id).identifiers := by
  unfold reachingAlias
  split <;> rfl

structure Equipped (context : Context) (session : Session) : Prop where
  extras : ∀ id inst, session.instances.get? id = some inst →
    ∀ stmt ∈ inst.extras, Extra context session id stmt
  aliases : ∀ object value name owner,
    context.graph.values.get? object = some (.object value) → context.Owned object owner →
    session.identifiers.get? object = some name →
    ∃ inst, session.instances.get? owner = some inst ∧ inst.extraNames.count name = 1
  methods : ∀ id inst place, session.instances.get? id = some inst → inst.method = some place →
    ∃ function method superClass, context.graph.values.get? id = some (.function function) ∧
      function.classMethod = some method ∧ place = methodInstance method superClass ∧
      ∀ expr, superClass = some expr → expr.IsReference
  constructors : ∀ id inst place, session.instances.get? id = some inst → inst.method = some place →
    place.kind ≠ .constructor → context.IsBuilt place.constructor →
    ∃ name, session.identifiers.get? place.constructor = some name
  hasMethod : ∀ id inst function method, session.instances.get? id = some inst →
    context.graph.values.get? id = some (.function function) → function.classMethod = some method →
    inst.insertionPoint ≠ none → inst.method.isSome

namespace Equipped

variable {later : FunctionInstance}

theorem initial (context : Context) : Equipped context (Session.initial context) where
  extras _ _ found := by simp [Session.initial] at found
  aliases _ _ _ _ _ _ named := by simp [Session.initial, SideTable.get?] at named
  methods _ _ _ found := by simp [Session.initial] at found
  constructors _ _ _ found := by simp [Session.initial] at found
  hasMethod _ _ _ _ found := by simp [Session.initial] at found

theorem count_extraNames (equipped : Equipped context session) (names : Named context after)
    (extends_ : Extends session after) {inst : FunctionInstance} {name : String}
    (isInstance : session.instances.get? id = some inst)
    (isNew : session.identifiers.get? target = none)
    (named : after.identifiers.get? target = some name) : inst.extraNames.count name = 0 := by
  refine count_eq_zero.mpr fun member => ?_
  obtain ⟨stmt, isExtra, declares⟩ := mem_flatMap.mp member
  cases equipped.extras id inst isInstance stmt isExtra with
  | flag number =>
    obtain rfl : name = _ := by simpa [Stmt.declares] using declares
    exact names.ne_of_line named (letter_append _ (by decide)) rfl
  | «alias» isObject owned isNamed =>
    obtain rfl : name = _ := by simpa [Stmt.declares, Stmt.var] using declares
    obtain rfl := names.distinct _ _ _ (extends_.identifiers _ _ isNamed) named
    simp [isNew] at isNamed

section

variable (equipped : Equipped context before) (step : Step context before after)

include equipped step

theorem extras_step (valid : before.Valid context) (found : after.instances.get? id = some later) :
    ∀ stmt ∈ later.extras, Extra context after id stmt := by
  have extends_ := step.extends_ valid
  intro stmt member
  rcases step.alias_cases with keeps | ⟨object, owner, value, inst, ownerName, isObject, owned,
    isNew, isInstance, isAfter⟩
  · rcases keeps.extras id later found with ⟨none, -⟩ | ⟨inst, isInstance, same | ⟨number, flagged⟩⟩
    · simp [none] at member
    · exact (equipped.extras id inst isInstance stmt (same ▸ member)).of_extends extends_
    · rcases mem_cons.mp (flagged ▸ member) with rfl | old
      · exact .flag number
      · exact (equipped.extras id inst isInstance stmt old).of_extends extends_
  · rw [isAfter, instances_reachingAlias] at found
    obtain ⟨inst, isInstance, rfl | ⟨rfl, rfl⟩⟩ := instances_changing found
    · exact (equipped.extras id _ isInstance stmt member).of_extends extends_
    · rcases mem_append.mp member with old | new
      · exact (equipped.extras owner inst isInstance stmt old).of_extends extends_
      · rw [mem_singleton.mp new]
        exact .alias isObject owned (by
          rw [isAfter, identifiers_reachingAlias, Valid.identifiers_allocating_self])

theorem aliases_step (valid : before.Valid context) (names : Named context after)
    {object owner : ValueId} {value : ObjectValue} {name : String}
    (isObject : context.IsObject object value) (owned : context.Owned object owner)
    (named : after.identifiers.get? object = some name) :
    ∃ inst, after.instances.get? owner = some inst ∧ inst.extraNames.count name = 1 := by
  have extends_ := step.extends_ valid
  rcases step.alias_cases with keeps | ⟨other, owner', value', inst, ownerName, isObject', owned',
    isNew, hasOwner, isAfter⟩
  · rw [keeps.reached object value owner isObject owned] at named
    obtain ⟨inst, isInstance, once⟩ := equipped.aliases object value name owner isObject owned named
    obtain ⟨later, isLater, -⟩ := extends_.instances owner inst isInstance
    refine ⟨later, isLater, ?_⟩
    rcases keeps.extras owner later isLater with ⟨-, isNew⟩ | ⟨inst', isInstance', changed⟩
    · simp [valid.notInstance owner isNew] at isInstance
    · obtain rfl : inst' = inst := Option.some.inj (isInstance'.symm.trans isInstance)
      rcases changed with same | ⟨number, flagged⟩
      · rwa [FunctionInstance.extraNames, same]
      · have different : name ≠ s!"__init_{number}" :=
          names.ne_of_line (extends_.identifiers _ _ named) (letter_append _ (by decide))
        rw [FunctionInstance.extraNames, flagged, flatMap_cons, count_append, Stmt.declares,
          count_eq_zero.mpr (mem_singleton.not.mpr different), Nat.zero_add]
        exact once
  · have isNamed : after.identifiers.get? other = some before.names.generate.1 := by
      rw [isAfter, identifiers_reachingAlias, Valid.identifiers_allocating_self]
    have changed : ∀ {inst}, before.instances.get? owner' = some inst →
        after.instances.get? owner' = some (addAlias before.names.generate.1 ownerName inst) := by
      intro inst isInstance
      rw [isAfter, instances_reachingAlias, changing, KeyedTable.get?_modify, if_pos rfl,
        isInstance]
      rfl
    by_cases same : object = other
    · subst same
      obtain rfl : owner = owner' := Option.some.inj (owned.symm.trans owned')
      obtain rfl := Option.some.inj (isNamed.symm.trans named)
      refine ⟨_, changed hasOwner, ?_⟩
      rw [extraNames_addAlias, count_append,
        equipped.count_extraNames names extends_ hasOwner isNew isNamed]
      simp
    · have old : before.identifiers.get? object = some name := by
        rwa [isAfter, identifiers_reachingAlias, allocating, SideTable.get?_insert,
          if_neg same] at named
      obtain ⟨inst, isInstance, once⟩ := equipped.aliases object value name owner isObject owned old
      have different : before.names.generate.1 ≠ name := by
        rintro rfl
        exact same (names.distinct _ _ _ named isNamed)
      by_cases sameOwner : owner = owner'
      · subst sameOwner
        refine ⟨_, changed isInstance, ?_⟩
        rw [extraNames_addAlias, count_append, once]
        simp [different]
      · refine ⟨inst, ?_, once⟩
        rw [isAfter, instances_reachingAlias, changing, KeyedTable.get?_modify,
          if_neg sameOwner]
        exact isInstance

theorem methods_step {place : MethodInstance} (found : after.instances.get? id = some later)
    (isMethod : later.method = some place) :
    ∃ function method superClass, context.IsFunction id function ∧
      function.classMethod = some method ∧ place = methodInstance method superClass ∧
      ∀ expr, superClass = some expr → expr.IsReference := by
  rcases step.instance_cases found with ⟨inst, isInstance, change⟩ | ⟨_, _, _, _, _, rfl⟩
  · rcases change.method_cases with same | ⟨_, _, _, isFunction, isClass, linked, same⟩
    · exact equipped.methods id _ place isInstance (same ▸ isMethod)
    · refine ⟨_, _, _, isFunction, isClass, Option.some.inj (isMethod.symm.trans same),
        fun expr isSuper => ?_⟩
      obtain ⟨_, _, _, refers⟩ := linked.superClass expr isSuper
      exact refers.isReference
  · simp [newInstance] at isMethod

theorem constructors_step (valid : before.Valid context) {place : MethodInstance}
    (found : after.instances.get? id = some later) (isMethod : later.method = some place)
    (isOther : place.kind ≠ .constructor) (isBuilt : context.IsBuilt place.constructor) :
    ∃ name, after.identifiers.get? place.constructor = some name := by
  refine Exists.imp (fun name => (step.extends_ valid).identifiers _ name) ?_
  rcases step.instance_cases found with ⟨inst, isInstance, change⟩ | ⟨_, _, _, _, _, rfl⟩
  · rcases change.method_cases with same | ⟨_, _, _, _, _, linked, same⟩
    · exact equipped.constructors id _ place isInstance (same ▸ isMethod) isOther isBuilt
    · obtain rfl := Option.some.inj (isMethod.symm.trans same)
      exact linked.reached isOther isBuilt
  · simp [newInstance] at isMethod

theorem hasMethod_step {function : FunctionValue} {method : ClassMethod}
    (found : after.instances.get? id = some later) (isFunction : context.IsFunction id function)
    (isMethod : function.classMethod = some method) (isPlaced : later.insertionPoint ≠ none) :
    later.method.isSome := by
  rcases step.instance_cases found with ⟨inst, isInstance, change⟩ | ⟨_, _, _, _, _, rfl⟩
  · have known := equipped.hasMethod id inst function method isInstance isFunction isMethod
    cases change with
    | adjust isInstance adjusts =>
      rcases (InstanceChange.adjust isInstance adjusts).method_cases with
        same | ⟨_, _, _, _, _, _, same⟩
      · exact same ▸ known ((adjusts.keeps inst).1 ▸ isPlaced)
      · exact same ▸ rfl
    | place isFunction' isBound hasMethod =>
      obtain rfl : function = _ := by simpa [isFunction] using isFunction'
      exact hasMethod method isMethod
    | _ => exact known isPlaced
  · simp [newInstance] at isPlaced

end

theorem step (equipped : Equipped context before) (step : Step context before after)
    (valid : before.Valid context) (names : Named context before) : Equipped context after where
  extras _ _ found := equipped.extras_step step valid found
  aliases _ _ _ _ isObject owned named :=
    equipped.aliases_step step valid (names.step step) isObject owned named
  methods _ _ _ found isMethod := equipped.methods_step step found isMethod
  constructors _ _ _ found isMethod := equipped.constructors_step step valid found isMethod
  hasMethod _ _ _ _ found isFunction isMethod isPlaced :=
    equipped.hasMethod_step step found isFunction isMethod isPlaced

end Equipped

/-! ## All that every step keeps -/

theorem CapturedChange.slots {Holds : Expr → Prop} {later : CapturedScopes}
    (change : CapturedChange context session later)
    (fits : ∀ value, session.AtDeclarations → value = .undefined ∨
      (∃ id, session.Refers context session.bodies.current id value) → Holds value)
    (known : ∀ found ∈ session.captured.scopes.values, ∀ value ∈ found.slots.values, Holds value) :
    ∀ found ∈ later.scopes.values, ∀ value ∈ found.slots.values, Holds value := by
  intro found member value isValue
  obtain ⟨⟨id, _⟩, isEntry, rfl⟩ := mem_map.mp member
  cases change with
  | same => exact known _ member value isValue
  | capture isScope =>
    unfold CapturedScopes.capture at isEntry
    split at isEntry
    · exact known _ (mem_map_of_mem isEntry) value isValue
    · rcases KeyedTable.mem_putEntry isEntry with same | old
      · cases same
        simp [KeyedTable.values] at isValue
      · exact known _ (mem_map_of_mem old) value isValue
  | fill other slot declares isFilled =>
    obtain ⟨⟨id', old⟩, isOld, same⟩ := mem_map.mp isEntry
    have known := known old (mem_map.mpr ⟨_, isOld, rfl⟩)
    dsimp only at same
    split at same
    · cases same
      obtain ⟨entry, isSlot, rfl⟩ := mem_map.mp isValue
      rcases KeyedTable.mem_putEntry isSlot with rfl | isSlot
      · exact fits _ declares isFilled
      · exact known _ (mem_map_of_mem isSlot)
    · cases same
      exact known value isValue

theorem CapturedChange.slotsRefer {later : CapturedScopes}
    (change : CapturedChange context session later) (refer : session.captured.SlotsRefer) :
    later.SlotsRefer := by
  refine change.slots (fun value _ isValue => ?_) refer
  rcases isValue with rfl | ⟨id, refers⟩
  · exact .literal _
  · exact refers.isReference

/-- What every step keeps, and every new root. -/
structure Kept (context : Context) (session : Session) : Prop where
  sound : session.Sound context
  named : Named context session
  housed : Housed context session
  prepared : Prepared context session
  points : session.PointsInside
  equipped : Equipped context session
  slots : session.captured.SlotsRefer

namespace Kept

theorem initial (context : Context) : Kept context (Session.initial context) where
  sound := sound_initial context
  named := .initial context
  housed := .initial context
  prepared := .initial context
  points _ _ _ found := by simp [Session.initial] at found
  equipped := .initial context
  slots := by simp [CapturedScopes.SlotsRefer, Session.initial, KeyedTable.values]

theorem step (step : Step context before after) (valid : before.Valid context)
    (kept : Kept context before) : Kept context after where
  sound := kept.sound.step step valid
  named := kept.named.step step
  housed := kept.housed.step step valid
  prepared := kept.prepared.step step valid kept.sound
  points := kept.points.step step valid
  equipped := kept.equipped.step step valid kept.named
  slots := step.captured_cases.slotsRefer kept.slots

theorem addingRoot {parent : BodyId} (function : ValueId) (valid : session.Valid context)
    (kept : Kept context session) : Kept context (session.adding (.root function) parent) where
  sound := kept.sound.adding valid _ _
  named := { kept.named with }
  housed := kept.housed.addingRoot function parent
  prepared := { kept.prepared with }
  points id inst point found isPoint := by
    simpa [adding] using kept.points id inst point found isPoint
  equipped := { kept.equipped with
    extras := fun id inst isInstance stmt member =>
      (kept.equipped.extras id inst isInstance stmt member).of_extends (.adding (.refl _) _ _) }
  slots := kept.slots

end Kept

/-- What holds of a session that has come about by steps. -/
structure Regular (context : Context) (session : Session) : Prop where
  valid : session.Valid context
  kept : Kept context session

namespace Regular

theorem steps (regular : Regular context before) (steps : Steps context before after) :
    Regular context after where
  valid := steps.valid regular.valid
  kept := steps.invariant Kept.step regular.valid regular.kept

theorem step (regular : Regular context before) (step : Step context before after) :
    Regular context after :=
  regular.steps (.single step)

theorem frame (regular : Regular context before) (frame : Frame context before after) :
    Regular context after :=
  regular.steps frame.toWork.steps

end Regular

end Session

end HeapScript
