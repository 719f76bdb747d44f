import HeapScript.Proofs.Output.Names
import HeapScript.Proofs.Session.Bindings
import HeapScript.Proofs.Session.Instances

/-!
What is known of captured bindings and function instances.

After any number of steps each captured binding is kept in the way that suits it, no two bindings
share a variable, no two scopes share a selector, and each instance knows the bindings of its free
names.
-/

namespace HeapScript

open List

namespace Session

variable {key : BindingKey} {value : Option ValueId} {storage : Storage} {name : String}
  {found : CapturedScope} {binding : Binding}

/-! ## Bindings -/

inductive Stored (context : Context) (session : Session) (key : BindingKey)
    (value : Option ValueId) : Storage → Prop where
  | undecided (constant : key ∉ context.modified) : Stored context session key value .undecided
  | direct {expr : Expr} (constant : key ∉ context.modified)
      (denotes : ∀ id, value = some id → session.Denotes context id expr)
      (noValue : value = none → expr = .undefined) :
      Stored context session key value (.direct expr)
  | shared (number : Nat) (modified : key ∈ context.modified)
      (simple : context.settings.simpleClosures = true) (used : number < session.sharedCaptures) :
      Stored context session key value (.shared (sharedName number))
  | slot {found : CapturedScope} (modified : key ∈ context.modified)
      (notSimple : context.settings.simpleClosures = false)
      (captured : session.captured.scopes.get? key.scope = some found) :
      Stored context session key value .slot

structure BindingFacts (context : Context) (session : Session) (key : BindingKey)
    (binding : Binding) : Prop where
  declared : ∃ scope, context.graph.scopes.get? key.scope = some scope ∧
    scope.declares key.name = true
  stored : Stored context session key binding.value binding.storage

/-! ## Instances -/

structure InstanceFacts (context : Context) (session : Session) (id : ValueId)
    (function : FunctionValue) (inst : FunctionInstance) : Prop where
  isFunction : context.graph.values.get? id = some (.function function)
  isId : inst.function = id
  code : inst.code = function.code
  named : session.identifiers.get? id = some inst.name
  home : session.declaredIn.get? id = some inst.declarationBody
  root : inst.root = rootOfBody session.bodies inst.declarationBody
  /-- Only the functions of optimized roots know other names than their free ones. -/
  keys : ∀ name key, inst.bindings.get? name = some key →
    key = context.graph.bindingKey? function.environment name ∧
      (name ∈ context.freeNames function.code ∨ ∃ root ∈ context.graph.roots, root.function = id)
  complete : inst.insertionPoint ≠ none →
    ∀ name ∈ context.freeNames function.code, (inst.bindings.get? name).isSome
  met : ∀ name key, inst.bindings.get? name = some (some key) →
    ∃ binding, session.bindings.get? key = some binding ∧
      (binding.storage.isSlot = true → key.scope ∈ inst.scopes)
  scopes : ∀ scope ∈ inst.scopes, ∃ found, session.captured.scopes.get? scope = some found
  modules : ∀ entry ∈ inst.modules.entries, entry.2.IsReference
  distinctModules : inst.modules.keys.Nodup

structure Sound (context : Context) (session : Session) : Prop where
  bindings : ∀ key binding, session.bindings.get? key = some binding →
    BindingFacts context session key binding
  distinctShared : ∀ key other binding binding' name,
    session.bindings.get? key = some binding → session.bindings.get? other = some binding' →
    binding.storage = .shared name → binding'.storage = .shared name → key = other
  numbered : session.captured.Numbered
  captured : ∀ id found, session.captured.scopes.get? id = some found →
    ∃ scope, context.graph.scopes.get? id = some scope ∧ found.owner = context.ownerOf scope ∧
      found.slotCount = scope.bindings.size
  rootSuffixes : session.captured.rootSuffixes = (Session.initial context).captured.rootSuffixes
  instances : ∀ id inst, session.instances.get? id = some inst →
    ∃ function, InstanceFacts context session id function inst
  distinctInstances : session.instances.keys.Nodup
  /-- A function is under construction until its definition has a place. -/
  placed : ∀ id inst, session.instances.get? id = some inst → inst.insertionPoint = none →
    id ∈ session.inProgress

variable {context : Context} {before after session : Session}

/-! ## Captured scopes along steps -/

namespace CapturedChange

variable {later : CapturedScopes}

section

variable (change : CapturedChange context session later)

include change

theorem exists_get? {id : ScopeId} (isFound : session.captured.scopes.get? id = some found) :
    ∃ found', later.scopes.get? id = some found' := by
  cases change with
  | same => exact ⟨found, isFound⟩
  | capture isScope =>
    exact ⟨found, by simp [CapturedScopes.get?_capture, isFound]⟩
  | fill other slot _ =>
    by_cases same : id = other <;> simp [KeyedTable.get?_modify, same]
    · simp [← same, isFound]
    · simp [isFound]

theorem numbered (numbered : session.captured.Numbered) : later.Numbered := by
  cases change with
  | same => exact numbered
  | capture isScope => exact numbered.capture _ _ _
  | fill id slot _ => exact numbered.modify id (fun _ => rfl) fun _ => rfl

theorem rootSuffixes : later.rootSuffixes = session.captured.rootSuffixes := by
  cases change with
  | same => rfl
  | capture isScope =>
    unfold CapturedScopes.capture
    split <;> rfl
  | fill id slot _ => rfl

theorem ofScope
    (known : ∀ id found, session.captured.scopes.get? id = some found →
      ∃ scope, context.graph.scopes.get? id = some scope ∧ found.owner = context.ownerOf scope ∧
        found.slotCount = scope.bindings.size) {id : ScopeId}
    (isFound : later.scopes.get? id = some found) :
    ∃ scope, context.graph.scopes.get? id = some scope ∧ found.owner = context.ownerOf scope ∧
      found.slotCount = scope.bindings.size := by
  cases change with
  | same => exact known id found isFound
  | capture isScope =>
    rw [CapturedScopes.get?_capture] at isFound
    cases old : session.captured.scopes.get? id with
    | none =>
      rw [old] at isFound
      split at isFound <;> cases isFound
      rename_i same
      exact ⟨_, same ▸ isScope, rfl, rfl⟩
    | some before => exact known id found (by simpa [old] using isFound)
  | fill other slot _ =>
    simp only [KeyedTable.get?_modify] at isFound
    split at isFound
    · obtain ⟨old, isOld, rfl⟩ := Option.map_eq_some_iff.mp isFound
      exact known id old isOld
    · exact known id found isFound

end

end CapturedChange

/-! ## Bindings along steps -/

theorem Stored.of_step (stored : Stored context before key value storage)
    (step : Step context before after) (valid : before.Valid context) :
    Stored context after key value storage := by
  have extends_ := step.extends_ valid
  cases stored with
  | undecided constant => exact .undecided constant
  | direct constant denotes noValue =>
    exact .direct constant (fun id isValue => (denotes id isValue).of_extends extends_) noValue
  | shared number modified simple used =>
    exact .shared number modified simple (Nat.lt_of_lt_of_le used extends_.sharedCaptures)
  | slot modified notSimple captured =>
    obtain ⟨found, isFound⟩ := step.captured_cases.exists_get? captured
    exact .slot modified notSimple isFound

section

variable (stored : Stored context session key value storage)

include stored

theorem Stored.constant_of_undecided (undecided : storage = .undecided) :
    key ∉ context.modified := by
  cases stored with
  | undecided constant => exact constant
  | _ => cases undecided

theorem Stored.modified_of_isSlot (isSlot : storage.isSlot = true) : key ∈ context.modified := by
  cases stored with
  | slot modified _ _ => exact modified
  | _ => cases isSlot

theorem Stored.captured_of_isSlot (isSlot : storage.isSlot = true) :
    ∃ found, session.captured.scopes.get? key.scope = some found := by
  cases stored with
  | slot _ _ captured => exact ⟨_, captured⟩
  | _ => cases isSlot

theorem Stored.number_lt (isShared : storage = .shared name) :
    ∃ number < session.sharedCaptures, name = sharedName number := by
  cases stored with
  | shared number _ _ used => exact ⟨number, used, (Storage.shared.inj isShared).symm⟩
  | _ => cases isShared

end

theorem BindingFacts.of_change {later : Binding} (sound : before.Sound context)
    (step : Step context before after) (valid : before.Valid context)
    (change : BindingChange context before after key later) :
    BindingFacts context after key later := by
  cases change with
  | meet isScope declared constant => exact ⟨⟨_, isScope, declared⟩, .undecided constant⟩
  | bake isMet undecided denotes noValue =>
    have facts := sound.bindings key _ isMet
    have extends_ := step.extends_ valid
    exact ⟨facts.declared, .direct (facts.stored.constant_of_undecided undecided)
      (fun id isValue => (denotes id isValue).of_extends extends_) noValue⟩
  | share isScope declared modified simple counted =>
    exact ⟨⟨_, isScope, declared⟩, .shared _ modified simple (by omega)⟩
  | keepInSlot isScope declared modified notSimple captured =>
    obtain ⟨found, isFound⟩ := captured
    exact ⟨⟨_, isScope, declared⟩, .slot modified notSimple isFound⟩

theorem Sound.bindings_step (sound : before.Sound context) (step : Step context before after)
    (valid : before.Valid context) (isMet : after.bindings.get? key = some binding) :
    BindingFacts context after key binding := by
  have old : ∀ {binding}, before.bindings.get? key = some binding →
      BindingFacts context after key binding := by
    intro binding isMet
    have facts := sound.bindings key binding isMet
    exact ⟨facts.declared, facts.stored.of_step step valid⟩
  rcases step.bindings_cases valid with same | ⟨other, later, isLater, change⟩
  · rw [same] at isMet
    exact old isMet
  · rw [isLater, KeyedTable.get?_insert] at isMet
    split at isMet
    · rename_i same
      subst same
      cases isMet
      exact .of_change sound step valid change
    · exact old isMet

theorem sharedName_inj {number other : Nat} (same : sharedName number = sharedName other) :
    number = other :=
  decimal_inj (by simpa [sharedName] using same)

theorem Sound.unshared_of_change (sound : before.Sound context) {other : BindingKey}
    {later : Binding} (change : BindingChange context before after key later)
    (isMet : before.bindings.get? other = some binding) (isShared : later.storage = .shared name) :
    binding.storage ≠ .shared name := by
  intro isShared'
  cases change with
  | share _ _ _ _ _ =>
    obtain ⟨number, used, rfl⟩ := (sound.bindings other binding isMet).stored.number_lt isShared'
    have same := sharedName_inj (Storage.shared.inj isShared)
    omega
  | _ => cases isShared

theorem Sound.distinctShared_step (sound : before.Sound context)
    (step : Step context before after) (valid : before.Valid context) {other : BindingKey}
    {binding' : Binding} (isMet : after.bindings.get? key = some binding)
    (isMet' : after.bindings.get? other = some binding')
    (isShared : binding.storage = .shared name) (isShared' : binding'.storage = .shared name) :
    key = other := by
  rcases step.bindings_cases valid with same | ⟨changed, later, isLater, change⟩
  · rw [same] at isMet isMet'
    exact sound.distinctShared key other binding binding' name isMet isMet' isShared isShared'
  · rw [isLater, KeyedTable.get?_insert] at isMet isMet'
    split at isMet
    · rename_i isKey
      cases isMet
      split at isMet'
      · rename_i isOther
        exact isKey.symm.trans isOther
      · exact absurd isShared' (sound.unshared_of_change change isMet' isShared)
    · split at isMet'
      · cases isMet'
        exact absurd isShared (sound.unshared_of_change change isMet isShared')
      · exact sound.distinctShared key other binding binding' name isMet isMet' isShared isShared'

/-! ## Instances along steps -/

namespace InstanceFacts

variable {id : ValueId} {function : FunctionValue} {inst later : FunctionInstance}

theorem of_step (facts : InstanceFacts context before id function inst)
    (sound : before.Sound context) (step : Step context before after)
    (valid : before.Valid context) : InstanceFacts context after id function inst := by
  have extends_ := step.extends_ valid
  refine { facts with
    named := extends_.identifiers id _ facts.named
    home := extends_.declaredIn id _ facts.home
    root := ?_, met := ?_, scopes := ?_ }
  · obtain ⟨home, isHome, present, _⟩ := valid.homes id _ facts.named
    obtain rfl : home = inst.declarationBody := Option.some.inj (isHome.symm.trans facts.home)
    rw [facts.root, rootOfBody, rootOfBody, extends_.bodies.kind_eq present]
  · intro name key isKey
    obtain ⟨binding, isMet, reads⟩ := facts.met name key isKey
    obtain ⟨later, isLater, _, decided⟩ := extends_.bindings key binding isMet
    refine ⟨later, isLater, fun isSlot => reads ?_⟩
    -- A binding that is undecided at first never gets a slot.
    have modified := (sound.bindings_step step valid isLater).stored.modified_of_isSlot isSlot
    have isDecided : binding.storage ≠ .undecided := fun undecided =>
      (sound.bindings key binding isMet).stored.constant_of_undecided undecided modified
    rwa [← decided isDecided]
  · intro scope member
    obtain ⟨found, isFound⟩ := facts.scopes scope member
    exact step.captured_cases.exists_get? isFound

theorem of_newInstance (isFunction : context.IsFunction id function) :
    InstanceFacts context (session.reachingFunction id function.code) id function
      (session.newInstance id function.code) where
  isFunction := isFunction
  isId := rfl
  code := rfl
  named := by simp [reachingFunction, starting, allocating, newInstance, SideTable.get?_insert]
  home := by simp [reachingFunction, starting, allocating, newInstance, SideTable.get?_insert]
  root := rfl
  keys name key bound := by simp [newInstance] at bound
  complete placed := absurd rfl placed
  met name key bound := by simp [newInstance] at bound
  scopes scope member := by simp [newInstance] at member
  modules entry member := by simp [newInstance] at member
  distinctModules := nodup_nil

theorem addScope (facts : InstanceFacts context session id function inst)
    (captured : session.captured.scopes.get? key.scope = some found) :
    InstanceFacts context session id function (inst.addScope key.scope) := by
  unfold FunctionInstance.addScope
  split
  · exact facts
  · refine { facts with met := ?_, scopes := ?_ }
    · intro name other isKey
      obtain ⟨binding, isMet, reads⟩ := facts.met name other isKey
      exact ⟨binding, isMet, fun isSlot => mem_append_left _ (reads isSlot)⟩
    · intro scope member
      rcases mem_append.mp member with old | new
      · exact facts.scopes scope old
      · exact ⟨found, mem_singleton.mp new ▸ captured⟩

theorem bind (facts : InstanceFacts context session id function inst) {key : Option BindingKey}
    {bindings : KeyedTable String (Option BindingKey)}
    (isKey : key = context.graph.bindingKey? function.environment name)
    (isName : name ∈ context.freeNames function.code ∨
      ∃ root ∈ context.graph.roots, root.function = id)
    (isInstance : session.HasInstance id inst)
    (captures : ∀ key', key = some key' → session.Captures id key')
    (added : ∀ other found, bindings.get? other = some found →
      inst.bindings.get? other = some found ∨ other = name ∧ found = key)
    (kept : ∀ other, (inst.bindings.get? other).isSome → (bindings.get? other).isSome) :
    InstanceFacts context session id function { inst with bindings } := by
  refine { facts with keys := ?_, complete := ?_, met := ?_ }
  · intro other found bound
    rcases added other found bound with old | ⟨rfl, rfl⟩
    · exact facts.keys other found old
    · exact ⟨isKey, isName⟩
  · intro placed other isFree
    exact kept other (facts.complete placed other isFree)
  · intro other found bound
    rcases added other (some found) bound with old | ⟨rfl, isFound⟩
    · exact facts.met other found old
    · obtain ⟨binding, isMet, reads⟩ := captures found isFound.symm
      refine ⟨binding, isMet, fun isSlot => ?_⟩
      obtain ⟨inst', isInstance', member⟩ := reads isSlot
      exact Option.some.inj (isInstance'.symm.trans isInstance) ▸ member

theorem of_adjusts (facts : InstanceFacts context before id function inst)
    (sound : before.Sound context) (valid : before.Valid context)
    (isInstance : before.HasInstance id inst)
    {change : FunctionInstance → FunctionInstance} (adjusts : Adjusts context before id change) :
    InstanceFacts context before id function (change inst) := by
  cases adjusts with
  | setMethod _ _ _ => exact { facts with }
  | addScope isMet isSlot =>
    obtain ⟨found, captured⟩ := (sound.bindings _ _ isMet).stored.captured_of_isSlot isSlot
    exact facts.addScope captured
  | @bindName function' name key isFunction isFree isKey captures =>
    obtain rfl : function' = function := by
      simpa using isFunction.symm.trans facts.isFunction
    refine facts.bind isKey (.inl isFree) isInstance captures ?_ ?_
    · intro other found bound
      by_cases same : name = other <;> simp_all [KeyedTable.get?_insert]
    · exact (FunctionInstance.Grows.insertBinding inst name key).bindings
  | @bindModified root function' name key isRoot isId isFunction _ isKey captures =>
    obtain rfl : function' = function := by
      simpa using isFunction.symm.trans facts.isFunction
    refine facts.bind isKey (.inr ⟨root, isRoot, isId⟩) isInstance captures ?_ ?_
    · intro other found bound
      by_cases same : name = other
      · subst same
        cases known : inst.bindings.get? name <;> simp_all [KeyedTable.get?_insertIfNew]
      · simp_all [KeyedTable.get?_insertIfNew]
    · exact (FunctionInstance.Grows.insertNewBinding inst name key).bindings
  | @addModule value name expr _ refers declares =>
    refine { facts with
      modules := ?_
      distinctModules := KeyedTable.nodup_keys_insert name expr facts.distinctModules }
    intro entry member
    rcases KeyedTable.mem_putEntry member with rfl | old
    · exact (refers.denotes valid declares).isReference
    · exact facts.modules entry old

theorem of_change (facts : InstanceFacts context before id function inst)
    (sound : before.Sound context) (valid : before.Valid context)
    (change : InstanceChange context before id inst later) :
    InstanceFacts context before id function later := by
  cases change with
  | same => exact facts
  | use | addAlias _ | attachFlag _ => exact { facts with }
  | adjust isInstance adjusts => exact facts.of_adjusts sound valid isInstance adjusts
  | @place function' isFunction isBound isMethod =>
    obtain rfl : function' = function := by
      simpa using isFunction.symm.trans facts.isFunction
    exact { facts with complete := fun _ => isBound }

end InstanceFacts

/-! ## All sessions -/

theorem Sound.placed_step (sound : before.Sound context) (step : Step context before after)
    {id : ValueId} {later : FunctionInstance} (found : after.HasInstance id later)
    (isFirst : later.insertionPoint = none) : id ∈ after.inProgress := by
  rcases step.instance_cases found with
    ⟨inst, isInstance, change⟩ | ⟨function, isFunction, _, _, rfl, rfl⟩
  · have member : id ∈ before.inProgress := by
      refine sound.placed id inst isInstance ?_
      cases change with
      | adjust _ adjusts => exact (adjusts.keeps inst).1 ▸ isFirst
      | _ => simp_all [addAlias, attachFlag]
    obtain ⟨function, facts⟩ := sound.instances id inst isInstance
    rcases step.inProgress_cases facts.isFunction member with
      member | ⟨-, inst', isInstance', placed⟩
    · exact member
    · obtain rfl : inst' = later := Option.some.inj (isInstance'.symm.trans found)
      simp [isFirst] at placed
  · exact mem_insert_self

theorem Sound.step (sound : before.Sound context) (step : Step context before after)
    (valid : before.Valid context) : after.Sound context where
  bindings _ _ isMet := sound.bindings_step step valid isMet
  distinctShared _ _ _ _ _ isMet isMet' isShared isShared' :=
    sound.distinctShared_step step valid isMet isMet' isShared isShared'
  numbered := step.captured_cases.numbered sound.numbered
  captured _ _ isFound := step.captured_cases.ofScope sound.captured isFound
  rootSuffixes := step.captured_cases.rootSuffixes.trans sound.rootSuffixes
  instances id later found := by
    rcases step.instance_cases found with
      ⟨inst, isInstance, change⟩ | ⟨function, isFunction, _, _, rfl, rfl⟩
    · obtain ⟨function, facts⟩ := sound.instances id inst isInstance
      exact ⟨function, (facts.of_change sound valid change).of_step sound step valid⟩
    · exact ⟨function, .of_newInstance isFunction⟩
  distinctInstances := by
    rcases step.instances_cases with same | ⟨id, inst, same⟩
    · rw [same]
      exact sound.distinctInstances
    · rw [same]
      exact KeyedTable.nodup_keys_insert id inst sound.distinctInstances
  placed _ _ found isFirst := sound.placed_step step found isFirst

theorem Sound.adding (sound : session.Sound context) (valid : session.Valid context)
    (kind : BodyKind) (parent : BodyId) : (session.adding kind parent).Sound context := by
  have extends_ := (Extends.refl session).adding kind parent
  refine { sound with
    bindings := fun key binding isMet => ?_
    instances := fun id inst found => ?_ }
  · have facts := sound.bindings key binding isMet
    refine { facts with stored := ?_ }
    have stored := facts.stored
    generalize binding.storage = storage at stored
    cases stored with
    | undecided constant => exact .undecided constant
    | direct constant denotes noValue =>
      exact .direct constant (fun id isValue => (denotes id isValue).of_extends extends_) noValue
    | shared number modified simple used => exact .shared number modified simple used
    | slot modified notSimple captured => exact .slot modified notSimple captured
  · obtain ⟨function, facts⟩ := sound.instances id inst found
    refine ⟨function, { facts with root := ?_ }⟩
    obtain ⟨home, isHome, present, _⟩ := valid.homes id _ facts.named
    obtain rfl : home = inst.declarationBody := Option.some.inj (isHome.symm.trans facts.home)
    rw [facts.root, rootOfBody, rootOfBody, extends_.bodies.kind_eq present]

theorem sound_initial (context : Context) : (Session.initial context).Sound context where
  bindings _ _ isMet := by simp [initial] at isMet
  distinctShared _ _ _ _ _ isMet := by simp [initial] at isMet
  numbered := CapturedScopes.numbered_empty _
  captured _ _ isFound := by simp [initial] at isFound
  rootSuffixes := rfl
  instances _ _ found := by simp [initial] at found
  distinctInstances := nodup_nil
  placed _ _ found := by simp [initial] at found

theorem valid_initial (context : Context) : (Session.initial context).Valid context where
  tree := .initial
  entered body member := by simp [initial, Bodies.initial] at member
  homes _ _ named := by simp [initial, SideTable.get?] at named
  homeless _ _ := rfl
  isBuilt _ _ named := by simp [initial, SideTable.get?] at named
  started _ member := by simp [initial] at member
  notInstance _ _ := rfl
  awaited _ _ found := by simp [initial] at found
  deferred _ _ found := by simp [initial] at found
  locks _ _ found := by simp [initial] at found
  lazyObjects _ _ found := by simp [initial] at found
  delayedBodies _ _ found := by simp [initial] at found

end Session

end HeapScript
