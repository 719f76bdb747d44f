import HeapScript.Proofs.Session.Bindings
import HeapScript.Proofs.Session.Objects

/-!
Writing functions goes by the steps of a session and keeps the ledger in balance, and so does
writing any value.

The captured bindings of a function are met, visited and decided on before the function is placed. A
function has no statements but those that set its properties: its definition is inserted when the
script is assembled. The lemmas on all writers together give the step of an induction over the depth
of the visits.
-/

namespace HeapScript

open List Runs

namespace Session

variable {context : Context} {before middle after session : Session} {name : String} {expr : Expr}
  {key : BindingKey} {id : ValueId} {binding : Binding}

/-! ## Captured bindings -/

theorem runs_updateBinding {change : Binding → Except Failure Binding} {result : Unit} :
    Runs (updateBinding key change) before result after ↔
      ∃ binding changed, before.bindings.get? key = some binding ∧ change binding = .ok changed ∧
        after = before.binding key changed := by
  simp only [updateBinding, Runs.get_bind]
  cases before.bindings.get? key with
  | none => simp
  | some binding => simp [Session.binding]

theorem runs_isPending {value : Option ValueId} {pending : Bool} :
    Runs (isPending value) before pending after ↔
      pending = value.any (fun id => decide (id ∈ before.inProgress)) ∧ after = before := by
  cases value with
  | none => exact pure_iff
  | some id => exact runs_isInProgress

/-- The session after a binding has been met, with what has been decided on it so far. -/
structure Opens (context : Context) (key : BindingKey) (before opened : Session) : Prop where
  work : Work context [] before opened
  preserves : Preserves context before opened
  isNew : before.bindings.get? key = none
  entered : opened.bodies.entered = before.bodies.entered
  openFunctions : opened.openFunctions = before.openFunctions
  identifiers : opened.identifiers = before.identifiers
  found : ∃ binding, opened.bindings.get? key = some binding
  others : ∀ other, other ≠ key → opened.bindings.get? other = before.bindings.get? other

theorem bindings_binding (session : Session) (key other : BindingKey) (changed : Binding) :
    (session.binding key changed).bindings.get? other =
      if key = other then some changed else session.bindings.get? other :=
  KeyedTable.get?_insert ..

theorem Opens.of_step {opened : Session} (step : Step context before opened)
    (isNew : before.bindings.get? key = none) (inProgress : opened.inProgress = before.inProgress)
    (deferred : opened.deferred = before.deferred) (locks : opened.locks = before.locks)
    (instances : opened.instances = before.instances) (bodies : opened.bodies = before.bodies)
    (openFunctions : opened.openFunctions = before.openFunctions)
    (identifiers : opened.identifiers = before.identifiers)
    (declaredIn : opened.declaredIn = before.declaredIn)
    (lazyObjects : opened.lazyObjects = before.lazyObjects)
    (bindings : opened.bindings = before.bindings.insert key binding) :
    Opens context key before opened where
  work := .of_step step inProgress (fun _ _ => waits_congr deferred) (samePoints_of_eq instances)
  preserves := .of_eq bodies identifiers declaredIn lazyObjects deferred locks
  isNew := isNew
  entered := by rw [bodies]
  openFunctions := openFunctions
  identifiers := identifiers
  found := ⟨binding, by simp [bindings]⟩
  others other different := by rw [bindings, KeyedTable.get?_insert, if_neg (Ne.symm different)]

namespace Opens

variable {key : BindingKey} {value : Option ValueId} {opened visited : Session}

theorem under (opens : Opens context key before opened)
    (under : Under context before id) (valid : before.Valid context) :
    Under context opened id where
  present := under.present
  inProgress := opens.work.awaits under.inProgress (by simp)
  home function member := by
    have extends_ := opens.work.extends_ valid
    have sameCurrent : opened.bodies.current = before.bodies.current := by
      simp [Bodies.current, opens.entered]
    have sameHome : opened.bodies.declarationBody = before.bodies.declarationBody := by
      rw [Bodies.declarationBody, sameCurrent]
      exact extends_.bodies.declarationBodyOf_eq valid.tree (opens.work.valid valid).tree
        valid.has_current
    rw [sameHome]
    exact extends_.declaredIn function _ (under.home function (opens.openFunctions ▸ member))

section

variable (opens : Opens context key before opened)

include opens

theorem underValue (under : ∀ id, value = some id → Under context before id)
    (valid : before.Valid context) :
    ∀ id, value = some id → Under context opened id := by
  rintro id rfl
  exact opens.under (under id rfl) valid

theorem declares (valid : before.Valid context) (declares : before.AtDeclarations) :
    opened.AtDeclarations := by
  have sameCurrent : opened.bodies.current = before.bodies.current := by
    simp [Bodies.current, opens.entered]
  unfold AtDeclarations
  rw [sameCurrent, (opens.work.extends_ valid).bodies.kind_eq valid.has_current]
  exact declares

theorem close (frame : Writing context opened visited) (close : Work context [] visited after)
    (preserves : Preserves context visited after) (valid : before.Valid context)
    (entered : after.bodies.entered = visited.bodies.entered)
    (openFunctions : after.openFunctions = visited.openFunctions)
    (identifiers : after.identifiers = visited.identifiers)
    (others : ∀ other, other ≠ key → after.bindings.get? other = visited.bindings.get? other)
    (decided : ∀ binding, after.bindings.get? key = some binding → binding.storage ≠ .undecided) :
    Writing context before after ∧ ∃ binding, after.bindings.get? key = some binding := by
  have validOpened := opens.work.valid valid
  have validVisited := frame.valid validOpened
  have work := (opens.work.trans_frame frame.toFrame valid).trans close valid
  obtain ⟨known, isKnown⟩ := opens.found
  obtain ⟨later, isLater, _⟩ :=
    ((frame.extends_ validOpened).trans (close.extends_ validVisited)).bindings key known isKnown
  refine ⟨{ work with
    preserves := (opens.preserves.trans frame.preserves).trans preserves
    entered := entered.trans (frame.entered.trans opens.entered)
    openFunctions := openFunctions.trans (frame.openFunctions.trans opens.openFunctions)
    undecided := fun other binding isUndecided => ?_
    gathers := fun id function name isFunction named => ?_ }, later, isLater⟩
  · by_cases same : other = key
    · subst same
      simp only [opens.isNew, reduceCtorEq, iff_false]
      exact fun found => decided binding found isUndecided
    · rw [others other same, ← opens.others other same]
      exact frame.undecided other binding isUndecided
  · rw [identifiers] at named
    refine (frame.gathers id function name isFunction named).imp (opens.identifiers ▸ ·) ?_
    exact fun gathers => gathers.of_extends (close.extends_ validVisited)

end

end Opens

theorem Extends.decided (extends_ : Extends before after)
    (found : before.bindings.get? key = some binding) (decided : binding.storage ≠ .undecided) :
    ∀ later, after.bindings.get? key = some later → later.storage ≠ .undecided := by
  intro later isLater
  obtain ⟨same, isSame, _, keeps⟩ := extends_.bindings key binding found
  obtain rfl : same = later := Option.some.inj (isSame.symm.trans isLater)
  rwa [keeps decided]

section

variable {visit : ValueId → SessionM Expr} (visits : Visits context visit)

include visits

section

variable {key : BindingKey} {value : Option ValueId} {scope : Scope}
  (under : ∀ id, value = some id → Under context before id)

include under

theorem does_bindingValue (regular : Regular context before) :
    Does context.Ends (bindingValue visit value) before fun expr after =>
      Writing context before after ∧
        (∀ id, value = some id → after.Refers context after.bodies.current id expr) ∧
        (value = none → expr = .undefined) := by
  cases value with
  | none => exact .of_pure ⟨.refl context _, by simp, fun _ => rfl⟩
  | some id =>
    refine (visits regular (under id rfl)).imp fun expr after ⟨frame, refers⟩ => ?_
    refine ⟨frame, ?_, by simp⟩
    rintro _ ⟨⟩
    exact refers

variable (regular : Regular context before) (declares : before.AtDeclarations)

include regular declares

theorem does_captureDirectly {opened : Session} (opens : Opens context key before opened)
    (undecided : opened.bindings.get? key = some { key, value }) :
    Does context.Ends (captureDirectly visit key value) opened fun _ after =>
      Writing context before after ∧ ∃ binding, after.bindings.get? key = some binding := by
  have valid := regular.valid
  have regularOpened := regular.steps opens.work.steps
  refine (does_bindingValue visits (opens.underValue under valid) regularOpened).bind ?_
  rintro expr visited ⟨frame, refers, noValue⟩
  have kept := (frame.undecided key _ rfl).mpr undecided
  refine .step (runs_isPending.mpr ⟨rfl, rfl⟩)
    (.done (runs_updateBinding.mpr ⟨_, _, kept, rfl, rfl⟩) ?_)
  have bake : Step context visited _ :=
    .bake kept rfl refers noValue
      (frame.declares regularOpened.valid (opens.declares valid declares))
  exact opens.close frame (.of_step bake rfl (fun _ _ => Iff.rfl) (samePoints_of_eq rfl))
    (.of_eq rfl rfl rfl rfl rfl rfl) valid rfl rfl rfl
    (fun other different => by simp [bindings_binding, Ne.symm different])
    (by simp [bindings_binding])

/-- The variable of a shared binding is declared, and is set at once or later. -/
theorem does_captureShared (isValue : value = context.graph.boundValue? key.scope key.name)
    (isNew : before.bindings.get? key = none) (modified : key ∈ context.modified)
    (simple : context.settings.simpleClosures = true)
    (isScope : context.graph.scopes.get? key.scope = some scope)
    (declared : scope.declares key.name = true) :
    Does context.Ends (captureShared visit key value) (before.binding key { key, value })
      fun _ after =>
        Writing context before after ∧ ∃ binding, after.bindings.get? key = some binding := by
  have valid := regular.valid
  have share : Step context before (before.sharing key value) := by
    subst isValue
    exact .share key isNew isScope declared modified simple
  have opens : Opens context key before (before.sharing key value) :=
    .of_step share isNew rfl rfl rfl rfl rfl rfl rfl rfl rfl rfl
  have regularDecided := regular.step share
  have validDecided := regularDecided.valid
  have isShared : (before.sharing key value).bindings.get? key = some
      { key, value, storage := .shared (sharedName before.sharedCaptures) } :=
    KeyedTable.get?_insert_self ..
  have records : ∀ {session purpose stmt}, Frame context (before.sharing key value) session →
      session.Serves context session.bodies.current purpose stmt →
      session.Records context ⟨session.bodies.current, purpose, stmt⟩ :=
    fun frame serves => ⟨(frame.valid validDecided).has_current, serves, fun object kind =>
      absurd kind ((frame.declares validDecided declares).ne_lazyInitializer object)⟩
  -- The variable may be declared at once, and be used from then on.
  have declaring : ∀ session, Frame context (before.sharing key value) session →
      Writing context session (session.emitting session.bodies.current
        (.declare .var (sharedName before.sharedCaptures) none)) := by
    intro session frame
    have valid := frame.valid validDecided
    exact ⟨.emit ⟨valid.has_current, by simp [Stmt.usedNames]⟩,
      .write (records frame .sharedVariable) valid.tree rfl⟩
  have deciding : Runs (updateBinding key fun binding =>
        return { binding with storage := .shared (sharedName before.sharedCaptures) })
      { before.binding key { key, value } with sharedCaptures := before.sharedCaptures + 1 } ⟨⟩
      (before.sharing key value) :=
    runs_updateBinding.mpr ⟨_, _, KeyedTable.get?_insert_self .., rfl,
      by simp [Session.binding, sharing, sharedName]⟩
  refine .get_bind (.seq (modify_iff.mpr rfl) (.seq deciding ?_))
  cases value with
  | none =>
    have declared := declaring _ (.refl context _)
    exact .done (runs_emit.mpr rfl) (opens.close declared (.refl context _) (.refl context _) valid
      rfl rfl rfl (fun _ _ => rfl)
      ((declared.extends_ validDecided).decided isShared (by simp)))
  | some id =>
    refine (visits regularDecided (opens.under (under id rfl) valid)).bind ?_
    rintro expr visited ⟨frame, refers⟩
    have validVisited := frame.valid validDecided
    have closes : ∀ after, Writing context visited after →
        Writing context before after ∧ ∃ binding, after.bindings.get? key = some binding := by
      intro after setting
      have all := frame.trans setting validDecided
      exact opens.close all (.refl context after) (.refl context after) valid rfl rfl rfl
        (fun _ _ => rfl) ((all.extends_ validDecided).decided isShared (by simp))
    refine .step (runs_isInProgress.mpr ⟨rfl, rfl⟩) ?_
    split
    · rename_i isWaiting
      have declared := declaring visited frame.toFrame
      have validDeclared := declared.valid validVisited
      have refers := declared.refers validVisited refers
      refine .seq (runs_emit.mpr rfl) (.get_bind (.done (runs_defer.mpr rfl) (closes _ ?_)))
      refine declared.trans ⟨.defer (of_decide_eq_true isWaiting) ?_, .park id (records
        (frame.toFrame.trans declared.toFrame validDecided) (.sharedValue refers))
        validDeclared.tree⟩ validVisited
      refine allows_assign validDeclared.has_current (fun name isName => ?_)
        fun name isName => refers.nameable (.inr rfl) name isName
      refine .shared before.sharedCaptures ?_ (mem_singleton.mp isName)
      have used : before.sharedCaptures < (before.sharing key (some id)).sharedCaptures :=
        Nat.lt_succ_self _
      exact Nat.lt_of_lt_of_le used (frame.extends_ validDecided).sharedCaptures
    · rename_i complete
      refine .done (runs_emit.mpr rfl) (closes _ ⟨.emit ⟨validVisited.has_current, fun name used =>
        refers.nameable (.inl (by simpa using complete)) name used⟩,
        .write (records frame.toFrame (.sharedInit refers)) validVisited.tree rfl⟩)

theorem does_captureInSlot (isValue : value = context.graph.boundValue? key.scope key.name)
    (isNew : before.bindings.get? key = none) (modified : key ∈ context.modified)
    (notSimple : context.settings.simpleClosures = false)
    (isScope : context.graph.scopes.get? key.scope = some scope)
    (declared : scope.declares key.name = true) :
    Does context.Ends (captureInSlot context visit key value) (before.binding key { key, value })
      fun _ after =>
        Writing context before after ∧ ∃ binding, after.bindings.get? key = some binding := by
  have valid := regular.valid
  obtain ⟨slot, isSlot⟩ : ∃ slot, scope.slot? key.name = some slot :=
    Option.isSome_iff_exists.mp (List.findIdx?_isSome.trans declared)
  have keep : Step context before
      (before.keeping key value (context.ownerOf scope) scope.bindings.size) := by
    subst isValue
    exact .keepInSlot key isNew isScope declared modified notSimple
  have opens : Opens context key before _ :=
    .of_step keep isNew rfl rfl rfl rfl rfl rfl rfl rfl rfl rfl
  have regularDecided := regular.step keep
  have validDecided := regularDecided.valid
  have isKept : (before.keeping key value (context.ownerOf scope)
      scope.bindings.size).bindings.get? key = some { key, value, storage := .slot } :=
    KeyedTable.get?_insert_self ..
  have deciding : Runs (updateBinding key fun binding => return { binding with storage := .slot })
      { before.binding key { key, value } with
        captured := before.captured.capture key.scope (context.ownerOf scope) scope.bindings.size }
      ⟨⟩ (before.keeping key value (context.ownerOf scope) scope.bindings.size) :=
    runs_updateBinding.mpr ⟨_, _, KeyedTable.get?_insert_self .., rfl,
      by simp [Session.binding, keeping]⟩
  refine .step (Runs.lift_iff.mpr ⟨HeapGraph.scope_eq_ok.mpr isScope, rfl⟩)
    (.seq (modify_iff.mpr rfl) (.seq deciding ?_))
  simp only [isSlot]
  refine (does_bindingValue visits (opens.underValue under valid) regularDecided).bind ?_
  rintro expr visited ⟨frame, refers, noValue⟩
  obtain ⟨binding, isMet, -, same⟩ := (frame.extends_ validDecided).bindings key _ isKept
  obtain rfl := same (by simp)
  obtain ⟨found, isCaptured⟩ := ((regularDecided.frame frame.toFrame).kept.sound.bindings key _
    isMet).stored.captured_of_isSlot rfl
  have isFilled : visited.captured.setSlot key.scope slot expr =
      .ok (visited.filling key.scope slot expr).captured := by
    simp [CapturedScopes.setSlot, CapturedScopes.get, isCaptured, bind, Except.bind, pure,
      Except.pure, Session.filling]
  refine .get_bind (.step (Runs.lift_iff.mpr ⟨isFilled, rfl⟩) (.done (modify_iff.mpr rfl) ?_))
  have fill : Step context visited (visited.filling key.scope slot expr) :=
    .fillSlot isScope isSlot (fun id isId => refers id (isValue.trans isId))
      (fun isNone => noValue (isValue.trans isNone))
      (frame.declares validDecided (opens.declares valid declares))
  exact opens.close frame (.of_step fill rfl (fun _ _ => Iff.rfl) (samePoints_of_eq rfl))
    (.of_eq rfl rfl rfl rfl rfl rfl) valid rfl rfl rfl (fun _ _ => rfl)
    ((frame.extends_ validDecided).decided isKept (by simp))

end

/-- A binding that is captured for the first time is decided on, and its value is written. -/
theorem does_captureNew (isNew : before.bindings.get? key = none) (regular : Regular context before)
    (declared : ∃ scope, context.graph.scopes.get? key.scope = some scope ∧
      scope.declares key.name = true)
    (under : ∀ id, context.graph.boundValue? key.scope key.name = some id →
      Under context before id) (declares : before.AtDeclarations) :
    Does context.Ends (captureNew context visit key) before fun _ after =>
      Writing context before after ∧ ∃ binding, after.bindings.get? key = some binding := by
  obtain ⟨scope, isScope, declared⟩ := declared
  refine .seq (pure_iff.mpr ⟨rfl, rfl⟩) (.step (Runs.lift_iff.mpr
    ⟨HeapGraph.scope_eq_ok.mpr isScope, rfl⟩) (.seq (modify_iff.mpr rfl) ?_))
  rw [← HeapGraph.boundValue?_of_scope isScope]
  split
  · rename_i constant
    exact does_captureDirectly visits under regular declares
      (.of_step (.meet key isNew isScope declared constant) isNew rfl rfl rfl rfl rfl rfl rfl rfl
        rfl rfl) (KeyedTable.get?_insert_self ..)
  · rename_i modified
    have modified : key ∈ context.modified := Decidable.not_not.mp modified
    split
    · rename_i simple
      exact does_captureShared visits under regular declares rfl isNew modified simple isScope
        declared
    · rename_i notSimple
      exact does_captureInSlot visits under regular declares rfl isNew modified
        (Bool.not_eq_true _ ▸ notSimple) isScope declared

def readScope (function : ValueId) (key : BindingKey) : SessionM (Option BindingKey) := do
  if ((← get).bindings.get? key).any (·.storage.isSlot) then
    updateInstance function (·.addScope key.scope)
  return some key

omit visits in
theorem does_readScope {function : ValueId} (found : before.bindings.get? key = some binding)
    (hasInstance : ∃ inst, before.HasInstance function inst) :
    Does context.Ends (readScope function key) before fun captured after =>
      Writing context before after ∧ captured = some key ∧ after.bindings = before.bindings ∧
        (binding.storage.isSlot = true →
          ∃ inst, after.HasInstance function inst ∧ key.scope ∈ inst.scopes) := by
  refine .get_bind ?_
  rw [found, Option.any_some]
  split
  · rename_i isSlot
    obtain ⟨inst, isInstance⟩ := hasInstance
    have frame : Writing context before (before.changing function (·.addScope key.scope)) :=
      .changing (.adjust (.addScope found isSlot)) fun inst => inst.addScope_eq _ ▸ ⟨rfl, rfl⟩
    refine .seq (runs_updateInstance.mpr ⟨⟨inst, isInstance⟩, rfl⟩)
      (.of_pure ⟨frame, rfl, rfl, fun _ => ⟨inst.addScope key.scope, ?_, ?_⟩⟩)
    · simp [Session.changing, KeyedTable.get?_modify, isInstance]
    · unfold FunctionInstance.addScope
      split
      · assumption
      · simp
  · rename_i notSlot
    exact .of_pure ⟨.refl context _, rfl, rfl, fun isSlot => absurd isSlot notSlot⟩

/-- A free name is global, or it stands for a binding that is known or is met first. -/
theorem does_capture {function : ValueId} {environment : Option ScopeId}
    (regular : Regular context before) (hasInstance : ∃ inst, before.HasInstance function inst)
    (under : ∀ scope id, context.graph.declaringScope? environment name = some scope →
      context.graph.boundValue? scope name = some id → Under context before id)
    (declares : before.AtDeclarations) :
    Does context.Ends (capture context visit function environment name) before fun captured after =>
      Writing context before after ∧ captured = context.graph.bindingKey? environment name ∧
        ∀ key, captured = some key → after.Captures function key := by
  have valid := regular.valid
  unfold capture
  split
  · rename_i isGlobal
    exact .of_pure ⟨.refl context _, by simp [HeapGraph.bindingKey?, isGlobal], by simp⟩
  · rename_i scope isScope
    -- Whether the binding is met here or not, the function reads its scope next.
    have reads : ∀ middle, Writing context before middle →
        (∃ binding, middle.bindings.get? ⟨scope, name⟩ = some binding) →
        Does context.Ends (readScope function ⟨scope, name⟩) middle fun captured after =>
          Writing context before after ∧ captured = context.graph.bindingKey? environment name ∧
            ∀ key, captured = some key → after.Captures function key := by
      rintro middle frame ⟨binding, found⟩
      refine (does_readScope found (frame.hasInstance valid hasInstance)).imp ?_
      rintro _ after ⟨reading, rfl, sameBindings, reads⟩
      refine ⟨frame.trans reading valid, by simp [HeapGraph.bindingKey?, isScope], ?_⟩
      rintro _ ⟨⟩
      exact ⟨binding, sameBindings ▸ found, reads⟩
    refine .get_bind ?_
    split
    · rename_i isKnown
      rw [KeyedTable.contains_eq_isSome_get?, Option.isSome_iff_exists] at isKnown
      exact reads before (.refl context _) isKnown
    · rename_i isUnknown
      rw [KeyedTable.contains_eq_isSome_get?, Option.not_isSome_iff_eq_none] at isUnknown
      refine (does_captureNew visits isUnknown regular
        (HeapGraph.declares_of_declaringScopeFrom? isScope) (fun id => under scope id isScope)
        declares).bind ?_
      rintro _ middle ⟨frame, found⟩
      exact reads middle frame found

end

/-! ## Parts of functions -/

def Knows (session : Session) (id : ValueId) (name : String) : Prop :=
  ∃ inst, session.instances.get? id = some inst ∧ (inst.bindings.get? name).isSome

theorem Knows.of_extends {name : String} (knows : before.Knows id name)
    (extends_ : Extends before after) : after.Knows id name := by
  obtain ⟨inst, isInstance, known⟩ := knows
  obtain ⟨later, isLater, grows⟩ := extends_.instances id inst isInstance
  exact ⟨later, isLater, grows.bindings name known⟩

/-- The session while the parts of a function are written. -/
structure Preparing (context : Context) (session : Session) (id : ValueId)
    (function : FunctionValue) : Prop where
  isFunction : context.IsFunction id function
  regular : Regular context session
  hasInstance : ∃ inst, session.HasInstance id inst
  under : Under context session id
  declares : session.AtDeclarations

section

variable {visit : ValueId → SessionM Expr} {inside : Session} (visits : Visits context visit)
  {id : ValueId} {function : FunctionValue} {result : Unit}

namespace Preparing

theorem of_frame (preparing : Preparing context before id function)
    (frame : Frame context before after) : Preparing context after id function where
  isFunction := preparing.isFunction
  regular := preparing.regular.frame frame
  hasInstance := frame.hasInstance preparing.regular.valid preparing.hasInstance
  under := preparing.under.of_frame frame preparing.regular.valid
  declares := frame.declares preparing.regular.valid preparing.declares

theorem captured (preparing : Preparing context session id function)
    (isFree : name ∈ context.freeNames function.code) (scope : ScopeId) (value : ValueId)
    (declared : context.graph.declaringScope? function.environment name = some scope)
    (bound : context.graph.boundValue? scope name = some value) : Under context session value :=
  preparing.under.need (.captured preparing.isFunction isFree declared bound)

end Preparing

include visits

/-- The place of a function in its class is noted when the values around it are known. -/
theorem does_writeClassLinks {method : ClassMethod} (isMethod : function.classMethod = some method)
    (preparing : Preparing context before id function) :
    Does context.Ends (writeClassLinks visit id method) before fun _ after =>
      Writing context before after ∧ ∃ inst, after.HasInstance id inst ∧ inst.method.isSome := by
  have sets : ∀ superClass visited, Writing context before visited →
      visited.LinksMethod context method superClass →
      Does context.Ends (updateInstance id fun found =>
        { found with method := some (methodInstance method superClass) }) visited fun _ after =>
        Writing context before after ∧ ∃ inst, after.HasInstance id inst ∧ inst.method.isSome := by
    intro superClass visited frame linked
    obtain ⟨inst, isInstance⟩ := (preparing.of_frame frame.toFrame).hasInstance
    refine .done (runs_updateInstance.mpr ⟨⟨inst, isInstance⟩, rfl⟩) ⟨frame.trans (.changing
      (.adjust (.setMethod preparing.isFunction isMethod linked)) fun _ => ⟨rfl, rfl⟩)
      preparing.regular.valid, ?_⟩
    exact ⟨{ inst with method := some (methodInstance method superClass) },
      by simp [Session.changing, KeyedTable.get?_modify, isInstance], rfl⟩
  obtain ⟨isFunction, regular, -, under, declares⟩ := preparing
  have valid := regular.valid
  unfold writeClassLinks
  by_cases isConstructor : method.kind = .constructor
  · rw [if_pos isConstructor]
    cases inherits : method.superClass with
    | none =>
      exact .step (pure_iff.mpr ⟨rfl, rfl⟩) (sets none before (.refl context _) ⟨declares, by simp,
        fun isMember => absurd isConstructor isMember⟩)
    | some value =>
      simp only [Option.mapM_some, map_eq_pure_bind, bind_assoc, pure_bind]
      refine (visits regular
        (under.need (.superClass isFunction isMethod isConstructor inherits))).bind ?_
      rintro expr visited ⟨frame, refers⟩
      refine sets (some expr) visited frame ⟨frame.declares valid declares, ?_,
        fun isMember => absurd isConstructor isMember⟩
      rintro _ ⟨⟩
      exact ⟨value, inherits, isConstructor, refers⟩
  · simp only [if_neg isConstructor, pure_bind]
    refine (visits regular (under.need (.constructor isFunction isMethod isConstructor))).bind ?_
    rintro expr visited ⟨frame, refers⟩
    exact sets none visited frame ⟨frame.declares valid declares, by simp,
      fun _ => refers.exists_name⟩

theorem does_writeModules {modules : List String}
    (preparing : Preparing context before id function) :
    Does context.Ends (writeModules context visit id modules) before fun _ =>
      Writing context before := by
  have valid := preparing.regular.valid
  refine Maintains.forM (fun name _ between frame => ?_) before (.refl context before)
  have preparing := preparing.of_frame frame.toFrame
  split
  · exact .of_pure frame
  · rename_i value replaced
    refine (visits preparing.regular
      (preparing.under.need (.replacedModule preparing.isFunction replaced))).bind ?_
    rintro expr visited ⟨frame', refers⟩
    have preparing := preparing.of_frame frame'.toFrame
    exact .done (runs_updateInstance.mpr ⟨preparing.hasInstance, rfl⟩)
      ((frame.trans frame' valid).trans (.changing
        (.adjust (.addModule replaced refers preparing.declares)) fun _ => ⟨rfl, rfl⟩) valid)

theorem does_captureName (isFree : name ∈ context.freeNames function.code)
    (preparing : Preparing context before id function) :
    Does context.Ends (do
      let key ← capture context visit id function.environment name
      updateInstance id fun found => { found with bindings := found.bindings.insert name key } :
      SessionM Unit) before fun _ after =>
      Writing context before after ∧ after.Knows id name := by
  refine (does_capture visits preparing.regular preparing.hasInstance (preparing.captured isFree)
    preparing.declares).bind ?_
  rintro key captured ⟨frame, isKey, known⟩
  obtain ⟨inst, isInstance⟩ := (preparing.of_frame frame.toFrame).hasInstance
  have bind : Step context captured (captured.changing id fun found =>
      { found with bindings := found.bindings.insert name key }) :=
    .adjust (.bindName preparing.isFunction isFree isKey known)
  exact .done (runs_updateInstance.mpr ⟨⟨inst, isInstance⟩, rfl⟩)
    ⟨frame.trans (.changing bind fun _ => ⟨rfl, rfl⟩) preparing.regular.valid,
      { inst with bindings := inst.bindings.insert name key },
      by simp [Session.changing, KeyedTable.get?_modify, isInstance], by simp⟩

theorem does_captureNames {names : List (String × Nat)}
    (isFree : ∀ entry ∈ names, entry.1 ∈ context.freeNames function.code)
    (preparing : Preparing context before id function) :
    Does context.Ends (names.forM fun (name, _) => do
      let key ← capture context visit id function.environment name
      updateInstance id fun found => { found with bindings := found.bindings.insert name key })
      before fun _ after =>
        Writing context before after ∧ ∀ entry ∈ names, after.Knows id entry.1 := by
  refine .forM_each (fun entry member between frame => ?_) (.refl context before)
  have valid := preparing.regular.valid
  refine (does_captureName visits (isFree entry member) (preparing.of_frame frame.toFrame)).imp ?_
  rintro _ later ⟨frame', knows⟩
  exact ⟨frame.trans frame' valid, knows,
    fun _ knows => knows.of_extends (frame'.extends_ (frame.valid valid))⟩

theorem does_linkClass (preparing : Preparing context before id function) :
    Does context.Ends (function.classMethod.forM (writeClassLinks visit id)) before fun _ after =>
      Writing context before after ∧ ∀ method, function.classMethod = some method →
        ∃ inst, after.HasInstance id inst ∧ inst.method.isSome := by
  cases isMethod : function.classMethod with
  | none => exact .of_pure ⟨.refl context _, by simp⟩
  | some method =>
    refine (does_writeClassLinks visits isMethod preparing).imp ?_
    rintro _ after ⟨frame, found⟩
    exact ⟨frame, fun _ _ => found⟩

/-- A function's class is linked, its free names are captured and its modules are loaded. -/
theorem does_writeFunctionParts (preparing : Preparing context before id function) :
    Does context.Ends (writeFunctionParts context visit id function) before fun _ after =>
      Writing context before after ∧ ∀ inst, after.HasInstance id inst →
        (∀ name ∈ context.freeNames function.code, (inst.bindings.get? name).isSome) ∧
        ∀ method, function.classMethod = some method → inst.method.isSome := by
  have valid := preparing.regular.valid
  refine (does_linkClass visits preparing).bind ?_
  rintro _ linked ⟨linking, hasMethod⟩
  have validLinked := linking.valid valid
  refine .lift_bind (Context.errorsOnly_ends fun closed => ?_) fun facts isFacts => ?_
  · obtain ⟨facts, isFacts⟩ :=
      closed.facts _ (closed.graph.functions id function preparing.isFunction).code
    exact ⟨facts, by simp [Context.factsOf, isFacts]⟩
  have freeNames : context.freeNames function.code = facts.unbound.map (·.1) := by
    unfold Context.factsOf at isFacts
    split at isFacts
    · rename_i found
      cases isFacts
      simp [Context.freeNames, found]
    · cases isFacts
  refine (does_captureNames visits (fun entry member => freeNames ▸ mem_map_of_mem member)
    (preparing.of_frame linking.toFrame)).bind ?_
  rintro _ captured ⟨capturing, bound⟩
  have frame := linking.trans capturing valid
  have later := preparing.of_frame frame.toFrame
  have loading : Does context.Ends (do
      unless "require" ∈ facts.modified do writeModules context visit id facts.requires :
      SessionM Unit) captured fun _ => Writing context captured := by
    split
    · exact .of_pure (.refl context _)
    · exact does_writeModules visits later
  refine loading.imp fun _ after loading => ?_
  have extends_ := loading.extends_ later.regular.valid
  refine ⟨frame.trans loading valid, fun inst isInstance => ⟨fun name member => ?_, ?_⟩⟩
  · obtain ⟨entry, isEntry, rfl⟩ := mem_map.mp (freeNames ▸ member)
    obtain ⟨later, isLater, known⟩ := (bound entry isEntry).of_extends extends_
    exact Option.some.inj (isLater.symm.trans isInstance) ▸ known
  · intro method isMethod
    obtain ⟨between, isBetween, isSome⟩ := hasMethod method isMethod
    obtain ⟨later, isLater, grows⟩ :=
      ((capturing.extends_ validLinked).trans extends_).instances id between isBetween
    obtain rfl : later = inst := Option.some.inj (isLater.symm.trans isInstance)
    exact grows.method isSome

/-! ## Functions -/

omit visits in
theorem does_attachDelayedInit (hasInstance : ∃ inst, before.HasInstance id inst) :
    Does context.Ends (attachDelayedInit id) before fun _ after =>
      Writing context before after ∧ (before.delayedBodies.get? id = none ∧ after = before ∨
        ∃ body, before.delayedBodies.get? id = some body ∧
          after = { before.changing id (attachFlag body s!"__init_{before.initFlags}") with
            initFlags := before.initFlags + 1 }) := by
  refine .get_bind ?_
  split
  · rename_i nothing
    exact .of_pure ⟨.refl context _, .inl ⟨nothing, rfl⟩⟩
  · rename_i body delayed
    refine .get_bind (.seq (modify_iff.mpr rfl) (.done (runs_updateInstance.mpr ⟨hasInstance, rfl⟩)
      ⟨⟨.of_step (.attachDelayed delayed) rfl rfl rfl (fun _ _ => Iff.rfl) rfl
        (samePoints_changing before id fun _ => ⟨rfl, rfl⟩) fun _ _ _ => rfl,
        .of_eq rfl rfl rfl rfl rfl rfl⟩, .inr ⟨body, delayed, rfl⟩⟩))

omit visits in
theorem Frame.whileOpen (frame : Frame context (before.opening id) inside)
    (isFunction : context.IsFunction id function)
    (isStarted : id ∈ before.inProgress) (valid : before.Valid context) :
    Frame context before inside.closing := by
  have opening : Work context [] before (before.opening id) :=
    .of_step (.openFunction isFunction isStarted) rfl (fun _ _ => Iff.rfl) (samePoints_of_eq rfl)
  have closing : Work context [] inside inside.closing :=
    .of_step .closeFunction rfl (fun _ _ => Iff.rfl) (samePoints_of_eq rfl)
  exact {
    (opening.trans_frame frame valid).trans closing valid with
    entered := frame.entered
    openFunctions := by simp [Session.closing, frame.openFunctions, Session.opening]
    undecided := frame.undecided
    gathers := frame.gathers }

omit visits in
theorem Begins.reachFunction (begins : Begins context before id)
    (isFunction : context.IsFunction id function) :
    Work context [id] before (before.reachingFunction id function.code) ∧
      Remains context before (before.reachingFunction id function.code) ∧
      Under context (before.reachingFunction id function.code) id := by
  have step : Step context before (before.reachingFunction id function.code) :=
    .reachFunction isFunction begins.isNew begins.declares
  have remains : Remains context before (before.reachingFunction id function.code) :=
    .of_step step rfl rfl rfl
  have points : SamePoints before (before.reachingFunction id function.code) := by
    intro other inst later found foundLater
    have different : id ≠ other := by
      rintro rfl
      simp [begins.valid.notInstance id begins.isNew] at found
    simp only [reachingFunction, KeyedTable.get?_insert, if_neg different, found] at foundLater
    cases foundLater
    exact ⟨rfl, rfl⟩
  refine ⟨.of_start step rfl rfl points, remains, ?_⟩
  exact begins.under.of_remains remains begins.valid fun other member =>
    (mem_insert_iff.mp member).elim .inl (begins.under.inProgress other)

omit visits in
theorem does_withOpenFunction {action : SessionM Unit} {Outcome : Unit → Session → Prop}
    (does : Does context.Ends action (before.opening id) Outcome) :
    Does context.Ends (withOpenFunction id action) before fun _ after =>
      ∃ inside, Outcome ⟨⟩ inside ∧ after = inside.closing :=
  .seq (modify_iff.mpr rfl) (does.bind fun _ inside holds =>
    .done (modify_iff.mpr rfl) ⟨inside, holds, rfl⟩)

omit visits in
theorem runs_place :
    Runs (place id) before result after ↔
      (∃ inst, before.HasInstance id inst) ∧ after = before.placing id := by
  simp only [place, Runs.bind_iff, get_iff, modify_iff, runs_updateInstance, and_assoc,
    exists_and_left, exists_eq_left, exists_const]
  exact Iff.rfl

omit visits in
theorem releases_placing {base : Session}
    (step : Step context session ((session.placing id).finishing id))
    (named : session.HasName id name) (work : Work context [id] base session)
    (regularBase : Regular context base) (isNew : base.identifiers.get? id = none)
    (underBase : Under context base id) (under : Under context session id)
    (mayFill : ∀ other, session.MayFill other) :
    Releases context base ((session.placing id).finishing id) id (session.waiting id) ∧
      Stays context session ((session.placing id).finishing id) := by
  have validBase := regularBase.valid
  have valid := work.valid validBase
  have extends_ := step.extends_ valid
  have stays : Stays context session ((session.placing id).finishing id) :=
    .of_step step rfl rfl rfl fun _ _ _ => rfl
  have inProgress : ∀ other, other ∈ ((session.placing id).finishing id).inProgress ↔
      other ∈ session.inProgress ∧ other ≠ id := by
    simp [Session.finishing, Session.placing, Session.changing]
  have settled : ((session.placing id).finishing id).Settled id :=
    ⟨⟨name, named⟩, fun member => ((inProgress id).mp member).2 rfl⟩
  -- The instance of the function is not among those that have been there before.
  have points : SamePoints base ((session.placing id).finishing id) := by
    intro other inst later found foundLater
    have different : other ≠ id := by
      rintro rfl
      simp [validBase.notInstance other isNew] at found
    refine work.points other inst later found ?_
    simpa [Session.finishing, Session.placing, Session.changing, KeyedTable.get?_modify,
      different] using foundLater
  exact ⟨.of_step work step regularBase isNew inProgress (fun _ _ => waits_finishing) points
    (fun _ => Iff.rfl)
    (fun work member => extends_.canWait valid.tree (canWait_of_waiting valid member)) settled
    underBase (under.of_remains stays.toRemains valid fun other member =>
      under.inProgress other ((inProgress other).mp member).1) mayFill, stays⟩

omit visits in
theorem links_of_mem_membersOfClass {other : ValueId}
    (isFunction : context.IsFunction id function)
    (member : other ∈ membersOfClass context function) : context.Links id other := by
  unfold membersOfClass at member
  split at member
  · rename_i method isMethod
    split at member
    · rename_i isConstructor
      cases found : context.classMembers.get? method.classPrototype with
      | none => simp [found] at member
      | some members =>
        exact .classMember isFunction isMethod isConstructor found (by simpa [found] using member)
    · cases member
  · cases member

omit visits in
theorem Begins.openFunction (begins : Begins context before id)
    (isFunction : context.IsFunction id function) :
    Preparing context ((before.reachingFunction id function.code).opening id) id function := by
  have valid := begins.valid
  obtain ⟨work, remains, under⟩ := begins.reachFunction isFunction
  have open_ : Step context (before.reachingFunction id function.code)
    ((before.reachingFunction id function.code).opening id) :=
    .openFunction isFunction mem_insert_self
  refine ⟨isFunction, (begins.regular.steps work.steps).step open_,
    ⟨_, KeyedTable.get?_insert_self ..⟩,
    ⟨under.present, under.inProgress, fun other member => ?_⟩,
    remains.declares valid begins.declares⟩
  rcases mem_cons.mp member with rfl | member
  · have home : (before.reachingFunction other function.code).declaredIn.get? other =
        some before.bodies.current := valid.home_allocating begins.declares other
    have current := valid.tree.declarationBodyOf_eq_self valid.has_current begins.declares
    exact home.trans (congrArg some current.symm)
  · exact under.home other member

section

variable (isFunction : context.IsFunction id function) (begins : Begins context before id)
  (parts : Writing context ((before.reachingFunction id function.code).opening id) inside)
  (known : ∀ inst, inside.HasInstance id inst →
    (∀ name ∈ context.freeNames function.code, (inst.bindings.get? name).isSome) ∧
    ∀ method, function.classMethod = some method → inst.method.isSome)
  (attaching : Writing context inside.closing after)
  (attached : inside.delayedBodies.get? id = none ∧ after = inside.closing ∨
    ∃ body, inside.delayedBodies.get? id = some body ∧
      after = { inside.closing.changing id (attachFlag body s!"__init_{inside.initFlags}") with
        initFlags := inside.initFlags + 1 })

include isFunction begins parts known attaching attached

omit visits in
theorem frame_prepareFunction :
    Frame context (before.reachingFunction id function.code) after ∧
      Preserves context (before.allocating id) after ∧
      ∃ inst, after.HasInstance id inst ∧ inst.insertionPoint = none ∧
        (∀ name ∈ context.freeNames function.code, (inst.bindings.get? name).isSome) ∧
        (∀ method, function.classMethod = some method → inst.method.isSome) ∧
        ∀ body, after.delayedBodies.get? id = some body →
          ∃ flag, inst.delayed = some { body, flag } := by
  have validReached := (begins.reachFunction isFunction).1.valid begins.valid
  obtain ⟨reached, isReached, unplaced⟩ : ∃ reached,
      (before.reachingFunction id function.code).instances.get? id = some reached ∧
        reached.insertionPoint = none :=
    ⟨_, KeyedTable.get?_insert_self .., rfl⟩
  have preparing := begins.openFunction isFunction
  have closing := parts.toFrame.whileOpen isFunction mem_insert_self validReached
  have validClosed := closing.valid validReached
  have frame := closing.trans attaching.toFrame validReached
  have reaching : Preserves context (before.allocating id)
      ((before.reachingFunction id function.code).opening id) := .of_eq rfl rfl rfl rfl rfl rfl
  have leaving : Preserves context inside inside.closing := .of_eq rfl rfl rfl rfl rfl rfl
  obtain ⟨between, isBetween, _⟩ :=
    (parts.extends_ preparing.regular.valid).instances id reached isReached
  obtain ⟨bound, hasMethod⟩ := known between isBetween
  obtain ⟨later, isLater, grows⟩ := (attaching.extends_ validClosed).instances id between isBetween
  refine ⟨frame, ((reaching.trans parts.preserves).trans leaving).trans attaching.preserves,
    later, isLater, (frame.points id reached later isReached isLater).1.trans unplaced, ?_, ?_, ?_⟩
  · exact fun name member => grows.bindings name (bound name member)
  · exact fun method isMethod => grows.method (hasMethod method isMethod)
  · intro body isDelayed
    rcases attached with ⟨nothing, rfl⟩ | ⟨other, isOther, rfl⟩
    · exact absurd (nothing.symm.trans isDelayed) (by simp)
    · obtain rfl : other = body := Option.some.inj (isOther.symm.trans isDelayed)
      have isAttached : (inside.instances.modify id (attachFlag other _)).get? id = some later :=
        isLater
      rw [KeyedTable.get?_modify, if_pos rfl, isBetween] at isAttached
      exact ⟨_, by rw [← Option.some.inj isAttached]; rfl⟩

omit visits in
/-- A function is placed when all its parts are written, and what has waited for it is done next. -/
theorem releases_prepareFunction :
    (∃ inst, after.HasInstance id inst) ∧
      Releases context before ((after.placing id).finishing id) id (after.waiting id) ∧
      Stays context (before.reachingFunction id function.code) ((after.placing id).finishing id) ∧
      Preserves context (before.allocating id) (after.placing id) := by
  have valid := begins.valid
  obtain ⟨work, remains, under⟩ := begins.reachFunction isFunction
  have validReached := work.valid valid
  obtain ⟨frame, preserves, inst, isInstance, unplaced, isBound, isMethod, isAttached⟩ :=
    frame_prepareFunction isFunction begins parts known attaching attached
  have extends_ := frame.extends_ validReached
  -- The open functions have been reached before, this one has not.
  have isClosed : id ∉ after.openFunctions := by
    intro member
    have home := begins.under.home id (frame.openFunctions ▸ member)
    exact absurd (home.symm.trans (valid.homeless id begins.isNew)) (by simp)
  have home : after.declaredIn.get? id = some after.bodies.current := by
    rw [frame.current]
    exact extends_.declaredIn id _ (valid.home_allocating begins.declares id)
  have place : Step context after ((after.placing id).finishing id) :=
    .place isFunction isInstance home isClosed unplaced isBound isMethod isAttached
  obtain ⟨releases, placed⟩ := releases_placing place
    (extends_.identifiers id _ (Valid.identifiers_allocating_self before id))
    (work.trans_frame frame valid) begins.regular begins.isNew begins.under
      (under.of_frame frame validReached)
    (frame.declares validReached (remains.declares valid begins.declares)).mayFill
  exact ⟨⟨inst, isInstance⟩, releases, frame.toStays.trans placed validReached,
    preserves.trans (.of_eq rfl rfl rfl rfl rfl rfl)⟩

end

theorem does_visitLinked {others : List ValueId}
    (links : ∀ other ∈ others, context.Links id other) (filling : Filling context before id) :
    Does context.Ends (others.forM fun other => do let _ ← visit other) before fun _ after =>
      Writing context before after ∧ ∀ other ∈ others, context.IsBuilt other →
        ∃ name, after.HasName other name := by
  refine .forM_each (fun other member between frame => ?_) (.refl context before)
  have filling' := filling.of_frame frame.toFrame
  refine (visits filling'.regular (filling'.link (links other member))).bind ?_
  rintro expr later ⟨frame', refers⟩
  exact .of_pure ⟨frame.trans frame' filling.valid, refers.exists_name, fun value named isBuilt =>
    (named isBuilt).imp ((frame'.extends_ filling'.valid).identifiers value)⟩

theorem does_writeFunction (isFunction : context.IsFunction id function)
    (begins : Begins context before id) :
    Does context.Ends (writeFunction context visit id function) before fun _ after =>
      Writing context before after ∧ ∃ name, after.HasName id name := by
  have valid := begins.valid
  refine .lift_bind (Context.errorsOnly_ends fun closed => ?_) fun _ _ => ?_
  · obtain ⟨code, isCode⟩ := (closed.graph.functions id function isFunction).code
    exact ⟨code, HeapGraph.codeBlock_eq_ok.mpr isCode⟩
  refine .step (runs_allocate.mpr ⟨rfl, rfl⟩)
    (.get_bind (.seq (runs_start.mpr rfl) (.seq (modify_iff.mpr rfl) ?_)))
  have preparing := begins.openFunction isFunction
  refine (does_withOpenFunction (does_writeFunctionParts visits preparing)).bind ?_
  rintro _ _ ⟨inside, ⟨parts, known⟩, rfl⟩
  have hasInstance : ∃ inst, inside.closing.HasInstance id inst :=
    (preparing.of_frame parts.toFrame).hasInstance
  refine (does_attachDelayedInit hasInstance).bind ?_
  rintro _ attached ⟨attaching, isAttached⟩
  obtain ⟨reached, remains, -⟩ := begins.reachFunction isFunction
  obtain ⟨isReached, releases, placed, preparing⟩ :=
    releases_prepareFunction isFunction begins parts known attaching isAttached
  refine .seq (runs_place.mpr ⟨isReached, rfl⟩) ((does_complete visits releases).runs.bind ?_)
  rintro _ completed ⟨completing, releases', stays⟩
  have filling := releases'.filling
  refine (does_writeProperties visits filling (.of_function isFunction)).bind ?_
  intro _ written fills
  refine (does_visitLinked visits (fun _ => links_of_mem_membersOfClass isFunction)
    (filling.of_frame fills.toFrame)).imp ?_
  rintro _ after ⟨linked, gathers⟩
  have members := fills.toFrame.trans linked.toFrame filling.valid
  have whole := (placed.trans stays (reached.valid valid)).trans members.toStays
    (reached.valid valid)
  refine ⟨⟨{ releases'.work.trans_frame members valid, remains.trans whole.toRemains with
    gathers := fun other function' name isFunction' named => ?_ },
    fun opened flight ledger balanced => ?_⟩, (members.settled filling.valid filling.settled).1⟩
  · refine (whole.gathers other function' name isFunction' named).elim (fun named => ?_) .inr
    by_cases same : other = id
    · subst same
      obtain rfl : function = function' := by simpa [isFunction] using isFunction'
      exact .inr gathers
    · left
      simpa [reachingFunction, Session.starting, Session.allocating, SideTable.get?_insert, same]
        using named
  · obtain ⟨notOpen, _, reached, empty, untouched⟩ :=
      balanced.reachBy valid begins.isNew preparing
    obtain ⟨_, balanced', account, untouched⟩ :=
      balanced_complete visits completing releases reached
      releases.regular.valid.tree untouched begins.isNew fun _ => balanced.parkedFor_of_isNew valid
    obtain ⟨_, balanced', filled⟩ :=
      fills.close balanced' notOpen (by simp [Unfilled, account, empty])
      (by
        rw [account, empty]
        exact .function isFunction)
    obtain ⟨later, balanced', kept⟩ := linked.preserves _ _ _ balanced'
    exact ⟨later, balanced', fun subject member =>
      ((untouched subject member).trans (filled subject member)).trans (kept subject member)⟩

/-! ## Values -/

omit visits in
theorem Begins.of_under (under : Under context before id) (regular : Regular context before)
    (isNew : before.identifiers.get? id = none) :
    Begins context (before.entering before.bodies.declarationBody) id := by
  have valid := regular.valid
  have present := valid.tree.has_declarationBodyOf valid.has_current
  have declares := valid.tree.declaresValues_declarationBodyOf valid.has_current
  have same := valid.tree.declarationBodyOf_eq_self present declares
  exact ⟨regular.step (.enter present), under.entering valid present same, isNew, declares⟩

omit visits in
/-- A value is written where values are declared if it is reached for the first time, and then
referred to. -/
theorem does_writtenReference {write : SessionM Unit}
    (writes : ∀ session, Begins context session id → Does context.Ends write session fun _ after =>
      Writing context session after ∧ ∃ name, after.HasName id name)
    (regular : Regular context before) (under : Under context before id) :
    Does context.Ends (do ensureWritten id write; reference id : SessionM Expr) before
      fun expr after =>
        Writing context before after ∧ after.Refers context after.bodies.current id expr := by
  have valid := regular.valid
  have ensures : Does context.Ends (ensureWritten id write) before fun _ after =>
      Writing context before after ∧ ∃ name, after.HasName id name := by
    refine .step (runs_isAllocated.mpr ⟨rfl, rfl⟩) ?_
    split
    · rename_i isNamed
      exact .of_pure ⟨.refl context _, Option.isSome_iff_exists.mp isNamed⟩
    · rename_i isNew
      have begins := Begins.of_under under regular (Option.not_isSome_iff_eq_none.mp isNew)
      have present := valid.tree.has_declarationBodyOf valid.has_current
      refine .get_bind (does_inBody ((writes _ begins).imp fun _ inside ⟨frame, named⟩ => ?_))
      exact ⟨frame.entered, .inBody present frame valid, named⟩
  refine ensures.bind ?_
  rintro _ written ⟨frame, name, named⟩
  refine (does_reference (frame.valid valid) named).imp ?_
  rintro expr _ ⟨rfl, refers⟩
  exact ⟨frame.trans (.use written id) valid, refers⟩

theorem visits_visitValue : Visits context (visitValue context visit) := by
  intro id before regular under
  refine .lift_bind (Context.errorsOnly_ends fun closed => ?_) fun value isValue => ?_
  · obtain ⟨value, isValue⟩ := under.present closed
    exact ⟨value, HeapGraph.value_eq_ok.mpr isValue⟩
  rw [HeapGraph.value_eq_ok] at isValue
  cases value with
  | primitive constant => exact .of_pure ⟨.refl context _, .primitive isValue⟩
  | object object =>
    dsimp only
    split
    · rename_i path isKnown
      exact .of_pure ⟨.refl context _, .known isValue isKnown⟩
    · rename_i unknown
      exact does_writtenReference (fun _ => does_writeObject visits isValue unknown) regular under
  | function function =>
    exact does_writtenReference (fun _ => does_writeFunction visits isValue) regular under

end

theorem visits_visitWithin (context : Context) (fuel : Nat) :
    Visits context (visitWithin context fuel) := by
  induction fuel with
  | zero => exact fun _ _ => .of_throw fun _ => .nestedTooDeeply _
  | succ fuel induction => exact visits_visitValue induction

/-- Writing a value goes by the steps of a session and keeps the ledger in balance, whatever the
heap. -/
theorem visits_writeValue (context : Context) : Visits context (writeValue context) :=
  visits_visitWithin context _

end Session

end HeapScript
