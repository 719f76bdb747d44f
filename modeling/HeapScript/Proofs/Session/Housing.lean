import HeapScript.Proofs.Session.Frame
import HeapScript.Proofs.Session.Sound

/-!
What the bodies of a session are for.

Each body is the global one, the body of an optimized root, fills a lazy object, or is run on the
first call of a function. The tables of lazy objects and of first calls name exactly the bodies of
their kinds, and a function that is placed knows its own one.
-/

namespace HeapScript

variable {id : ValueId} {body : BodyId}

namespace Session

variable {context : Context} {before after session : Session} {function : ValueId}

/-! ## New bodies -/

/-- What a step can do to the bodies and to the tables that name them. -/
inductive BodyChange (context : Context) (before after : Session) : Prop where
  | same (kind : ∀ body, after.bodies.kind body = before.bodies.kind body)
      (lazyObjects : after.lazyObjects = before.lazyObjects)
      (delayedBodies : after.delayedBodies = before.delayedBodies)
  | addLazy {id : ValueId} (isNew : before.lazyObjects.get? id = none)
      (home : before.declaredIn.get? id = some Bodies.global) (isLazy : context.IsLazy id)
      (same : after = before.addingLazy id)
  | addDelayed {function : ValueId} (isOpen : function ∈ before.openFunctions)
      (kind : ∀ body, after.bodies.kind body =
        if body = before.bodies.arena.next then .delayedInit function else before.bodies.kind body)
      (lazyObjects : after.lazyObjects = before.lazyObjects)
      (isNew : before.delayedBodies.get? function = none)
      (delayedBodies : after.delayedBodies =
        before.delayedBodies.insert function before.bodies.arena.next)

theorem BodyChange.of_delaying (isOpen : function ∈ before.openFunctions) :
    BodyChange context before (before.reachingDelayed id function body) := by
  have kinds : ∀ other, (before.declaringDelayed id).bodies.kind other =
      before.bodies.kind other := fun _ => Bodies.kind_emitInto ..
  cases found : before.delayedBodies.get? function with
  | some old =>
    have isSame : before.reachingDelayed id function body =
        ((before.declaringDelayed id).entering body).starting id := by
      simp [reachingDelayed, delaying, declaringDelayed, emitting, allocating, found]
    rw [isSame]
    exact .same kinds rfl rfl
  | none =>
    have next : (before.declaringDelayed id).bodies.arena.next = before.bodies.arena.next :=
      congrArg Handle.mk (Bodies.size_emitInto ..)
    have isAdded : before.reachingDelayed id function body =
        (Session.entering { (before.declaringDelayed id).adding (.delayedInit function)
            (before.declaringDelayed id).bodies.declarationBody with
          delayedBodies := before.delayedBodies.insert function
            (before.declaringDelayed id).bodies.arena.next } body).starting id := by
      simp [reachingDelayed, delaying, declaringDelayed, emitting, allocating, found]
    rw [isAdded]
    refine .addDelayed isOpen (fun other => ?_) rfl found ?_
    · rw [← next, ← kinds]
      exact Bodies.kind_newBody ..
    · exact congrArg (before.delayedBodies.insert function) next

theorem Step.body_cases (step : Step context before after) : BodyChange context before after := by
  cases step
  case emit body stmt allowed =>
      exact .same (fun _ => Bodies.kind_emitInto ..) rfl rfl
  case declareReached | constructDelayed =>
      cases ‹Option (ValueId × Expr)› <;>
        exact .same (fun _ => Bodies.kind_emitInto ..) rfl rfl
  case newLazy isNew home current isLazy => exact .addLazy isNew home isLazy rfl
  case reachDelayed isOpen isBody => exact .of_delaying isOpen
  case reachAlias =>
      unfold reachingAlias
      split <;> exact .same (fun _ => rfl) rfl rfl
  all_goals exact .same (fun _ => rfl) rfl rfl

/-- No body of an optimized root comes into being while values are written. -/
theorem Step.kind_root (step : Step context before after)
    (isRoot : after.bodies.kind body = .root function) :
    before.bodies.kind body = .root function := by
  cases step.body_cases with
  | same kind _ _ => rwa [kind] at isRoot
  | addLazy isNew home isLazy same =>
    subst same
    rw [addingLazy, adding, Bodies.kind_newBody] at isRoot
    split at isRoot
    · cases isRoot
    · exact isRoot
  | addDelayed _ kind _ _ _ =>
    rw [kind] at isRoot
    split at isRoot
    · cases isRoot
    · exact isRoot

theorem Steps.kind_root (steps : Steps context before after)
    (isRoot : after.bodies.kind body = .root function) :
    before.bodies.kind body = .root function := by
  induction steps with
  | refl => exact isRoot
  | tail _ step induction => exact induction (step.kind_root isRoot)

/-! ## The tables of bodies -/

end Session

namespace Bodies

def ListedBy (bodies : Bodies) (sort : ValueId → BodyKind) (table : ValueId → Option BodyId) :
    Prop :=
  ∀ body id, bodies.kind body = sort id ↔ table id = some body

theorem kind_next (bodies : Bodies) : bodies.kind bodies.arena.next = .global := by
  have missing : bodies.arena.get? bodies.arena.next = none := by
    refine Option.not_isSome_iff_eq_none.mp fun present => ?_
    exact absurd (Arena.get?_isSome_iff.mp present) (by simp [Arena.next])
  simp [kind, missing]

theorem ListedBy.add {bodies later : Bodies} {sort : ValueId → BodyKind}
    {table table' : ValueId → Option BodyId} {added : BodyKind}
    (listed : bodies.ListedBy sort table)
    (notGlobal : ∀ id, sort id ≠ .global)
    (kind : ∀ body, later.kind body =
      if body = bodies.arena.next then added else bodies.kind body)
    (isNew : ∀ id, added = sort id → table id = none)
    (isTable : ∀ id, table' id = if added = sort id then some bodies.arena.next else table id) :
    later.ListedBy sort table' := by
  intro body id
  have unlisted : ∀ id, table id ≠ some bodies.arena.next := fun id isListed =>
    notGlobal id (((listed _ id).mpr isListed).symm.trans bodies.kind_next)
  by_cases isNext : body = bodies.arena.next <;> by_cases isSort : added = sort id
  · simp [kind, isTable, isNext, isSort]
  · simp [kind, isTable, isNext, isSort, unlisted]
  · have notListed : bodies.kind body ≠ sort id := fun same =>
      absurd ((isNew id isSort).symm.trans ((listed body id).mp same)) (by simp)
    simp [kind, isTable, isNext, isSort, notListed, Ne.symm isNext]
  · simpa [kind, isTable, isNext, isSort] using listed body id

end Bodies

namespace Session

variable {later : FunctionInstance}

/-- The tables name the bodies of their kinds. -/
structure Housed (context : Context) (session : Session) : Prop where
  lazyObjects : session.bodies.ListedBy .lazyInitializer session.lazyBody?
  delayedBodies : session.bodies.ListedBy .delayedInit session.delayedBodies.get?
  distinctLazy : session.lazyObjects.keys.Nodup
  allowed : session.lazyObjects = {} ∨ context.settings.lazyObjects.isSome
  selected : ∀ id object, session.lazyObjects.get? id = some object →
    context.IsLazy id ∧ session.declaredIn.get? id = some Bodies.global
  numbered : session.lazyObjects.values.map (·.number) = List.range' 1 session.lazyObjects.size

namespace Housed

theorem initial (context : Context) : Housed context (Session.initial context) := by
  have kind : ∀ body, Bodies.initial.kind body = .global := by
    rintro ⟨_ | index⟩ <;> rfl
  constructor
  case lazyObjects => simp [Bodies.ListedBy, kind, lazyBody?, Session.initial]
  case delayedBodies => simp [Bodies.ListedBy, kind, Session.initial]
  case distinctLazy => exact List.nodup_nil
  case allowed => exact .inl rfl
  case selected => simp [Session.initial]
  case numbered => rfl

theorem step (housed : Housed context before) (step : Step context before after)
    (valid : before.Valid context) : Housed context after := by
  have selected : ∀ id object, before.lazyObjects.get? id = some object →
      context.IsLazy id ∧ after.declaredIn.get? id = some Bodies.global := by
    intro id object isLazy
    obtain ⟨selected, home⟩ := housed.selected id object isLazy
    exact ⟨selected, (step.extends_ valid).declaredIn id _ home⟩
  cases step.body_cases with
  | same kind lazyObjects delayedBodies =>
    constructor
    case lazyObjects =>
      simpa only [Bodies.ListedBy, kind, lazyBody?, lazyObjects] using housed.lazyObjects
    case delayedBodies =>
      simpa only [Bodies.ListedBy, kind, delayedBodies] using housed.delayedBodies
    case distinctLazy => exact lazyObjects ▸ housed.distinctLazy
    case allowed => exact lazyObjects ▸ housed.allowed
    case selected => exact lazyObjects ▸ selected
    case numbered => exact lazyObjects ▸ housed.numbered
  | @addLazy id isNew home isLazy same =>
    subst same
    have kind := fun body => Bodies.kind_newBody before.bodies body (.lazyInitializer id)
      Bodies.global
    constructor
    case lazyObjects =>
      refine housed.lazyObjects.add (by simp) kind ?_ fun other => ?_
      · rintro _ ⟨⟩
        simp [lazyBody?, isNew]
      · simp only [lazyBody?, addingLazy, KeyedTable.get?_insert, BodyKind.lazyInitializer.injEq]
        split <;> rfl
    case delayedBodies =>
      exact housed.delayedBodies.add (by simp) kind (by simp) (by simp [addingLazy, adding])
    case distinctLazy => exact KeyedTable.nodup_keys_insert _ _ housed.distinctLazy
    case allowed =>
      obtain ⟨_, settings, -, isSettings⟩ := isLazy
      exact .inr (Option.isSome_of_mem (Option.filter_eq_some_iff.mp isSettings).1)
    case selected =>
      intro other object found
      simp only [addingLazy, KeyedTable.get?_insert] at found
      split at found
      · rename_i same
        subst same
        exact ⟨isLazy, home⟩
      · exact selected other object found
    case numbered =>
      simpa [addingLazy, KeyedTable.values, KeyedTable.size,
        KeyedTable.entries_insert_of_new _ isNew, List.range'_concat, Nat.add_comm 1] using
        housed.numbered
  | @addDelayed function isOpen kind lazyObjects isNew delayedBodies =>
    constructor
    case lazyObjects =>
      exact housed.lazyObjects.add (by simp) kind (by simp) (by simp [lazyBody?, lazyObjects])
    case delayedBodies =>
      refine housed.delayedBodies.add (by simp) kind ?_ fun other => ?_
      · rintro _ ⟨⟩
        exact isNew
      · simp only [delayedBodies, KeyedTable.get?_insert, BodyKind.delayedInit.injEq]
    case distinctLazy => exact lazyObjects ▸ housed.distinctLazy
    case allowed => exact lazyObjects ▸ housed.allowed
    case selected => exact lazyObjects ▸ selected
    case numbered => exact lazyObjects ▸ housed.numbered

theorem addingRoot (housed : Housed context session) (function : ValueId) (parent : BodyId) :
    Housed context (session.adding (.root function) parent) := by
  have kind := fun body => Bodies.kind_newBody session.bodies body (.root function) parent
  exact ⟨housed.lazyObjects.add (by simp) kind (by simp) (by simp [lazyBody?, adding]),
    housed.delayedBodies.add (by simp) kind (by simp) (by simp [adding]), housed.distinctLazy,
    housed.allowed, housed.selected, housed.numbered⟩

end Housed

/-! ## Functions -/

section

variable (step : Step context before after)

include step

theorem Step.function_cases {name : String} {function : FunctionValue}
    (isFunction : context.IsFunction id function) (named : after.HasName id name) :
    before.HasName id name ∨ ∃ code, after = before.reachingFunction id code := by
  have old : ∀ {target : ValueId} {object : ObjectValue},
      context.graph.values.get? target = some (.object object) →
      (before.allocating target).identifiers.get? id = some name →
      before.identifiers.get? id = some name := by
    intro target object isObject named
    have different : id ≠ target := by
      rintro rfl
      simp [isFunction] at isObject
    simpa [allocating, SideTable.get?_insert, different] using named
  cases step
  case reachObject constructs isNew declares => exact .inl (old constructs.isObject named)
  case declareReached | constructDelayed =>
      cases ‹Option (ValueId × Expr)› <;> exact .inl named
  case reachDelayed constructs isDelayed isNew declares home isOpen isBody =>
      refine .inl (old constructs.isObject ?_)
      simpa [reachingDelayed, starting, entering, declaringDelayed, emitting] using named
  case reachAlias isObject unknown owned isNew declares hasOwner ownerNamed =>
      refine .inl (old isObject ?_)
      unfold reachingAlias at named
      split at named <;> exact named
  case reachFunction target function' isFunction' isNew declares =>
      by_cases same : id = target
      · subst same
        exact .inr ⟨_, rfl⟩
      · exact .inl (by simpa [reachingFunction, starting, allocating, SideTable.get?_insert, same]
          using named)
  all_goals exact .inl named

theorem Step.open_cases :
    after.openFunctions = before.openFunctions ∨
    after.openFunctions = before.openFunctions.tail ∧ after.inProgress = before.inProgress ∨
    ∃ id function, context.IsFunction id function ∧
      id ∈ before.inProgress ∧ after = before.opening id := by
  cases step
  case openFunction isFunction isStarted => exact .inr (.inr ⟨_, _, isFunction, isStarted, rfl⟩)
  case closeFunction => exact .inr (.inl ⟨rfl, rfl⟩)
  case declareReached | constructDelayed =>
      cases ‹Option (ValueId × Expr)› <;> exact .inl rfl
  case reachDelayed => exact .inl (openFunctions_delaying _ _)
  case reachAlias =>
      left
      unfold reachingAlias
      split <;> rfl
  all_goals exact .inl rfl

theorem Step.started_cases (member : id ∈ after.inProgress) :
    id ∈ before.inProgress ∨ before.identifiers.get? id = none := by
  have started : ∀ {target : ValueId}, before.identifiers.get? target = none →
      id ∈ before.inProgress.insert target →
      id ∈ before.inProgress ∨ before.identifiers.get? id = none := by
    intro target isNew member
    rcases List.mem_insert_iff.mp member with rfl | member
    · exact .inr isNew
    · exact .inl member
  cases step
  case reachObject constructs isNew declares => exact started isNew member
  case reachFunction isFunction isNew declares => exact started isNew member
  case declareReached | constructDelayed =>
      cases ‹Option (ValueId × Expr)› <;> exact .inl (List.mem_filter.mp member).1
  case reachDelayed constructs isDelayed isNew declares home isOpen isBody =>
      refine started isNew ?_
      simpa [reachingDelayed, starting, entering, declaringDelayed, emitting, allocating]
        using member
  case reachAlias isObject unknown owned isNew declares hasOwner ownerNamed =>
      unfold reachingAlias at member
      split at member
      · exact started isNew member
      · exact .inl member
  case finishAlias => exact .inl (List.mem_filter.mp member).1
  case place => exact .inl (List.mem_filter.mp member).1
  all_goals exact .inl member

theorem Step.place_cases (valid : before.Valid context) :
    SamePoints before after ∨ ∃ id inst, before.HasInstance id inst ∧
      before.declaredIn.get? id = some before.bodies.current ∧
      (∀ body, before.delayedBodies.get? id = some body →
        ∃ flag, inst.delayed = some { body, flag }) ∧
      after = (before.placing id).finishing id := by
  cases step
  case place isFunction isInstance home isClosed isFirst isBound isMethod isAttached =>
      exact .inr ⟨_, _, isInstance, home, isAttached, rfl⟩
  case reachFunction id function isFunction isNew declares =>
      refine .inl fun other inst later found foundLater => ?_
      have different : id ≠ other := by
        rintro rfl
        simp [valid.notInstance id isNew] at found
      simp only [reachingFunction, KeyedTable.get?_insert, if_neg different, found] at foundLater
      cases foundLater
      exact ⟨rfl, rfl⟩
  case declareReached | constructDelayed =>
      cases ‹Option (ValueId × Expr)› <;> exact .inl (samePoints_of_eq rfl)
  case reachDelayed => exact .inl (samePoints_of_eq (instances_delaying _ _))
  case reachAlias id owner object ownerName isObject unknown owned isNew declares hasOwner
      ownerNamed =>
      have points := samePoints_changing (before.allocating id) owner
        (fun inst => (⟨rfl, rfl⟩ :
          (addAlias before.names.generate.1 ownerName inst).insertionPoint = inst.insertionPoint ∧
            _ = inst.serial))
      left
      unfold reachingAlias
      split <;> exact points
  case use id =>
      refine .inl (samePoints_changing before id fun inst => ?_)
      split <;> exact ⟨rfl, rfl⟩
  case attachDelayed => exact .inl (samePoints_changing before _ fun _ => ⟨rfl, rfl⟩)
  case adjust adjusts =>
      exact .inl (samePoints_changing before _ fun inst =>
        ⟨(adjusts.keeps inst).1, (adjusts.keeps inst).2.1⟩)
  all_goals exact .inl (samePoints_of_eq rfl)

theorem Step.placed_cases (valid : before.Valid context) (found : after.HasInstance id later) :
    later.insertionPoint = none ∧ before.instances.get? id = none ∨
    ∃ inst, before.HasInstance id inst ∧ InstanceChange context before id inst later ∧
      (later.insertionPoint = inst.insertionPoint ∨
        later.insertionPoint = some before.bodies.position ∧ id ∉ after.inProgress ∧
        before.declaredIn.get? id = some before.bodies.current ∧
        ∀ body, before.delayedBodies.get? id = some body →
          ∃ flag, inst.delayed = some { body, flag }) := by
  rcases step.instance_cases found with ⟨inst, isInstance, change⟩ | ⟨_, _, isNew, _, rfl, rfl⟩
  · refine .inr ⟨inst, isInstance, change, ?_⟩
    rcases step.place_cases valid with points | ⟨other, placed, isPlaced, home, attached, rfl⟩
    · exact .inl (points id inst later isInstance found).1
    · obtain ⟨inst', isInstance', rfl | ⟨rfl, rfl⟩⟩ := instances_changing found
      · exact .inl (congrArg (·.insertionPoint)
          (Option.some.inj (isInstance'.symm.trans isInstance)))
      · obtain rfl : placed = inst := Option.some.inj (isPlaced.symm.trans isInstance)
        exact .inr ⟨rfl, by simp [finishing], home, attached⟩
  · exact .inl ⟨rfl, valid.notInstance id isNew⟩

end

structure Prepared (context : Context) (session : Session) : Prop where
  instanced : ∀ id name function, session.identifiers.get? id = some name →
    context.graph.values.get? id = some (.function function) →
    ∃ inst, session.instances.get? id = some inst
  unplaced : ∀ id ∈ session.inProgress, ∀ inst, session.instances.get? id = some inst →
    inst.insertionPoint = none
  opened : ∀ id ∈ session.openFunctions, id ∈ session.inProgress ∧
    ∃ function, context.graph.values.get? id = some (.function function)
  atHome : ∀ id inst point, session.instances.get? id = some inst →
    inst.insertionPoint = some point → point.body = inst.declarationBody
  attached : ∀ id body inst, session.delayedBodies.get? id = some body →
    session.instances.get? id = some inst → inst.insertionPoint ≠ none →
    ∃ flag, inst.delayed = some { body, flag }
  flagged : ∀ id inst delayed, session.instances.get? id = some inst →
    inst.delayed = some delayed → session.delayedBodies.get? id = some delayed.body
  delays : ∀ id body, session.delayedBodies.get? id = some body →
    ∃ function, context.graph.values.get? id = some (.function function)

namespace Prepared

theorem initial (context : Context) : Prepared context (Session.initial context) where
  instanced _ _ _ named := by simp [Session.initial, SideTable.get?] at named
  unplaced _ member := by simp [Session.initial] at member
  opened _ member := by simp [Session.initial] at member
  atHome _ _ _ found := by simp [Session.initial] at found
  attached _ _ _ _ found := by simp [Session.initial] at found
  flagged _ _ _ found := by simp [Session.initial] at found
  delays _ _ found := by simp [Session.initial] at found

section

variable (prepared : Prepared context before) (step : Step context before after)

include prepared step

theorem instanced_step (valid : before.Valid context) {name : String} {function : FunctionValue}
    (named : after.HasName id name) (isFunction : context.IsFunction id function) :
    ∃ inst, after.HasInstance id inst := by
  rcases step.function_cases isFunction named with old | ⟨code, rfl⟩
  · obtain ⟨inst, isInstance⟩ := prepared.instanced id name function old isFunction
    obtain ⟨later, isLater, -⟩ := (step.extends_ valid).instances id inst isInstance
    exact ⟨later, isLater⟩
  · exact ⟨_, KeyedTable.get?_insert_self ..⟩

theorem opened_step (member : id ∈ after.openFunctions) :
    id ∈ after.inProgress ∧ ∃ function, context.IsFunction id function := by
  rcases step.open_cases with same | ⟨same, sameProgress⟩ |
    ⟨other, function, isFunction, isStarted, rfl⟩
  · have wasOpen : id ∈ before.openFunctions := same ▸ member
    obtain ⟨started, function, isFunction⟩ := prepared.opened id wasOpen
    exact ⟨(step.inProgress_cases isFunction started).resolve_right fun placed => placed.1 wasOpen,
      function, isFunction⟩
  · rw [sameProgress]
    exact prepared.opened id (List.mem_of_mem_tail (same ▸ member))
  · rcases List.mem_cons.mp member with rfl | member
    · exact ⟨isStarted, function, isFunction⟩
    · exact prepared.opened id member

theorem unplaced_step (valid : before.Valid context) (member : id ∈ after.inProgress)
    (found : after.HasInstance id later) :
    later.insertionPoint = none := by
  rcases step.placed_cases valid found with
    ⟨isFirst, -⟩ | ⟨inst, isInstance, -, same | ⟨-, finished, -⟩⟩
  · exact isFirst
  · have started : id ∈ before.inProgress := (step.started_cases member).resolve_right
      fun isNew => by simp [valid.notInstance id isNew] at isInstance
    rw [same]
    exact prepared.unplaced id started inst isInstance
  · exact absurd member finished

theorem atHome_step (valid : before.Valid context) (sound : before.Sound context) {point : Position}
    (found : after.HasInstance id later) (isPoint : later.insertionPoint = some point) :
    point.body = later.declarationBody := by
  rcases step.placed_cases valid found with
    ⟨isFirst, -⟩ | ⟨inst, isInstance, -, same⟩
  · simp [isFirst] at isPoint
  · obtain ⟨later', found', grows⟩ := (step.extends_ valid).instances id inst isInstance
    obtain rfl : later' = later := Option.some.inj (found'.symm.trans found)
    rw [grows.declarationBody]
    rcases same with same | ⟨isPlaced, -, home, -⟩
    · exact prepared.atHome id inst point isInstance (same ▸ isPoint)
    · obtain ⟨function, facts⟩ := sound.instances id inst isInstance
      obtain rfl := Option.some.inj (isPlaced.symm.trans isPoint)
      exact Option.some.inj (home.symm.trans facts.home)

theorem attached_step (valid : before.Valid context)
    (delayed : after.delayedBodies.get? id = some body) (found : after.HasInstance id later)
    (isPlaced : later.insertionPoint ≠ none) :
    ∃ flag, later.delayed = some { body, flag } := by
  rcases step.placed_cases valid found with ⟨isFirst, -⟩ | ⟨inst, isInstance, change, same⟩
  · exact absurd isFirst isPlaced
  · -- The body is not new, because the bodies for open functions only are.
    have old : before.delayedBodies.get? id = some body := by
      cases step.body_cases with
      | same _ _ same => exact same ▸ delayed
      | addLazy _ _ _ same => rw [same] at delayed; exact delayed
      | @addDelayed function isOpen _ _ isNew added =>
        rw [added, KeyedTable.get?_insert] at delayed
        split at delayed
        · rename_i isSame
          subst isSame
          obtain ⟨started, value, isFunction⟩ := prepared.opened function isOpen
          rcases same with same | ⟨-, finished, -⟩
          · exact absurd (same.trans (prepared.unplaced function started inst isInstance)) isPlaced
          · rcases step.inProgress_cases isFunction started with member | ⟨closed, -⟩
            · exact absurd member finished
            · exact absurd isOpen closed
        · exact delayed
    have known : ∃ flag, inst.delayed = some { body, flag } := by
      rcases same with same | ⟨-, -, -, attached⟩
      · exact prepared.attached id body inst old isInstance (same ▸ isPlaced)
      · exact attached body old
    cases change with
    | attachFlag isBody =>
      obtain rfl := Option.some.inj (isBody.symm.trans old)
      exact ⟨_, rfl⟩
    | adjust _ adjusts => exact (adjusts.keeps inst).2.2.2 ▸ known
    | _ => exact known

theorem flagged_step (valid : before.Valid context) {delayed : DelayedInit}
    (found : after.HasInstance id later) (isDelayed : later.delayed = some delayed) :
    after.delayedBodies.get? id = some delayed.body := by
  have extends_ := step.extends_ valid
  rcases step.instance_cases found with ⟨inst, isInstance, change⟩ | ⟨_, _, _, _, rfl, rfl⟩
  · have known : inst.delayed = some delayed → after.delayedBodies.get? id = some delayed.body :=
      fun same => extends_.delayedBodies id _ (prepared.flagged id inst delayed isInstance same)
    cases change with
    | attachFlag isBody =>
      obtain rfl := Option.some.inj isDelayed
      exact extends_.delayedBodies id _ isBody
    | adjust _ adjusts => exact known ((adjusts.keeps inst).2.2.2 ▸ isDelayed)
    | _ => exact known isDelayed
  · cases isDelayed

theorem delays_step (delayed : after.delayedBodies.get? id = some body) :
    ∃ function, context.IsFunction id function := by
  cases step.body_cases with
  | same _ _ same => exact prepared.delays id body (same ▸ delayed)
  | addLazy _ _ _ same =>
    rw [same] at delayed
    exact prepared.delays id body delayed
  | @addDelayed function isOpen _ _ isNew added =>
    rw [added, KeyedTable.get?_insert] at delayed
    split at delayed
    · rename_i isSame
      exact isSame ▸ (prepared.opened function isOpen).2
    · exact prepared.delays id body delayed

end

theorem step (prepared : Prepared context before) (step : Step context before after)
    (valid : before.Valid context) (sound : before.Sound context) : Prepared context after where
  instanced _ _ _ named isFunction := prepared.instanced_step step valid named isFunction
  unplaced _ member _ found := prepared.unplaced_step step valid member found
  opened _ member := prepared.opened_step step member
  atHome _ _ _ found isPoint := prepared.atHome_step step valid sound found isPoint
  attached _ _ _ delayed found isPlaced := prepared.attached_step step valid delayed found isPlaced
  flagged _ _ _ found isDelayed := prepared.flagged_step step valid found isDelayed
  delays _ _ delayed := prepared.delays_step step delayed

end Prepared

/-! ## Insertion points -/

def PointsInside (session : Session) : Prop :=
  ∀ id inst point, session.instances.get? id = some inst → inst.insertionPoint = some point →
    point.index ≤ (session.bodies.stmts point.body).length

theorem PointsInside.step (inside : before.PointsInside) (step : Step context before after)
    (valid : before.Valid context) : after.PointsInside := by
  intro id later point found isPoint
  have grows := (step.extends_ valid).bodies
  rcases step.placed_cases valid found with ⟨isFirst, -⟩ | ⟨inst, isInstance, -, same⟩
  · simp [isFirst] at isPoint
  rcases same with same | ⟨isPlaced, -, -, -⟩
  · exact Nat.le_trans (inside id inst point isInstance (same ▸ isPoint))
      (grows.stmts_prefix _).length_le
  · obtain rfl := Option.some.inj (isPlaced.symm.trans isPoint)
    exact (grows.stmts_prefix _).length_le

end Session

end HeapScript
