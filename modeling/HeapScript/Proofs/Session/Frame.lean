import HeapScript.Proofs.Heap.Closed
import HeapScript.Proofs.Session.Growth

/-!
What writing a value leaves as it was.

Writing a value moves the cursor back to where it was, and completes all that it started, except for
the `prototype` objects that wait for functions which were under construction before.
-/

namespace HeapScript

open List Runs

variable {id awaited : ValueId} {body : BodyId} {stmt : Stmt} {name : String}
  {change : FunctionInstance → FunctionInstance} {work : Deferred}

namespace Session

/-! ## Runs of the primitives -/

section Runs

variable {before after : Session} {result : Unit}

@[simp] theorem runs_updateBodies {change : Bodies → Bodies} :
    Runs (updateBodies change) before result after ↔
      after = { before with bodies := change before.bodies } := by
  simp [updateBodies]

@[simp] theorem runs_emitInto :
    Runs (emitInto body stmt) before result after ↔ after = before.emitting body stmt := by
  simp [emitInto, emitting]

@[simp] theorem runs_emit :
    Runs (emit stmt) before result after ↔
      after = before.emitting before.bodies.current stmt := by
  simp [emit, emitting, Bodies.emit]

@[simp] theorem runs_newBody {kind : BodyKind} {parent : BodyId} {id : BodyId} :
    Runs (newBody kind parent) before id after ↔
      id = before.bodies.arena.next ∧ after = before.adding kind parent := by
  simp [newBody, adding, Bodies.newBody, and_comm]

theorem does_inBody {α : Type} {action : SessionM α} {Expected : Failure → Prop}
    {Outcome : α → Session → Prop}
    (does : Does Expected action (before.entering body) fun value inside =>
      inside.bodies.entered = (before.entering body).bodies.entered ∧
        Outcome value inside.leaving) :
    Does Expected (inBody body action) before Outcome := by
  refine .seq (runs_updateBodies.mpr rfl) (does.bind ?_)
  rintro value inside ⟨entered, outcome⟩
  have left : inside.bodies.leave = .ok (body, inside.leaving.bodies) := by
    simp [Bodies.leave, entered, Session.entering, Bodies.enter, leaving]
  exact .get_bind (.step (Runs.lift_iff.mpr ⟨left, rfl⟩)
    (.seq (runs_updateBodies.mpr rfl) (.of_pure outcome)))

@[simp] theorem runs_allocate :
    Runs (allocate id) before name after ↔
      name = before.names.generate.1 ∧ after = before.allocating id := by
  simp [allocate, allocating, and_comm]

@[simp] theorem runs_identifier :
    Runs (identifier id) before name after ↔
      before.identifiers.get? id = some name ∧ after = before := by
  simp only [identifier, Runs.get_bind]
  cases before.identifiers.get? id <;> simp [eq_comm]

@[simp] theorem runs_isAllocated {found : Bool} :
    Runs (isAllocated id) before found after ↔
      found = (before.identifiers.get? id).isSome ∧ after = before := by
  simp only [isAllocated, SideTable.contains, Runs.get_bind, pure_iff]

@[simp] theorem runs_isInProgress {found : Bool} :
    Runs (isInProgress id) before found after ↔
      found = decide (id ∈ before.inProgress) ∧ after = before := by
  simp only [isInProgress, Runs.get_bind, pure_iff]

@[simp] theorem runs_instanceOf {inst : FunctionInstance} :
    Runs (instanceOf id) before inst after ↔
      before.instances.get? id = some inst ∧ after = before := by
  simp only [instanceOf, Runs.get_bind]
  cases before.instances.get? id <;> simp [eq_comm]

@[simp] theorem runs_updateInstance :
    Runs (updateInstance id change) before result after ↔
      (∃ inst, before.instances.get? id = some inst) ∧ after = before.changing id change := by
  simp only [updateInstance, Runs.bind_iff, runs_instanceOf, modify_iff, changing]
  constructor
  · rintro ⟨inst, _, ⟨found, rfl⟩, same⟩
    exact ⟨⟨inst, found⟩, same⟩
  · rintro ⟨⟨inst, found⟩, same⟩
    exact ⟨inst, before, ⟨found, rfl⟩, same⟩

@[simp] theorem runs_start : Runs (start id) before result after ↔ after = before.starting id := by
  simp [start, starting]

@[simp] theorem runs_defer :
    Runs (defer awaited work) before result after ↔ after = before.deferring awaited work := by
  simp [defer, deferring]

@[simp] theorem runs_noteUsage :
    Runs (noteUsage id) before result after ↔ after = before.noting id := by
  simp [noteUsage, noting, changing]

end Runs

end Session

def Context.Owned (context : Context) (id owner : ValueId) : Prop :=
  context.prototypeOwners.get? id = some owner

inductive Failure.EndsWriting : Failure → Prop where
  | escapesRoot (id : ValueId) : EndsWriting (.escapesRoot id)
  | nestedTooDeeply (id : ValueId) : EndsWriting (.nestedTooDeeply id)

/-- The failures for which the writing of values may end if all references of the graph lead
somewhere. -/
def Context.Ends (context : Context) (failure : Failure) : Prop :=
  context.Closed → failure.EndsWriting

theorem Context.errorsOnly_ends {context : Context} {α : Type} {value : Except Failure α}
    (succeeds : context.Closed → ∃ result, value = .ok result) : ErrorsOnly context.Ends value := by
  intro failure isFailure closed
  obtain ⟨result, isOk⟩ := succeeds closed
  cases isFailure.symm.trans isOk

namespace Session

variable {owner : ValueId}

variable {context : Context} {before middle after session : Session}

/-! ## What waits -/

def waiting (session : Session) (id : ValueId) : List Deferred :=
  (session.deferred.get? id).getD []

def Waits (context : Context) (session : Session) (id owner : ValueId) : Prop :=
  context.Owned id owner ∧ Deferred.prototype id ∈ session.waiting owner

theorem waiting_deferring (session : Session) (awaited id : ValueId) (work : Deferred) :
    (session.deferring awaited work).waiting id =
      if awaited = id then session.waiting awaited ++ [work] else session.waiting id := by
  simp only [waiting, deferring, KeyedTable.get?_insert]
  split <;> rfl

theorem waiting_finishing (session : Session) (id other : ValueId) :
    (session.finishing id).waiting other = if id = other then [] else session.waiting other := by
  simp only [waiting, finishing, KeyedTable.get?_erase]
  split <;> rfl

def release (writePrototype : ValueId → SessionM Unit) : Deferred → SessionM Unit
  | .stmt body stmt object => do
    emitInto body stmt
    object.forM releaseLock
  | .prototype object => writePrototype object

theorem runs_finish {writePrototype : ValueId → SessionM Unit} {result : Unit} :
    Runs (finish writePrototype id) before result after ↔
      Runs ((before.waiting id).forM (release writePrototype))
        (before.finishing id) result after := by
  simp only [finish, Runs.get_bind, Runs.modify_bind]
  exact Iff.rfl

theorem does_finish {writePrototype : ValueId → SessionM Unit} {Expected : Failure → Prop}
    {Outcome : Unit → Session → Prop}
    (does : Does Expected ((before.waiting id).forM (release writePrototype)) (before.finishing id)
      Outcome) : Does Expected (finish writePrototype id) before Outcome :=
  .get_bind (.seq (modify_iff.mpr rfl) does)

theorem waits_congr (same : after.deferred = before.deferred) :
    after.Waits context id owner ↔ before.Waits context id owner := by
  simp [Waits, waiting, same]

theorem waits_deferring {object : Option ValueId} :
    (session.deferring awaited (.stmt body stmt object)).Waits context id owner ↔
      session.Waits context id owner := by
  simp only [Waits, waiting_deferring]
  split
  · rename_i same
    subst same
    simp
  · rfl

theorem waits_finishing {other : ValueId} :
    (session.finishing id).Waits context other owner ↔
      session.Waits context other owner ∧ owner ≠ id := by
  simp only [Waits, waiting_finishing]
  by_cases same : id = owner
  · simp [same]
  · simp [same, Ne.symm same]

theorem mem_waiting_linking {link : Option (ValueId × Expr)} :
    work ∈ (session.linking name link).waiting id ↔ work ∈ session.waiting id ∨
      ∃ expr, link = some (id, expr) ∧
        work = .stmt session.bodies.current (setPrototypeOf (.var name) expr) none := by
  cases link with
  | none => simp [linking]
  | some link =>
    obtain ⟨prototype, expr⟩ := link
    simp only [linking, waiting_deferring]
    split
    · rename_i same
      subst same
      simp
    · simp [*]

theorem waits_linking {link : Option (ValueId × Expr)} :
    (session.linking name link).Waits context id owner ↔ session.Waits context id owner := by
  cases link with
  | none => rfl
  | some link => exact waits_deferring

theorem Waits.inProgress (waits : session.Waits context id owner) (valid : session.Valid context) :
    owner ∈ session.inProgress := by
  have waiting := waits.2
  unfold Session.waiting at waiting
  cases found : session.deferred.get? owner with
  | none => simp [found] at waiting
  | some works => exact valid.awaited owner works found

theorem canWait_of_waiting (valid : session.Valid context) (member : work ∈ session.waiting id) :
    session.CanWait context id work := by
  unfold Session.waiting at member
  cases found : session.deferred.get? id with
  | none => simp [found] at member
  | some works => exact valid.deferred id works found work (by simpa [found] using member)

theorem waiting_of_isNew (valid : session.Valid context)
    (isNew : session.identifiers.get? id = none) : session.waiting id = [] := by
  unfold Session.waiting
  cases found : session.deferred.get? id with
  | none => rfl
  | some works =>
    obtain ⟨name, named⟩ := valid.started id (valid.awaited id works found)
    simp [isNew] at named

/-! ## Work on values -/

def SamePoints (before after : Session) : Prop :=
  ∀ id inst later, before.instances.get? id = some inst → after.instances.get? id = some later →
    later.insertionPoint = inst.insertionPoint ∧ later.serial = inst.serial

theorem samePoints_of_eq (same : after.instances = before.instances) : SamePoints before after := by
  intro id inst later found foundLater
  rw [same, found] at foundLater
  cases foundLater
  exact ⟨rfl, rfl⟩

theorem SamePoints.of_eq (points : SamePoints before middle)
    (same : after.instances = middle.instances) : SamePoints before after := by
  intro id inst later found foundLater
  exact points id inst later found (same ▸ foundLater)

theorem samePoints_changing (session : Session) (id : ValueId)
    (same : ∀ inst, (change inst).insertionPoint = inst.insertionPoint ∧
      (change inst).serial = inst.serial) : SamePoints session (session.changing id change) := by
  intro other inst later found foundLater
  simp only [changing, KeyedTable.get?_modify, found] at foundLater
  split at foundLater
  · cases foundLater
    exact same inst
  · cases foundLater
    exact ⟨rfl, rfl⟩

/-- Steps that leave the given values under construction, with all that waits for them, and complete
all else that they start. -/
structure Work (context : Context) (roots : List ValueId) (before after : Session) : Prop where
  steps : Steps context before after
  kept : ∀ id ∈ before.inProgress, id ∈ after.inProgress
  waits : ∀ id owner, before.Waits context id owner → after.Waits context id owner
  fresh : ∀ id owner, after.Waits context id owner →
    before.Waits context id owner ∨ before.identifiers.get? id = none
  started : ∀ id ∈ after.inProgress, ∃ root, (root ∈ before.inProgress ∨ root ∈ roots) ∧
    Relation.ReflTransGen (after.Waits context) id root
  points : SamePoints before after

namespace Work

variable {roots others : List ValueId}

theorem refl (context : Context) (session : Session) : Work context [] session session where
  steps := .refl
  kept _ := id
  waits _ _ := id
  fresh _ _ := .inl
  started id member := ⟨id, .inl member, .refl⟩
  points := samePoints_of_eq rfl

theorem extends_ (work : Work context roots before after) (valid : before.Valid context) :
    Extends before after :=
  work.steps.extends_ valid

theorem valid (work : Work context roots before after) (valid : before.Valid context) :
    after.Valid context :=
  work.steps.valid valid

theorem trans (first : Work context roots before middle) (second : Work context others middle after)
    (valid : before.Valid context) : Work context (roots ++ others) before after where
  steps := first.steps.trans second.steps
  kept id member := second.kept id (first.kept id member)
  waits id owner waits := second.waits id owner (first.waits id owner waits)
  fresh id owner waits := by
    rcases second.fresh id owner waits with waits | isNew
    · exact first.fresh id owner waits
    · right
      cases found : before.identifiers.get? id with
      | none => rfl
      | some name => rw [(first.extends_ valid).identifiers id name found] at isNew; cases isNew
  started id member := by
    obtain ⟨between, isRoot, path⟩ := second.started id member
    rcases isRoot with memberBetween | memberOthers
    · obtain ⟨root, isRoot, pathBefore⟩ := first.started between memberBetween
      refine ⟨root, isRoot.imp_right (mem_append_left _), path.trans ?_⟩
      exact Relation.ReflTransGen.mono second.waits _ _ pathBefore
    · exact ⟨between, .inr (mem_append_right _ memberOthers), path⟩
  points id inst later found foundLater := by
    obtain ⟨between, foundBetween, _⟩ := (first.extends_ valid).instances id inst found
    obtain ⟨point, serial⟩ := first.points id inst between found foundBetween
    obtain ⟨point', serial'⟩ := second.points id between later foundBetween foundLater
    exact ⟨point'.trans point, serial'.trans serial⟩

theorem of_step (step : Step context before after)
    (inProgress : after.inProgress = before.inProgress)
    (waits : ∀ id owner, after.Waits context id owner ↔ before.Waits context id owner)
    (points : SamePoints before after) : Work context [] before after where
  steps := .single step
  kept _ member := inProgress ▸ member
  waits id owner := (waits id owner).mpr
  fresh id owner waiting := .inl ((waits id owner).mp waiting)
  started id member := ⟨id, .inl (inProgress ▸ member), .refl⟩
  points := points

theorem of_start (step : Step context before after)
    (inProgress : after.inProgress = before.inProgress.insert id)
    (deferred : after.deferred = before.deferred) (points : SamePoints before after) :
    Work context [id] before after where
  steps := .single step
  kept _ member := inProgress ▸ mem_insert_of_mem member
  waits _ _ := (waits_congr deferred).mpr
  fresh _ _ waits := .inl ((waits_congr deferred).mp waits)
  started other member := by
    rw [inProgress, mem_insert_iff] at member
    refine ⟨other, ?_, .refl⟩
    exact member.elim (fun same => .inr (by simp [same])) .inl
  points := points

/-- A step that completes a value which has been started. What has waited for the value becomes
the first to be completed next. -/
theorem finish {next : List ValueId} (work : Work context (id :: others) before middle)
    (step : Step context middle after) (valid : before.Valid context)
    (isNew : before.identifiers.get? id = none)
    (inProgress : ∀ other, other ∈ after.inProgress ↔ other ∈ middle.inProgress ∧ other ≠ id)
    (waits : ∀ other owner,
      after.Waits context other owner ↔ middle.Waits context other owner ∧ owner ≠ id)
    (released : ∀ other, middle.Waits context other id → other ∈ next)
    (points : SamePoints before after) : Work context (next ++ others) before after := by
  have old : ∀ other ∈ before.inProgress, other ≠ id := by
    rintro other member rfl
    obtain ⟨name, named⟩ := valid.started other member
    simp [isNew] at named
  refine {
    steps := work.steps.tail step
    kept := fun other member => (inProgress other).mpr ⟨work.kept other member, old other member⟩
    waits := fun other owner waiting => (waits other owner).mpr
      ⟨work.waits other owner waiting, old owner (waiting.inProgress valid)⟩
    fresh := fun other owner waiting => work.fresh other owner ((waits other owner).mp waiting).1
    started := ?_
    points }
  intro other member
  obtain ⟨memberBefore, different⟩ := (inProgress other).mp member
  obtain ⟨root, isRoot, path⟩ := work.started other memberBefore
  -- A line of waiting objects ends at a root, unless it is cut where it meets the value.
  clear member memberBefore
  induction path using Relation.ReflTransGen.head_induction_on with
  | refl =>
    refine ⟨root, isRoot.imp_right fun member => ?_, .refl⟩
    exact mem_append_right _ ((mem_cons.mp member).resolve_left different)
  | @head other owner first _ induction =>
    by_cases same : owner = id
    · subst same
      exact ⟨other, .inr (mem_append_left _ (released other first)), .refl⟩
    · obtain ⟨root, isRoot, path⟩ := induction same
      exact ⟨root, isRoot, .head ((waits other owner).mpr ⟨first, same⟩) path⟩

end Work

/-! ## Frames -/

structure Remains (context : Context) (before after : Session) : Prop where
  steps : Steps context before after
  entered : after.bodies.entered = before.bodies.entered
  openFunctions : after.openFunctions = before.openFunctions
  undecided : ∀ key binding, binding.storage = .undecided →
    (after.bindings.get? key = some binding ↔ before.bindings.get? key = some binding)

namespace Remains

theorem refl (context : Context) (session : Session) : Remains context session session :=
  ⟨.refl, rfl, rfl, fun _ _ _ => Iff.rfl⟩

theorem trans (first : Remains context before middle) (second : Remains context middle after) :
    Remains context before after where
  steps := first.steps.trans second.steps
  entered := second.entered.trans first.entered
  openFunctions := second.openFunctions.trans first.openFunctions
  undecided key binding isUndecided :=
    (second.undecided key binding isUndecided).trans (first.undecided key binding isUndecided)

theorem of_step (step : Step context before after)
    (entered : after.bodies.entered = before.bodies.entered)
    (openFunctions : after.openFunctions = before.openFunctions)
    (bindings : after.bindings = before.bindings) : Remains context before after where
  steps := .single step
  entered := entered
  openFunctions := openFunctions
  undecided _ _ _ := by rw [bindings]

section

variable (remains : Remains context before after)

include remains

theorem current : after.bodies.current = before.bodies.current := by
  simp [Bodies.current, remains.entered]

theorem declarationBody (valid : before.Valid context) :
    after.bodies.declarationBody = before.bodies.declarationBody := by
  rw [Bodies.declarationBody, remains.current]
  exact (remains.steps.extends_ valid).bodies.declarationBodyOf_eq valid.tree
    (remains.steps.valid valid).tree valid.has_current

theorem declares (valid : before.Valid context) (declares : before.AtDeclarations) :
    after.AtDeclarations := by
  unfold AtDeclarations
  rw [remains.current, (remains.steps.extends_ valid).bodies.kind_eq valid.has_current]
  exact declares

end

end Remains

def Gathers (context : Context) (session : Session) (function : FunctionValue) : Prop :=
  ∀ member ∈ membersOfClass context function, context.IsBuilt member →
    ∃ name, session.identifiers.get? member = some name

theorem Gathers.of_extends {function : FunctionValue} (gathers : before.Gathers context function)
    (extends_ : Extends before after) : after.Gathers context function :=
  fun member isMember isBuilt =>
    (gathers member isMember isBuilt).imp (extends_.identifiers member)

/-- As much remains as before, and each new function has been reached with its class. -/
structure Stays (context : Context) (before after : Session) : Prop
    extends Remains context before after where
  gathers : ∀ id function name, context.graph.values.get? id = some (.function function) →
    after.identifiers.get? id = some name →
    before.identifiers.get? id = some name ∨ after.Gathers context function

namespace Stays

theorem refl (context : Context) (session : Session) : Stays context session session :=
  ⟨.refl context session, fun _ _ _ _ => .inl⟩

theorem trans (first : Stays context before middle) (second : Stays context middle after)
    (valid : before.Valid context) : Stays context before after where
  toRemains := first.toRemains.trans second.toRemains
  gathers id function name isFunction named := by
    rcases second.gathers id function name isFunction named with named | gathers
    · exact (first.gathers id function name isFunction named).imp_right fun gathers =>
        gathers.of_extends (second.steps.extends_ (first.steps.valid valid))
    · exact .inr gathers

theorem of_step (step : Step context before after)
    (entered : after.bodies.entered = before.bodies.entered)
    (openFunctions : after.openFunctions = before.openFunctions)
    (bindings : after.bindings = before.bindings)
    (functions : ∀ id function, context.IsFunction id function →
      after.identifiers.get? id = before.identifiers.get? id) : Stays context before after where
  toRemains := .of_step step entered openFunctions bindings
  gathers id function _ isFunction named := .inl (functions id function isFunction ▸ named)

end Stays

/-- What holds between the sessions before and after a value is written. -/
structure Frame (context : Context) (before after : Session) : Prop
    extends Work context [] before after, Stays context before after

theorem Work.trans_frame {roots : List ValueId} (work : Work context roots before middle)
    (frame : Frame context middle after) (valid : before.Valid context) :
    Work context roots before after := by
  simpa using work.trans frame.toWork valid

namespace Frame

theorem refl (context : Context) (session : Session) : Frame context session session :=
  { Work.refl context session, Stays.refl context session with }

theorem trans (first : Frame context before middle) (second : Frame context middle after)
    (valid : before.Valid context) : Frame context before after :=
  { first.toWork.trans second.toWork valid,
    first.toStays.trans second.toStays valid with }

/-- A step that neither moves the cursor nor starts or completes a value. -/
theorem of_step (step : Step context before after)
    (entered : after.bodies.entered = before.bodies.entered)
    (openFunctions : after.openFunctions = before.openFunctions)
    (inProgress : after.inProgress = before.inProgress)
    (waits : ∀ id owner, after.Waits context id owner ↔ before.Waits context id owner)
    (bindings : after.bindings = before.bindings) (points : SamePoints before after)
    (functions : ∀ id function, context.IsFunction id function →
      after.identifiers.get? id = before.identifiers.get? id) :
    Frame context before after :=
  { Work.of_step step inProgress waits points,
    Stays.of_step step entered openFunctions bindings functions with }

theorem emit (allowed : session.Allows context none body stmt) :
    Frame context session (session.emitting body stmt) :=
  .of_step (.emit allowed) rfl rfl rfl (fun _ _ => Iff.rfl) rfl (samePoints_of_eq rfl)
    fun _ _ _ => rfl

theorem defer {object : Option ValueId} (isWaiting : awaited ∈ session.inProgress)
    (allowed : session.Allows context (some awaited) body stmt) :
    Frame context session (session.deferring awaited (.stmt body stmt object)) :=
  .of_step (.defer isWaiting (.stmt allowed)) rfl rfl rfl (fun _ _ => waits_deferring) rfl
    (samePoints_of_eq rfl) fun _ _ _ => rfl

theorem lock {lock : PendingLock} (allowed : session.Allows context none lock.body lock.stmt) :
    Frame context session (session.locking id lock) :=
  .of_step (.lock allowed) rfl rfl rfl (fun _ _ => Iff.rfl) rfl (samePoints_of_eq rfl)
    fun _ _ _ => rfl

theorem unlock (session : Session) (id : ValueId) :
    Frame context session { session with locks := session.locks.erase id } :=
  .of_step (.unlock id) rfl rfl rfl (fun _ _ => Iff.rfl) rfl (samePoints_of_eq rfl)
    fun _ _ _ => rfl

/-- A step that only changes what is known of an instance, other than the place of its
definition. -/
theorem changing (step : Step context session (session.changing id change))
    (same : ∀ inst, (change inst).insertionPoint = inst.insertionPoint ∧
      (change inst).serial = inst.serial) : Frame context session (session.changing id change) :=
  .of_step step rfl rfl rfl (fun _ _ => Iff.rfl) rfl (samePoints_changing session id same)
    fun _ _ _ => rfl

theorem use (session : Session) (id : ValueId) : Frame context session (session.noting id) := by
  refine changing (.use id) fun inst => ?_
  split <;> exact ⟨rfl, rfl⟩

theorem settled (frame : Frame context before after) (valid : before.Valid context)
    (settled : before.Settled id) : after.Settled id :=
  (frame.extends_ valid).settled_of_settled settled

theorem hasInstance (frame : Frame context before after) (valid : before.Valid context)
    (hasInstance : ∃ inst, before.HasInstance id inst) : ∃ inst, after.HasInstance id inst := by
  obtain ⟨inst, isInstance⟩ := hasInstance
  obtain ⟨later, isLater, _⟩ := (frame.extends_ valid).instances id inst isInstance
  exact ⟨later, isLater⟩

/-- What is written inside a body, after which the cursor moves back. -/
theorem inBody (present : before.bodies.Has body)
    (inside : Frame context (before.entering body) after) (valid : before.Valid context) :
    Frame context before after.leaving := by
  have entering : Work context [] before (before.entering body) :=
    .of_step (.enter present) rfl (fun _ _ => Iff.rfl) (samePoints_of_eq rfl)
  have leaving : Work context [] after after.leaving :=
    .of_step .leave rfl (fun _ _ => Iff.rfl) (samePoints_of_eq rfl)
  exact {
    (entering.trans_frame inside valid).trans leaving valid with
    entered := by simp [Session.leaving, inside.entered, Session.entering, Bodies.enter]
    openFunctions := inside.openFunctions
    undecided := inside.undecided
    gathers := inside.gathers }

theorem refers (frame : Frame context before after) (valid : before.Valid context) {expr : Expr}
    (refers : before.Refers context before.bodies.current id expr) :
    after.Refers context after.bodies.current id expr := by
  rw [frame.current]
  exact (frame.extends_ valid).refers valid.tree valid.has_current refers

end Frame

/-! ## Under construction -/

/-- The session is writing a value: all that is under construction awaits it. -/
structure Under (context : Context) (session : Session) (id : ValueId) : Prop where
  present : context.Closed → context.graph.HasValue id
  inProgress : ∀ other ∈ session.inProgress, other = id ∨ context.Awaits other id
  home : ∀ function ∈ session.openFunctions,
    session.declaredIn.get? function = some session.bodies.declarationBody

theorem awaits_of_owned {root other : ValueId}
    (path : Relation.ReflTransGen context.Owned id root)
    (awaits : root = other ∨ context.Awaits root other) : id = other ∨ context.Awaits id other := by
  induction path using Relation.ReflTransGen.head_induction_on with
  | refl => exact awaits
  | head owned _ induction =>
    right
    rcases induction with rfl | awaits
    · exact (Context.Needs.owner owned).awaits
    · exact .of_owner owned awaits.path

theorem Work.awaits {roots : List ValueId} (work : Work context roots before after)
    (awaits : ∀ other ∈ before.inProgress, other = id ∨ context.Awaits other id)
    (awaitsRoots : ∀ other ∈ roots, other = id ∨ context.Awaits other id) :
    ∀ other ∈ after.inProgress, other = id ∨ context.Awaits other id := by
  intro other member
  obtain ⟨root, isRoot, path⟩ := work.started other member
  have owned : ∀ id owner, after.Waits context id owner → context.Owned id owner :=
    fun _ _ waits => waits.1
  exact awaits_of_owned (Relation.ReflTransGen.mono owned _ _ path)
    (isRoot.elim (awaits root) (awaitsRoots root))

namespace Under

variable {id other : ValueId}

theorem of_remains (under : Under context before id) (remains : Remains context before after)
    (valid : before.Valid context)
    (inProgress : ∀ other ∈ after.inProgress, other = id ∨ context.Awaits other id) :
    Under context after id where
  present := under.present
  inProgress := inProgress
  home function member := by
    rw [remains.declarationBody valid]
    exact (remains.steps.extends_ valid).declaredIn function _
      (under.home function (remains.openFunctions ▸ member))

theorem of_frame (under : Under context before id) (frame : Frame context before after)
    (valid : before.Valid context) : Under context after id :=
  under.of_remains frame.toRemains valid (frame.awaits under.inProgress (by simp))

section

variable (under : Under context session id)

include under

theorem entering (valid : session.Valid context) (present : session.bodies.Has body)
    (same : session.bodies.declarationBodyOf body = session.bodies.declarationBody) :
    Under context (session.entering body) id where
  present := under.present
  inProgress := under.inProgress
  home function member := by
    have grows : session.bodies.Grows (session.entering body).bodies :=
      (Bodies.Grows.refl session.bodies).of_arena_eq rfl
    have home : (session.entering body).bodies.declarationBody =
        session.bodies.declarationBodyOf body :=
      grows.declarationBodyOf_eq valid.tree (valid.tree.of_arena_eq rfl) present
    rw [home, same]
    exact under.home function member

theorem need (needs : context.Needs id other) : Under context session other where
  present closed := closed.hasValue_of_links (.needs needs)
  inProgress value member := by
    right
    rcases under.inProgress value member with rfl | awaits
    · exact needs.awaits
    · exact awaits.tail (.needs needs)
  home := under.home

/-- A value that is needed and still under construction is one from which the value was reached. -/
theorem awaits_of_need (needs : context.Needs id other) (started : other ∈ session.inProgress) :
    context.Awaits other id := by
  rcases under.inProgress other started with rfl | awaits
  · exact needs.awaits
  · exact awaits

/-- On to a value that is written along with a complete one. -/
theorem link (settled : session.Settled id) (links : context.Links id other) :
    Under context session other where
  present closed := closed.hasValue_of_links links
  inProgress value member := by
    right
    rcases under.inProgress value member with rfl | awaits
    · exact absurd member settled.2
    · exact awaits.tail links
  home := under.home

end

end Under

end Session

end HeapScript
