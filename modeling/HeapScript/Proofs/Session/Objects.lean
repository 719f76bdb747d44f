import HeapScript.Proofs.Session.Fillings

/-!
Writing objects goes by the steps of a session and keeps the ledger in balance.

An object gets its name, is created, and is filled, in one body or in several. Its account is open
on the way and complete at the end.
-/

namespace HeapScript

open List Runs

namespace Session

variable {id owner : ValueId} {result : Unit} {object : ObjectValue} {body : BodyId}
  {base : Session} {init : Expr} {name : String} {stmt : Stmt}

variable {context : Context} {before middle after session : Session}

/-! ## Construction -/

theorem finishing_starting (session : Session) (id : ValueId) :
    (session.starting id).finishing id = session.finishing id := by
  have same : (session.inProgress.insert id).filter (· ≠ id) =
      session.inProgress.filter (· ≠ id) := by
    by_cases member : id ∈ session.inProgress
    · rw [insert_of_mem member]
    · simp [insert_of_not_mem member]
  simp only [Session.finishing, Session.starting, same]

theorem starting_of_mem (member : id ∈ session.inProgress) : session.starting id = session := by
  simp [Session.starting, insert_of_mem member]

def completing (session : Session) (id : ValueId) (name : String) (link : Option (ValueId × Expr))
    (stmt : Stmt) : Session :=
  ((session.linking name link).emitting session.bodies.current stmt).finishing id

/-- An object has been reached since `base`, and a statement at the cursor is about to create it. -/
structure Creating (context : Context) (base session : Session) (id : ValueId)
    (object : ObjectValue) (name : String) (create : Expr → Stmt) : Prop where
  constructs : context.Constructs id object
  named : session.identifiers.get? id = some name
  sees : session.Sees session.bodies.current id
  step : ∀ init middle link, Frame context (session.starting id) middle →
    middle.CanLink context link → middle.AllowsHere context init →
    Step context middle (middle.completing id name link (create init))
  work : Work context [id] base (session.starting id)
  regularBase : Regular context base
  isNew : base.identifiers.get? id = none
  underBase : Under context base id
  under : Under context (session.starting id) id
  notLazy : session.lazyObjects.get? id = none
  mayFill : ∀ other, session.MayFill other

theorem Creating.regular {create : Expr → Stmt}
    (creating : Creating context base session id object name create) :
    Regular context (session.starting id) :=
  creating.regularBase.steps creating.work.steps

theorem Creating.refers {create : Expr → Stmt}
    (creating : Creating context base session id object name create)
    (frame : Frame context (session.starting id) middle) :
    middle.Refers context middle.bodies.current id (.var name) :=
  frame.refers creating.regular.valid
    (.named creating.constructs.isBuilt creating.named creating.sees
      (by simp [starting, lazyBody?, creating.notLazy]))

/-- The statement that creates an object also declares it, or it has been declared before. -/
inductive CreatedBy (id : ValueId) (name : String) :
    (Creation → Purpose) → (Expr → Stmt) → Prop where
  | declared : CreatedBy id name (.declared id) (.var name)
  | created : CreatedBy id name (.created id) (.assign (.var name))

/-- The prototype of an object has been visited. The object is to be created with it, or is linked
to it when it is complete. -/
structure Constructed (context : Context) (before : Session) (id : ValueId) (object : ObjectValue)
    (name : String) (init : Expr) (after middle : Session) (link : Option (ValueId × Expr))
    (creation : Creation) (links : Multiset (BodyId × Purpose)) : Prop where
  frame : Frame context (before.starting id) middle
  canLink : middle.CanLink context link
  allowed : middle.AllowsHere context init
  same : after.starting id = middle.linking name link
  inherits : object.Inherits id middle.bodies.current creation links
  creates : middle.Creates context middle.bodies.current id creation (some init)
  posts : ∀ {opened flight ledger}, Posting context opened flight before ledger id →
    ∃ later, Posted context opened flight id before ledger after later links 0

theorem Constructed.bodies_eq {link : Option (ValueId × Expr)} {creation : Creation}
    {links : Multiset (BodyId × Purpose)}
    (constructed :
      Constructed context before id object name init after middle link creation links) :
    after.bodies = middle.bodies := by
  have same := congrArg Session.bodies constructed.same
  cases link <;> exact same

theorem mayWait_link {prototype : ValueId} (isObject : context.IsObject id object)
    (isPrototype : object.prototype = some prototype) (under : Under context session id)
    (isWaiting : prototype ∈ session.inProgress) : context.MayWait (.link id) := by
  refine ⟨rfl, fun other isLink => ?_⟩
  cases isLink
  exact ⟨object, prototype, isObject, isPrototype,
    under.awaits_of_need (.prototype isObject isPrototype) isWaiting⟩

section

variable {visit : ValueId → SessionM Expr} (visits : Visits context visit) {base : Session}
  {id : ValueId} {object : ObjectValue} {name : String} {create : Expr → Stmt}

include visits

theorem does_construction (creating : Creating context base before id object name create) :
    Does context.Ends (construction visit id object) before fun init after =>
      ∃ middle link creation links,
        Constructed context before id object name init after middle link creation links := by
  have regular := creating.regular
  have valid := regular.valid
  have constructs := creating.constructs
  unfold construction
  split
  · rename_i isPlain
    exact .of_pure ⟨_, none, .plain, 0, .refl context _, by simp [CanLink], by simp [AllowsHere,
      Expr.usedNames, usedNamesOfFields], rfl, .nothing isPlain, .plain,
      fun posting => ⟨_, .refl posting⟩⟩
  · rename_i prototype isPrototype
    have needs : context.Needs id prototype := .prototype constructs.isObject isPrototype
    refine .seq (runs_start.mpr rfl) ((visits regular (creating.under.need needs)).bind ?_)
    rintro prototypeExpr middle ⟨writing, refers⟩
    have validMiddle := writing.valid valid
    have member : id ∈ middle.inProgress :=
      writing.kept id (mem_insert_iff.mpr (.inl rfl))
    have preserves := (Preserves.starting before id).trans writing.preserves
    refine .step (runs_isInProgress.mpr ⟨rfl, rfl⟩) ?_
    split
    · rename_i isWaiting
      have isWaiting : prototype ∈ middle.inProgress := of_decide_eq_true isWaiting
      have named := (writing.extends_ valid).identifiers id name creating.named
      have records : middle.Records context ⟨middle.bodies.current, .link id,
          setPrototypeOf (.var name) prototypeExpr⟩ :=
        ⟨validMiddle.has_current, .link constructs.isObject isPrototype
          (creating.refers writing.toFrame) refers,
          (writing.mayFill valid (creating.mayFill id)).about rfl rfl⟩
      refine .step (runs_identifier.mpr ⟨named, rfl⟩) (.get_bind (.seq (runs_defer.mpr rfl)
        (.of_pure ⟨middle, some (prototype, prototypeExpr), .plain,
          {(middle.bodies.current, .link id)}, writing.toFrame, ?_, ?_, starting_of_mem member,
          .linked isPrototype, .plain, fun posting => ?_⟩)))
      · rintro _ _ ⟨⟩
        exact ⟨isWaiting, refers⟩
      · simp [AllowsHere, Expr.usedNames, usedNamesOfFields]
      · obtain ⟨between, posted⟩ := Posted.of_preserves preserves posting.balanced posting.isOpen
        have parked := Posted.park (posted.posting posting (by simp)) validMiddle.tree rfl
          (mayWait_link constructs.isObject isPrototype
            (creating.under.of_frame writing.toFrame valid) isWaiting) records prototype
        exact ⟨_, by simpa [Entry.place, Purpose.lockedObject?] using posted.trans parked⟩
    · rename_i complete
      refine .of_pure ⟨middle, none, .fromPrototype, 0, writing.toFrame, by simp [CanLink], ?_,
        starting_of_mem member, .atOnce isPrototype,
        .fromPrototype constructs.isObject isPrototype refers,
        fun posting => Posted.of_preserves preserves posting.balanced posting.isOpen⟩
      have allowed : middle.Allows context none middle.bodies.current
          (.expr (.methodCall (.var "Object") "create" [prototypeExpr])) := by
        refine allows_objectCall validMiddle.has_current fun arg member name used => ?_
        obtain rfl : arg = prototypeExpr := by simpa using member
        exact refers.nameable (.inl (by simpa using complete)) name used
      exact allowed.2

omit visits in
theorem releases_completing {link : Option (ValueId × Expr)}
    (step : Step context session (session.completing id name link stmt))
    (named : session.HasName id name) (sees : session.Sees session.bodies.current id)
    (canLink : session.CanLink context link) (work : Work context [id] base session)
    (regularBase : Regular context base) (isNew : base.identifiers.get? id = none)
    (underBase : Under context base id) (under : Under context session id)
    (mayFill : ∀ other, session.MayFill other) :
    Releases context base (session.completing id name link stmt) id
        ((session.linking name link).waiting id) ∧
      Stays context session (session.completing id name link stmt) := by
  have valid := work.valid regularBase.valid
  have extends_ := step.extends_ valid
  have same : (session.linking name link).inProgress = session.inProgress ∧
      (session.linking name link).instances = session.instances ∧
      (session.linking name link).bodies = session.bodies ∧
      (session.linking name link).openFunctions = session.openFunctions ∧
      (session.linking name link).bindings = session.bindings := by
    cases link <;> exact ⟨rfl, rfl, rfl, rfl, rfl⟩
  obtain ⟨sameProgress, sameInstances, sameBodies, sameOpen, sameBindings⟩ := same
  have inProgress : ∀ other, other ∈ (session.completing id name link stmt).inProgress ↔
      other ∈ session.inProgress ∧ other ≠ id := by
    simp [completing, Session.finishing, Session.emitting, sameProgress]
  have stays : Stays context session (session.completing id name link stmt) :=
    .of_step step (show (session.linking name link).bodies.entered = _ by rw [sameBodies]) sameOpen
      sameBindings fun _ _ _ => by cases link <;> rfl
  have complete : id ∉ (session.completing id name link stmt).inProgress :=
    fun member => ((inProgress id).mp member).2 rfl
  refine ⟨.of_step work step regularBase isNew inProgress
    (fun other owner => waits_finishing.trans (and_congr_left' waits_linking))
    (work.points.of_eq sameInstances) (fun object => by simp [mem_waiting_linking]) ?_
    ⟨⟨name, extends_.identifiers id name named⟩, complete⟩ underBase
    (under.of_remains stays.toRemains valid fun other member =>
      under.inProgress other ((inProgress other).mp member).1)
    fun other => stays.mayFill valid (mayFill other), stays⟩
  intro work member
  rcases mem_waiting_linking.mp member with old | ⟨expr, rfl, rfl⟩
  · exact extends_.canWait valid.tree (canWait_of_waiting valid old)
  · exact valid.canWait_linked extends_ complete named sees (canLink id expr rfl).2

section

variable {constructed : Session} {link : Option (ValueId × Expr)} {creation : Creation}
  {links : Multiset (BodyId × Purpose)}
  (isConstructed : Constructed context before id object name init constructed middle link creation
    links) (creating : Creating context base before id object name create)

include isConstructed creating

omit visits in
theorem Constructed.named : constructed.HasName id name := by
  have same : constructed.identifiers = middle.identifiers := by
    have same := congrArg Session.identifiers isConstructed.same
    cases link <;> exact same
  rw [HasName, same]
  exact (isConstructed.frame.extends_ creating.regular.valid).identifiers id name creating.named

omit visits in
/-- An object is complete after the statement that creates it, and what has waited for it is done
next. -/
theorem Constructed.releases :
    Releases context base
        ((constructed.emitting constructed.bodies.current (create init)).finishing id) id
        (constructed.waiting id) ∧
      Stays context (before.starting id)
        ((constructed.emitting constructed.bodies.current (create init)).finishing id) := by
  have valid := creating.regular.valid
  have frame := isConstructed.frame
  have sameDone :
      (constructed.emitting constructed.bodies.current (create init)).finishing id =
        middle.completing id name link (create init) := by
    rw [completing, ← isConstructed.same, ← isConstructed.bodies_eq, ← finishing_starting]
    rfl
  have sameWaiting : constructed.waiting id = (middle.linking name link).waiting id := by
    rw [← isConstructed.same]
    rfl
  have extends_ := frame.extends_ valid
  have seesMiddle : middle.Sees middle.bodies.current id := by
    rw [frame.current]
    exact extends_.sees valid.tree valid.has_current creating.sees
  obtain ⟨releases, stays⟩ := releases_completing
    (creating.step init middle link frame isConstructed.canLink isConstructed.allowed)
    (extends_.identifiers id name creating.named) seesMiddle isConstructed.canLink
    (creating.work.trans_frame frame creating.regularBase.valid) creating.regularBase creating.isNew
    creating.underBase (creating.under.of_frame frame valid)
    fun other => frame.mayFill valid (creating.mayFill other)
  rw [sameDone, sameWaiting]
  exact ⟨releases, frame.toStays.trans stays valid⟩

/-- An object is created by a statement at the cursor, and its properties are set. -/
theorem does_construct {purpose : Creation → Purpose}
    (createdBy : CreatedBy id name purpose create) : Does context.Ends (do
      complete context visit id
      writeProperties visit id object.properties object.integrity)
      (constructed.emitting constructed.bodies.current (create init)) fun _ after =>
    Work context [] base after ∧ Stays context (before.starting id) after ∧ after.Settled id ∧
      ∀ {outer flight ledger baseLedger},
        Balanced context (.value id :: outer) flight before ledger →
        (∀ subject ∈ outer, Untouched base baseLedger before ledger subject) →
        (∀ other, base.identifiers.get? other = none → baseLedger.parkedFor other = []) →
        .value id ∉ outer → Unfilled before ledger flight id →
        (∀ creation links, object.Inherits id before.bodies.current creation links →
          context.Arises id before.bodies.current (before.accountIn ledger flight id +
            (links + {(before.bodies.current, purpose creation)}))) →
        ∃ later, Balanced context outer flight after later ∧
          ∀ subject ∈ outer, Untouched base baseLedger after later subject := by
  have valid := creating.regular.valid
  obtain ⟨releases, stays⟩ := isConstructed.releases creating
  refine (does_complete visits releases).runs.bind ?_
  rintro _ completed ⟨completing, releases', stays'⟩
  have stays := stays.trans stays' valid
  refine (does_writeProperties visits releases'.filling (.of_constructs creating.constructs)).imp ?_
  intro _ after fills
  refine ⟨releases'.work.trans_frame fills.toFrame creating.regularBase.valid,
    stays.trans fills.toStays valid, fills.settled releases'.regular.valid releases'.settled,
    fun {outer flight ledger baseLedger} balanced untouched parked notOpen unfilled arises => ?_⟩
  have sameBodies := isConstructed.bodies_eq
  obtain ⟨frame, -, -, same, inherits, creates, posts⟩ := isConstructed
  have current : middle.bodies.current = before.bodies.current := frame.current
  have validMiddle := frame.valid valid
  have isSubject : (purpose creation).subject = .value id := by cases createdBy <;> rfl
  have notLock : ∀ other, purpose creation ≠ .lock other := by cases createdBy <;> simp
  have notLocked : (purpose creation).lockedObject? = none := by cases createdBy <;> rfl
  have isPlain : (purpose creation).isPlaceholder = false := by
    cases createdBy <;> cases inherits <;> rfl
  -- The statement is written, and then all that has waited for the object is done.
  obtain ⟨between, posted⟩ := posts ⟨balanced, mem_cons_self, unfilled.unlocked⟩
  have posting := posted.posting ⟨balanced, mem_cons_self, unfilled.unlocked⟩
    fun place member => by simp [inherits.isLink place member]
  have serves : middle.Serves context middle.bodies.current (purpose creation) (create init) := by
    have named := (frame.extends_ valid).identifiers id name creating.named
    cases createdBy with
    | declared => exact .declared named creates
    | created => exact .created named (creating.refers frame) creates
  have records : constructed.Records context
      ⟨constructed.bodies.current, purpose creation, create init⟩ := by
    have records : middle.Records context ⟨middle.bodies.current, purpose creation, create init⟩ :=
      ⟨validMiddle.has_current, serves,
        (frame.mayFill valid (creating.mayFill id)).about rfl isSubject⟩
    have linked := records.of_extends ((Extends.refl middle).linking name link) validMiddle.tree
    rw [← same, ← sameBodies] at linked
    exact linked.of_reveals (.of_eq rfl rfl rfl rfl)
  have tree : constructed.bodies.Tree := sameBodies ▸ validMiddle.tree
  have posted := posted.trans (.write posting tree isSubject isPlain
    (absurd · (notLock id)) records)
  obtain ⟨landed, completedBalanced, account, untouched'⟩ := balanced_complete visits completing
    releases posted.balanced (tree.emitInto _ _) (fun subject member =>
      (untouched subject member).trans (posted.untouched notOpen subject member))
    creating.isNew parked
  rw [posted.account, Entry.place, sameBodies, current] at account
  rw [current] at inherits
  have stillUnfilled : Unfilled completed landed flight id := by
    intro place member
    rw [account, Multiset.mem_add, Multiset.mem_add, Multiset.mem_singleton] at member
    rcases member with member | member | rfl
    · exact unfilled place member
    · simp [inherits.isLink place member, Purpose.lockedObject?]
    · exact ⟨notLock id, by simp [notLocked]⟩
  have currentCompleted : completed.bodies.current = before.bodies.current := stays.current
  obtain ⟨later, balanced', filled⟩ := fills.close completedBalanced notOpen stillUnfilled (by
    rw [account, currentCompleted]
    exact arises creation links inherits)
  exact ⟨later, balanced', fun subject member =>
    (untouched' subject member).trans (filled subject member)⟩

end

end

/-! ## Objects -/

/-- A value is about to be written at the cursor. -/
structure Begins (context : Context) (session : Session) (id : ValueId) : Prop where
  regular : Regular context session
  under : Under context session id
  isNew : session.identifiers.get? id = none
  declares : session.AtDeclarations

theorem Begins.valid (begins : Begins context session id) : session.Valid context :=
  begins.regular.valid

theorem Begins.of_frame (begins : Begins context before id) (frame : Frame context before after)
    (isNew : after.identifiers.get? id = none) :
    Begins context after id where
  regular := begins.regular.frame frame
  under := begins.under.of_frame frame begins.valid
  isNew := isNew
  declares := frame.declares begins.valid begins.declares

theorem identifiers_allocating_function {other : ValueId} {function : FunctionValue}
    (isObject : context.IsObject id object)
    (isFunction : context.IsFunction other function) :
    (before.allocating id).identifiers.get? other = before.identifiers.get? other := by
  have different : id ≠ other := by
    rintro rfl
    simp [isObject] at isFunction
  simp [Session.allocating, SideTable.get?_insert, Ne.symm different]

theorem Begins.reach (begins : Begins context before id)
    (constructs : context.Constructs id object) :
    Work context [id] before ((before.allocating id).starting id) ∧
      Stays context before ((before.allocating id).starting id) ∧
      Under context ((before.allocating id).starting id) id := by
  have step : Step context before ((before.allocating id).starting id) :=
    .reachObject constructs begins.isNew begins.declares
  have stays : Stays context before ((before.allocating id).starting id) :=
    .of_step step rfl rfl rfl fun _ _ => identifiers_allocating_function constructs.isObject
  refine ⟨.of_start step rfl rfl (samePoints_of_eq rfl), stays, ?_⟩
  exact begins.under.of_remains stays.toRemains begins.valid fun other member =>
    (mem_insert_iff.mp member).elim .inl (begins.under.inProgress other)

theorem Begins.creating (begins : Begins context before id)
    (constructs : context.Constructs id object) :
    Creating context before (before.allocating id) id object before.names.generate.1
      (.var before.names.generate.1) := by
  obtain ⟨work, -, under⟩ := begins.reach constructs
  have named := Valid.identifiers_allocating_self before id
  have home := begins.valid.home_allocating begins.declares id
  refine ⟨constructs, named, ⟨_, home, .inr (Bodies.Tree.isWithin_self _ _)⟩, ?_, work,
    begins.regular,
    begins.isNew, begins.under, under, begins.valid.notLazy begins.isNew, begins.declares.mayFill⟩
  intro init middle link frame canLink allowed
  have extends_ := frame.extends_ (work.valid begins.valid)
  refine .declareReached constructs (extends_.identifiers id _ named) ?_ allowed canLink
  rw [frame.current]
  exact extends_.declaredIn id _ home

section

variable {function : ValueId} {settings : LazySettings}

variable {visit : ValueId → SessionM Expr} (visits : Visits context visit)

include visits

theorem does_writeEagerObject (begins : Begins context before id)
    (constructs : context.Constructs id object) :
    Does context.Ends (writeEagerObject context visit id object) (before.allocating id)
      fun _ after => Writing context before after ∧ ∃ name, after.HasName id name := by
  have valid := begins.valid
  have creating := begins.creating constructs
  refine (does_construction visits creating).bind ?_
  rintro init constructed ⟨middle, link, creation, links, isConstructed⟩
  simp only [declare, bind_assoc]
  refine .step (runs_identifier.mpr ⟨isConstructed.named creating, rfl⟩)
    (.seq (runs_emit.mpr rfl) ((does_construct visits isConstructed creating .declared).imp ?_))
  rintro _ after ⟨work, stays, settled, balances⟩
  refine ⟨⟨{ work, (begins.reach constructs).2.1.trans stays valid with }, ?_⟩, settled.1⟩
  intro opened flight ledger balanced
  obtain ⟨reached, empty⟩ := balanced.reach valid begins.isNew
  refine balances reached (fun _ _ => .of_locks rfl) (fun _ => balanced.parkedFor_of_isNew valid)
    (balanced.books.notOpen_of_unreached id begins.isNew) (by simp [Unfilled, empty])
    fun creation links inherits => ?_
  rw [empty, zero_add, add_comm links]
  exact .eager constructs inherits

theorem does_writePrototypeLink {prototype : ValueId} (isObject : context.IsObject id object)
    (isPrototype : object.prototype = some prototype) (filling : Filling context before id) :
    Does context.Ends (writePrototypeLink visit id prototype) before fun _ after =>
      Fills context id before after {(before.bodies.current, .link id)} 0 := by
  refine filling.does_refer visits (.needs (.prototype isObject isPrototype)) ?_
  intro prototypeExpr target referred writing filling' refersTarget refersPrototype
  rw [← writing.current]
  let entry : Entry :=
    ⟨referred.bodies.current, .link id, setPrototypeOf target prototypeExpr⟩
  have allowed : ∀ awaited, prototype ∉ referred.inProgress ∨ awaited = some prototype →
      referred.Allows context awaited entry.body entry.stmt := by
    intro awaited complete
    refine allows_objectCall filling'.valid.has_current fun arg member name used => ?_
    simp only [mem_cons, not_mem_nil, or_false] at member
    rcases member with rfl | rfl
    · exact refersTarget.nameable (.inl filling'.settled.2) name used
    · exact refersPrototype.nameable complete name used
  have records : referred.Records context entry :=
    ⟨filling'.valid.has_current, .link isObject isPrototype refersTarget refersPrototype,
      filling'.mayFill.about rfl rfl⟩
  split
  · rename_i isWaiting
    refine .get_bind (.done (runs_defer.mpr rfl) (.after_writing writing ?_ filling.valid))
    have isWaiting : prototype ∈ referred.inProgress := of_decide_eq_true isWaiting
    exact .park isWaiting (allowed _ (.inr rfl)) filling'.valid rfl
      (mayWait_link isObject isPrototype filling'.under isWaiting) records
  · rename_i complete
    refine .done (runs_emit.mpr rfl) (.after_writing writing ?_ filling.valid)
    exact .write (allowed _ (.inl (by simpa using complete))) filling'.valid rfl rfl
      (by simp [entry]) records

theorem does_linkPrototype (isObject : context.IsObject id object)
    (filling : Filling context before id) :
    Does context.Ends (object.prototype.forM (writePrototypeLink visit id)) before fun _ after =>
      Fills context id before after
        (object.prototype.toList.map fun _ => (before.bodies.current, Purpose.link id) : List _)
        0 := by
  cases isPrototype : object.prototype with
  | none => exact .of_pure (.refl context id _)
  | some prototype => exact does_writePrototypeLink visits isObject isPrototype filling

/-- An object is declared at the top level, and is about to be filled in a body of its own. -/
structure FillsLazy (context : Context) (session : Session) (id : ValueId) : Prop where
  regular : Regular context session
  under : Under context session id
  settled : session.Settled id
  isNew : session.lazyObjects.get? id = none
  home : session.declaredIn.get? id = some Bodies.global
  isGlobal : session.bodies.current = Bodies.global
  isLazy : context.IsLazy id

omit visits in
theorem FillsLazy.enter (fills : FillsLazy context before id) :
    Frame context before (before.addingLazy id) ∧
      (before.addingLazy id).bodies.Has before.bodies.arena.next ∧
      Filling context ((before.addingLazy id).entering before.bodies.arena.next) id := by
  have settled := fills.settled
  have valid := fills.regular.valid
  obtain ⟨regular, under, ⟨⟨name, named⟩, -⟩, isNew, home, isGlobal, isLazy⟩ := fills
  have frame : Frame context before (before.addingLazy id) :=
    .of_step (.newLazy named isNew home isGlobal isLazy) rfl rfl rfl (fun _ _ => Iff.rfl) rfl
      (samePoints_of_eq rfl) fun _ _ _ => rfl
  have validAdded := frame.valid valid
  have added := Bodies.get?_newBody before.bodies before.bodies.arena.next
    (.lazyInitializer id) Bodies.global
  simp only [if_true] at added
  have present : (before.addingLazy id).bodies.Has before.bodies.arena.next :=
    Arena.lt_size_of_get? added
  have sameHome : (before.addingLazy id).bodies.declarationBodyOf before.bodies.arena.next =
      (before.addingLazy id).bodies.declarationBody := by
    trans Bodies.global
    · apply validAdded.tree.declarationBodyOf_eq_parent present
      · exact congrArg (fun found => ((found.map Body.kind).getD .global).declaresValues) added
      · exact congrArg (fun found => found.bind Body.parent) added
    · have isGlobal : (before.addingLazy id).bodies.current = Bodies.global := isGlobal
      have declares : ((before.addingLazy id).bodies.kind Bodies.global).declaresValues = true := by
        rw [validAdded.tree.kind_global]
        rfl
      rw [Bodies.declarationBody, isGlobal]
      exact (validAdded.tree.declarationBodyOf_eq_self validAdded.tree.has_global declares).symm
  have enter : Step context (before.addingLazy id)
      ((before.addingLazy id).entering before.bodies.arena.next) := .enter present
  refine ⟨frame, present, (regular.frame frame).step enter,
    (under.of_frame frame valid).entering validAdded present sameHome, settled,
      fun object kind => ?_⟩
  cases (congrArg (fun found => (found.map Body.kind).getD .global) added).symm.trans kind
  rfl

theorem does_fillLazy (constructs : context.Constructs id object)
    (fills : FillsLazy context before id) :
    Does context.Ends (inBody before.bodies.arena.next do
      object.prototype.forM (writePrototypeLink visit id)
      writeProperties visit id object.properties object.integrity) (before.addingLazy id)
      fun _ after => Frame context before after ∧ ∀ {opened flight ledger number},
      Balanced context (.value id :: opened) flight (before.addingLazy id) ledger →
      .value id ∉ opened → (before.addingLazy id).accountIn ledger flight id =
        {(Bodies.global, .declared id (.placeholder ⟨number, some before.bodies.arena.next⟩))} →
      ∃ later, Balanced context opened flight after later ∧
        ∀ subject ∈ opened, Untouched (before.addingLazy id) ledger after later subject := by
  have valid := fills.regular.valid
  obtain ⟨frame, present, filling⟩ := fills.enter
  have validAdded := frame.valid valid
  refine does_inBody ((does_linkPrototype visits constructs.isObject filling).bind ?_)
  intro _ linked links
  have filling' := filling.of_frame links.toFrame
  refine (does_writeProperties visits filling' (.of_constructs constructs)).imp ?_
  intro _ inside fillsUp
  have whole := links.toFrame.trans fillsUp.toFrame filling.valid
  refine ⟨whole.entered, frame.trans (.inBody present whole validAdded) valid,
    fun {opened flight ledger number} balanced notOpen account => ?_⟩
  obtain ⟨_, entered⟩ := Posted.of_preserves (.entering validAdded.tree before.bodies.arena.next)
    balanced mem_cons_self
  obtain ⟨between, posted⟩ := links.posts (entered.posting
    ⟨balanced, mem_cons_self, by simp [Unlocked, account]⟩ (by simp))
  have posted := entered.trans posted
  have accountLinked := posted.account
  rw [account, zero_add] at accountLinked
  obtain ⟨filled, balanced', untouched⟩ := fillsUp.close posted.balanced notOpen
    (by
      intro place member
      rw [accountLinked, Multiset.mem_add, Multiset.mem_singleton] at member
      rcases member with rfl | member
      · simp [Purpose.lockedObject?]
      · obtain ⟨_, _, rfl⟩ := mem_map.mp (Multiset.mem_coe.mp member)
        simp [Purpose.lockedObject?])
    (by
      rw [accountLinked, links.current]
      exact .lazy constructs rfl)
  obtain ⟨later, balanced', untouched'⟩ :=
    Preserves.leaving (filling'.of_frame fillsUp.toFrame).valid.tree opened flight filled balanced'
  exact ⟨later, balanced', fun subject member =>
    ((posted.untouched notOpen subject member).trans (untouched subject member)).trans
      (untouched' subject member)⟩

omit visits in
def declaring (session : Session) (id : ValueId) (init : Expr) : Session :=
  ((session.allocating id).emitting session.bodies.current
    (.var session.names.generate.1 init)).finishing id

omit visits in
def numbering (session : Session) (id : ValueId) : Session :=
  { session with
    lazyObjects := session.lazyObjects.insert id { number := session.lazyObjects.size + 1 } }

omit visits in
theorem runs_lazyNumberFor (isNew : session.lazyObjects.get? id = none) :
    Runs (lazyNumberFor id) session (session.lazyObjects.size + 1) (session.numbering id) := by
  simp [lazyNumberFor, Runs.get_bind, isNew, numbering]

omit visits in
theorem runs_declareReached (begins : Begins context before id) :
    Runs (declare context visit id init) ((before.allocating id).numbering id) ⟨⟩
      ((before.declaring id init).numbering id) := by
  simp only [declare, Runs.bind_iff, runs_identifier, runs_emit, Session.complete, runs_finish,
    and_assoc, exists_and_left, exists_eq_left, exists_const]
  refine ⟨_, Valid.identifiers_allocating_self before id, ?_⟩
  change Runs ((before.waiting id).forM _) _ _ _
  rw [waiting_of_isNew begins.valid begins.isNew]
  exact pure_iff.mpr ⟨rfl, rfl⟩

omit visits in
theorem runs_setLazyBody (isNew : session.lazyObjects.get? id = none) :
    Runs (setLazyBody id session.bodies.arena.next)
      ((session.numbering id).adding (.lazyInitializer id) Bodies.global) ⟨⟩
      (session.addingLazy id) := by
  have known : ((session.numbering id).adding (.lazyInitializer id)
      Bodies.global).lazyObjects.get? id = some { number := session.lazyObjects.size + 1 } :=
    KeyedTable.get?_insert_self ..
  simp only [setLazyBody, Runs.get_bind, known]
  refine modify_iff.mpr ?_
  simp [addingLazy, numbering, adding, KeyedTable.modify_insert_of_new isNew]

omit visits in
theorem frame_declaring (begins : Begins context before id)
    (constructs : context.Constructs id object)
    (allowed : ((before.allocating id).starting id).AllowsHere context init) :
    Frame context before (before.declaring id init) ∧ (before.declaring id init).Settled id := by
  have valid := begins.valid
  obtain ⟨work, stays, under⟩ := begins.reach constructs
  have named := Valid.identifiers_allocating_self before id
  have isDone : before.declaring id init = ((before.allocating id).starting id).completing id
      before.names.generate.1 none (.var before.names.generate.1 init) :=
    (finishing_starting _ id).symm
  rw [isDone]
  have step : Step context ((before.allocating id).starting id)
      (((before.allocating id).starting id).completing id before.names.generate.1 none
        (.var before.names.generate.1 init)) :=
    .declareReached constructs named (valid.home_allocating begins.declares id) allowed
      (by simp [CanLink])
  have released : ∀ other, ((before.allocating id).starting id).Waits context other id →
      other ∈ ([] : List ValueId) := by
    intro other waits
    have member : .prototype other ∈ before.waiting id := waits.2
    simp [waiting_of_isNew valid begins.isNew] at member
  have finished : Work context [] before (((before.allocating id).starting id).completing id
      before.names.generate.1 none (.var before.names.generate.1 init)) :=
    work.finish step valid begins.isNew
      (fun other => by simp [completing, Session.finishing, linking, Session.emitting])
      (fun _ _ => waits_finishing) released (samePoints_of_eq rfl)
  have stays' : Stays context ((before.allocating id).starting id) _ :=
    .of_step step rfl rfl rfl fun _ _ _ => rfl
  refine ⟨{ finished, stays.trans stays' valid with }, ⟨⟨_, named⟩, ?_⟩⟩
  simp [completing, Session.finishing]

omit visits in
/-- The placeholder of a lazy object is written, and the object gets its number and its body. -/
theorem posted_declareLazy {settings : LazySettings} {declared : Session}
    (isDeclared : declared = before.declaring id (.methodCall (.path settings.runtime)
      "createLazyObject" [.nat (before.lazyObjects.size + 1)])) (begins : Begins context before id)
    (fills : FillsLazy context declared id)
    (isSettings : context.settings.lazyObjects = some settings)
    (balanced : Balanced context opened flight (before.allocating id) ledger)
    (isOpen : .value id ∈ opened)
    (unlocked : Unlocked (before.allocating id) ledger flight id) :
    ∃ later, Posted context opened flight id (before.allocating id) ledger (declared.addingLazy id)
      later {(Bodies.global, .declared id (.placeholder
        ⟨before.lazyObjects.size + 1, some declared.bodies.arena.next⟩))} 0 := by
  have valid := begins.valid
  obtain ⟨frameAdded, -⟩ := fills.enter
  subst isDeclared
  have isGlobal : before.bodies.current = Bodies.global := fills.isGlobal
  have named := Valid.identifiers_allocating_self before id
  have tree : (before.allocating id).bodies.Tree := valid.tree
  rw [declaring, isGlobal] at frameAdded fills ⊢
  generalize isBody : (((before.allocating id).emitting Bodies.global
    (.var before.names.generate.1 _)).finishing id).bodies.arena.next = body
  let entry : Entry := ⟨Bodies.global, .declared id (.placeholder
    ⟨before.lazyObjects.size + 1, some body⟩), .var before.names.generate.1 (.methodCall
      (.path settings.runtime) "createLazyObject" [.nat (before.lazyObjects.size + 1)])⟩
  have records : (before.allocating id).Records context entry :=
    ⟨tree.has_global, .declared named (.placeholder _ isSettings),
      fun object kind => absurd (tree.kind_global.symm.trans kind) (by simp)⟩
  have wrote := balanced.books.write records tree (.inl isOpen)
    (unlocked.mayCome balanced rfl (by simp [entry]))
  have finished := wrote.of_reveals
    (((Extends.refl _).finishing id).reveals (tree.emitInto _ _)) (fun _ => rfl) rfl rfl
  have added := finished.of_reveals
    ((frameAdded.extends_ fills.regular.valid).reveals fills.regular.valid.tree)
    (fun body => Bodies.stmts_newBody _ body _ _) rfl rfl
  refine ⟨ledger.write [entry], ⟨⟨added, fun other => ?_, ?_⟩, fun subject _ different => ?_,
    Books.account_write_self rfl (before.allocating id) entry.body entry.stmt _ _, rfl⟩⟩
  · refine (waiting_finishing _ id other).trans (Eq.trans ?_ (balanced.waiting other))
    split
    · rename_i same
      exact (same ▸ waiting_of_isNew valid begins.isNew).symm
    · rfl
  · have entries : (before.lazyObjects.insert id ⟨before.lazyObjects.size + 1, some body⟩).entries =
        before.lazyObjects.entries ++ [(id, ⟨before.lazyObjects.size + 1, some body⟩)] :=
      KeyedTable.entries_insert_of_new _ fills.isNew
    have heralds : (before.allocating id).Heralds context entry
        (id, ⟨before.lazyObjects.size + 1, some body⟩) :=
      ⟨settings, _, isSettings, named, rfl⟩
    rw [Heralded, Ledger.write, filter_append]
    subst isBody
    exact entries ▸ rel_append balanced.heralded (.cons heralds .nil)
  · exact .write _ ledger (by simpa [entry, Purpose.subject] using different.symm) fun _ _ => rfl

section

variable (isLazy : lazySettings? context object before.bodies.declarationBody = some settings)
  (begins : Begins context before id) (constructs : context.Constructs id object)

include isLazy begins constructs

omit visits in
theorem fillsLazy_declaring :
    context.settings.lazyObjects = some settings ∧
      ∀ init, init = .methodCall (.path settings.runtime) "createLazyObject"
          [.nat (before.lazyObjects.size + 1)] →
        Frame context before (before.declaring id init) ∧
        FillsLazy context (before.declaring id init) id ∧
        (before.declaring id init).bodies.declarationBody = Bodies.global := by
  have valid := begins.valid
  have isSettings := Option.filter_eq_some_iff.mp isLazy
  simp only [Bool.and_eq_true, beq_iff_eq] at isSettings
  refine ⟨isSettings.1, ?_⟩
  rintro _ rfl
  have allowed : ((before.allocating id).starting id).AllowsHere context
      (.methodCall (.path settings.runtime) "createLazyObject"
        [.nat (before.lazyObjects.size + 1)]) := by
    intro name used
    simp only [Expr.methodCall, Expr.usedNames, usedNamesOfExprs, Expr.nat, append_nil] at used
    refine .outside (mem_outsideNames (mem_append_left _ ?_) used)
    exact mem_map.mpr ⟨settings, by simp [isSettings.1], rfl⟩
  obtain ⟨frame, settled⟩ := frame_declaring begins constructs allowed
  have isGlobal : before.bodies.current = Bodies.global :=
    (valid.tree.declarationBodyOf_eq_self valid.has_current begins.declares).symm.trans
      isSettings.2.2
  exact ⟨frame, ⟨begins.regular.frame frame, begins.under.of_frame frame valid, settled,
    valid.notLazy begins.isNew,
    (valid.home_allocating begins.declares id).trans (congrArg some isGlobal), isGlobal,
    ⟨object, settings, constructs, isSettings.2.2 ▸ isLazy⟩⟩,
    (frame.declarationBody valid).trans isSettings.2.2⟩

theorem does_writeLazyObject :
    Does context.Ends (writeLazyObject context visit settings id object) (before.allocating id)
      fun _ after => Writing context before after ∧ ∃ name, after.HasName id name := by
  obtain ⟨isSettings, declares⟩ := fillsLazy_declaring isLazy begins constructs
  obtain ⟨frame, fills, sameHome⟩ := declares _ rfl
  refine .step (runs_lazyNumberFor (begins.valid.notLazy begins.isNew))
    (.seq (runs_declareReached begins) (.get_bind ?_))
  rw [show (before.allocating id).lazyObjects = before.lazyObjects from rfl,
    show ((before.declaring id _).numbering id).bodies.declarationBody = Bodies.global
      from sameHome]
  refine .step (runs_newBody.mpr ⟨rfl, rfl⟩) (.seq (runs_setLazyBody fills.isNew) ?_)
  refine (does_fillLazy visits constructs fills).imp ?_
  rintro _ after ⟨frame', balances⟩
  refine ⟨⟨frame.trans frame' begins.valid, fun opened flight ledger balanced => ?_⟩,
    (frame'.settled fills.regular.valid fills.settled).1⟩
  have notOpen := balanced.books.notOpen_of_unreached id begins.isNew
  obtain ⟨reached, empty⟩ := balanced.reach begins.valid begins.isNew
  obtain ⟨between, posted⟩ := posted_declareLazy rfl begins fills isSettings reached mem_cons_self
    (by simp [Unlocked, empty])
  obtain ⟨later, balanced', untouched⟩ := balances posted.balanced notOpen
    (by rw [posted.account, empty, zero_add])
  refine ⟨later, balanced', fun subject member => ?_⟩
  have reaching : Untouched before ledger (before.allocating id) ledger subject := .of_locks rfl
  exact (reaching.trans (posted.untouched notOpen subject member)).trans (untouched subject member)

end

omit visits in
theorem does_delayedBody :
    Does context.Ends (delayedBody function) before fun body after =>
      (before.delaying function).delayedBodies.get? function = some body ∧
        after = before.delaying function := by
  refine .get_bind ?_
  cases found : before.delayedBodies.get? function with
  | some known => exact .of_pure ⟨by simp [delaying, found], by simp [delaying, found]⟩
  | none =>
    exact .step (runs_newBody.mpr ⟨rfl, rfl⟩) (.seq (modify_iff.mpr rfl)
      (.of_pure ⟨by simp [delaying, found], by simp [delaying, found, adding]⟩))

omit visits in
/-- An object that is created later is reached: the cursor moves to the body for a first call. -/
theorem Begins.reachDelayed (begins : Begins context before id)
    (constructs : context.Constructs id object) (isDelayed : object.delayInto = some function)
    (isOpen : function ∈ before.openFunctions)
    (isBody : ((before.declaringDelayed id).delaying function).delayedBodies.get? function =
      some body) :
    Work context [id] before (before.reachingDelayed id function body) ∧
      Under context (before.reachingDelayed id function body) id ∧
      (before.reachingDelayed id function body).bodies.isWithin body before.bodies.current =
        true := by
  have valid := begins.valid
  have current := valid.tree.declarationBodyOf_eq_self valid.has_current begins.declares
  have home : before.declaredIn.get? function = some before.bodies.current :=
    (begins.under.home function isOpen).trans (congrArg some current)
  have step : Step context before (before.reachingDelayed id function body) :=
    .reachDelayed constructs isDelayed begins.isNew begins.declares home isOpen isBody
  have validReached := step.valid valid
  have extends_ := step.extends_ valid
  have isBody' : (before.reachingDelayed id function body).delayedBodies.get? function =
    some body := isBody
  obtain ⟨present, kind, home', isHome', around⟩ := validReached.delayedBodies function body isBody'
  obtain rfl : before.bodies.current = home' :=
    Option.some.inj ((extends_.declaredIn function _ home).symm.trans isHome')
  have declarationBody : (before.reachingDelayed id function body).bodies.declarationBody =
      before.bodies.current :=
    validReached.tree.declarationBodyOf_eq_parent present (by rw [kind]; rfl) around
  have sameProgress : (before.reachingDelayed id function body).inProgress =
      before.inProgress.insert id := by
    simp [reachingDelayed, Session.starting, Session.entering, declaringDelayed, Session.emitting,
      Session.allocating]
  refine ⟨.of_start step sameProgress (deferred_delaying _ _)
    (samePoints_of_eq (instances_delaying _ _)), ?_, Bodies.Tree.isWithin_of_parent? present around⟩
  refine ⟨begins.under.present, fun other member => ?_, fun other member => ?_⟩
  · rw [sameProgress] at member
    exact (mem_insert_iff.mp member).elim .inl (begins.under.inProgress other)
  · have member : other ∈ before.openFunctions := by
      simpa [reachingDelayed, Session.starting, Session.entering, declaringDelayed,
        Session.emitting, Session.allocating] using member
    rw [declarationBody, ← current]
    exact extends_.declaredIn other _ (begins.under.home other member)

omit visits in
theorem Begins.seesDelayed (begins : Begins context before id)
    (within : (before.reachingDelayed id function body).bodies.isWithin body before.bodies.current =
      true) :
    (before.reachingDelayed id function body).identifiers.get? id = some before.names.generate.1 ∧
      (before.reachingDelayed id function body).Sees body id := by
  have named : (before.reachingDelayed id function body).identifiers.get? id =
      some before.names.generate.1 := by
    simpa [reachingDelayed, Session.starting, Session.entering, declaringDelayed,
      Session.emitting] using Valid.identifiers_allocating_self before id
  have home : (before.reachingDelayed id function body).declaredIn.get? id =
      some before.bodies.current := by
    simpa [reachingDelayed, Session.starting, Session.entering, declaringDelayed,
      Session.emitting] using begins.valid.home_allocating begins.declares id
  exact ⟨named, _, home, .inr within⟩

omit visits in
theorem Begins.creatingDelayed (begins : Begins context before id)
    (constructs : context.Constructs id object) (isDelayed : object.delayInto = some function)
    (isOpen : function ∈ before.openFunctions)
    (isBody : ((before.declaringDelayed id).delaying function).delayedBodies.get? function =
      some body) :
    Creating context before (((before.declaringDelayed id).delaying function).entering body) id
      object before.names.generate.1 (.assign (.var before.names.generate.1)) := by
  obtain ⟨work, under, within⟩ := begins.reachDelayed constructs isDelayed isOpen isBody
  obtain ⟨named, sees⟩ := begins.seesDelayed within
  have valid := work.valid begins.valid
  have notLazy : ((before.declaringDelayed id).delaying function).lazyObjects.get? id = none := by
    rw [lazyObjects_delaying]
    exact begins.valid.notLazy begins.isNew
  refine ⟨constructs, named, sees, ?_, work, begins.regular, begins.isNew, begins.under, under,
    notLazy, fun other object kind => ?_⟩
  case refine_2 =>
    exact absurd ((valid.delayedBodies function body isBody).2.1.symm.trans kind) (by simp)
  intro init middle link frame canLink allowed
  have extends_ := frame.extends_ valid
  refine .constructDelayed constructs (extends_.identifiers id _ named) ?_ allowed canLink
  rw [frame.current]
  exact extends_.sees valid.tree valid.has_current sees

theorem does_writeDelayedObject (isDelayed : object.delayInto = some function)
    (isOpen : function ∈ before.openFunctions) (begins : Begins context before id)
    (constructs : context.Constructs id object) :
    Does context.Ends (writeDelayedObject context visit id object function) before fun _ after =>
      Writing context before after ∧ ∃ name, after.HasName id name := by
  refine .step (runs_allocate.mpr ⟨rfl, rfl⟩) (.seq (runs_emit.mpr rfl) (does_delayedBody.bind ?_))
  rintro body _ ⟨isBody, rfl⟩
  have valid := begins.valid
  have creating := begins.creatingDelayed constructs isDelayed isOpen isBody
  refine does_inBody ((does_construction visits creating).bind ?_)
  rintro init constructed ⟨middle, link, creation, links, isConstructed⟩
  refine .seq (runs_emit.mpr rfl) ((does_construct visits isConstructed creating .created).imp ?_)
  rintro _ inside ⟨work, stays, settled, balances⟩
  have leaving : Work context [] inside inside.leaving :=
    .of_step .leave rfl (fun _ _ => Iff.rfl) (samePoints_of_eq rfl)
  have sameBindings : (before.reachingDelayed id function body).bindings = before.bindings := by
    simp [reachingDelayed, Session.starting, Session.entering, declaringDelayed, Session.emitting,
      Session.allocating]
  refine ⟨stays.entered, ⟨{ work.trans leaving valid with
    entered := ?_
    openFunctions := stays.openFunctions.trans (openFunctions_delaying _ _)
    undecided := fun key binding isUndecided =>
      sameBindings ▸ stays.undecided key binding isUndecided
    gathers := fun other function name isFunction named =>
      (stays.gathers other function name isFunction named).imp_left fun named => by
        rw [← identifiers_allocating_function constructs.isObject isFunction]
        simpa [reachingDelayed, Session.starting, Session.entering, declaringDelayed,
          Session.emitting] using named }, fun opened flight ledger balanced => ?_⟩, settled.1⟩
  · have entered := stays.entered
    simp only [Session.starting, Session.entering, Bodies.enter, entered_delaying] at entered
    simp only [Session.leaving, entered]
    rfl
  -- The variable is declared where the object is reached, and the object is created elsewhere.
  have notOpen := balanced.books.notOpen_of_unreached id begins.isNew
  obtain ⟨reached, empty⟩ := balanced.reach valid begins.isNew
  have tree : (before.allocating id).bodies.Tree := valid.tree
  have records : (before.allocating id).Records context
      ⟨before.bodies.current, .declared id .later, .declare .var before.names.generate.1 none⟩ :=
    ⟨valid.has_current, .declared (Valid.identifiers_allocating_self before id) .later,
      (begins.declares.mayFill id).about rfl rfl⟩
  have declared := Posted.write ⟨reached, mem_cons_self, by simp [Unlocked, empty]⟩ tree rfl rfl
    (fun isLock => by cases isLock) records
  have entering : Preserves context (before.declaringDelayed id)
      (((before.declaringDelayed id).delaying function).entering body) :=
    .delaying (tree.emitInto _ _) function body
  obtain ⟨between, entered⟩ := Posted.of_preserves entering declared.balanced mem_cons_self
  have posted := declared.trans entered
  have account := posted.account
  rw [empty, zero_add, add_zero] at account
  have reaching : ∀ subject, Untouched before ledger (before.allocating id) ledger subject :=
    fun _ => .of_locks rfl
  obtain ⟨later, balanced', untouched⟩ := balances posted.balanced
    (fun subject member => (reaching subject).trans (posted.untouched notOpen subject member))
    (fun _ => balanced.parkedFor_of_isNew valid) notOpen
    (by
      intro place member
      rw [account, Multiset.mem_singleton] at member
      simp [member, Entry.place, Purpose.lockedObject?])
    (fun creation links inherits => by
      rw [account, add_comm links, ← add_assoc]
      exact .delayed constructs inherits)
  obtain ⟨left, balancedLeft, untouchedLeft⟩ :=
    Preserves.leaving (work.valid valid).tree opened flight later balanced'
  exact ⟨left, balancedLeft, fun subject member =>
    (untouched subject member).trans (untouchedLeft subject member)⟩

omit visits in
theorem waits_reachingAlias {other awaited : ValueId} {ownerName : String}
    (isWaiting : owner ∈ session.inProgress) (owned : context.Owned id owner) :
    (session.reachingAlias id owner ownerName).Waits context other awaited ↔
      session.Waits context other awaited ∨ other = id ∧ awaited = owner := by
  simp only [Waits, reachingAlias_of_mem isWaiting, waiting_deferring]
  by_cases same : owner = awaited
  · subst same
    simp only [if_true, mem_append, mem_singleton, Deferred.prototype.injEq, and_true]
    constructor
    · rintro ⟨owned, member | rfl⟩
      · exact .inl ⟨owned, member⟩
      · exact .inr rfl
    · rintro (⟨owned, member⟩ | rfl)
      · exact ⟨owned, .inl member⟩
      · exact ⟨owned, .inr rfl⟩
  · simp only [same, if_false, Ne.symm same, and_false, or_false]
    exact Iff.rfl

omit visits in
theorem Begins.reachAlias {ownerName : String} (begins : Begins context before id)
    (isObject : context.IsObject id object) (unknown : object.knownPath = none)
    (owned : context.Owned id owner) (hasOwner : ∃ inst, before.HasInstance owner inst)
    (ownerNamed : before.HasName owner ownerName) :
    Frame context before (before.reachingAlias id owner ownerName) := by
  have step : Step context before (before.reachingAlias id owner ownerName) :=
    .reachAlias isObject unknown owned begins.isNew begins.declares hasOwner ownerNamed
  have points : SamePoints before (before.reachingAlias id owner ownerName) := by
    have changed : SamePoints before
        (before.changing owner (addAlias before.names.generate.1 ownerName)) :=
      samePoints_changing before owner fun _ => ⟨rfl, rfl⟩
    apply changed.of_eq
    unfold reachingAlias
    split <;> rfl
  have stays : Stays context before (before.reachingAlias id owner ownerName) := by
    apply Stays.of_step step
    case functions =>
      intro other function isFunction
      refine Eq.trans ?_ (identifiers_allocating_function isObject isFunction)
      unfold reachingAlias
      split <;> rfl
    all_goals
      unfold reachingAlias
      split <;> rfl
  by_cases isWaiting : owner ∈ before.inProgress
  · have inProgress : (before.reachingAlias id owner ownerName).inProgress =
        before.inProgress.insert id := by
      simp [reachingAlias_of_mem isWaiting, Session.deferring, Session.starting, Session.changing,
        Session.allocating]
    exact {
      stays with
      kept := fun other member => inProgress ▸ mem_insert_of_mem member
      waits := fun other awaited waits => (waits_reachingAlias isWaiting owned).mpr (.inl waits)
      fresh := fun other awaited waits => by
        rcases (waits_reachingAlias isWaiting owned).mp waits with waits | ⟨rfl, rfl⟩
        · exact .inl waits
        · exact .inr begins.isNew
      started := fun other member => by
        rw [inProgress, mem_insert_iff] at member
        rcases member with rfl | member
        · exact ⟨owner, .inl isWaiting,
            .single ((waits_reachingAlias isWaiting owned).mpr (.inr ⟨rfl, rfl⟩))⟩
        · exact ⟨other, .inl member, .refl⟩
      points }
  · have same : before.reachingAlias id owner ownerName = (before.allocating id).changing owner
        (addAlias before.names.generate.1 ownerName) := reachingAlias_of_not_mem isWaiting
    rw [same] at step points stays ⊢
    exact { Work.of_step step rfl (fun _ _ => Iff.rfl) points, stays with }

omit visits in
theorem Begins.fillingAlias {ownerName : String} (begins : Begins context before id)
    (reach : Frame context before (before.reachingAlias id owner ownerName))
    (complete : owner ∉ before.inProgress) :
    Filling context (before.reachingAlias id owner ownerName) id := by
  refine ⟨begins.regular.frame reach, begins.under.of_frame reach begins.valid, ?_,
    reach.mayFill begins.valid (begins.declares.mayFill id)⟩
  rw [reachingAlias_of_not_mem complete]
  refine ⟨⟨_, Valid.identifiers_allocating_self before id⟩, fun member => ?_⟩
  obtain ⟨name, named⟩ := begins.valid.started id member
  simp [begins.isNew] at named

omit visits in
theorem does_updateInstance {change : FunctionInstance → FunctionInstance}
    (known : context.Closed → ∃ inst, before.HasInstance id inst) :
    Does context.Ends (updateInstance id change) before fun _ after =>
      (∃ inst, before.HasInstance id inst) ∧ after = before.changing id change :=
  ⟨Context.errorsOnly_ends fun closed => ⟨(⟨⟩, _), runs_updateInstance.mpr ⟨known closed, rfl⟩⟩,
    fun _ _ => runs_updateInstance.mp⟩

/-- The function of a `prototype` object is written first, unless the object is reached on the way.
Then the object is declared with the function, and its properties are set as soon as the function is
complete. -/
theorem does_writePrototypeObject (owned : context.Owned id owner)
    (isObject : context.IsObject id object) (unknown : object.knownPath = none)
    (begins : Begins context before id) :
    Does context.Ends (writePrototypeObject context visit id object owner) before fun _ after =>
      Writing context before after ∧ ∃ name, after.HasName id name := by
  refine (visits begins.regular (begins.under.need (.owner owned))).bind ?_
  rintro ownerExpr visited ⟨writing, refers⟩
  refine .step (runs_isAllocated.mpr ⟨rfl, rfl⟩) ?_
  split
  · rename_i isNamed
    exact .of_pure ⟨writing, Option.isSome_iff_exists.mp isNamed⟩
  rename_i notNamed
  have begins' := begins.of_frame writing.toFrame (Option.not_isSome_iff_eq_none.mp notNamed)
  have valid := begins'.valid
  refine .step (runs_allocate.mpr ⟨rfl, rfl⟩) ((does_updateInstance fun closed => ?_).bind ?_)
  · obtain ⟨function, isFunction⟩ := (closed.owners id owner owned).2
    obtain ⟨name, named⟩ := refers.exists_name (.inr ⟨function, isFunction⟩)
    exact begins'.regular.kept.prepared.instanced owner name function named isFunction
  rintro _ _ ⟨⟨inst, isInstance⟩, rfl⟩
  have isInstance : visited.HasInstance owner inst := isInstance
  have isBuilt : context.IsBuilt owner := by
    cases named : visited.identifiers.get? owner with
    | none => simp [valid.notInstance owner named] at isInstance
    | some name => exact valid.isBuilt owner name named
  obtain ⟨ownerName, ownerNamed, rfl⟩ := refers.var_of_isBuilt isBuilt valid begins'.declares
  have reach := begins'.reachAlias isObject unknown owned ⟨inst, isInstance⟩ ownerNamed
  have declaring : Preserves context (visited.allocating id) ((visited.allocating id).changing owner
      (addAlias visited.names.generate.1 ownerName)) := .changing _ _ _
  refine .step (runs_isInProgress.mpr ⟨rfl, rfl⟩) ?_
  split
  · rename_i isWaiting
    have isWaiting : owner ∈ visited.inProgress := of_decide_eq_true isWaiting
    rw [reachingAlias_of_mem isWaiting] at reach
    refine .seq (runs_start.mpr rfl) (.done (runs_defer.mpr rfl) ⟨writing.trans ⟨reach,
      fun opened flight ledger balanced => ?_⟩ begins.valid, _,
      Valid.identifiers_allocating_self visited id⟩)
    obtain ⟨notOpen, between, reached, empty, untouched⟩ :=
      balanced.reachBy valid begins'.isNew (declaring.trans (.starting _ id))
    exact ⟨_, reached.postpone valid.tree notOpen empty owner, fun subject member =>
      (untouched subject member).trans
        (.park _ between owner (ne_of_mem_of_not_mem member notOpen).symm rfl)⟩
  · rename_i complete
    have complete : owner ∉ visited.inProgress := fun member => complete (decide_eq_true member)
    have filling := begins'.fillingAlias reach complete
    rw [reachingAlias_of_not_mem complete] at reach filling
    refine (does_writePrototypeProperties visits isObject owned filling).imp fun _ after fills => ?_
    refine ⟨writing.trans ⟨reach.trans fills.toFrame valid, fun opened flight ledger balanced => ?_⟩
      begins.valid, (filling.of_frame fills.toFrame).settled.1⟩
    obtain ⟨notOpen, between, reached, empty, untouched⟩ :=
      balanced.reachBy valid begins'.isNew declaring
    obtain ⟨later, balanced', untouched'⟩ := fills.close reached notOpen
      (by simp [Unfilled, empty]) (empty ▸ .owned isObject owned)
    exact ⟨later, balanced', fun subject member =>
      (untouched subject member).trans (untouched' subject member)⟩

theorem does_writeObject (isObject : context.IsObject id object)
    (unknown : object.knownPath = none) (begins : Begins context before id) :
    Does context.Ends (writeObject context visit id object) before fun _ after =>
      Writing context before after ∧ ∃ name, after.HasName id name := by
  unfold writeObject
  split
  · rename_i owner owned
    exact does_writePrototypeObject visits owned isObject unknown begins
  · rename_i notOwned
    have constructs : context.Constructs id object := ⟨isObject, unknown, notOwned⟩
    refine .step (get_bind.mpr (pure_iff.mpr ⟨rfl, rfl⟩)) ?_
    split
    · rename_i function isTarget
      split at isTarget
      · obtain ⟨isDelayed, isInnermost⟩ := Option.filter_eq_some_iff.mp isTarget
        have isOpen := List.mem_of_head? (of_decide_eq_true isInnermost).symm
        exact does_writeDelayedObject visits isDelayed isOpen begins constructs
      · cases isTarget
    · refine .step (runs_allocate.mpr ⟨rfl, rfl⟩) (.get_bind ?_)
      split
      · rename_i settings isLazy
        exact does_writeLazyObject visits isLazy begins constructs
      · exact does_writeEagerObject visits begins constructs

end

end Session

end HeapScript
