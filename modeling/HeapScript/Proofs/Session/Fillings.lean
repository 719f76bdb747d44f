import HeapScript.Proofs.Session.Balance

/-!
Filling values goes by the steps of a session and keeps the ledger in balance.

The statements that fill a value are added to its account, which is *open* until then. For each
function that takes part there is one lemma on its successful runs: what they leave as it was, and
what they add. The lemmas take that as known of the visits to other values.
-/

namespace HeapScript

open List Runs

namespace Session

variable {context : Context} {opened outer : List Subject} {flight : List Due}
  {session before middle after base : Session} {ledger between later baseLedger : Ledger}
  {id owner : ValueId} {result : Unit} {object : ObjectValue} {entry : Entry} {body : BodyId}
  {name : String} {works : List Deferred} {expr : Expr} {stmt : Stmt}

/-! ## References -/

theorem does_checkVisible (valid : before.Valid context) (named : before.HasName id name) :
    Does context.Ends (checkVisible id) before fun _ after =>
      after = before ∧ before.Sees before.bodies.current id := by
  obtain ⟨home, found, present, declares⟩ := valid.homes id name named
  refine .get_bind ?_
  simp only [found]
  cases kind : before.bodies.kind home with
  | global => exact .of_pure ⟨rfl, home, found, .inl (valid.tree.eq_global present kind)⟩
  | root function =>
    dsimp only
    split
    · rename_i visible
      exact .of_pure ⟨rfl, home, found, .inr visible⟩
    · exact .of_throw fun _ => .escapesRoot id
  | lazyInitializer object => simp [kind, BodyKind.declaresValues] at declares
  | delayedInit function => simp [kind, BodyKind.declaresValues] at declares

/-- A value that has a name may be declared in another root, and no more can go wrong with it. -/
theorem does_reference (valid : before.Valid context) (named : before.HasName id name) :
    Does context.Ends (reference id) before fun expr after =>
      after = before.noting id ∧ after.Refers context after.bodies.current id expr := by
  have isBuilt := valid.isBuilt id name named
  refine (does_checkVisible valid named).bind ?_
  rintro _ _ ⟨rfl, sees⟩
  refine .seq (runs_noteUsage.mpr rfl) (.get_bind ?_)
  dsimp only
  split
  · rename_i isFilled
    obtain ⟨object, isLazy, inside⟩ := (Option.any_eq_true _ _).mp isFilled
    exact .of_pure ⟨rfl, .filled isBuilt named isLazy inside⟩
  · rename_i notFilled
    refine .step (runs_identifier.mpr ⟨named, rfl⟩) (.of_pure ⟨rfl, ?_⟩)
    refine .named isBuilt named sees fun object isLazy => ?_
    simpa [isLazy, Bodies.currentIsWithin] using notFilled

theorem Refers.exists_name {body : BodyId} (refers : session.Refers context body id expr)
    (isBuilt : context.IsBuilt id) : ∃ name, session.HasName id name := by
  cases refers with
  | primitive isPrimitive => simp [Context.IsBuilt, isPrimitive] at isBuilt
  | known isObject isKnown => simp [Context.IsBuilt, isObject, isKnown] at isBuilt
  | named _ named _ _ => exact ⟨_, named⟩
  | filled _ named _ _ => exact ⟨_, named⟩

/-- Where values are declared, the expression for a value that the script builds is its name. -/
theorem Refers.var_of_isBuilt (refers : session.Refers context session.bodies.current id expr)
    (isBuilt : context.IsBuilt id) (valid : session.Valid context)
    (declares : session.AtDeclarations) :
    ∃ name, session.identifiers.get? id = some name ∧ expr = .var name := by
  cases refers with
  | primitive isPrimitive => simp [Context.IsBuilt, isPrimitive] at isBuilt
  | known isObject isKnown => simp [Context.IsBuilt, isObject, isKnown] at isBuilt
  | named _ named _ _ => exact ⟨_, named, rfl⟩
  | filled _ _ isLazy inside =>
    simp [valid.outside_lazy declares _ isLazy] at inside

/-! ## Accounts of open values -/

def Unlocked (session : Session) (ledger : Ledger) (flight : List Due) (id : ValueId) : Prop :=
  ∀ place ∈ session.accountIn ledger flight id, place.2 ≠ .lock id

namespace Unlocked

theorem locks (unlocked : Unlocked session ledger flight id) : session.locks.get? id = none := by
  cases isLock : session.locks.get? id with
  | none => rfl
  | some lock =>
    refine absurd rfl (unlocked (lock.body, .lock id) ?_)
    simp [accountIn, account, lockPlaces, isLock]

/-- A statement about the object may be written; the lock, when no other one waits for it. -/
theorem mayCome (unlocked : Unlocked session ledger flight id)
    (balanced : Balanced context opened flight session ledger)
    (isSubject : entry.purpose.subject = .value id)
    (isLast : entry.purpose = .lock id → pending (ledger.dues flight) id = 0) :
    entry.MayCome context ledger.written (ledger.dues flight) := by
  refine .of_unlocked isSubject (fun other member isLock => unlocked other.place ?_ isLock)
    (fun due member => (balanced.books.dueLater due member).1) isLast
  simp only [accountIn, account, Multiset.mem_add, placesOf, Multiset.mem_coe]
  refine .inl (.inl (mem_map_of_mem (mem_filter.mpr ⟨member, ?_⟩)))
  simp [isLock, Purpose.subject]

end Unlocked

/-- The value is open, and statements may be added to its account. -/
structure Posting (context : Context) (opened : List Subject) (flight : List Due)
    (session : Session) (ledger : Ledger) (id : ValueId) : Prop where
  balanced : Balanced context opened flight session ledger
  isOpen : .value id ∈ opened
  unlocked : Unlocked session ledger flight id

structure Posted (context : Context) (opened : List Subject) (flight : List Due) (id : ValueId)
    (before : Session) (ledger : Ledger) (after : Session) (later : Ledger)
    (added : Multiset (BodyId × Purpose)) (waits : Nat) : Prop where
  balanced : Balanced context opened flight after later
  others : ∀ subject ∈ opened, subject ≠ .value id → Untouched before ledger after later subject
  account : after.accountIn later flight id = before.accountIn ledger flight id + added
  pending : pending (later.dues flight) id = pending (ledger.dues flight) id + waits

namespace Posted

variable {added more : Multiset (BodyId × Purpose)} {waits others : Nat}

theorem refl (posting : Posting context opened flight session ledger id) :
    Posted context opened flight id session ledger session ledger 0 0 where
  balanced := posting.balanced
  others subject _ _ := .refl session ledger subject
  account := by simp
  pending := by simp

theorem trans
    (first : Posted context opened flight id before ledger middle between added waits)
    (second : Posted context opened flight id middle between after later more others) :
    Posted context opened flight id before ledger after later (added + more) (waits + others) where
  balanced := second.balanced
  others subject member different :=
    (first.others subject member different).trans (second.others subject member different)
  account := by rw [second.account, first.account, add_assoc]
  pending := by rw [second.pending, first.pending, Nat.add_assoc]

theorem of_preserves (preserves : Preserves context before after)
    (balanced : Balanced context opened flight before ledger) (isOpen : .value id ∈ opened) :
    ∃ later, Posted context opened flight id before ledger after later 0 0 := by
  obtain ⟨later, balanced, untouched⟩ := preserves opened flight ledger balanced
  exact ⟨later, balanced, fun subject member _ => untouched subject member,
    by simp [(untouched _ isOpen).accountIn_eq], by simp [(untouched _ isOpen).pending_eq]⟩

theorem posting (posted : Posted context opened flight id before ledger after later added waits)
    (posting : Posting context opened flight before ledger id)
    (notLock : ∀ place ∈ added, place.2 ≠ .lock id) :
    Posting context opened flight after later id := by
  refine ⟨posted.balanced, posting.isOpen, fun place member => ?_⟩
  rw [posted.account, Multiset.mem_add] at member
  exact member.elim (posting.unlocked place) (notLock place)

theorem untouched
    (posted : Posted context (.value id :: opened) flight id before ledger after later added waits)
    (notOpen : .value id ∉ opened) :
    ∀ subject ∈ opened, Untouched before ledger after later subject :=
  fun subject member => posted.others subject (mem_cons_of_mem _ member)
    (ne_of_mem_of_not_mem member notOpen)

section

variable (posting : Posting context opened flight session ledger id) (tree : session.bodies.Tree)

include posting tree

theorem write (isSubject : entry.purpose.subject = .value id)
    (isPlain : entry.purpose.isPlaceholder = false)
    (isLast : entry.purpose = .lock id → HeapScript.pending (ledger.dues flight) id = 0)
    (records : session.Records context entry) :
    Posted context opened flight id session ledger (session.emitting entry.body entry.stmt)
      (ledger.write [entry]) {entry.place} 0 where
  balanced := posting.balanced.write records tree (.inl (isSubject ▸ posting.isOpen)) isPlain
    (posting.unlocked.mayCome posting.balanced isSubject isLast)
  others subject _ different := by
    refine .write session ledger (fun other member => ?_) fun _ _ => rfl
    rw [mem_singleton.mp member, isSubject]
    exact Ne.symm different
  account := Books.account_write_self isSubject session _ _ _ _
  pending := rfl

theorem park (isSubject : entry.purpose.subject = .value id)
    (mayWait : context.MayWait entry.purpose) (records : session.Records context entry)
    (awaited : ValueId) :
    Posted context opened flight id session ledger
      (session.deferring awaited (.stmt entry.body entry.stmt entry.purpose.lockedObject?))
      (ledger.park awaited (.write entry)) {entry.place}
      (if entry.purpose.lockedObject? = some id then 1 else 0) where
  balanced := by
    refine posting.balanced.park records tree (.inl (isSubject ▸ posting.isOpen))
      (fun other isOther => ?_) mayWait (posting.unlocked.mayCome posting.balanced isSubject
        fun isLock => by simp [isLock, Context.MayWait, Purpose.mayWait] at mayWait).follows awaited
    have same := Purpose.subject_of_lockedObject? isOther
    rw [isSubject] at same
    cases same
    exact posting.unlocked.locks
  others subject _ different := .park session ledger awaited
    (show entry.purpose.subject ≠ subject from isSubject ▸ Ne.symm different) rfl
  account := by
    refine Eq.trans ?_ (Books.account_park_self isSubject session ledger.written _)
    exact Books.account_eq_of_perm (ledger.dues_park_perm awaited (.write entry) flight).symm
      session ledger.written id
  pending := by
    rw [← pending_write entry (ledger.dues flight) id]
    exact (ledger.dues_park_perm awaited (.write entry) flight).countP_eq _

theorem hold {lock : PendingLock}
    (keeps : session.KeepsLock context (ledger.dues flight) id lock) :
    Posted context opened flight id session ledger (session.locking id lock) ledger
      {(lock.body, .lock id)} 0 where
  balanced := posting.balanced.hold tree posting.isOpen posting.unlocked.locks keeps
  others subject _ different := by
    refine ⟨rfl, rfl, fun other isOther => ?_⟩
    have notSame : id ≠ other := fun same => different (same ▸ isOther)
    simp [locking, KeyedTable.get?_insert, notSame]
  account := by
    simp [accountIn, Books.account_locking session ledger.written _ posting.unlocked.locks id]
  pending := rfl

end

end Posted

def Unfilled (session : Session) (ledger : Ledger) (flight : List Due) (id : ValueId) : Prop :=
  ∀ place ∈ session.accountIn ledger flight id,
    place.2 ≠ .lock id ∧ place.2.lockedObject? ≠ some id

theorem Unfilled.unlocked (unfilled : Unfilled session ledger flight id) :
    Unlocked session ledger flight id :=
  fun place member => (unfilled place member).1

theorem Unfilled.pending_eq_zero (unfilled : Unfilled session ledger flight id) :
    pending (ledger.dues flight) id = 0 := by
  refine HeapScript.pending_eq_zero.mpr fun entry member isLocked => ?_
  refine (unfilled entry.place ?_).2 isLocked
  simp only [accountIn, account, Multiset.mem_add, placesOf, Multiset.mem_coe]
  refine .inl (.inr (mem_map_of_mem (mem_filter.mpr ⟨member, ?_⟩)))
  simp [Purpose.subject_of_lockedObject? isLocked]

/-- Some statements are added to the account of a value; of these, some wait. -/
structure Fills (context : Context) (id : ValueId) (before after : Session)
    (added : Multiset (BodyId × Purpose)) (late : Nat) : Prop
    extends Frame context before after where
  posts : ∀ {opened flight ledger}, Posting context opened flight before ledger id →
    ∃ later, Posted context opened flight id before ledger after later added late

namespace Fills

variable {added more : Multiset (BodyId × Purpose)} {late others : Nat}

theorem refl (context : Context) (id : ValueId) (session : Session) :
    Fills context id session session 0 0 where
  toFrame := .refl context session
  posts posting := ⟨_, .refl posting⟩

theorem trans (first : Fills context id before middle added late)
    (second : Fills context id middle after more others) (valid : before.Valid context)
    (notLock : ∀ place ∈ added, place.2 ≠ .lock id) :
    Fills context id before after (added + more) (late + others) where
  toFrame := first.toFrame.trans second.toFrame valid
  posts posting := by
    obtain ⟨between, posted⟩ := first.posts posting
    obtain ⟨later, posted'⟩ := second.posts (posted.posting posting notLock)
    exact ⟨later, posted.trans posted'⟩

theorem of_writing (writing : Writing context before after) :
    Fills context id before after 0 0 where
  toFrame := writing.toFrame
  posts posting := Posted.of_preserves writing.preserves posting.balanced posting.isOpen

theorem after_writing (writing : Writing context before middle)
    (fills : Fills context id middle after added late) (valid : before.Valid context) :
    Fills context id before after added late := by
  simpa using (of_writing writing).trans fills valid (by simp)

theorem write (allowed : session.Allows context none entry.body entry.stmt)
    (valid : session.Valid context) (isSubject : entry.purpose.subject = .value id)
    (isPlain : entry.purpose.isPlaceholder = false) (notLock : entry.purpose ≠ .lock id)
    (records : session.Records context entry) :
    Fills context id session (session.emitting entry.body entry.stmt) {entry.place} 0 where
  toFrame := .emit allowed
  posts posting :=
    ⟨_, .write posting valid.tree isSubject isPlain (absurd · notLock) records⟩

theorem park {awaited : ValueId} (isWaiting : awaited ∈ session.inProgress)
    (allowed : session.Allows context (some awaited) entry.body entry.stmt)
    (valid : session.Valid context) (isSubject : entry.purpose.subject = .value id)
    (mayWait : context.MayWait entry.purpose) (records : session.Records context entry) :
    Fills context id session
      (session.deferring awaited (.stmt entry.body entry.stmt entry.purpose.lockedObject?))
      {entry.place} (if entry.purpose.lockedObject? = some id then 1 else 0) where
  toFrame := .defer isWaiting allowed
  posts posting := ⟨_, .park posting valid.tree isSubject mayWait records awaited⟩

end Fills

/-- All statements that fill a value are added to its account. -/
structure FillsUp (context : Context) (id : ValueId) (before after : Session) : Prop
    extends Frame context before after where
  posts : ∀ {opened flight ledger}, Balanced context opened flight before ledger →
    .value id ∈ opened → Unfilled before ledger flight id →
    ∃ later waits, Posted context opened flight id before ledger after later
      (context.filling id before.bodies.current) waits

theorem FillsUp.close (fills : FillsUp context id before after)
    (balanced : Balanced context (.value id :: opened) flight before ledger)
    (notOpen : .value id ∉ opened) (unfilled : Unfilled before ledger flight id)
    (arises : context.Arises id before.bodies.current (before.accountIn ledger flight id)) :
    ∃ later, Balanced context opened flight after later ∧
      ∀ subject ∈ opened, Untouched before ledger after later subject := by
  obtain ⟨later, waits, posted⟩ := fills.posts balanced mem_cons_self unfilled
  exact ⟨later, posted.balanced.close ⟨before.bodies.current, _, arises, posted.account⟩,
    posted.untouched notOpen⟩

/-! ## Properties -/

/-- Statements about a value may be written at the cursor. Where a lazy object is filled there are
no others. -/
def MayFill (session : Session) (id : ValueId) : Prop :=
  ∀ object, session.bodies.kind session.bodies.current = .lazyInitializer object → object = id

theorem AtDeclarations.ne_lazyInitializer (declares : session.AtDeclarations) (object : ValueId) :
    session.bodies.kind session.bodies.current ≠ .lazyInitializer object := by
  intro kind
  simp [AtDeclarations, kind, BodyKind.declaresValues] at declares

theorem AtDeclarations.mayFill (declares : session.AtDeclarations) (id : ValueId) :
    session.MayFill id :=
  fun object kind => absurd kind (declares.ne_lazyInitializer object)

theorem Remains.mayFill (remains : Remains context before after) (valid : before.Valid context)
    (mayFill : before.MayFill id) : after.MayFill id := by
  intro object kind
  rw [remains.current, (remains.steps.extends_ valid).bodies.kind_eq valid.has_current] at kind
  exact mayFill object kind

theorem MayFill.about {purpose : Purpose} (mayFill : session.MayFill id)
    (isCurrent : session.bodies.current = body) (isSubject : purpose.subject = .value id) :
    ∀ object, session.bodies.kind body = .lazyInitializer object →
      purpose.subject = .value object := by
  intro object kind
  rw [isSubject, mayFill object (isCurrent ▸ kind)]

/-- A value is complete, and statements on it are about to be written. -/
structure Filling (context : Context) (session : Session) (id : ValueId) : Prop where
  regular : Regular context session
  under : Under context session id
  settled : session.Settled id
  mayFill : session.MayFill id

theorem Filling.valid (filling : Filling context session id) : session.Valid context :=
  filling.regular.valid

theorem Filling.of_frame (filling : Filling context before id)
    (frame : Frame context before after) : Filling context after id :=
  ⟨filling.regular.frame frame, filling.under.of_frame frame filling.valid,
    frame.settled filling.valid filling.settled, frame.mayFill filling.valid filling.mayFill⟩

theorem Filling.link {other : ValueId} (filling : Filling context session id)
    (links : context.Links id other) : Under context session other :=
  filling.under.link filling.settled links

theorem allows_assign {awaited : Option ValueId} {target value : Expr}
    (present : session.bodies.Has body)
    (targetNames : ∀ name ∈ target.usedNames false, session.Nameable context awaited body name)
    (valueNames : ∀ name ∈ value.usedNames false, session.Nameable context awaited body name) :
    session.Allows context awaited body (.assign target value) := by
  refine ⟨present, fun name used => ?_⟩
  simp only [Stmt.usedNames, mem_append] at used
  exact used.elim (targetNames name) (valueNames name)

theorem allows_objectCall {awaited : Option ValueId} {method : String} {args : List Expr}
    (present : session.bodies.Has body)
    (names : ∀ arg ∈ args, ∀ name ∈ arg.usedNames false,
      session.Nameable context awaited body name) :
    session.Allows context awaited body (.expr (.methodCall (.var "Object") method args)) := by
  refine ⟨present, fun name used => ?_⟩
  simp only [Expr.methodCall, Stmt.usedNames, Expr.usedNames, mem_append, mem_singleton,
    mem_usedNamesOfExprs] at used
  rcases used with rfl | ⟨arg, member, used⟩
  · exact .outside (by simp [Context.outsideNames])
  · exact names arg member name used

section

variable {visit : ValueId → SessionM Expr} (visits : Visits context visit)

include visits

/-- A linked value is visited, and then the value itself is referred to. What is written next
depends on whether the linked value is complete. -/
theorem Filling.does_refer {Result : Type} {linked : ValueId}
    {write : Expr → Expr → Bool → SessionM Result} {Outcome : Result → Session → Prop}
    (filling : Filling context before id) (links : context.Links id linked)
    (writes : ∀ value target referred, Writing context before referred →
      Filling context referred id → referred.Refers context referred.bodies.current id target →
      referred.Refers context referred.bodies.current linked value →
      Does context.Ends (write value target (decide (linked ∈ referred.inProgress))) referred
        Outcome) :
    Does context.Ends (do
      let value ← visit linked
      let target ← reference id
      write value target (← isInProgress linked)) before Outcome := by
  refine (visits filling.regular (filling.link links)).bind ?_
  rintro value visited ⟨writing, refersValue⟩
  have filling' := filling.of_frame writing.toFrame
  obtain ⟨name, named⟩ := filling'.settled.1
  refine (does_reference filling'.valid named).bind ?_
  rintro target _ ⟨rfl, refersTarget⟩
  have use : Writing context visited (visited.noting id) := .use visited id
  exact .step (runs_isInProgress.mpr ⟨rfl, rfl⟩) (writes value target _
    (writing.trans use filling.valid) (filling'.of_frame use.toFrame) refersTarget
    (use.refers filling'.valid refersValue))

theorem does_writeProperty {property : Property} (isCurrent : body = before.bodies.current)
    (filling : Filling context before id) (links : context.Links id property.value) :
    Does context.Ends (writeProperty visit id body property) before fun waits after =>
      Fills context id before after {(body, .property id property)} (if waits then 1 else 0) := by
  refine filling.does_refer visits links ?_
  intro value target referred writing filling' refersTarget refersValue
  obtain rfl := isCurrent.trans writing.current.symm
  let entry : Entry :=
    ⟨referred.bodies.current, .property id property, .assign (.member target property.key) value⟩
  have allowed : ∀ awaited, property.value ∉ referred.inProgress ∨ awaited = some property.value →
      referred.Allows context awaited entry.body entry.stmt := fun awaited complete =>
    allows_assign filling'.valid.has_current (refersTarget.nameable (.inl filling'.settled.2))
      (refersValue.nameable complete)
  have records : referred.Records context entry :=
    ⟨filling'.valid.has_current, .property refersTarget refersValue, filling'.mayFill.about rfl rfl⟩
  split
  · rename_i isWaiting
    refine .seq (runs_defer.mpr rfl) (.of_pure (.after_writing writing ?_ filling.valid))
    simpa [entry, Purpose.lockedObject?, Entry.place] using Fills.park (of_decide_eq_true isWaiting)
      (allowed _ (.inr rfl)) filling'.valid rfl (context.mayWait_property id property) records
  · rename_i complete
    refine .seq (runs_emitInto.mpr rfl) (.of_pure (.after_writing writing ?_ filling.valid))
    exact .write (allowed _ (.inl (by simpa using complete))) filling'.valid rfl rfl
      (by simp [entry]) records

theorem does_mapM_writeProperty {properties : List Property}
    (isCurrent : body = before.bodies.current) (filling : Filling context before id)
    (links : ∀ property ∈ properties, context.Links id property.value) :
    Does context.Ends (properties.mapM (writeProperty visit id body)) before fun waits after =>
      Fills context id before after
        (properties.map fun property => (body, Purpose.property id property) : List _)
        (waits.count true) := by
  induction properties generalizing before with
  | nil => exact .of_pure (.refl context id _)
  | cons property properties induction =>
    rw [List.mapM_cons]
    refine (does_writeProperty visits isCurrent filling (links property mem_cons_self)).bind ?_
    intro isWaiting middle fills
    refine (induction (isCurrent.trans fills.current.symm) (filling.of_frame fills.toFrame)
      fun other member => links other (mem_cons_of_mem _ member)).bind fun others after rest => ?_
    have both := fills.trans rest filling.valid (by simp)
    rw [map_cons, ← Multiset.cons_coe, ← Multiset.singleton_add]
    refine .of_pure ?_
    rw [count_cons]
    cases isWaiting <;> simpa [Nat.add_comm] using both

theorem does_writeProperties {properties : List Property} {integrity : Option Integrity}
    (filling : Filling context before id) (filled : context.FilledBy id properties integrity) :
    Does context.Ends (writeProperties visit id properties integrity) before fun _ after =>
      FillsUp context id before after := by
  have valid := filling.valid
  refine .get_bind ((does_mapM_writeProperty visits rfl filling filled.links).bind ?_)
  intro waits written sets
  cases integrity with
  | none =>
    refine .of_pure ⟨sets.toFrame, fun balanced isOpen unfilled => ?_⟩
    obtain ⟨later, posted⟩ := sets.posts ⟨balanced, isOpen, unfilled.unlocked⟩
    exact ⟨later, _, by simpa [Context.filling, filled.assigned, filled.integrity] using posted⟩
  | some level =>
    obtain ⟨name, named⟩ := (filling.of_frame sets.toFrame).settled.1
    refine (does_reference (sets.valid valid) named).bind ?_
    rintro target referred ⟨same, refers⟩
    have sets := sets.trans (.of_writing
      (same ▸ .use written id : Writing context written referred))
      valid (by simp)
    have filling' := filling.of_frame sets.toFrame
    have allowed : referred.Allows context none referred.bodies.current
        (lockStmt level target) := by
      refine allows_objectCall filling'.valid.has_current fun arg member name used => ?_
      obtain rfl : arg = target := by simpa using member
      exact refers.nameable (.inl filling'.settled.2) name used
    have records : referred.Records context
        ⟨referred.bodies.current, .lock id, lockStmt level target⟩ :=
      ⟨filling'.valid.has_current, .lock filled.integrity refers, filling'.mayFill.about rfl rfl⟩
    have posts : ∀ {opened flight ledger}, Balanced context opened flight before ledger →
        .value id ∈ opened → Unfilled before ledger flight id → ∃ between,
        Posted context opened flight id before ledger referred between
          ((context.assigned id).map fun property =>
            (before.bodies.current, Purpose.property id property) : List _) (waits.count true) ∧
        Posting context opened flight referred between id ∧
        pending (between.dues flight) id = waits.count true := by
      intro opened flight ledger balanced isOpen unfilled
      obtain ⟨between, posted⟩ := sets.posts ⟨balanced, isOpen, unfilled.unlocked⟩
      refine ⟨between, by simpa [filled.assigned] using posted,
        posted.posting ⟨balanced, isOpen, unfilled.unlocked⟩ (by simp), ?_⟩
      rw [posted.pending, unfilled.pending_eq_zero]
      simp
    have account : context.filling id before.bodies.current =
        ((context.assigned id).map fun property =>
          (before.bodies.current, Purpose.property id property) : List _) +
        {(referred.bodies.current, .lock id)} := by
      simp [Context.filling, filled.integrity, sets.current]
    rw [← sets.current]
    dsimp only
    split
    · rename_i some
      refine .done (modify_iff.mpr rfl) ⟨sets.toFrame.trans (.lock allowed) valid, ?_⟩
      intro _ _ _ balanced isOpen unfilled
      obtain ⟨between, posted, posting, count⟩ := posts balanced isOpen unfilled
      rw [account]
      exact ⟨_, _, posted.trans (.hold posting filling'.valid.tree ⟨count.symm, some, records⟩)⟩
    · rename_i none
      refine .done (runs_emitInto.mpr rfl) ⟨sets.toFrame.trans (.emit allowed) valid, ?_⟩
      intro _ _ _ balanced isOpen unfilled
      obtain ⟨between, posted, posting, count⟩ := posts balanced isOpen unfilled
      rw [account]
      exact ⟨_, _, posted.trans (.write posting filling'.valid.tree rfl rfl
        (fun _ => by omega) records)⟩

theorem does_writePrototypeProperties (isObject : context.IsObject id object)
    (owned : context.Owned id owner) (filling : Filling context before id) :
    Does context.Ends (writePrototypeProperties context visit id object) before fun _ after =>
      FillsUp context id before after :=
  does_writeProperties visits filling (.of_owned isObject owned)

end

/-! ## Completion -/

theorem does_releaseLock (valid : before.Valid context) :
    Does context.Ends (releaseLock id) before fun _ after => Frame context before after := by
  refine .get_bind ?_
  split
  · exact .of_pure (.refl context _)
  · rename_i lock found
    have allowed := valid.locks id lock found
    split
    · have unlocked : Frame context before _ := .unlock before id
      exact .seq (modify_iff.mpr rfl) (.done (runs_emitInto.mpr rfl)
        (unlocked.trans (.emit ((unlocked.extends_ valid).allows valid.tree allowed)) valid))
    · exact .done (modify_iff.mpr rfl) (.lock allowed)

/-- What has waited for a value may be done once the value is complete. -/
theorem Allows.of_settled (allowed : session.Allows context (some id) body stmt)
    (settled : session.Settled id) : session.Allows context none body stmt := by
  refine ⟨allowed.1, fun name used => ?_⟩
  cases allowed.2 name used with
  | value other named complete sees =>
    refine .value other named (.inl ?_) sees
    rcases complete with complete | same
    · exact complete
    · cases same
      exact settled.2
  | outside isOutside => exact .outside isOutside
  | filled other object isLazy inside isParam => exact .filled other object isLazy inside isParam
  | shared number used isShared => exact .shared number used isShared

theorem does_releaseStmt {object : Option ValueId} {writePrototype : ValueId → SessionM Unit}
    (valid : before.Valid context) (settled : before.Settled id)
    (allowed : before.Allows context (some id) body stmt) :
    Does context.Ends (release writePrototype (.stmt body stmt object)) before fun _ after =>
      Frame context before after := by
  have frame := Frame.emit (allowed.of_settled settled)
  refine .seq (runs_emitInto.mpr rfl) ?_
  cases object with
  | none => exact .of_pure frame
  | some object =>
    exact (does_releaseLock (frame.valid valid)).imp fun _ _ frame' => frame.trans frame' valid

def awaitedPrototypes (works : List Deferred) : List ValueId :=
  works.filterMap fun work =>
    match work with
    | .stmt .. => none
    | .prototype object => some object

theorem mem_awaitedPrototypes {object : ValueId} :
    object ∈ awaitedPrototypes works ↔ .prototype object ∈ works := by
  simp only [awaitedPrototypes, mem_filterMap]
  constructor
  · rintro ⟨work, member, same⟩
    cases work <;> simp_all
  · exact fun member => ⟨_, member, rfl⟩

theorem does_releaseStmts {failure : ValueId → Failure} (isObject : context.IsObject id object)
    (valid : before.Valid context) (settled : before.Settled id)
    (canWait : ∀ work ∈ works, before.CanWait context id work) :
    Does context.Ends (works.forM (release fun inner => throw (failure inner))) before
      fun _ after => Frame context before after ∧ awaitedPrototypes works = [] := by
  induction works generalizing before with
  | nil => exact .of_pure ⟨.refl context _, rfl⟩
  | cons work works induction =>
    cases canWait work mem_cons_self with
    | stmt allowed =>
      refine .forM_cons (does_releaseStmt valid settled allowed) fun middle frame => ?_
      refine (induction (frame.valid valid) (frame.settled valid settled) fun work member =>
        (frame.extends_ valid).canWait valid.tree (canWait work (mem_cons_of_mem _ member))).imp ?_
      exact fun _ _ ⟨frame', only⟩ => ⟨frame.trans frame' valid, only⟩
    | @prototype object _ _ owned =>
      have throws : Does context.Ends (release (fun inner => throw (failure inner))
          (.prototype object)) before fun _ _ => False := by
        refine .of_throw fun closed => ?_
        obtain ⟨function, isFunction⟩ := (closed.owners _ _ owned).2
        simp [isObject] at isFunction
      exact .forM_cons throws fun _ => False.elim

/-- What is in flight is done, and nothing is lost on the way. -/
structure Lands (context : Context) (opened : List Subject) (flight dues : List Due)
    (before : Session) (ledger : Ledger) (after : Session) (later : Ledger) : Prop where
  balanced : Balanced context opened flight after later
  accounts : ∀ id, .value id ∈ opened →
    after.accountIn later flight id = before.accountIn ledger (dues ++ flight) id

theorem lands_releaseStmts {failure : ValueId → Failure} {dues : List Due}
    (runs : Runs ((dues.map Due.work).forM (release fun inner => throw (failure inner))) before
      result after) (valid : before.Valid context) (settled : before.Settled id)
    (canWait : ∀ due ∈ dues, before.CanWait context id due.work)
    (balanced : Balanced context opened (dues ++ flight) before ledger) :
    ∃ later, Lands context opened flight dues before ledger after later ∧
      ∀ subject, (∀ due ∈ dues, due.subject ≠ subject) →
        Untouched before ledger after later subject := by
  induction dues generalizing before ledger with
  | nil =>
    obtain ⟨_, rfl⟩ := pure_iff.mp runs
    exact ⟨ledger, ⟨balanced, fun _ _ => rfl⟩, fun subject _ => .refl _ ledger subject⟩
  | cons due dues induction =>
    obtain ⟨middle, first, rest⟩ := Runs.forM_cons.mp runs
    cases due with
    | fill object => exact absurd first not_throw
    | write entry =>
      obtain ⟨allowed⟩ := canWait _ mem_cons_self
      have frame := (does_releaseStmt valid settled allowed).outcome _ _ first
      obtain rfl := runs_release.mp first
      obtain ⟨between, balanced, untouched, accounts⟩ := balanced.settle valid.tree
      obtain ⟨later, lands, untouched'⟩ := induction rest (frame.valid valid)
        (frame.settled valid settled) (fun due member => (frame.extends_ valid).canWait
          valid.tree (canWait due (mem_cons_of_mem _ member))) balanced
      refine ⟨later, ⟨lands.balanced, fun other isOpen =>
        (lands.accounts other isOpen).trans (accounts other)⟩, fun subject different => ?_⟩
      exact (untouched subject (different _ mem_cons_self)).trans
        (untouched' subject fun due member => different due (mem_cons_of_mem _ member))

theorem accountIn_finishing (session : Session) (ledger : Ledger) (flight : List Due)
    (id other : ValueId) :
    (session.finishing id).accountIn (ledger.unpark id) (ledger.parkedFor id ++ flight) other =
      session.accountIn ledger flight other :=
  Books.account_eq_of_perm (ledger.dues_unpark_perm id flight).symm session ledger.written other

section

variable {visit : ValueId → SessionM Expr} (visits : Visits context visit)

include visits

/-- A `prototype` object is complete when its function is. Its properties are written, and its
account is complete. -/
theorem does_writeAwaitedPrototype {object : ValueId} {content : ObjectValue} {rest : List ValueId}
    (work : Work context (object :: rest) base before) (regularBase : Regular context base)
    (isNew : base.identifiers.get? object = none) (owned : context.Owned object owner)
    (named : before.HasName object name) (isObject : context.IsObject object content)
    (settled : before.Settled owner) (under : Under context before owner)
    (mayFill : before.MayFill object) :
    Does context.Ends (writeAwaitedPrototype context visit object) before fun _ after =>
      Work context rest base after ∧ Stays context before after ∧
      ∀ {opened flight ledger}, Balanced context opened (.fill object :: flight) before ledger →
        ∃ later, Lands context opened flight [.fill object] before ledger after later ∧
          ∀ subject ∈ opened, (∀ due ∈ ledger.parkedFor object, due.subject ≠ subject) →
            Untouched before ledger after later subject := by
  have regular := regularBase.steps work.steps
  have valid := regular.valid
  have step : Step context before (before.finishing object) := .finishAlias isObject owned settled
  have validFinished := step.valid valid
  have complete : (before.finishing object).Settled object :=
    ⟨⟨name, named⟩, by simp [Session.finishing]⟩
  have canWait : ∀ work ∈ before.waiting object,
      (before.finishing object).CanWait context object work := fun work member =>
    (step.extends_ valid).canWait valid.tree (canWait_of_waiting valid member)
  refine .step (Runs.lift_iff.mpr ⟨HeapGraph.value_eq_ok.mpr isObject, rfl⟩) ?_
  refine .bind (does_finish (does_releaseStmts isObject validFinished complete canWait).runs) ?_
  rintro _ released ⟨releasing, frame, only⟩
  have underFinished : Under context (before.finishing object) owner :=
    under.of_remains (.of_step step rfl rfl rfl) valid fun other member =>
      under.inProgress other (mem_filter.mp member).1
  have underObject := underFinished.link ((step.extends_ valid).settled_of_settled settled)
    (.ownedPrototype owned)
  have filling : Filling context released object :=
    Filling.of_frame ⟨regular.step step, underObject, complete, mayFill⟩ frame
  refine (does_writePrototypeProperties visits isObject owned filling).imp fun _ after fills => ?_
  have awaited : ∀ other, before.Waits context other object → other ∈ ([] : List ValueId) :=
    fun other waits => only ▸ mem_awaitedPrototypes.mpr waits.2
  have finished : Work context rest base (before.finishing object) :=
    work.finish step regularBase.valid isNew (fun other => by simp [Session.finishing])
      (fun _ _ => waits_finishing) awaited work.points
  have stays : Stays context before (before.finishing object) :=
    .of_step step rfl rfl rfl fun _ _ _ => rfl
  have frame := frame.trans fills.toFrame validFinished
  refine ⟨finished.trans_frame frame regularBase.valid, stays.trans frame.toStays valid,
    fun {opened flight ledger} balanced => ?_⟩
  obtain ⟨resumed, notOpen, empty⟩ := balanced.resume
  rw [resumed.waiting object] at releasing canWait
  obtain ⟨between, lands, untouched⟩ := lands_releaseStmts releasing validFinished complete
    (fun due member => canWait _ (mem_map_of_mem member)) (resumed.finish valid.tree object)
  have emptyReleased : released.accountIn between flight object = 0 := by
    rw [lands.accounts object mem_cons_self, accountIn_finishing, empty]
  obtain ⟨later, balanced', untouched'⟩ :=
    fills.close lands.balanced notOpen (by simp [Unfilled, emptyReleased])
      (emptyReleased ▸ .owned isObject owned)
  refine ⟨later, ⟨balanced', fun other isOpen => ?_⟩, fun subject member different => ?_⟩
  · rw [(untouched' _ isOpen).accountIn_eq, lands.accounts other (mem_cons_of_mem _ isOpen),
      accountIn_finishing]
    exact Books.account_eq_of_perm (ledger.dues_cons_perm (.fill object) flight) before
      ledger.written other
  · have unparked : Untouched before ledger (before.finishing object) (ledger.unpark object)
        subject := .unpark before ledger different rfl
    exact (unparked.trans (untouched subject different)).trans (untouched' subject member)

omit visits in
/-- A value is complete, and the work that has waited for it is done next. -/
structure Releases (context : Context) (base session : Session) (id : ValueId)
    (works : List Deferred) : Prop where
  regularBase : Regular context base
  underBase : Under context base id
  work : Work context (awaitedPrototypes works) base session
  isNew : ∀ object ∈ awaitedPrototypes works, base.identifiers.get? object = none
  canWait : ∀ work ∈ works, session.CanWait context id work
  settled : session.Settled id
  under : Under context session id
  mayFill : ∀ other, session.MayFill other

omit visits in
theorem Releases.regular (releases : Releases context base session id works) :
    Regular context session :=
  releases.regularBase.steps releases.work.steps

omit visits in
theorem Releases.filling (releases : Releases context base session id works) :
    Filling context session id :=
  ⟨releases.regular, releases.under, releases.settled, releases.mayFill id⟩

theorem does_releaseOne {first : Deferred}
    (releases : Releases context base before id (first :: works)) :
    Does context.Ends (release (writeAwaitedPrototype context visit) first) before fun _ after =>
      Releases context base after id works ∧ Stays context before after := by
  have valid := releases.regular.valid
  have does : Does context.Ends (release (writeAwaitedPrototype context visit) first) before
      fun _ after => Work context (awaitedPrototypes works) base after ∧
        Stays context before after := by
    cases releases.canWait _ mem_cons_self with
    | stmt allowed =>
      refine (does_releaseStmt valid releases.settled allowed).imp fun _ _ frame => ?_
      exact ⟨releases.work.trans_frame frame releases.regularBase.valid, frame.toStays⟩
    | prototype owned named isObject =>
      refine (does_writeAwaitedPrototype visits releases.work releases.regularBase
        (releases.isNew _ mem_cons_self) owned named isObject releases.settled releases.under
        (releases.mayFill _)).imp fun _ _ does => ?_
      exact ⟨does.1, does.2.1⟩
  refine does.imp fun _ after ⟨work, stays⟩ => ?_
  have extends_ := stays.steps.extends_ valid
  have canWait : ∀ work ∈ works, after.CanWait context id work := fun work member =>
    extends_.canWait valid.tree (releases.canWait work (mem_cons_of_mem _ member))
  have awaits : ∀ object ∈ awaitedPrototypes works, object = id ∨ context.Awaits object id := by
    intro object member
    cases canWait _ (mem_awaitedPrototypes.mp member) with
    | prototype owned named => exact .inr (Context.Needs.owner owned).awaits
  refine ⟨{ releases with
    work
    isNew := fun object member => releases.isNew object ?_
    canWait
    settled := extends_.settled_of_settled releases.settled
    under := releases.under.of_remains stays.toRemains valid
      (work.awaits releases.underBase.inProgress awaits)
    mayFill := fun other => stays.mayFill valid (releases.mayFill other) }, stays⟩
  rw [mem_awaitedPrototypes] at member ⊢
  exact mem_cons_of_mem _ member

theorem does_complete
    (releases : Releases context base (before.finishing id) id (before.waiting id)) :
    Does context.Ends (complete context visit id) before fun _ after =>
      Releases context base after id [] ∧ Stays context (before.finishing id) after := by
  refine does_finish ?_
  generalize before.finishing id = session at releases ⊢
  generalize before.waiting id = works at releases ⊢
  induction works generalizing session with
  | nil => exact .of_pure ⟨releases, .refl context _⟩
  | cons first works induction =>
    refine .forM_cons (does_releaseOne visits releases) fun middle ⟨releases', stays⟩ => ?_
    refine (induction middle releases').imp fun _ _ ⟨last, stays'⟩ => ?_
    exact ⟨last, stays.trans stays' releases.regular.valid⟩

omit visits in
theorem Releases.of_step {reached done : Session} (work : Work context [id] base reached)
    (step : Step context reached done) (regularBase : Regular context base)
    (isNew : base.identifiers.get? id = none)
    (inProgress : ∀ other, other ∈ done.inProgress ↔ other ∈ reached.inProgress ∧ other ≠ id)
    (waits : ∀ other owner,
      done.Waits context other owner ↔ reached.Waits context other owner ∧ owner ≠ id)
    (points : SamePoints base done)
    (sameWorks : ∀ object, .prototype object ∈ works ↔ .prototype object ∈ reached.waiting id)
    (canWait : ∀ work ∈ works, done.CanWait context id work) (settled : done.Settled id)
    (underBase : Under context base id) (under : Under context done id)
    (mayFill : ∀ other, done.MayFill other) : Releases context base done id works := by
  have finished : Work context (awaitedPrototypes works ++ []) base done :=
    work.finish step regularBase.valid isNew inProgress waits
      (fun other waits => mem_awaitedPrototypes.mpr ((sameWorks other).mpr waits.2)) points
  rw [append_nil] at finished
  refine ⟨regularBase, underBase, finished, fun object member => ?_, canWait, settled, under,
    mayFill⟩
  have member := mem_awaitedPrototypes.mp member
  cases canWait _ member with
  | prototype owned named =>
    rcases work.fresh object id ⟨owned, (sameWorks object).mp member⟩ with old | isNewObject
    · exact absurd old.2 (by simp [waiting_of_isNew regularBase.valid isNew])
    · exact isNewObject

/-- All that has waited for a value is done. What has been open before the value was reached is not
touched: nothing about it can have waited for the value. -/
theorem lands_release {dues : List Due}
    (runs : Runs ((dues.map Due.work).forM (release (writeAwaitedPrototype context visit))) before
      result after) (releases : Releases context base before id (dues.map Due.work))
    (balanced : Balanced context opened (dues ++ flight) before ledger)
    (isOuter : ∀ subject ∈ outer, subject ∈ opened)
    (untouched : ∀ subject ∈ outer, Untouched base baseLedger before ledger subject)
    (different : ∀ due ∈ dues, due.subject ∉ outer)
    (none : ∀ object, base.identifiers.get? object = none → baseLedger.parkedFor object = []) :
    ∃ later, Lands context opened flight dues before ledger after later ∧
      ∀ subject ∈ outer, Untouched base baseLedger after later subject := by
  induction dues generalizing before ledger with
  | nil =>
    obtain ⟨_, rfl⟩ := pure_iff.mp runs
    exact ⟨ledger, ⟨balanced, fun _ _ => rfl⟩, untouched⟩
  | cons due dues induction =>
    obtain ⟨middle, first, rest⟩ := Runs.forM_cons.mp runs
    obtain ⟨releases', -⟩ := (does_releaseOne visits releases).outcome _ _ first
    have landed : ∃ between,
        Lands context opened (dues ++ flight) [due] before ledger middle between ∧
          ∀ subject ∈ outer, Untouched before ledger middle between subject := by
      cases due with
      | write entry =>
        obtain rfl := runs_release.mp first
        obtain ⟨between, balanced, untouched, accounts⟩ :=
          balanced.settle releases.regular.valid.tree
        refine ⟨between, ⟨balanced, fun other _ => accounts other⟩, fun subject member => ?_⟩
        refine untouched subject ?_
        rintro rfl
        exact different _ mem_cons_self member
      | fill object =>
        cases releases.canWait _ mem_cons_self with
        | prototype owned named isObject =>
          have isNew := releases.isNew object mem_cons_self
          obtain ⟨-, -, landing⟩ := (does_writeAwaitedPrototype visits releases.work
            releases.regularBase isNew owned named isObject releases.settled releases.under
            (releases.mayFill object)).outcome _ _ first
          obtain ⟨between, lands, untouched'⟩ := landing balanced
          refine ⟨between, lands, fun subject member => ?_⟩
          refine untouched' subject (isOuter subject member) ?_
          exact (untouched subject member).not_parkedFor (none object isNew)
    obtain ⟨between, lands, untouched'⟩ := landed
    obtain ⟨later, lands', untouched''⟩ := induction rest releases' lands.balanced
      (fun subject member => (untouched subject member).trans (untouched' subject member))
      (fun due member => different due (mem_cons_of_mem _ member))
    exact ⟨later, ⟨lands'.balanced, fun other isOpen =>
      (lands'.accounts other isOpen).trans (lands.accounts other isOpen)⟩, untouched''⟩

theorem balanced_complete (runs : Runs (complete context visit id) before result after)
    (releases : Releases context base (before.finishing id) id (before.waiting id))
    (balanced : Balanced context (.value id :: outer) flight before ledger)
    (tree : before.bodies.Tree)
    (untouched : ∀ subject ∈ outer, Untouched base baseLedger before ledger subject)
    (isNew : base.identifiers.get? id = none)
    (none : ∀ object, base.identifiers.get? object = none → baseLedger.parkedFor object = []) :
    ∃ later, Balanced context (.value id :: outer) flight after later ∧
      after.accountIn later flight id = before.accountIn ledger flight id ∧
      ∀ subject ∈ outer, Untouched base baseLedger after later subject := by
  have foreign : ∀ subject ∈ outer, ∀ due ∈ ledger.parkedFor id, due.subject ≠ subject :=
    fun subject member => (untouched subject member).not_parkedFor (none id isNew)
  have running := runs_finish.mp runs
  rw [balanced.waiting id] at running releases
  obtain ⟨later, lands, untouched'⟩ := lands_release visits running releases
    (balanced.finish tree id) (fun subject member => mem_cons_of_mem _ member)
    (fun subject member => (untouched subject member).trans
      (.unpark _ _ (foreign subject member) rfl))
    (fun due member isOuter => foreign _ isOuter due member rfl) none
  refine ⟨later, lands.balanced, ?_, untouched'⟩
  rw [lands.accounts id mem_cons_self, accountIn_finishing]

end

end Session

end HeapScript
