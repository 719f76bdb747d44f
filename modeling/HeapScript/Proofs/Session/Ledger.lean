import HeapScript.Proofs.Session.Frame
import Mathlib.Algebra.Order.Group.Multiset

/-!
What the statements of a session are for.

Every statement that a session writes or defers has a *purpose*: it declares or creates an object,
sets one of its properties or its prototype, locks it, keeps a captured binding, or is an effect.
`Session.Serves` says what a statement has to be like to serve a purpose, and `Context.Accounted`
which purposes make up the complete account of a value.
-/

namespace HeapScript

variable {object : ObjectValue} {id : ValueId} {entry : Entry}

/-! ## Purposes -/

/-- How an object comes into being. -/
inductive Creation where
  | plain
  | fromPrototype
  | placeholder (object : LazyObject)
  | later
deriving DecidableEq

inductive Purpose where
  | declared (id : ValueId) (creation : Creation)
  | created (id : ValueId) (creation : Creation)
  /-- Gives an object its prototype afterwards. -/
  | link (id : ValueId)
  | property (id : ValueId) (property : Property)
  | lock (id : ValueId)
  | sharedVariable (number : Nat)
  /-- Sets the variable of a shared binding afterwards. -/
  | sharedValue (number : Nat)
  | effect (effect : Effect)

/-- What a statement is about. -/
inductive Subject where
  | value (id : ValueId)
  | binding (number : Nat)
  | effects
deriving DecidableEq

namespace Purpose

def subject : Purpose → Subject
  | .declared id _ | .created id _ | .link id | .property id _ | .lock id => .value id
  | .sharedVariable number | .sharedValue number => .binding number
  | .effect _ => .effects

def lockedObject? : Purpose → Option ValueId
  | .property id _ => some id
  | _ => none

def isPlaceholder : Purpose → Bool
  | .declared _ (.placeholder _) | .created _ (.placeholder _) => true
  | _ => false

def mayWait : Purpose → Bool
  | .link _ | .property .. | .sharedValue _ => true
  | _ => false

theorem not_isPlaceholder {purpose : Purpose} (mayWait : purpose.mayWait = true) :
    purpose.isPlaceholder = false := by
  cases purpose <;> simp_all [Purpose.mayWait, isPlaceholder]

theorem subject_of_lockedObject? {purpose : Purpose} (isLocked : purpose.lockedObject? = some id) :
    purpose.subject = .value id := by
  cases purpose <;> simp_all [lockedObject?, subject]

end Purpose

def Context.PrototypeAwaits (context : Context) (id : ValueId) : Prop :=
  ∃ object prototype, context.IsObject id object ∧ object.prototype = some prototype ∧
    context.Awaits prototype id

/-- The statement may wait; a link, for a prototype from which the object has been reached. -/
def Context.MayWait (context : Context) (purpose : Purpose) : Prop :=
  purpose.mayWait = true ∧ ∀ id, purpose = .link id → context.PrototypeAwaits id

theorem Context.mayWait_property (context : Context) (id : ValueId) (property : Property) :
    context.MayWait (.property id property) :=
  ⟨rfl, fun _ isLink => by cases isLink⟩

theorem Context.mayWait_sharedValue (context : Context) (number : Nat) :
    context.MayWait (.sharedValue number) :=
  ⟨rfl, fun _ isLink => by cases isLink⟩

structure Entry where
  body : BodyId
  purpose : Purpose
  stmt : Stmt

namespace Entry

def place (entry : Entry) : BodyId × Purpose := (entry.body, entry.purpose)

/-- The second statement may be written after the first one: of an object that is locked, only the
prototype may still be set, if the object has been reached from it. -/
def MayPrecede (context : Context) (first second : Entry) : Prop :=
  ∀ id, first.purpose = .lock id → second.purpose.subject = .value id →
    second.purpose = .link id ∧ context.PrototypeAwaits id

end Entry

/-- What is to be done when a value is complete: a statement is written, or a `prototype` object is
filled. -/
inductive Due where
  | write (entry : Entry)
  | fill (object : ValueId)

namespace Due

def work : Due → Deferred
  | .write entry => .stmt entry.body entry.stmt entry.purpose.lockedObject?
  | .fill object => .prototype object

def subject : Due → Subject
  | .write entry => entry.purpose.subject
  | .fill object => .value object

def entry? : Due → Option Entry
  | .write entry => some entry
  | .fill _ => none

def filled? : Due → Option ValueId
  | .write _ => none
  | .fill object => some object

def lockedObject? : Due → Option ValueId
  | .write entry => entry.purpose.lockedObject?
  | .fill _ => none

end Due

/-! ## Accounts -/

def placesOf (id : ValueId) (entries : List Entry) : Multiset (BodyId × Purpose) :=
  ((entries.filter (·.purpose.subject = .value id)).map Entry.place : List _)

@[simp] theorem placesOf_nil (id : ValueId) : placesOf id [] = 0 := rfl

@[simp] theorem placesOf_append (id : ValueId) (entries others : List Entry) :
    placesOf id (entries ++ others) = placesOf id entries + placesOf id others := by
  simp [placesOf]

theorem placesOf_cons (id : ValueId) (entry : Entry) (entries : List Entry) :
    placesOf id (entry :: entries) =
      (if entry.purpose.subject = .value id then {entry.place} else 0) + placesOf id entries := by
  by_cases same : entry.purpose.subject = .value id
  · simp [placesOf, same, ← Multiset.cons_coe]
  · simp [placesOf, same]

theorem placesOf_perm {entries others : List Entry} (perm : entries.Perm others) (id : ValueId) :
    placesOf id entries = placesOf id others :=
  Multiset.coe_eq_coe.mpr ((perm.filter _).map _)

/-- The number of waiting statements for which the lock of an object waits. -/
def pending (dues : List Due) (id : ValueId) : Nat :=
  dues.countP (·.lockedObject? = some id)

def fillings (dues : List Due) : List ValueId := dues.filterMap Due.filled?

def dueEntries (dues : List Due) : List Entry := dues.filterMap Due.entry?

theorem mem_dueEntries {dues : List Due} : entry ∈ dueEntries dues ↔ .write entry ∈ dues := by
  simp only [dueEntries, List.mem_filterMap]
  constructor
  · rintro ⟨due, member, same⟩
    cases due <;> simp_all [Due.entry?]
  · exact fun member => ⟨_, member, rfl⟩

/-- If no lock waits for a statement about a value, no property of the value is among the waiting
ones. -/
theorem pending_eq_zero {dues : List Due} :
    pending dues id = 0 ↔ ∀ entry ∈ dueEntries dues, entry.purpose.lockedObject? ≠ some id := by
  simp only [pending, List.countP_eq_zero, decide_eq_true_eq]
  constructor
  · exact fun none entry member => none _ (mem_dueEntries.mp member)
  · intro none due member
    cases due with
    | write entry => exact none entry (mem_dueEntries.mpr member)
    | fill object => simp [Due.lockedObject?]

@[simp] theorem pending_write (entry : Entry) (dues : List Due) (id : ValueId) :
    pending (.write entry :: dues) id =
      pending dues id + if entry.purpose.lockedObject? = some id then 1 else 0 := by
  by_cases same : entry.purpose.lockedObject? = some id <;>
    simp [pending, Due.lockedObject?, same]

@[simp] theorem pending_fill (object : ValueId) (dues : List Due) (id : ValueId) :
    pending (.fill object :: dues) id = pending dues id := by
  simp [pending, Due.lockedObject?]

@[simp] theorem fillings_write (entry : Entry) (dues : List Due) :
    fillings (.write entry :: dues) = fillings dues := rfl

@[simp] theorem fillings_fill (object : ValueId) (dues : List Due) :
    fillings (.fill object :: dues) = object :: fillings dues := rfl

@[simp] theorem dueEntries_write (entry : Entry) (dues : List Due) :
    dueEntries (.write entry :: dues) = entry :: dueEntries dues := rfl

/-- A statement may be written before those that wait. -/
structure Entry.MayCome (context : Context) (entry : Entry) (written : List Entry)
    (dues : List Due) : Prop where
  follows : ∀ other ∈ written, other.MayPrecede context entry
  precedes : ∀ due ∈ dueEntries dues, entry.MayPrecede context due

namespace Entry.MayCome

variable {written : List Entry} {dues : List Due}

theorem of_subject (isOther : ∀ id, entry.purpose.subject ≠ .value id) :
    entry.MayCome context written dues where
  follows _ _ id _ isSubject := absurd isSubject (isOther id)
  precedes _ _ id isLock := absurd (congrArg Purpose.subject isLock) (isOther id)

/-- All statements about an object may come before its lock, which comes when no other one waits. -/
theorem of_unlocked (isSubject : entry.purpose.subject = .value id)
    (unlocked : ∀ other ∈ written, other.purpose ≠ .lock id)
    (mayWait : ∀ due ∈ dueEntries dues, context.MayWait due.purpose)
    (isLast : entry.purpose = .lock id → pending dues id = 0) :
    entry.MayCome context written dues where
  follows other member locked isLock same := by
    cases isSubject.symm.trans same
    exact absurd isLock (unlocked other member)
  precedes due member locked isLock same := by
    rw [isLock] at isSubject
    cases isSubject
    have notLocked := pending_eq_zero.mp (isLast isLock) due member
    obtain ⟨mayWait, awaits⟩ := mayWait due member
    have isLink : due.purpose = .link id := by
      cases isPurpose : due.purpose <;>
        simp_all [Purpose.mayWait, Purpose.subject, Purpose.lockedObject?]
    exact ⟨isLink, awaits id isLink⟩

end Entry.MayCome

namespace Context

@[simp] theorem dueEntries_fill (object : ValueId) (dues : List Due) :
    dueEntries (.fill object :: dues) = dueEntries dues := rfl

def integrity? (context : Context) (id : ValueId) : Option Integrity :=
  ((context.graph.values.get? id).bind HeapValue.asObject?).bind (·.integrity)

/-- The properties of a value that are set by statements of their own; those of a class are
installed by its definition. -/
def assigned (context : Context) (id : ValueId) : List Property :=
  match context.graph.values.get? id with
  | some (.object object) =>
    match context.prototypeOwners.get? id with
    | some _ => object.properties.filter fun property => !context.isMemberSlot id false property
    | none => object.properties
  | some (.function function) =>
    function.properties.filter fun property => !context.isMemberSlot id true property
  | _ => []

def filling (context : Context) (id : ValueId) (body : BodyId) : Multiset (BodyId × Purpose) :=
  ((context.assigned id).map fun property => (body, Purpose.property id property) : List _) +
    ((context.integrity? id).toList.map fun _ => (body, Purpose.lock id) : List _)

/-- A value is filled by statements for these properties, and then gets its lock. -/
structure FilledBy (context : Context) (id : ValueId) (properties : List Property)
    (integrity : Option Integrity) : Prop where
  links : ∀ property ∈ properties, context.Links id property.value
  assigned : context.assigned id = properties
  integrity : context.integrity? id = integrity

namespace FilledBy

variable {context : Context} {id : ValueId}

theorem of_owned {owner : ValueId} (isObject : context.IsObject id object)
    (owned : context.Owned id owner) :
    context.FilledBy id (object.properties.filter fun property =>
      !context.isMemberSlot id false property) object.integrity where
  links property member := .objectProperty isObject (List.mem_filter.mp member).1
  assigned := by
    have isOwned : context.prototypeOwners.get? id = some owner := owned
    simp [Context.assigned, isObject, isOwned]
  integrity := by simp [integrity?, isObject, HeapValue.asObject?]

theorem of_constructs (constructs : context.Constructs id object) :
    context.FilledBy id object.properties object.integrity where
  links property member := .objectProperty constructs.isObject member
  assigned := by simp [Context.assigned, constructs.isObject, constructs.notOwned]
  integrity := by simp [integrity?, constructs.isObject, HeapValue.asObject?]

theorem of_function {function : FunctionValue} (isFunction : context.IsFunction id function) :
    context.FilledBy id (function.properties.filter fun property =>
      !context.isMemberSlot id true property) none where
  links property member := .functionProperty isFunction (List.mem_filter.mp member).1
  assigned := by simp [Context.assigned, isFunction]
  integrity := by simp [integrity?, isFunction, HeapValue.asObject?]

end FilledBy

end Context

inductive ObjectValue.Inherits (object : ObjectValue) (id : ValueId) (body : BodyId) :
    Creation → Multiset (BodyId × Purpose) → Prop where
  | nothing (isPlain : object.prototype = none) : Inherits object id body .plain 0
  | atOnce {prototype : ValueId} (isPrototype : object.prototype = some prototype) :
      Inherits object id body .fromPrototype 0
  | linked {prototype : ValueId} (isPrototype : object.prototype = some prototype) :
      Inherits object id body .plain {(body, .link id)}

theorem ObjectValue.Inherits.isLink {body : BodyId} {creation : Creation}
    {links : Multiset (BodyId × Purpose)} (inherits : object.Inherits id body creation links) :
    ∀ place ∈ links, place.2 = .link id := by
  cases inherits <;> simp

theorem ObjectValue.Inherits.ne_placeholder {body : BodyId} {creation : Creation}
    {links : Multiset (BodyId × Purpose)} (inherits : object.Inherits id body creation links)
    (lazyObject : LazyObject) : creation ≠ .placeholder lazyObject := by
  cases inherits <;> simp

namespace Context

/-- The statements by which a value comes into being, and gets its prototype in the body where it
is filled. -/
inductive Arises (context : Context) (id : ValueId) (body : BodyId) :
    Multiset (BodyId × Purpose) → Prop where
  | function {function : FunctionValue}
      (isFunction : context.graph.values.get? id = some (.function function)) :
      Arises context id body 0
  /-- The `prototype` of a function comes with the function. -/
  | owned {object : ObjectValue} {owner : ValueId}
      (isObject : context.graph.values.get? id = some (.object object))
      (owned : context.Owned id owner) : Arises context id body 0
  | eager {object : ObjectValue} {creation : Creation} {links : Multiset (BodyId × Purpose)}
      (constructs : context.Constructs id object)
      (inherits : object.Inherits id body creation links) :
      Arises context id body ({(body, .declared id creation)} + links)
  | lazy {object : ObjectValue} {lazyObject : LazyObject}
      (constructs : context.Constructs id object) (isBody : lazyObject.body = some body) :
      Arises context id body
        ({(Bodies.global, .declared id (.placeholder lazyObject))} +
          (object.prototype.toList.map fun _ => (body, Purpose.link id) : List _))
  | delayed {object : ObjectValue} {home : BodyId} {creation : Creation}
      {links : Multiset (BodyId × Purpose)} (constructs : context.Constructs id object)
      (inherits : object.Inherits id body creation links) :
      Arises context id body
        ({(home, .declared id .later)} + {(body, .created id creation)} + links)

def Accounted (context : Context) (id : ValueId) (account : Multiset (BodyId × Purpose)) : Prop :=
  ∃ body arising, context.Arises id body arising ∧ account = arising + context.filling id body

end Context

namespace Session

/-! ## Statements and their purposes -/

inductive Creates (context : Context) (session : Session) (body : BodyId) (id : ValueId) :
    Creation → Option Expr → Prop where
  | plain : Creates context session body id .plain (some (.object []))
  | fromPrototype {object : ObjectValue} {prototype : ValueId} {expr : Expr}
      (isObject : context.graph.values.get? id = some (.object object))
      (isPrototype : object.prototype = some prototype)
      (refers : session.Refers context body prototype expr) :
      Creates context session body id .fromPrototype
        (some (.methodCall (.var "Object") "create" [expr]))
  | placeholder {settings : LazySettings} (object : LazyObject)
      (isSettings : context.settings.lazyObjects = some settings) :
      Creates context session body id (.placeholder object)
        (some (.methodCall (.path settings.runtime) "createLazyObject" [.nat object.number]))
  | later : Creates context session body id .later none

/-- A statement of a body does what its purpose says. -/
inductive Serves (context : Context) (session : Session) (body : BodyId) :
    Purpose → Stmt → Prop where
  | declared {id : ValueId} {creation : Creation} {name : String} {init : Option Expr}
      (named : session.identifiers.get? id = some name)
      (creates : session.Creates context body id creation init) :
      Serves context session body (.declared id creation) (.declare .var name init)
  | created {id : ValueId} {creation : Creation} {name : String} {init : Expr}
      (named : session.identifiers.get? id = some name)
      (refersTarget : session.Refers context body id (.var name))
      (creates : session.Creates context body id creation (some init)) :
      Serves context session body (.created id creation) (.assign (.var name) init)
  | link {id prototype : ValueId} {object : ObjectValue} {target expr : Expr}
      (isObject : context.graph.values.get? id = some (.object object))
      (isPrototype : object.prototype = some prototype)
      (refersTarget : session.Refers context body id target)
      (refers : session.Refers context body prototype expr) :
      Serves context session body (.link id) (setPrototypeOf target expr)
  | property {id : ValueId} {property : Property} {target value : Expr}
      (refersTarget : session.Refers context body id target)
      (refers : session.Refers context body property.value value) :
      Serves context session body (.property id property)
        (.assign (.member target property.key) value)
  | lock {id : ValueId} {level : Integrity} {target : Expr}
      (isLocked : context.integrity? id = some level)
      (refersTarget : session.Refers context body id target) :
      Serves context session body (.lock id) (lockStmt level target)
  | sharedVariable {number : Nat} :
      Serves context session body (.sharedVariable number) (.declare .var (sharedName number) none)
  | sharedInit {number : Nat} {value : ValueId} {expr : Expr}
      (refers : session.Refers context body value expr) :
      Serves context session body (.sharedVariable number) (.var (sharedName number) expr)
  | sharedValue {number : Nat} {value : ValueId} {expr : Expr}
      (refers : session.Refers context body value expr) :
      Serves context session body (.sharedValue number) (.assign (.var (sharedName number)) expr)
  | globalAssign {name : String} {value : ValueId} {expr : Expr}
      (refers : session.Refers context body value expr) :
      Serves context session body (.effect (.globalAssign name value))
        (.assign (.member (.var "globalThis") name) expr)
  | propertyAssign {object value : ValueId} {key : String} {target expr : Expr}
      (refersTarget : session.Refers context body object target)
      (refers : session.Refers context body value expr) :
      Serves context session body (.effect (.propertyAssign object key value))
        (.assign (.member target key) expr)
  | call {callee : ValueId} {args : List ValueId} {function : Expr} {exprs : List Expr}
      (refersCallee : session.Refers context body callee function)
      (refers : List.Forall₂ (session.Refers context body) args exprs) :
      Serves context session body (.effect (.call callee args)) (.expr (.call function exprs))

/-- An entry stands in a body that exists, and serves its purpose. Where a lazy object is filled all
statements are about the object. -/
structure Records (context : Context) (session : Session) (entry : Entry) : Prop where
  present : session.bodies.Has entry.body
  serves : session.Serves context entry.body entry.purpose entry.stmt
  about : ∀ object, session.bodies.kind entry.body = .lazyInitializer object →
    entry.purpose.subject = .value object

variable {context : Context} {before after : Session}

/-- All that a statement may refer to is still known. -/
structure Reveals (context : Context) (before after : Session) : Prop where
  has : ∀ body, before.bodies.Has body → after.bodies.Has body
  kinds : ∀ body, before.bodies.Has body → after.bodies.kind body = before.bodies.kind body
  identifiers : ∀ id name, before.identifiers.get? id = some name →
    after.identifiers.get? id = some name
  refers : ∀ body id expr, before.bodies.Has body → before.Refers context body id expr →
    after.Refers context body id expr

theorem Extends.reveals (extends_ : Extends before after) (tree : before.bodies.Tree) :
    Reveals context before after where
  has _ := extends_.bodies.has
  kinds _ := extends_.bodies.kind_eq
  identifiers := extends_.identifiers
  refers _ _ _ := extends_.refers tree

theorem Reveals.of_eq (bodies : after.bodies = before.bodies)
    (identifiers : after.identifiers = before.identifiers)
    (declaredIn : after.declaredIn = before.declaredIn)
    (lazyObjects : after.lazyObjects = before.lazyObjects) : Reveals context before after where
  has body := bodies ▸ id
  kinds body _ := by rw [bodies]
  identifiers id name named := identifiers ▸ named
  refers body id expr _ refers := by
    have sameLazy : after.lazyBody? id =
      before.lazyBody? id := by rw [lazyBody?, lazyObjects, lazyBody?]
    cases refers with
    | primitive isPrimitive => exact .primitive isPrimitive
    | known isObject isKnown => exact .known isObject isKnown
    | named isBuilt named sees outside =>
      refine .named isBuilt (identifiers ▸ named) ?_ (bodies ▸ sameLazy ▸ outside)
      obtain ⟨home, isHome, within⟩ := sees
      exact ⟨home, declaredIn ▸ isHome, bodies ▸ within⟩
    | filled isBuilt named isLazy inside =>
      exact .filled isBuilt (identifiers ▸ named) (sameLazy ▸ isLazy) (bodies ▸ inside)

theorem Records.of_reveals (records : before.Records context entry)
    (reveals : Reveals context before after) : after.Records context entry := by
  obtain ⟨present, serves, about⟩ := records
  have refers : ∀ {id expr}, before.Refers context entry.body id expr →
      after.Refers context entry.body id expr := reveals.refers _ _ _ present
  have creates : ∀ {id creation init}, before.Creates context entry.body id creation init →
      after.Creates context entry.body id creation init := by
    intro id creation init creates
    cases creates with
    | plain => exact .plain
    | fromPrototype isObject isPrototype refersPrototype =>
      exact .fromPrototype isObject isPrototype (refers refersPrototype)
    | placeholder object isSettings => exact .placeholder object isSettings
    | later => exact .later
  refine ⟨reveals.has _ present, ?_, reveals.kinds _ present ▸ about⟩
  generalize entry.purpose = purpose at serves
  generalize entry.stmt = stmt at serves
  cases serves with
  | declared named isCreated => exact .declared (reveals.identifiers _ _ named) (creates isCreated)
  | created named refersTarget isCreated =>
    exact .created (reveals.identifiers _ _ named) (refers refersTarget) (creates isCreated)
  | link isObject isPrototype refersTarget refersPrototype =>
    exact .link isObject isPrototype (refers refersTarget) (refers refersPrototype)
  | property refersTarget refersValue => exact .property (refers refersTarget) (refers refersValue)
  | lock isLocked refersTarget => exact .lock isLocked (refers refersTarget)
  | sharedVariable => exact .sharedVariable
  | sharedInit refersValue => exact .sharedInit (refers refersValue)
  | sharedValue refersValue => exact .sharedValue (refers refersValue)
  | globalAssign refersValue => exact .globalAssign (refers refersValue)
  | propertyAssign refersTarget refersValue =>
    exact .propertyAssign (refers refersTarget) (refers refersValue)
  | call refersCallee refersArgs =>
    exact .call (refers refersCallee) (refersArgs.imp fun _ _ => refers)

theorem Records.of_extends (records : before.Records context entry)
    (extends_ : Extends before after) (tree : before.bodies.Tree) : after.Records context entry :=
  records.of_reveals (extends_.reveals tree)

end Session

end HeapScript
