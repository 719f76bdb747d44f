import HeapScript.Proofs.Session.Books
import HeapScript.Proofs.Session.Equipment

/-!
Books that are kept while a session goes on.

A `Ledger` holds all statements that have been written, and what is parked until some value is
complete. When a value is completed, what is parked for it leaves the ledger and is *in flight*
until it is done. Writing a value keeps the ledger in balance and does not touch what is open: see
`Session.Preserves`.
-/

namespace HeapScript

open List

/-- The statements of a session, and what waits for which value. -/
structure Ledger where
  written : List Entry := []
  parked : List (ValueId × Due) := []

namespace Ledger

def dues (ledger : Ledger) (flight : List Due) : List Due :=
  ledger.parked.map (·.2) ++ flight

def parkedFor (ledger : Ledger) (id : ValueId) : List Due :=
  (ledger.parked.filter (·.1 = id)).map (·.2)

def write (ledger : Ledger) (entries : List Entry) : Ledger :=
  { ledger with written := ledger.written ++ entries }

def park (ledger : Ledger) (awaited : ValueId) (due : Due) : Ledger :=
  { ledger with parked := ledger.parked ++ [(awaited, due)] }

def unpark (ledger : Ledger) (id : ValueId) : Ledger :=
  { ledger with parked := ledger.parked.filter (·.1 ≠ id) }

theorem dues_park_perm (ledger : Ledger) (awaited : ValueId) (due : Due) (flight : List Due) :
    ((ledger.park awaited due).dues flight).Perm (due :: ledger.dues flight) := by
  simp only [dues, park, map_append, map_cons, map_nil, append_assoc,
    singleton_append]
  exact perm_middle

theorem dues_unpark_perm (ledger : Ledger) (id : ValueId) (flight : List Due) :
    ((ledger.unpark id).dues (ledger.parkedFor id ++ flight)).Perm (ledger.dues flight) := by
  simp only [dues, unpark, parkedFor, ← append_assoc, ← map_append]
  refine List.Perm.append_right flight (List.Perm.map _ ?_)
  have split := filter_append_perm (fun entry : ValueId × Due => decide (entry.1 = id))
    ledger.parked
  exact (perm_append_comm.trans (by simpa using split))

theorem dues_cons_perm (ledger : Ledger) (due : Due) (flight : List Due) :
    (ledger.dues (due :: flight)).Perm (due :: ledger.dues flight) :=
  perm_middle

end Ledger

namespace Session

variable {id : ValueId} {entry : Entry}

variable {context : Context} {opened : List Subject} {flight : List Due}
  {session before middle after : Session} {ledger between later : Ledger}

def accountIn (session : Session) (ledger : Ledger) (flight : List Due) (id : ValueId) :
    Multiset (BodyId × Purpose) :=
  session.account ledger.written (ledger.dues flight) id

def Heralds (context : Context) (session : Session) (entry : Entry)
    (lazyObject : ValueId × LazyObject) : Prop :=
  ∃ settings name, context.settings.lazyObjects = some settings ∧
    session.identifiers.get? lazyObject.1 = some name ∧
    entry = ⟨Bodies.global, .declared lazyObject.1 (.placeholder lazyObject.2), .var name
      (.methodCall (.path settings.runtime) "createLazyObject" [.nat lazyObject.2.number])⟩

def Heralded (context : Context) (session : Session) (written : List Entry) : Prop :=
  List.Forall₂ (session.Heralds context) (written.filter (·.purpose.isPlaceholder))
    session.lazyObjects.entries

theorem Heralded.mono {written : List Entry} (heralded : Heralded context before written)
    (identifiers : ∀ id name, before.identifiers.get? id = some name →
      after.identifiers.get? id = some name)
    (lazyObjects : after.lazyObjects = before.lazyObjects) : Heralded context after written := by
  rw [Heralded, lazyObjects]
  refine heralded.imp fun entry lazyObject heralds => ?_
  obtain ⟨settings, name, isSettings, named, same⟩ := heralds
  exact ⟨settings, name, isSettings, identifiers _ _ named, same⟩

theorem Heralded.write {written entries : List Entry} (heralded : Heralded context session written)
    (plain : ∀ entry ∈ entries, entry.purpose.isPlaceholder = false) :
    Heralded context session (written ++ entries) := by
  have none : entries.filter (·.purpose.isPlaceholder) = [] :=
    filter_eq_nil_iff.mpr fun entry member => by simp [plain entry member]
  rwa [Heralded, filter_append, none, append_nil]

structure Balanced (context : Context) (opened : List Subject) (flight : List Due)
    (session : Session) (ledger : Ledger) : Prop where
  books : Books context opened session ledger.written (ledger.dues flight)
  waiting : ∀ id, session.waiting id = (ledger.parkedFor id).map Due.work
  heralded : Heralded context session ledger.written

/-- The statements about a subject are where they have been. -/
structure Untouched (before : Session) (ledger : Ledger) (after : Session) (later : Ledger)
    (subject : Subject) : Prop where
  written : later.written.filter (·.purpose.subject = subject) =
    ledger.written.filter (·.purpose.subject = subject)
  parked : later.parked.filter (·.2.subject = subject) =
    ledger.parked.filter (·.2.subject = subject)
  locks : ∀ id, subject = .value id → after.locks.get? id = before.locks.get? id

namespace Untouched

variable {subject : Subject}

theorem refl (session : Session) (ledger : Ledger) (subject : Subject) :
    Untouched session ledger session ledger subject :=
  ⟨rfl, rfl, fun _ _ => rfl⟩

theorem trans (first : Untouched before ledger middle between subject)
    (second : Untouched middle between after later subject) :
    Untouched before ledger after later subject where
  written := second.written.trans first.written
  parked := second.parked.trans first.parked
  locks id isValue := (second.locks id isValue).trans (first.locks id isValue)

theorem of_locks (same : after.locks = before.locks) :
    Untouched before ledger after ledger subject :=
  ⟨rfl, rfl, fun _ _ => by rw [same]⟩

theorem write {entries : List Entry} (session : Session) (ledger : Ledger)
    (different : ∀ entry ∈ entries, entry.purpose.subject ≠ subject)
    (locks : ∀ id, subject = .value id → after.locks.get? id = session.locks.get? id) :
    Untouched session ledger after (ledger.write entries) subject where
  written := by
    have none : entries.filter (·.purpose.subject = subject) = [] :=
      filter_eq_nil_iff.mpr fun entry member => by simpa using different entry member
    simp [Ledger.write, filter_append, none]
  parked := rfl
  locks := locks

theorem park (session : Session) (ledger : Ledger) (awaited : ValueId) {due : Due}
    (different : due.subject ≠ subject) (same : after.locks = session.locks) :
    Untouched session ledger after (ledger.park awaited due) subject where
  written := rfl
  parked := by simp [Ledger.park, filter_append, different]
  locks _ _ := by rw [same]

theorem unpark (session : Session) (ledger : Ledger)
    (different : ∀ due ∈ ledger.parkedFor id, due.subject ≠ subject)
    (same : after.locks = session.locks) :
    Untouched session ledger after (ledger.unpark id) subject where
  written := rfl
  parked := by
    simp only [Ledger.unpark, filter_filter]
    refine filter_congr fun entry member => ?_
    by_cases isAwaited : entry.1 = id
    · have parked : entry.2 ∈ ledger.parkedFor id :=
        mem_map.mpr ⟨entry, mem_filter.mpr ⟨member, by simpa using isAwaited⟩, rfl⟩
      simp [different _ parked]
    · simp [isAwaited]
  locks _ _ := by rw [same]

theorem not_parkedFor (untouched : Untouched before ledger after later subject)
    (none : ledger.parkedFor id = []) : ∀ due ∈ later.parkedFor id, due.subject ≠ subject := by
  rintro due member rfl
  obtain ⟨entry, isEntry, rfl⟩ := mem_map.mp member
  obtain ⟨isParked, isAwaited⟩ := mem_filter.mp isEntry
  have old : entry ∈ ledger.parked.filter (·.2.subject = entry.2.subject) := by
    rw [← untouched.parked]
    exact mem_filter.mpr ⟨isParked, by simp⟩
  have parked : entry.2 ∈ ledger.parkedFor id :=
    mem_map.mpr ⟨entry, mem_filter.mpr ⟨(mem_filter.mp old).1, isAwaited⟩, rfl⟩
  simp [none] at parked

theorem dueEntries_filter (parked : List (ValueId × Due)) (subject : Subject) :
    (dueEntries (parked.map (·.2))).filter (·.purpose.subject = subject) =
      dueEntries ((parked.filter (·.2.subject = subject)).map (·.2)) := by
  induction parked with
  | nil => rfl
  | cons entry parked induction =>
    obtain ⟨awaited, due⟩ := entry
    cases due with
    | write entry =>
      by_cases same : entry.purpose.subject = subject <;>
        simp [Due.subject, same, induction]
    | fill object =>
      by_cases same : Subject.value object = subject <;>
        simp [Due.subject, same, induction]

theorem dueEntries_append (dues others : List Due) :
    dueEntries (dues ++ others) = dueEntries dues ++ dueEntries others :=
  filterMap_append

theorem pending_append (dues others : List Due) (id : ValueId) :
    pending (dues ++ others) id = pending dues id + pending others id :=
  countP_append

theorem accountIn_eq (untouched : Untouched before ledger after later (.value id))
    (flight : List Due) : after.accountIn later flight id = before.accountIn ledger flight id := by
  have parked : placesOf id (dueEntries (later.parked.map (·.2))) =
      placesOf id (dueEntries (ledger.parked.map (·.2))) := by
    simp only [placesOf, dueEntries_filter, untouched.parked]
  have written : placesOf id later.written = placesOf id ledger.written := by
    simp only [placesOf, untouched.written]
  simp only [accountIn, account, Ledger.dues, dueEntries_append, placesOf_append, parked, written,
    lockPlaces, untouched.locks id rfl]

theorem pending_filter (parked : List (ValueId × Due)) (id : ValueId) :
    pending (parked.map (·.2)) id =
      pending ((parked.filter (·.2.subject = .value id)).map (·.2)) id := by
  induction parked with
  | nil => rfl
  | cons entry parked induction =>
    obtain ⟨awaited, due⟩ := entry
    by_cases same : due.subject = .value id
    · cases due <;> simp_all
    · have notLocked : due.lockedObject? ≠ some id := by
        intro isLocked
        cases due with
        | write entry => exact same (Purpose.subject_of_lockedObject? isLocked)
        | fill object => simp [Due.lockedObject?] at isLocked
      cases due <;> simp_all [Due.lockedObject?]

theorem pending_eq (untouched : Untouched before ledger after later (.value id))
    (flight : List Due) : pending (later.dues flight) id = pending (ledger.dues flight) id := by
  rw [Ledger.dues, Ledger.dues, pending_append, pending_append, pending_filter later.parked,
    pending_filter ledger.parked, untouched.parked]

end Untouched

def Preserves (context : Context) (before after : Session) : Prop :=
  ∀ opened flight ledger, Balanced context opened flight before ledger →
    ∃ later, Balanced context opened flight after later ∧
      ∀ subject ∈ opened, Untouched before ledger after later subject

namespace Preserves

theorem refl (context : Context) (session : Session) : Preserves context session session :=
  fun _ _ ledger balanced => ⟨ledger, balanced, fun subject _ => .refl session ledger subject⟩

theorem trans (first : Preserves context before middle) (second : Preserves context middle after) :
    Preserves context before after := by
  intro opened flight ledger balanced
  obtain ⟨between, balanced, untouched⟩ := first opened flight ledger balanced
  obtain ⟨later, balanced, untouched'⟩ := second opened flight between balanced
  exact ⟨later, balanced, fun subject member =>
    (untouched subject member).trans (untouched' subject member)⟩

theorem of_reveals (reveals : Reveals context before after)
    (stmts : ∀ body, after.bodies.stmts body = before.bodies.stmts body)
    (deferred : after.deferred = before.deferred) (locks : after.locks = before.locks)
    (identifiers : after.identifiers = before.identifiers)
    (lazyObjects : after.lazyObjects = before.lazyObjects) : Preserves context before after := by
  intro opened flight ledger balanced
  refine ⟨ledger, ⟨balanced.books.of_reveals reveals stmts locks identifiers, fun id => ?_,
    balanced.heralded.mono reveals.identifiers lazyObjects⟩, fun subject _ => .of_locks locks⟩
  rw [← balanced.waiting id, waiting, waiting, deferred]

theorem entering (tree : session.bodies.Tree) (body : BodyId) :
    Preserves context session (session.entering body) :=
  .of_reveals (((Extends.refl session).entering body).reveals tree) (fun _ => rfl) rfl rfl rfl rfl

theorem leaving (tree : session.bodies.Tree) : Preserves context session session.leaving :=
  .of_reveals ((Extends.refl session).leaving.reveals tree) (fun _ => rfl) rfl rfl rfl rfl

theorem delaying (tree : session.bodies.Tree) (function : ValueId) (body : BodyId) :
    Preserves context session ((session.delaying function).entering body) :=
  .of_reveals ((((Extends.refl session).delaying function).entering body).reveals tree)
    (stmts_delaying session function) (deferred_delaying session function)
    (locks_delaying session function) (identifiers_delaying session function)
    (lazyObjects_delaying session function)

theorem of_eq (bodies : after.bodies = before.bodies)
    (identifiers : after.identifiers = before.identifiers)
    (declaredIn : after.declaredIn = before.declaredIn)
    (lazyObjects : after.lazyObjects = before.lazyObjects)
    (deferred : after.deferred = before.deferred) (locks : after.locks = before.locks) :
    Preserves context before after :=
  .of_reveals (.of_eq bodies identifiers declaredIn lazyObjects) (fun _ => by rw [bodies]) deferred
    locks identifiers lazyObjects

theorem starting (session : Session) (id : ValueId) :
    Preserves context session (session.starting id) :=
  .of_eq rfl rfl rfl rfl rfl rfl

theorem changing (session : Session) (id : ValueId)
    (change : FunctionInstance → FunctionInstance) :
    Preserves context session (session.changing id change) :=
  .of_eq rfl rfl rfl rfl rfl rfl

end Preserves

namespace Balanced

/-! ### Single changes -/

theorem waiting_park (balanced : Balanced context opened flight session ledger) (awaited : ValueId)
    (due : Due) (id : ValueId) : (session.deferring awaited due.work).waiting id =
      ((ledger.park awaited due).parkedFor id).map Due.work := by
  rw [waiting_deferring]
  by_cases same : awaited = id
  · subst same
    simp [Ledger.parkedFor, Ledger.park, filter_append, balanced.waiting]
  · simp [Ledger.parkedFor, Ledger.park, filter_append, balanced.waiting, same]

section

variable (balanced : Balanced context opened flight session ledger)
  (records : session.Records context entry) (tree : session.bodies.Tree)
  (isOpen : IsOpen opened entry.purpose.subject)

include balanced records tree isOpen

theorem write (isPlain : entry.purpose.isPlaceholder = false)
    (mayCome : entry.MayCome context ledger.written (ledger.dues flight)) :
    Balanced context opened flight (session.emitting entry.body entry.stmt)
      (ledger.write [entry]) where
  books := balanced.books.write records tree isOpen mayCome
  waiting := balanced.waiting
  heralded := balanced.heralded.write (by simp [isPlain])

theorem park (unlocked : ∀ id, entry.purpose.lockedObject? = some id → session.locks.get? id = none)
    (mayWait : context.MayWait entry.purpose)
    (follows : ∀ other ∈ ledger.written, other.MayPrecede context entry) (awaited : ValueId) :
    Balanced context opened flight
      (session.deferring awaited (.stmt entry.body entry.stmt entry.purpose.lockedObject?))
      (ledger.park awaited (.write entry)) where
  books := by
    have books := (balanced.books.park records isOpen unlocked mayWait follows).of_perm
      (ledger.dues_park_perm awaited (.write entry) flight).symm
    exact books.of_reveals (((Extends.refl session).deferring _ _).reveals tree) (fun _ => rfl) rfl
      rfl
  waiting := balanced.waiting_park awaited (.write entry)
  heralded := balanced.heralded

end

theorem finish (balanced : Balanced context opened flight session ledger)
    (tree : session.bodies.Tree) (id : ValueId) :
    Balanced context opened (ledger.parkedFor id ++ flight) (session.finishing id)
      (ledger.unpark id) where
  books := by
    have books := balanced.books.of_perm (ledger.dues_unpark_perm id flight).symm
    exact books.of_reveals (((Extends.refl session).finishing id).reveals tree) (fun _ => rfl) rfl
      rfl
  waiting other := by
    rw [waiting_finishing]
    by_cases same : id = other
    · subst same
      simp [Ledger.parkedFor, Ledger.unpark]
    · have kept : ∀ entry : ValueId × Due,
          (decide (entry.1 = other) && decide (entry.1 ≠ id)) = decide (entry.1 = other) := by
        intro entry
        by_cases isOther : entry.1 = other <;> simp [isOther, Ne.symm same]
      simp only [if_neg same, balanced.waiting other, Ledger.parkedFor, Ledger.unpark,
        filter_filter, kept]
  heralded := balanced.heralded

theorem settle (balanced : Balanced context opened (.write entry :: flight) session ledger)
    (tree : session.bodies.Tree) :
    ∃ later, Balanced context opened flight (session.settling entry) later ∧
      (∀ subject, entry.purpose.subject ≠ subject →
        Untouched session ledger (session.settling entry) later subject) ∧
      ∀ id, (session.settling entry).accountIn later flight id =
        session.accountIn ledger (.write entry :: flight) id := by
  have perm := ledger.dues_cons_perm (.write entry) flight
  obtain ⟨more, books, plain, accounts, locks⟩ := (balanced.books.of_perm perm).settle tree
  have same : (session.settling entry).deferred = session.deferred ∧
      (session.settling entry).identifiers = session.identifiers ∧
      (session.settling entry).lazyObjects = session.lazyObjects := by
    unfold settling releasing
    split
    · exact ⟨rfl, rfl, rfl⟩
    · split
      · exact ⟨rfl, rfl, rfl⟩
      · split <;> exact ⟨rfl, rfl, rfl⟩
  have isPlain := Purpose.not_isPlaceholder (balanced.books.dueLater entry (mem_dueEntries.mpr
    (perm.mem_iff.mpr mem_cons_self))).1.1
  refine ⟨ledger.write (entry :: more), ⟨books, fun id => ?_, ?_⟩, fun subject different => ?_,
    fun id => ?_⟩
  · exact Eq.trans (by rw [Session.waiting, Session.waiting, same.1]) (balanced.waiting id)
  · exact (balanced.heralded.mono (fun _ _ => same.2.1 ▸ id) same.2.2).write
      (forall_mem_cons.mpr ⟨isPlain, fun other member => (plain other member).2⟩)
  · refine .write session ledger (fun other member => ?_) fun id isValue => ?_
    · rcases mem_cons.mp member with rfl | member
      · exact different
      · exact (plain other member).1 ▸ different
    · exact locks id (isValue ▸ different)
  · refine (accounts id).trans ?_
    exact (Books.account_eq_of_perm perm session ledger.written id)

theorem hold (balanced : Balanced context opened flight session ledger) {lock : PendingLock}
    (tree : session.bodies.Tree) (isOpen : .value id ∈ opened)
    (unlocked : session.locks.get? id = none)
    (keeps : session.KeepsLock context (ledger.dues flight) id lock) :
    Balanced context opened flight (session.locking id lock) ledger where
  books := balanced.books.hold tree isOpen unlocked keeps
  waiting := balanced.waiting
  heralded := balanced.heralded

theorem reach (balanced : Balanced context opened flight session ledger)
    (valid : session.Valid context) (isNew : session.identifiers.get? id = none) :
    Balanced context (.value id :: opened) flight (session.allocating id) ledger ∧
      (session.allocating id).accountIn ledger flight id = 0 := by
  obtain ⟨books, empty⟩ := balanced.books.reach valid isNew
  have extends_ := (Extends.refl session).allocating isNew (valid.homeless id isNew)
  exact ⟨⟨books, balanced.waiting, balanced.heralded.mono extends_.identifiers rfl⟩, empty⟩

theorem reachBy (balanced : Balanced context opened flight before ledger)
    (valid : before.Valid context) (isNew : before.identifiers.get? id = none)
    (preserves : Preserves context (before.allocating id) after) :
    .value id ∉ opened ∧ ∃ later, Balanced context (.value id :: opened) flight after later ∧
      after.accountIn later flight id = 0 ∧
      ∀ subject ∈ opened, Untouched before ledger after later subject := by
  obtain ⟨reached, empty⟩ := balanced.reach valid isNew
  obtain ⟨later, balanced', untouched⟩ := preserves _ _ _ reached
  refine ⟨balanced.books.notOpen_of_unreached id isNew, later, balanced', ?_, ?_⟩
  · rw [(untouched _ mem_cons_self).accountIn_eq, empty]
  · intro subject member
    have reaching : Untouched before ledger (before.allocating id) ledger subject := .of_locks rfl
    exact reaching.trans (untouched subject (mem_cons_of_mem _ member))

theorem close (balanced : Balanced context (.value id :: opened) flight session ledger)
    (accounted : context.Accounted id (session.accountIn ledger flight id)) :
    Balanced context opened flight session ledger :=
  ⟨balanced.books.close accounted, balanced.waiting, balanced.heralded⟩

theorem postpone (balanced : Balanced context (.value id :: opened) flight session ledger)
    (tree : session.bodies.Tree) (notOpen : .value id ∉ opened)
    (empty : session.accountIn ledger flight id = 0) (owner : ValueId) :
    Balanced context opened flight (session.deferring owner (.prototype id))
      (ledger.park owner (.fill id)) where
  books := by
    have books := (balanced.books.postpone notOpen empty).of_perm
      (ledger.dues_park_perm owner (.fill id) flight).symm
    exact books.of_reveals (((Extends.refl session).deferring _ _).reveals tree) (fun _ => rfl) rfl
      rfl
  waiting := balanced.waiting_park owner (.fill id)
  heralded := balanced.heralded

theorem resume (balanced : Balanced context opened (.fill id :: flight) session ledger) :
    Balanced context (.value id :: opened) flight session ledger ∧ .value id ∉ opened ∧
      session.accountIn ledger flight id = 0 := by
  obtain ⟨books, notOpen, empty⟩ :=
    (balanced.books.of_perm (ledger.dues_cons_perm (.fill id) flight)).resume
  exact ⟨⟨books, balanced.waiting, balanced.heralded⟩, notOpen, empty⟩

theorem parkedFor_of_isNew (balanced : Balanced context opened flight session ledger)
    (valid : session.Valid context) (isNew : session.identifiers.get? id = none) :
    ledger.parkedFor id = [] := by
  have none := waiting_of_isNew valid isNew
  rw [balanced.waiting id] at none
  exact map_eq_nil_iff.mp none

end Balanced

/-! ### Bindings -/

theorem Balanced.ne_binding (balanced : Balanced context opened flight session ledger)
    {subject : Subject} (isOpen : subject ∈ opened) (number : Nat) : .binding number ≠ subject := by
  rcases balanced.books.reached subject isOpen with rfl | ⟨id, name, rfl, -⟩ <;> simp

namespace Preserves

theorem write {number : Nat} (records : session.Records context entry)
    (tree : session.bodies.Tree) (isBinding : entry.purpose.subject = .binding number) :
    Preserves context session (session.emitting entry.body entry.stmt) := by
  intro opened flight ledger balanced
  have isPlain : entry.purpose.isPlaceholder = false := by
    cases isPurpose : entry.purpose <;> simp_all [Purpose.subject, Purpose.isPlaceholder]
  refine ⟨_, balanced.write records tree (.inr ⟨number, isBinding⟩) isPlain
    (.of_subject (by simp [isBinding])), fun subject isOpen => ?_⟩
  refine .write session ledger (fun other member => ?_) fun _ _ => rfl
  rw [mem_singleton.mp member, isBinding]
  exact balanced.ne_binding isOpen number

theorem park {body : BodyId} {stmt : Stmt} {number : Nat} (awaited : ValueId)
    (records : session.Records context ⟨body, .sharedValue number, stmt⟩)
    (tree : session.bodies.Tree) :
    Preserves context session (session.deferring awaited (.stmt body stmt none)) := by
  intro opened flight ledger balanced
  have mayCome : Entry.MayCome context ⟨body, .sharedValue number, stmt⟩ ledger.written [] :=
    .of_subject (by simp [Purpose.subject])
  refine ⟨_, balanced.park records tree (.inr ⟨number, rfl⟩) (by simp [Purpose.lockedObject?])
    (context.mayWait_sharedValue number) mayCome.follows awaited, fun subject isOpen => ?_⟩
  exact .park session ledger awaited (balanced.ne_binding isOpen number) rfl

end Preserves

/-! ## Visits -/

/-- What holds between the sessions before and after a value is written. -/
structure Writing (context : Context) (before after : Session) : Prop
    extends Frame context before after where
  preserves : Preserves context before after

namespace Writing

theorem refl (context : Context) (session : Session) : Writing context session session :=
  ⟨.refl context session, .refl context session⟩

theorem trans (first : Writing context before middle) (second : Writing context middle after)
    (valid : before.Valid context) : Writing context before after :=
  ⟨first.toFrame.trans second.toFrame valid, first.preserves.trans second.preserves⟩

theorem changing {change : FunctionInstance → FunctionInstance}
    (step : Step context session (session.changing id change))
    (same : ∀ inst, (change inst).insertionPoint = inst.insertionPoint ∧
      (change inst).serial = inst.serial) : Writing context session (session.changing id change) :=
  ⟨.changing step same, .changing session id change⟩

theorem use (session : Session) (id : ValueId) : Writing context session (session.noting id) :=
  ⟨.use session id, .changing session id _⟩

/-- What is written inside a body, after which the cursor moves back. -/
theorem inBody {body : BodyId} (present : before.bodies.Has body)
    (inside : Writing context (before.entering body) after) (valid : before.Valid context) :
    Writing context before after.leaving where
  toFrame := .inBody present inside.toFrame valid
  preserves := ((Preserves.entering valid.tree body).trans inside.preserves).trans
    (.leaving (inside.valid ((Step.enter present).valid valid)).tree)

end Writing

def Visits (context : Context) (visit : ValueId → SessionM Expr) : Prop :=
  ∀ {id before}, Regular context before → Under context before id →
    Does context.Ends (visit id) before fun expr after =>
      Writing context before after ∧ after.Refers context after.bodies.current id expr

end Session

end HeapScript
