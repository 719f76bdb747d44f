import HeapScript.Proofs.Session.Ledger
import Mathlib.Tactic.Abel

/-!
The books of a session.

The *account* of a value is made of the purposes of all its statements with their bodies, wherever
these statements are: in a body already, waiting for another value, or kept as a lock. A statement
that moves from one of these places to the next leaves the account as it is.

`Session.Books` says that all statements of a session are accounted for: the values that have been
written have complete accounts, and only those that are being written are open. For each kind of
change there is one lemma on what it does to the books.
-/

namespace HeapScript

open List

namespace Session

variable {context : Context} {opened : List Subject} {session before after : Session}
  {written : List Entry} {dues others : List Due} {id : ValueId} {entry : Entry}
  {lock : PendingLock}

/-! ## Accounts -/

def lockPlaces (session : Session) (id : ValueId) : Multiset (BodyId × Purpose) :=
  ((session.locks.get? id).toList.map fun lock => (lock.body, Purpose.lock id) : List _)

def account (session : Session) (written : List Entry) (dues : List Due) (id : ValueId) :
    Multiset (BodyId × Purpose) :=
  placesOf id written + placesOf id (dueEntries dues) + session.lockPlaces id

/-- The lock of an object is kept back for as many statements as are still waiting. -/
structure KeepsLock (context : Context) (session : Session) (dues : List Due) (id : ValueId)
    (lock : PendingLock) : Prop where
  remaining : lock.remaining = pending dues id
  waits : 0 < lock.remaining
  records : session.Records context ⟨lock.body, .lock id, lock.stmt⟩

theorem KeepsLock.of_reveals (keeps : before.KeepsLock context dues id lock)
    (reveals : Reveals context before after) : after.KeepsLock context dues id lock :=
  { keeps with records := keeps.records.of_reveals reveals }

/-- The statements of a session are those that have been written, in an order in which locks are
last, and those that are due may come later. -/
structure Pages (context : Context) (session : Session) (written : List Entry) (dues : List Due) :
    Prop where
  stmts : ∀ body, session.bodies.stmts body = (written.filter (·.body = body)).map (·.stmt)
  records : ∀ entry ∈ written, session.Records context entry
  dueRecords : ∀ entry ∈ dueEntries dues, session.Records context entry
  ordered : written.Pairwise (Entry.MayPrecede context)
  dueLater : ∀ due ∈ dueEntries dues, context.MayWait due.purpose ∧
    ∀ entry ∈ written, entry.MayPrecede context due

theorem Pages.of_reveals (pages : Pages context before written dues)
    (reveals : Reveals context before after)
    (stmts : ∀ body, after.bodies.stmts body = before.bodies.stmts body) :
    Pages context after written dues :=
  { pages with
    stmts := fun body => (stmts body).trans (pages.stmts body)
    records := fun entry member => (pages.records entry member).of_reveals reveals
    dueRecords := fun entry member => (pages.dueRecords entry member).of_reveals reveals }

/-- All statements of a session are accounted for. Subjects that are open are being written. -/
structure Books (context : Context) (opened : List Subject) (session : Session)
    (written : List Entry) (dues : List Due) : Prop extends Pages context session written dues where
  locks : ∀ id lock, session.locks.get? id = some lock → session.KeepsLock context dues id lock
  unreached : ∀ id, session.identifiers.get? id = none →
    session.account written dues id = 0 ∧ id ∉ fillings dues
  reached : ∀ subject ∈ opened, subject = .effects ∨
    ∃ id name, subject = .value id ∧ session.identifiers.get? id = some name
  unfilled : ∀ id ∈ fillings dues, .value id ∉ opened ∧ session.account written dues id = 0
  distinct : (fillings dues).Nodup
  complete : ∀ id name, session.identifiers.get? id = some name → .value id ∉ opened →
    id ∉ fillings dues → context.Accounted id (session.account written dues id)

def IsOpen (opened : List Subject) (subject : Subject) : Prop :=
  subject ∈ opened ∨ ∃ number, subject = .binding number

theorem IsOpen.ne_of_not_mem {subject : Subject} (isOpen : IsOpen opened subject)
    (notOpen : .value id ∉ opened) : subject ≠ .value id := by
  rintro rfl
  rcases isOpen with member | ⟨number, isBinding⟩
  · exact notOpen member
  · cases isBinding

namespace Books

theorem notOpen_of_unreached (books : Books context opened session written dues) (id : ValueId)
    (unnamed : session.identifiers.get? id = none) : .value id ∉ opened := by
  intro member
  rcases books.reached _ member with isEffects | ⟨other, name, same, named⟩
  · cases isEffects
  · cases same
    simp [unnamed] at named

/-- Books stay in order if the accounts of what is not open stay as they are. -/
theorem of_accounts {later : List Entry} (books : Books context opened before written dues)
    (pages : Pages context after later others)
    (locks : ∀ id lock, after.locks.get? id = some lock → after.KeepsLock context others id lock)
    (identifiers : after.identifiers = before.identifiers)
    (fillings : (fillings dues).Perm (fillings others))
    (accounts : ∀ id, .value id ∉ opened →
      after.account later others id = before.account written dues id) :
    Books context opened after later others where
  toPages := pages
  locks := locks
  unreached id unnamed := by
    rw [identifiers] at unnamed
    obtain ⟨empty, notFilled⟩ := books.unreached id unnamed
    exact ⟨(accounts id (books.notOpen_of_unreached id unnamed)).trans empty,
      fun member => notFilled (fillings.mem_iff.mpr member)⟩
  reached := by simpa only [identifiers] using books.reached
  unfilled id member := by
    obtain ⟨notOpen, empty⟩ := books.unfilled id (fillings.mem_iff.mpr member)
    exact ⟨notOpen, (accounts id notOpen).trans empty⟩
  distinct := fillings.nodup books.distinct
  complete id name named notOpen notFilled := by
    rw [accounts id notOpen]
    exact books.complete id name (identifiers ▸ named) notOpen fun member =>
      notFilled (fillings.mem_iff.mp member)

/-! ### Dues in any order -/

theorem account_eq_of_perm (perm : dues.Perm others) (session : Session) (written : List Entry)
    (id : ValueId) : session.account written others id = session.account written dues id := by
  simp only [account, placesOf_perm (perm.filterMap Due.entry?) id, dueEntries]

theorem of_perm (perm : dues.Perm others) (books : Books context opened session written dues) :
    Books context opened session written others := by
  have entries : (dueEntries dues).Perm (dueEntries others) := perm.filterMap Due.entry?
  have pages : Pages context session written others :=
    { books.toPages with
      dueRecords := fun entry member => books.dueRecords entry (entries.mem_iff.mpr member)
      dueLater := fun due member => books.dueLater due (entries.mem_iff.mpr member) }
  refine books.of_accounts pages (fun id lock isLock => ?_) rfl (perm.filterMap Due.filled?)
    fun id _ => account_eq_of_perm perm session written id
  obtain ⟨remaining, waits, records⟩ := books.locks id lock isLock
  exact ⟨remaining.trans (perm.countP_eq _), waits, records⟩

/-! ### Single changes -/

theorem of_reveals (books : Books context opened before written dues)
    (reveals : Reveals context before after)
    (stmts : ∀ body, after.bodies.stmts body = before.bodies.stmts body)
    (locks : after.locks = before.locks) (identifiers : after.identifiers = before.identifiers) :
    Books context opened after written dues :=
  books.of_accounts (books.toPages.of_reveals reveals stmts)
    (fun id lock isLock => (books.locks id lock (locks ▸ isLock)).of_reveals reveals) identifiers
    (.refl _) (by simp [account, lockPlaces, locks])

theorem account_write_other (different : entry.purpose.subject ≠ .value id) (session : Session)
    (body : BodyId) (stmt : Stmt) (written : List Entry) (dues : List Due) :
    (session.emitting body stmt).account (written ++ [entry]) dues id =
      session.account written dues id := by
  simp [account, lockPlaces, emitting, placesOf_cons, different]

theorem account_write_self (same : entry.purpose.subject = .value id) (session : Session)
    (body : BodyId) (stmt : Stmt) (written : List Entry) (dues : List Due) :
    (session.emitting body stmt).account (written ++ [entry]) dues id =
      session.account written dues id + {entry.place} := by
  simp only [account, lockPlaces, emitting, placesOf_append, placesOf_cons, same, if_true,
    placesOf_nil, add_zero]
  ac_rfl

theorem stmts_write (books : Books context opened session written dues)
    (present : session.bodies.Has entry.body) (body : BodyId) :
    (session.emitting entry.body entry.stmt).bodies.stmts body =
      ((written ++ [entry]).filter (·.body = body)).map (·.stmt) := by
  rw [emitting, Bodies.stmts_emitInto _ _ _ _ present, books.stmts body]
  by_cases same : entry.body = body <;> simp [same]

theorem write (books : Books context opened session written dues)
    (records : session.Records context entry) (tree : session.bodies.Tree)
    (isOpen : IsOpen opened entry.purpose.subject) (mayCome : entry.MayCome context written dues) :
    Books context opened (session.emitting entry.body entry.stmt) (written ++ [entry]) dues := by
  have reveals : Reveals context _ _ :=
    ((Extends.refl session).emitting entry.body entry.stmt).reveals tree
  exact books.of_accounts { books.toPages with
      stmts := books.stmts_write records.1
      records := forall_mem_append.mpr
        ⟨fun other member => (books.records other member).of_reveals reveals,
          forall_mem_singleton.mpr (records.of_reveals reveals)⟩
      dueRecords := fun other member => (books.dueRecords other member).of_reveals reveals
      ordered := pairwise_append.mpr ⟨books.ordered, pairwise_singleton _ _, by
        simpa using mayCome.follows⟩
      dueLater := fun due member => ⟨(books.dueLater due member).1, forall_mem_append.mpr
        ⟨(books.dueLater due member).2, forall_mem_singleton.mpr (mayCome.precedes due member)⟩⟩ }
    (fun id lock isLock => (books.locks id lock isLock).of_reveals reveals) rfl (.refl _)
    fun _ notOpen => account_write_other (isOpen.ne_of_not_mem notOpen) ..

theorem account_park_other (different : entry.purpose.subject ≠ .value id) (session : Session)
    (written : List Entry) (dues : List Due) :
    session.account written (.write entry :: dues) id = session.account written dues id := by
  simp [account, placesOf_cons, different]

theorem account_park_self (same : entry.purpose.subject = .value id) (session : Session)
    (written : List Entry) (dues : List Due) :
    session.account written (.write entry :: dues) id =
      session.account written dues id + {entry.place} := by
  simp only [account, dueEntries_write, placesOf_cons, same, if_true]
  abel

theorem park (books : Books context opened session written dues)
    (records : session.Records context entry) (isOpen : IsOpen opened entry.purpose.subject)
    (unlocked : ∀ id, entry.purpose.lockedObject? = some id → session.locks.get? id = none)
    (mayWait : context.MayWait entry.purpose)
    (follows : ∀ other ∈ written, other.MayPrecede context entry) :
    Books context opened session written (.write entry :: dues) := by
  refine books.of_accounts { books.toPages with
      dueRecords := forall_mem_cons.mpr ⟨records, books.dueRecords⟩
      dueLater := forall_mem_cons.mpr ⟨⟨mayWait, follows⟩, books.dueLater⟩ }
    (fun id lock isLock => ?_) rfl (.refl _)
    fun _ notOpen => account_park_other (isOpen.ne_of_not_mem notOpen) ..
  obtain ⟨remaining, waits, records⟩ := books.locks id lock isLock
  have notCounted : entry.purpose.lockedObject? ≠ some id := by
    intro isLocked
    simp [unlocked id isLocked] at isLock
  exact ⟨by simpa [notCounted] using remaining, waits, records⟩

theorem account_locking (session : Session) (written : List Entry) (dues : List Due)
    (unlocked : session.locks.get? id = none) (other : ValueId) :
    (session.locking id lock).account written dues other =
      session.account written dues other + if id = other then {(lock.body, .lock id)} else 0 := by
  by_cases same : id = other
  · subst same
    simp [account, lockPlaces, locking, unlocked]
  · simp [account, lockPlaces, locking, KeyedTable.get?_insert, same]

theorem hold (books : Books context opened session written dues) (tree : session.bodies.Tree)
    (isOpen : .value id ∈ opened) (unlocked : session.locks.get? id = none)
    (keeps : session.KeepsLock context dues id lock) :
    Books context opened (session.locking id lock) written dues := by
  have extends_ : Extends session (session.locking id lock) := { Extends.refl session with }
  have reveals : Reveals context _ _ := extends_.reveals tree
  refine books.of_accounts (books.toPages.of_reveals reveals fun _ => rfl)
    (fun other found isLock => ?_) rfl (.refl _) fun other notOpen => ?_
  · simp only [locking, KeyedTable.get?_insert] at isLock
    split at isLock
    · rename_i same
      subst same
      cases isLock
      exact keeps.of_reveals reveals
    · exact (books.locks other found isLock).of_reveals reveals
  · have different : id ≠ other := by
      rintro rfl
      exact notOpen isOpen
    simp [account_locking _ _ _ unlocked, different]

/-! ### Opening and closing -/

theorem reach (books : Books context opened session written dues) (valid : session.Valid context)
    (isNew : session.identifiers.get? id = none) :
    Books context (.value id :: opened) (session.allocating id) written dues ∧
      (session.allocating id).account written dues id = 0 := by
  have extends_ := (Extends.refl session).allocating isNew (valid.homeless id isNew)
  have old : ∀ other, (session.allocating id).identifiers.get? other =
      if other = id then some session.names.generate.1 else session.identifiers.get? other := by
    intro other
    by_cases same : other = id <;> simp [allocating, SideTable.get?_insert, same]
  obtain ⟨empty, notFilled⟩ := books.unreached id isNew
  have reveals : Reveals context _ _ := extends_.reveals valid.tree
  refine ⟨{ books.toPages.of_reveals reveals fun _ => rfl with
    locks := fun other lock isLock => (books.locks other lock isLock).of_reveals reveals
    unreached := fun other unnamed => by
      rw [old other] at unnamed
      split at unnamed
      · cases unnamed
      · exact books.unreached other unnamed
    reached := by
      intro subject member
      rcases mem_cons.mp member with rfl | member
      · exact .inr ⟨id, session.names.generate.1, rfl, by simp [old]⟩
      · rcases books.reached subject member with isEffects | ⟨other, name, same, named⟩
        · exact .inl isEffects
        · exact .inr ⟨other, name, same, extends_.identifiers other name named⟩
    unfilled := fun other member => by
      obtain ⟨notOpen, empty⟩ := books.unfilled other member
      refine ⟨fun isOpen => ?_, empty⟩
      rcases mem_cons.mp isOpen with same | isOpen
      · cases same
        exact notFilled member
      · exact notOpen isOpen
    distinct := books.distinct
    complete := fun other name named notOpen notFilled => by
      obtain ⟨different, notOpen⟩ := not_or.mp (mem_cons.not.mp notOpen)
      have different : other ≠ id := fun same => different (same ▸ rfl)
      rw [old other, if_neg different] at named
      exact books.complete other name named notOpen notFilled }, empty⟩

theorem close (books : Books context (.value id :: opened) session written dues)
    (accounted : context.Accounted id (session.account written dues id)) :
    Books context opened session written dues :=
  { books with
    reached := fun subject member => books.reached subject (mem_cons_of_mem _ member)
    unfilled := fun other member => by
      obtain ⟨notOpen, empty⟩ := books.unfilled other member
      exact ⟨fun isOpen => notOpen (mem_cons_of_mem _ isOpen), empty⟩
    complete := fun other name named notOpen notFilled => by
      by_cases same : other = id
      · exact same ▸ accounted
      · refine books.complete other name named (fun isOpen => ?_) notFilled
        rcases mem_cons.mp isOpen with isId | isOpen
        · cases isId
          exact same rfl
        · exact notOpen isOpen }

theorem postpone (books : Books context (.value id :: opened) session written dues)
    (notOpen : .value id ∉ opened) (empty : session.account written dues id = 0) :
    Books context opened session written (.fill id :: dues) := by
  have notFilled : id ∉ fillings dues := fun member =>
    (books.unfilled id member).1 mem_cons_self
  have named : session.identifiers.get? id ≠ none := fun unnamed =>
    books.notOpen_of_unreached id unnamed mem_cons_self
  exact { books with
    locks := fun other lock isLock => by
      obtain ⟨remaining, waits, records⟩ := books.locks other lock isLock
      exact ⟨by simpa using remaining, waits, records⟩
    unreached := fun other unnamed => by
      obtain ⟨empty, notFilled⟩ := books.unreached other unnamed
      refine ⟨empty, fun member => ?_⟩
      rcases mem_cons.mp member with rfl | member
      · exact named unnamed
      · exact notFilled member
    reached := fun subject member => books.reached subject (mem_cons_of_mem _ member)
    unfilled := fun other member => by
      rcases mem_cons.mp member with rfl | member
      · exact ⟨notOpen, empty⟩
      · obtain ⟨notOpen, empty⟩ := books.unfilled other member
        exact ⟨fun isOpen => notOpen (mem_cons_of_mem _ isOpen), empty⟩
    distinct := nodup_cons.mpr ⟨notFilled, books.distinct⟩
    complete := fun other name named notOpen notFilled => by
      obtain ⟨different, notFilled⟩ := not_or.mp (mem_cons.not.mp notFilled)
      refine books.complete other name named (fun isOpen => ?_) notFilled
      rcases mem_cons.mp isOpen with isId | isOpen
      · cases isId
        exact different rfl
      · exact notOpen isOpen }

theorem resume (books : Books context opened session written (.fill id :: dues)) :
    Books context (.value id :: opened) session written dues ∧ .value id ∉ opened ∧
      session.account written dues id = 0 := by
  obtain ⟨notOpen, empty⟩ := books.unfilled id mem_cons_self
  obtain ⟨notFilled, distinct⟩ := nodup_cons.mp books.distinct
  refine ⟨{ books with
    locks := fun other lock isLock => by
      obtain ⟨remaining, waits, records⟩ := books.locks other lock isLock
      exact ⟨by simpa using remaining, waits, records⟩
    unreached := fun other unnamed => by
      obtain ⟨empty, notFilled⟩ := books.unreached other unnamed
      exact ⟨empty, fun member => notFilled (mem_cons_of_mem _ member)⟩
    reached := by
      intro subject member
      rcases mem_cons.mp member with rfl | member
      · cases named : session.identifiers.get? id with
        | none => exact absurd mem_cons_self (books.unreached id named).2
        | some name => exact .inr ⟨id, name, rfl, named⟩
      · exact books.reached subject member
    unfilled := fun other member => by
      obtain ⟨notOpen, empty⟩ := books.unfilled other (mem_cons_of_mem _ member)
      refine ⟨fun isOpen => ?_, empty⟩
      rcases mem_cons.mp isOpen with isId | isOpen
      · cases isId
        exact notFilled member
      · exact notOpen isOpen
    distinct
    complete := fun other name named notOpen notFilled => by
      obtain ⟨different, notOpen⟩ := not_or.mp (mem_cons.not.mp notOpen)
      refine books.complete other name named notOpen fun member => ?_
      rcases mem_cons.mp member with same | member
      · exact different (same ▸ rfl)
      · exact notFilled member }, notOpen, empty⟩

/-! ### Waiting statements -/

/-- A waiting statement is written, and with it the lock if there is nothing more to wait for. -/
theorem settle_of {more : List Entry}
    (books : Books context opened before written (.write entry :: dues))
    (extends_ : Extends before after) (tree : before.bodies.Tree)
    (identifiers : after.identifiers = before.identifiers)
    (stmts : ∀ body, after.bodies.stmts body =
      ((written ++ entry :: more).filter (·.body = body)).map (·.stmt))
    (moreRecords : ∀ other ∈ more, after.Records context other)
    (moreOrdered : more.Pairwise (Entry.MayPrecede context))
    (mayCome : ∀ other ∈ more, other.MayCome context written dues)
    (locks : ∀ id lock, after.locks.get? id = some lock → after.KeepsLock context dues id lock)
    (same : ∀ id, after.account (written ++ entry :: more) dues id =
      before.account written (.write entry :: dues) id) :
    Books context opened after (written ++ entry :: more) dues := by
  have later := books.dueLater entry mem_cons_self
  have precedes : ∀ other, entry.MayPrecede context other := by
    intro other id isLock
    simp [isLock, Context.MayWait, Purpose.mayWait] at later
  have pages : Pages context after (written ++ entry :: more) dues := {
    stmts
    records := forall_mem_append.mpr
      ⟨fun other member => (books.records other member).of_extends extends_ tree,
        forall_mem_cons.mpr ⟨(books.dueRecords _ mem_cons_self).of_extends extends_ tree,
          moreRecords⟩⟩
    dueRecords := fun other member =>
      (books.dueRecords other (mem_cons_of_mem _ member)).of_extends extends_ tree
    ordered := by
      refine pairwise_append.mpr ⟨books.ordered, pairwise_cons.mpr ⟨fun other _ => precedes other,
        moreOrdered⟩, fun other isWritten => forall_mem_cons.mpr ⟨later.2 other isWritten, ?_⟩⟩
      exact fun follower member => (mayCome follower member).follows other isWritten
    dueLater := fun due member => by
      obtain ⟨mayWait, follows⟩ := books.dueLater due (mem_cons_of_mem _ member)
      exact ⟨mayWait, forall_mem_append.mpr ⟨follows, forall_mem_cons.mpr ⟨precedes due,
        fun other isMore => (mayCome other isMore).precedes due member⟩⟩⟩ }
  exact books.of_accounts pages locks identifiers (.refl _) fun id _ => same id

end Books

def unlocking (session : Session) (id : ValueId) : Session :=
  { session with locks := session.locks.erase id }

/-- The session after one property of an object that has waited is set: the lock is counted down, or
is written. -/
def releasing (session : Session) (id : ValueId) : Session :=
  match session.locks.get? id with
  | none => session
  | some lock =>
    if lock.remaining ≤ 1 then (session.unlocking id).emitting lock.body lock.stmt
    else session.locking id { lock with remaining := lock.remaining - 1 }

theorem runs_releaseLock {result : Unit} :
    Runs (releaseLock id) before result after ↔ after = before.releasing id := by
  simp only [releaseLock, Runs.get_bind, releasing]
  cases before.locks.get? id with
  | none => simp
  | some lock =>
    by_cases isLast : lock.remaining ≤ 1
    · simp [isLast, unlocking]
    · simp [isLast, locking]

def settling (session : Session) (entry : Entry) : Session :=
  match entry.purpose.lockedObject? with
  | none => session.emitting entry.body entry.stmt
  | some id => (session.emitting entry.body entry.stmt).releasing id

theorem runs_release {writePrototype : ValueId → SessionM Unit} {result : Unit} :
    Runs (release writePrototype (Due.write entry).work) before result after ↔
      after = before.settling entry := by
  simp only [Due.work, release, Runs.bind_iff, runs_emitInto, exists_eq_left, exists_const,
    settling]
  cases entry.purpose.lockedObject? with
  | none => exact Runs.pure_iff.trans (and_iff_right rfl)
  | some id => exact runs_releaseLock

namespace Books

section Settle

variable {entry : Entry} (books : Books context opened session written (.write entry :: dues))
  (tree : session.bodies.Tree)

include books tree

/-- The lock of another object is kept for as many statements as before. -/
theorem keepsLock_settle (extends_ : Extends session after)
    (different : entry.purpose.lockedObject? ≠ some id)
    (isLock : session.locks.get? id = some lock) : after.KeepsLock context dues id lock := by
  obtain ⟨remaining, waits, records⟩ := books.locks id lock isLock
  exact ⟨by simpa [different] using remaining, waits, records.of_extends extends_ tree⟩

omit books tree in
theorem account_settle (session : Session) (entry : Entry) (written : List Entry)
    (dues : List Due) (id : ValueId) :
    (session.emitting entry.body entry.stmt).account (written ++ [entry]) dues id =
      session.account written (.write entry :: dues) id := by
  by_cases same : entry.purpose.subject = .value id
  · rw [account_write_self same, account_park_self same]
  · rw [account_write_other same, account_park_other same]

theorem settle_unlocked
    (unlocked : ∀ id, entry.purpose.lockedObject? = some id → session.locks.get? id = none) :
    Books context opened (session.emitting entry.body entry.stmt) (written ++ [entry]) dues := by
  have extends_ := (Extends.refl session).emitting entry.body entry.stmt
  have records := books.dueRecords entry mem_cons_self
  refine books.settle_of extends_ tree rfl (books.stmts_write records.1) (by simp) .nil (by simp)
    (fun id lock isLock => ?_) (account_settle session entry written dues)
  refine books.keepsLock_settle tree extends_ (fun isLocked => ?_) isLock
  have isLock : session.locks.get? id = some lock := isLock
  simp [unlocked id isLocked] at isLock

theorem settle_counted (isLocked : entry.purpose.lockedObject? = some id)
    (isLock : session.locks.get? id = some lock) (notLast : ¬lock.remaining ≤ 1)
    (isAfter : after = (session.emitting entry.body entry.stmt).locking id
      { lock with remaining := lock.remaining - 1 }) :
    Books context opened after (written ++ [entry]) dues ∧ ∀ other,
      after.account (written ++ [entry]) dues other =
        session.account written (.write entry :: dues) other := by
  have extends_ : Extends session after :=
    isAfter ▸ { (Extends.refl session).emitting entry.body entry.stmt with }
  obtain ⟨remaining, waits, lockRecords⟩ := books.locks id lock isLock
  simp only [pending_write, isLocked, if_true] at remaining
  have accounts : ∀ other, after.account (written ++ [entry]) dues other =
      session.account written (.write entry :: dues) other := by
    intro other
    rw [isAfter, ← account_settle session entry written dues other]
    by_cases same : id = other
    · subst same
      simp [account, lockPlaces, locking, emitting, isLock]
    · simp [account, lockPlaces, locking, KeyedTable.get?_insert, same]
  have records := books.dueRecords entry mem_cons_self
  refine ⟨books.settle_of extends_ tree (isAfter ▸ rfl) (isAfter ▸ books.stmts_write records.1)
    (by simp) .nil (by simp) (fun other found isFound => ?_) accounts, accounts⟩
  simp only [isAfter, locking, KeyedTable.get?_insert] at isFound
  split at isFound
  · rename_i same
    subst same
    cases isFound
    exact ⟨by simp only; omega, by simp only; omega, lockRecords.of_extends extends_ tree⟩
  · rename_i different
    refine books.keepsLock_settle tree extends_ (fun isOther => different ?_) isFound
    exact Option.some.inj (isLocked.symm.trans isOther)

/-- The last property for which the lock of an object has waited. The lock follows at once. -/
theorem settle_last (isLocked : entry.purpose.lockedObject? = some id)
    (isLock : session.locks.get? id = some lock) (isLast : lock.remaining ≤ 1)
    (isAfter : after =
      ((session.emitting entry.body entry.stmt).unlocking id).emitting lock.body lock.stmt) :
    Books context opened after (written ++ [entry, ⟨lock.body, .lock id, lock.stmt⟩]) dues ∧
      ∀ other, after.account (written ++ [entry, ⟨lock.body, .lock id, lock.stmt⟩]) dues other =
        session.account written (.write entry :: dues) other := by
  have emitted := (Extends.refl session).emitting entry.body entry.stmt
  have unlocked : Extends session ((session.emitting entry.body entry.stmt).unlocking id) :=
    { emitted with }
  have extends_ : Extends session after := isAfter ▸ unlocked.emitting lock.body lock.stmt
  obtain ⟨remaining, waits, lockRecords⟩ := books.locks id lock isLock
  simp only [pending_write, isLocked, if_true] at remaining
  have records := books.dueRecords entry mem_cons_self
  have accounts : ∀ other,
      after.account (written ++ [entry, ⟨lock.body, .lock id, lock.stmt⟩]) dues other =
        session.account written (.write entry :: dues) other := by
    intro other
    rw [isAfter, ← account_settle session entry written dues other]
    by_cases same : id = other
    · subst same
      simp only [account, lockPlaces, unlocking, emitting, KeyedTable.get?_erase_self, isLock,
        placesOf_append, placesOf_cons, Purpose.subject, if_true, placesOf_nil, Entry.place]
      simp
      abel
    · simp [account, lockPlaces, unlocking, emitting, KeyedTable.get?_erase, same, placesOf_cons,
        Purpose.subject]
  have mayCome : Entry.MayCome context ⟨lock.body, .lock id, lock.stmt⟩ written dues := by
    refine .of_unlocked rfl (fun other member isOther => ?_) (fun due member =>
      (books.dueLater due (mem_cons_of_mem _ member)).1) fun _ => by omega
    have isLink := (books.dueLater entry mem_cons_self).2 other member id isOther
      (Purpose.subject_of_lockedObject? isLocked)
    simp [isLink, Purpose.lockedObject?] at isLocked
  refine ⟨books.settle_of extends_ tree (isAfter ▸ rfl) (fun body => ?_) ?_ (pairwise_singleton _ _)
    (by simpa using mayCome) (fun other found isFound => ?_) accounts, accounts⟩
  · have first := books.stmts_write records.1 body
    have present : (session.emitting entry.body entry.stmt).bodies.Has lock.body :=
      emitted.bodies.has lockRecords.1
    subst isAfter
    change ((session.emitting entry.body entry.stmt).bodies.emitInto lock.body lock.stmt).stmts body
      = _
    rw [Bodies.stmts_emitInto _ _ _ _ present, first]
    by_cases same : lock.body = body <;> by_cases same' : entry.body = body <;> simp [same, same']
  · simpa using lockRecords.of_extends extends_ tree
  · simp only [isAfter, emitting, unlocking, KeyedTable.get?_erase] at isFound
    split at isFound
    · cases isFound
    · rename_i different
      refine books.keepsLock_settle tree extends_ (fun isOther => different ?_) isFound
      exact Option.some.inj (isLocked.symm.trans isOther)

/-- A waiting statement is written. What the accounts say does not change, and no other subject is
touched. -/
theorem settle :
    ∃ more, Books context opened (session.settling entry) (written ++ entry :: more) dues ∧
      (∀ other ∈ more, other.purpose.subject = entry.purpose.subject ∧
        other.purpose.isPlaceholder = false) ∧
      (∀ id, (session.settling entry).account (written ++ entry :: more) dues id =
        session.account written (.write entry :: dues) id) ∧
      ∀ id, entry.purpose.subject ≠ .value id →
        (session.settling entry).locks.get? id = session.locks.get? id := by
  unfold settling
  cases isLocked : entry.purpose.lockedObject? with
  | none =>
    exact ⟨[], books.settle_unlocked tree (by simp [isLocked]), by simp,
      account_settle session entry written dues, fun _ _ => rfl⟩
  | some id =>
    have isSubject := Purpose.subject_of_lockedObject? isLocked
    have others : ∀ other, entry.purpose.subject ≠ .value other → id ≠ other := by
      rintro other different rfl
      exact different isSubject
    have sameLocks : (session.emitting entry.body entry.stmt).locks = session.locks := rfl
    simp only [releasing, sameLocks]
    cases isLock : session.locks.get? id with
    | none =>
      refine ⟨[], books.settle_unlocked tree fun other isOther => ?_, by simp,
        account_settle session entry written dues, fun _ _ => rfl⟩
      exact Option.some.inj (isLocked.symm.trans isOther) ▸ isLock
    | some lock =>
      by_cases isLast : lock.remaining ≤ 1
      · obtain ⟨settled, accounts⟩ := books.settle_last tree isLocked isLock isLast rfl
        simp only [isLast, if_true]
        refine ⟨_, settled, ?_, accounts, fun other different => ?_⟩
        · intro other member
          rw [mem_singleton.mp member, isSubject]
          exact ⟨rfl, rfl⟩
        · simp [emitting, unlocking, KeyedTable.get?_erase, others other different]
      · obtain ⟨settled, accounts⟩ := books.settle_counted tree isLocked isLock isLast rfl
        simp only [isLast, if_false]
        refine ⟨[], settled, by simp, accounts, fun other different => ?_⟩
        simp [emitting, locking, KeyedTable.get?_insert, others other different]

end Settle

end Books

end Session

end HeapScript
