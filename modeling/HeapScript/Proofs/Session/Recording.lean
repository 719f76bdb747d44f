import HeapScript.Proofs.Failures
import HeapScript.Session.Pass
import Mathlib.Data.List.Nodup
import Mathlib.Data.Set.Insert

/-!
Sessions with a record of what begins.

In `RecordM` the steps of a session leave a record of what begins, which outlives a failure. Beside
it there is the same session without a record. `Mirrors floor recorded plain` says of two such
actions that they have the same outcome wherever everything in `floor` has begun, that the record
grows by what begins in between and by nothing twice, and that no nesting is too deep. Each way of
building actions has a rule, so the goal for a `do` block falls apart into goals for its lines.
-/

namespace HeapScript

open List Runs

abbrev RecordM := StateT Session (ExceptT Failure (StateM (List Beginning)))

instance : MonadSession RecordM where
  monadLift value := fun session => ExceptT.mk (pure (value.map (·, session)))
  begins beginning := fun session => ExceptT.mk do
    modify (beginning :: ·)
    return .ok ((), session)

def RecordM.outcome (action : RecordM α) (before : Session) (record : List Beginning) :
    Except Failure (α × Session) × List Beginning :=
  ((action.run before).run.run record).run

def Failure.NotOfDepth (failure : Failure) : Prop := ∀ id, failure ≠ .nestedTooDeeply id

namespace Session

variable {id : ValueId} {failure : Failure}

def begun (session : Session) : Set Beginning :=
  { beginning | match beginning with
    | .construction id => session.identifiers.contains id
    | .resolution key => session.bindings.contains key }

variable {α β ι : Type} {floor begun : Set Beginning} {before : Session}

/-! ## Outcomes -/

section Outcomes

variable {record later : List Beginning}

theorem outcome_bind {action : RecordM α} {next : α → RecordM β} {result : α} {after : Session}
    (isOutcome : action.outcome before record = (.ok (result, after), later)) :
    (action >>= next).outcome before record = (next result).outcome after later := by
  unfold RecordM.outcome at isOutcome ⊢
  rw [StateT.run_bind, ExceptT.run_bind, StateT.run_bind, Id.run_bind, isOutcome]

theorem outcome_bind_of_error {action : RecordM α} {next : α → RecordM β}
    (isOutcome : action.outcome before record = (.error failure, later)) :
    (action >>= next).outcome before record = (.error failure, later) := by
  unfold RecordM.outcome at isOutcome ⊢
  rw [StateT.run_bind, ExceptT.run_bind, StateT.run_bind, Id.run_bind, isOutcome]
  rfl

end Outcomes

/-! ## Single sessions -/

structure Recounts (begun : Set Beginning) (recorded : RecordM α) (plain : SessionM α)
    (before : Session) : Prop where
  fails : FailsOnly Failure.NotOfDepth plain before
  grows : ∃ news : List Beginning,
    (∀ record, recorded.outcome before record = (plain.run before, news ++ record)) ∧
    news.Nodup ∧ (∀ beginning ∈ news, beginning ∉ begun) ∧
    ∀ result after, Runs plain before result after →
      after.begun = begun ∪ { beginning | beginning ∈ news }

def Follows (begun : Set Beginning) (recorded : RecordM α) (plain : SessionM α) : Prop :=
  ∀ before : Session, before.begun = begun → Recounts begun recorded plain before

def Mirrors (floor : Set Beginning) (recorded : RecordM α) (plain : SessionM α) : Prop :=
  ∀ begun, floor ⊆ begun → Follows begun recorded plain

section Rules

variable {recorded : RecordM α} {plain : SessionM α} {next : α → RecordM β} {next' : α → SessionM β}
  {change : Session → Session}

namespace Recounts

theorem of_pure (value : α) (same : before.begun = begun) :
    Recounts begun (pure value) (pure value) before where
  fails := .of_pure value
  grows := by
    refine ⟨[], fun _ => rfl, nodup_nil, by simp, fun result after runs => ?_⟩
    obtain ⟨-, rfl⟩ := pure_iff.mp runs
    simp [same]

theorem of_throw (shallow : failure.NotOfDepth) :
    Recounts begun (throw failure : RecordM α) (throw failure) before where
  fails := FailsOnly.throw_iff.mpr shallow
  grows := ⟨[], fun _ => rfl, nodup_nil, by simp, fun _ _ runs => (not_throw runs).elim⟩

theorem bind (first : Recounts begun recorded plain before)
    (rest : ∀ result after, Runs plain before result after → begun ⊆ after.begun →
      Recounts after.begun (next result) (next' result) after) :
    Recounts begun (recorded >>= next) (plain >>= next') before := by
  obtain ⟨fails, news, grows, nodup, isNew, isBegun⟩ := first
  cases isRun : plain.run before with
  | error failure =>
    have runs : (plain >>= next').run before = .error failure := by
      rw [StateT.run_bind, isRun]
      rfl
    refine ⟨fun other failed => ?_, news, fun record => ?_, nodup, isNew,
      fun result after running => ?_⟩
    · cases runs.symm.trans failed
      exact fails failure isRun
    · rw [runs]
      exact outcome_bind_of_error (isRun ▸ grows record)
    · cases runs.symm.trans running
  | ok pair =>
    obtain ⟨result, middle⟩ := pair
    have same := isBegun result middle isRun
    have runs : (plain >>= next').run before = (next' result).run middle := by
      rw [StateT.run_bind, isRun]
      rfl
    obtain ⟨failsNext, more, growsNext, nodupNext, areNew, isBegunNext⟩ :=
      rest result middle isRun (same ▸ Set.subset_union_left)
    rw [same] at areNew isBegunNext
    refine ⟨fun failure failed => failsNext failure (runs.symm.trans failed), more ++ news,
      fun record => ?_, ?_, ?_, fun other after running => ?_⟩
    · rw [outcome_bind (isRun ▸ grows record), growsNext, runs, append_assoc]
    · refine List.Nodup.append nodupNext nodup fun beginning isMore isOld => ?_
      exact areNew beginning isMore (.inr isOld)
    · intro beginning member old
      rcases mem_append.mp member with isMore | isNews
      · exact areNew beginning isMore (.inl old)
      · exact isNew beginning isNews old
    · rw [isBegunNext other after (runs.symm.trans running)]
      ext beginning
      simp only [Set.mem_union, Set.mem_ofPred_eq, mem_append]
      tauto

theorem get_bind {next : Session → RecordM β} {next' : Session → SessionM β}
    (rest : Recounts begun (next before) (next' before) before) :
    Recounts begun (get >>= next) (get >>= next') before :=
  ⟨rest.fails, rest.grows⟩

theorem modify_bind {next : PUnit → RecordM β} {next' : PUnit → SessionM β}
    (rest : Recounts begun (next ⟨⟩) (next' ⟨⟩) (change before)) :
    Recounts begun (modify change >>= next) (modify change >>= next') before :=
  ⟨rest.fails, rest.grows⟩

theorem of_modify (same : (change before).begun = begun) :
    Recounts begun (modify change) (modify change) before :=
  have kept : Recounts begun (pure PUnit.unit) (pure PUnit.unit) (change before) := .of_pure _ same
  ⟨kept.fails, kept.grows⟩

theorem set_bind {session : Session} {next : PUnit → RecordM β} {next' : PUnit → SessionM β}
    (rest : Recounts begun (next ⟨⟩) (next' ⟨⟩) session) :
    Recounts begun (set session >>= next) (set session >>= next') before :=
  ⟨rest.fails, rest.grows⟩

theorem lift_bind {value : Except Failure α} (errors : ErrorsOnly Failure.NotOfDepth value)
    (rest : ∀ result, value = .ok result → Recounts begun (next result) (next' result) before) :
    Recounts begun (liftM value >>= next) (liftM value >>= next') before := by
  cases value with
  | error failure =>
    have fails : Recounts begun (throw failure : RecordM β) (throw failure) before :=
      of_throw (errors failure rfl)
    exact ⟨fails.fails, fails.grows⟩
  | ok result => exact ⟨(rest result rfl).fails, (rest result rfl).grows⟩

theorem begins_bind {beginning : Beginning} {next : Unit → RecordM β} {next' : Unit → SessionM β}
    (isNew : beginning ∉ begun) (rest : Recounts (insert beginning begun) (next ())
      (next' ()) before) :
    Recounts begun (MonadSession.begins beginning >>= next)
      (MonadSession.begins beginning >>= next')
      before := by
  obtain ⟨fails, news, grows, nodup, areNew, isBegun⟩ := rest
  refine ⟨fails, news ++ [beginning], fun record => ?_, ?_, ?_, fun result after runs => ?_⟩
  · rw [append_assoc]
    exact grows (beginning :: record)
  · refine List.Nodup.append nodup (nodup_singleton _) fun other isNews same => ?_
    exact areNew other isNews (.inl (mem_singleton.mp same))
  · intro other member
    rcases mem_append.mp member with isNews | same
    · exact fun old => areNew other isNews (.inr old)
    · exact mem_singleton.mp same ▸ isNew
  · rw [isBegun result after runs]
    ext other
    simp only [Set.mem_union, Set.mem_insert_iff, Set.mem_ofPred_eq, mem_append,
      mem_singleton]
    tauto

end Recounts

theorem Follows.bind (first : Follows begun recorded plain)
    (rest : ∀ result, Mirrors begun (next result) (next' result)) :
    Follows begun (recorded >>= next) (plain >>= next') :=
  fun before same => (first before same).bind fun result after _ grown =>
    rest result _ grown after rfl

namespace Mirrors

theorem mono {higher : Set Beginning} (mirrors : Mirrors floor recorded plain)
    (above : floor ⊆ higher) : Mirrors higher recorded plain :=
  fun begun higherBegun => mirrors begun (above.trans higherBegun)

theorem follows (mirrors : Mirrors begun recorded plain) : Follows begun recorded plain :=
  mirrors begun subset_rfl

theorem bind (first : Mirrors floor recorded plain)
    (rest : ∀ result, Mirrors floor (next result) (next' result)) :
    Mirrors floor (recorded >>= next) (plain >>= next') :=
  fun begun above => (first begun above).bind fun result => (rest result).mono above

end Mirrors

/-! ## Actions in which nothing begins -/

/-- The actions agree, and nothing begins in them. -/
structure Quiet (recorded : RecordM α) (plain : SessionM α) : Prop where
  follows : ∀ begun, Follows begun recorded plain
  same : ∀ before result after, Runs plain before result after → after.begun = before.begun

namespace Quiet

theorem of_pure (value : α) : Quiet (pure value) (pure value) where
  follows _ _ same := .of_pure value same
  same _ _ _ runs := by rw [(pure_iff.mp runs).2]

theorem of_throw (shallow : failure.NotOfDepth) :
    Quiet (throw failure : RecordM α) (throw failure) where
  follows _ _ _ := .of_throw shallow
  same _ _ _ runs := (not_throw runs).elim

theorem of_modify (same : ∀ session, (change session).begun = session.begun) :
    Quiet (modify change) (modify change) where
  follows _ before isBegun := .of_modify ((same before).trans isBegun)
  same _ _ _ runs := by rw [modify_iff.mp runs, same]

theorem mirrors (quiet : Quiet recorded plain) : Mirrors floor recorded plain :=
  fun begun _ => quiet.follows begun

/-- What begins after quiet actions begins just there. -/
theorem bind_follows (first : Quiet recorded plain)
    (rest : ∀ result, Follows begun (next result) (next' result)) :
    Follows begun (recorded >>= next) (plain >>= next') :=
  fun before same => (first.follows begun before same).bind fun result after runs _ => by
    have same := (first.same before result after runs).trans same
    exact same ▸ rest result after same

theorem bind_mirrors (first : Quiet recorded plain)
    (rest : ∀ result, Mirrors floor (next result) (next' result)) :
    Mirrors floor (recorded >>= next) (plain >>= next') :=
  first.mirrors.bind rest

theorem bind (first : Quiet recorded plain)
    (rest : ∀ result, Quiet (next result) (next' result)) :
    Quiet (recorded >>= next) (plain >>= next') where
  follows _ := first.bind_follows fun result => (rest result).follows _
  same before result after runs := by
    obtain ⟨value, middle, isFirst, isRest⟩ := Runs.bind_iff.mp runs
    rw [(rest value).same _ _ _ isRest, first.same _ _ _ isFirst]

theorem of_get : Quiet get get where
  follows _ before isBegun :=
    have kept := Recounts.of_pure before isBegun
    ⟨kept.fails, kept.grows⟩
  same _ _ _ runs := by rw [(get_iff.mp runs).2]

theorem of_lift {value : Except Failure α} (errors : ErrorsOnly Failure.NotOfDepth value) :
    Quiet (liftM value) (liftM value) where
  follows _ before isBegun := by
    have lifted := Recounts.lift_bind errors fun result _ => .of_pure result isBegun
    simpa using lifted
  same _ _ _ runs := by rw [(Runs.lift_iff.mp runs).2]

end Quiet

/-! ## Loops -/

theorem Mirrors.map (mirrors : Mirrors floor recorded plain) (change : α → β) :
    Mirrors floor (change <$> recorded) (change <$> plain) := by
  rw [← bind_pure_comp, ← bind_pure_comp]
  exact mirrors.bind fun _ => (Quiet.of_pure _).mirrors

end Rules

section Loops

variable {action : ι → RecordM α} {action' : ι → SessionM α}

theorem Mirrors.forM {items : List ι} {action : ι → RecordM PUnit} {action' : ι → SessionM PUnit}
    (each : ∀ item ∈ items, Mirrors floor (action item) (action' item)) :
    Mirrors floor (items.forM action) (items.forM action') := by
  induction items with
  | nil => exact (Quiet.of_pure _).mirrors
  | cons item items induction =>
    simp only [forM_eq_forM, List.forM_cons]
    exact (each item mem_cons_self).bind fun _ =>
      induction fun other member => each other (mem_cons_of_mem _ member)

theorem Mirrors.mapM {items : List ι}
    (each : ∀ item ∈ items, Mirrors floor (action item) (action' item)) :
    Mirrors floor (items.mapM action) (items.mapM action') := by
  induction items with
  | nil =>
    simp only [List.mapM_nil]
    exact (Quiet.of_pure _).mirrors
  | cons item items induction =>
    simp only [List.mapM_cons]
    exact (each item mem_cons_self).bind fun _ => (induction fun other member =>
      each other (mem_cons_of_mem _ member)).bind fun _ => (Quiet.of_pure _).mirrors

theorem Mirrors.optionForM {item : Option ι} {action : ι → RecordM PUnit}
    {action' : ι → SessionM PUnit}
    (each : ∀ value, Mirrors floor (action value) (action' value)) :
    Mirrors floor (item.forM action) (item.forM action') := by
  cases item with
  | none => exact (Quiet.of_pure _).mirrors
  | some value => exact each value

theorem Mirrors.optionMapM {item : Option ι}
    (each : ∀ value, Mirrors floor (action value) (action' value)) :
    Mirrors floor (item.mapM action) (item.mapM action') := by
  cases item with
  | none => exact (Quiet.of_pure _).mirrors
  | some value => exact (each value).map some

theorem Quiet.optionForM {item : Option ι} {action : ι → RecordM PUnit}
    {action' : ι → SessionM PUnit} (each : ∀ value, Quiet (action value) (action' value)) :
    Quiet (item.forM action) (item.forM action') := by
  cases item with
  | none => exact .of_pure _
  | some value => exact each value

end Loops

/-! ## Bodies -/

theorem quiet_updateBodies {change : Bodies → Bodies} :
    Quiet (updateBodies change) (updateBodies change) :=
  .of_modify fun _ => rfl

theorem quiet_emit {stmt : Stmt} : Quiet (emit stmt) (emit stmt) := quiet_updateBodies

theorem quiet_emitInto {body : BodyId} {stmt : Stmt} :
    Quiet (emitInto body stmt) (emitInto body stmt) := quiet_updateBodies

theorem quiet_newBody {kind : BodyKind} {parent : BodyId} :
    Quiet (newBody kind parent) (newBody kind parent) :=
  Quiet.of_get.bind fun _ => quiet_updateBodies.bind fun _ => .of_pure _

theorem errorsOnly_leave_of_depth {bodies : Bodies} :
    ErrorsOnly Failure.NotOfDepth bodies.leave := by
  unfold Bodies.leave
  split
  · exact ErrorsOnly.error_iff.mpr (by simp [Failure.NotOfDepth])
  · exact .ok _

section Bodies

variable {recorded : RecordM α} {plain : SessionM α} {body : BodyId}

theorem Follows.inBody (follows : Follows begun recorded plain) :
    Follows begun (inBody body recorded) (inBody body plain) := by
  unfold Session.inBody
  refine quiet_updateBodies.bind_follows fun _ => follows.bind fun _ =>
    Quiet.of_get.bind_mirrors fun _ => (Quiet.of_lift errorsOnly_leave_of_depth).bind_mirrors
      fun _ => (quiet_updateBodies.bind fun _ => .of_pure _).mirrors

theorem Mirrors.inBody (mirrors : Mirrors floor recorded plain) :
    Mirrors floor (inBody body recorded) (inBody body plain) :=
  fun begun above => (mirrors begun above).inBody

end Bodies

/-! ## Names and instances -/

theorem quiet_identifier : Quiet (identifier id) (identifier id) := by
  unfold identifier
  refine Quiet.of_get.bind fun session => ?_
  split
  · exact .of_pure _
  · exact .of_throw (by simp [Failure.NotOfDepth])

theorem quiet_instanceOf : Quiet (instanceOf id) (instanceOf id) := by
  unfold instanceOf
  refine Quiet.of_get.bind fun session => ?_
  split
  · exact .of_pure _
  · exact .of_throw (by simp [Failure.NotOfDepth])

theorem quiet_updateInstance {change : FunctionInstance → FunctionInstance} :
    Quiet (updateInstance id change) (updateInstance id change) :=
  quiet_instanceOf.bind fun _ => .of_modify fun _ => rfl

theorem quiet_resolve : Quiet (resolve id) (resolve id) := by
  unfold resolve
  refine Quiet.of_get.bind fun session => ?_
  dsimp only
  split
  · exact .of_pure _
  · exact quiet_identifier.bind fun _ => .of_pure _

theorem quiet_checkVisible : Quiet (checkVisible id) (checkVisible id) := by
  unfold checkVisible
  refine Quiet.of_get.bind fun session => ?_
  split
  · exact .of_pure _
  · split
    · split
      · exact .of_pure _
      · exact .of_throw (by simp [Failure.NotOfDepth])
    · exact .of_pure _

theorem quiet_noteUsage : Quiet (noteUsage id) (noteUsage id) :=
  .of_modify fun _ => rfl

theorem quiet_reference : Quiet (reference id) (reference id) :=
  quiet_checkVisible.bind fun _ => quiet_noteUsage.bind fun _ => quiet_resolve

/-! ## Construction -/

theorem quiet_start : Quiet (start id) (start id) := .of_modify fun _ => rfl

theorem quiet_isInProgress : Quiet (isInProgress id) (isInProgress id) :=
  Quiet.of_get.bind fun _ => .of_pure _

theorem quiet_defer {awaited : ValueId} {work : Deferred} :
    Quiet (defer awaited work) (defer awaited work) := .of_modify fun _ => rfl

theorem quiet_releaseLock {object : ValueId} : Quiet (releaseLock object) (releaseLock object) := by
  unfold releaseLock
  refine Quiet.of_get.bind fun session => ?_
  split
  · exact .of_pure _
  · split
    · exact Quiet.bind (.of_modify fun _ => rfl) fun _ => quiet_emitInto
    · exact .of_modify fun _ => rfl

theorem mirrors_finish {write : ValueId → RecordM Unit} {write' : ValueId → SessionM Unit}
    (writes : ∀ object, Mirrors floor (write object) (write' object)) :
    Mirrors floor (finish write id) (finish write' id) := by
  unfold finish
  refine Quiet.of_get.bind_mirrors fun session => Quiet.bind_mirrors (.of_modify fun _ => rfl)
    fun _ => .forM fun work _ => ?_
  cases work with
  | stmt body stmt object =>
    exact (quiet_emitInto.bind fun _ => .optionForM fun _ => quiet_releaseLock).mirrors
  | prototype object => exact writes object

end Session

end HeapScript
