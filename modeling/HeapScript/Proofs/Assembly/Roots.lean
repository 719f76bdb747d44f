import HeapScript.Proofs.Assembly.Conservation
import HeapScript.Proofs.Output.Splices

/-!
Waiting statements and roots.

A root takes the definitions that wait for its body, its prelude and the statements of its body, and
becomes a definition itself. Inner roots come before outer ones, so that all of this is there when
it is taken.
-/

namespace HeapScript

open List Runs

variable {method : MethodInstance} {spliced body : List Stmt} {placed : Assembly}

/-! ## Groups -/

theorem perm_flatMap_filter {α κ : Type} [DecidableEq κ] (key : α → κ) {keys : List κ}
    (distinct : keys.Nodup) {items : List α} (covers : ∀ item ∈ items, key item ∈ keys) :
    (keys.flatMap fun group => items.filter (key · = group)).Perm items := by
  induction keys generalizing items with
  | nil =>
    obtain rfl : items = [] := eq_nil_iff_forall_not_mem.mpr fun item member =>
      absurd (covers item member) not_mem_nil
    exact .nil
  | cons first keys induction =>
    obtain ⟨isNew, distinct⟩ := nodup_cons.mp distinct
    let others := items.filter fun item => !decide (key item = first)
    have covered : ∀ item ∈ others, key item ∈ keys := by
      intro item member
      obtain ⟨member, different⟩ := mem_filter.mp member
      exact (mem_cons.mp (covers item member)).resolve_left (by simpa using different)
    have same : (keys.flatMap fun group => items.filter (key · = group)) =
        keys.flatMap fun group => others.filter (key · = group) := by
      refine flatMap_congr fun group member => ?_
      rw [filter_filter]
      refine filter_congr fun item _ => ?_
      by_cases isGroup : key item = group
      · have different : group ≠ first := fun same => isNew (same ▸ member)
        simp [isGroup, different]
      · simp [isGroup]
    rw [flatMap_cons, same]
    exact ((induction distinct covered).append_left _).trans (filter_append_perm _ items)

variable {M : Type} [AddCommMonoid M] [PartialOrder M] {weighing : Weighing M}

/-! ## Waiting statements -/

namespace Splices

theorem perm_waiting (splices : Splices) :
    (splices.bodiesWaiting.flatMap splices.entriesOf).Perm splices.waiting := by
  have sorted := perm_sortBy (splices.waiting.map (·.1)).eraseDups
    fun left right => left.index ≤ right.index
  refine perm_flatMap_filter Prod.fst (sorted.nodup_iff.mpr (nodup_eraseDups _))
    fun entry member => ?_
  exact sorted.mem_iff.mpr (mem_eraseDups.mpr (mem_map_of_mem member))

end Splices

namespace Weighing

variable (weighing)

def waitingFor (splices : Splices) (body : BodyId) : M :=
  ((splices.entriesOf body).map fun entry => weighing.loose entry.2.stmts).sum

theorem waiting_eq (splices : Splices) (body : BodyId) : weighing.waiting splices =
    weighing.waiting (splices.without body) + weighing.waitingFor splices body := by
  have parts := filter_append_perm (fun entry => decide (entry.1 = body)) splices.waiting
  rw [waiting, ← (parts.map _).sum_eq, map_append, sum_append, add_comm, waiting]
  simp only [Splices.without, waitingFor, Splices.entriesOf, ne_eq, decide_not]

theorem waiting_eq_sum (splices : Splices) : weighing.waiting splices =
    (splices.bodiesWaiting.map (weighing.waitingFor splices)).sum := by
  rw [waiting, ← (splices.perm_waiting.map _).sum_eq, map_flatMap, flatMap_def,
    sum_flatten, map_map]
  rfl

variable [IsOrderedAddMonoid M]

theorem closed_spliceInto {body : BodyId} {groups : List SpliceGroup} {stmts : List Stmt}
    (found : spliceInto body groups stmts = .ok spliced) :
    weighing.closed stmts + (groups.map fun group => weighing.loose group.stmts).sum ≤
      weighing.closed spliced := by
  induction groups generalizing stmts with
  | nil =>
    cases found
    simp
  | cons group groups induction =>
    rw [spliceInto] at found
    split at found
    · cases found
    · have inserted := weighing.closed_insert (stmts.take group.index) group.stmts
        (stmts.drop group.index)
      rw [take_append_drop] at inserted
      rw [map_cons, sum_cons, ← add_assoc]
      exact (add_le_add_left inserted _).trans (induction found)

theorem closed_splice {splices : Splices} {body : BodyId} {stmts : List Stmt}
    (found : spliceInto body (splices.groupsOf body) stmts = .ok spliced) :
    weighing.closed stmts + weighing.waitingFor splices body ≤ weighing.closed spliced := by
  have same := ((splices.perm_groupsOf body).map fun group => weighing.loose group.stmts).sum_eq
  have whole := weighing.closed_spliceInto found
  rw [same, map_map] at whole
  exact whole

end Weighing

theorem Weighing.closed_between [IsOrderedAddMonoid M] (weighing : Weighing M)
    (start stmts rest : List Stmt) :
    weighing.loose start + weighing.closed stmts + weighing.loose rest ≤
      weighing.closed (start ++ stmts ++ rest) :=
  (add_le_add_left (weighing.closed_append_left start stmts) _).trans
    (weighing.closed_append_right (start ++ stmts) rest)

/-- Putting statements into some bodies loses none of them, and does nothing to other bodies. -/
theorem Splices.applyEach_weight [IsOrderedAddMonoid M] (weighing : Weighing M) {splices : Splices}
    {targets : List BodyId} {bodies later : Bodies}
    (runs : splices.applyEach targets bodies = (later, none))
    (present : ∀ body ∈ targets, bodies.Has body) :
    bodies.total weighing.closed + (targets.map (weighing.waitingFor splices)).sum ≤
        later.total weighing.closed ∧
      later.arena.size = bodies.arena.size ∧
      ∀ body, body ∉ targets → later.stmts body = bodies.stmts body := by
  induction targets generalizing bodies with
  | nil =>
    cases runs
    simp
  | cons body targets induction =>
    rw [applyEach] at runs
    split at runs
    swap
    · cases runs
    rename_i middle applied
    obtain ⟨spliced, isSpliced, rfl⟩ := applyTo_eq_ok.mp applied
    have isPresent := present body mem_cons_self
    obtain ⟨rest, size, unchanged⟩ := induction runs fun other member => by
      rw [Bodies.Has, Bodies.size_setStmts]
      exact present other (mem_cons_of_mem _ member)
    refine ⟨?_, size.trans (Bodies.size_setStmts ..), fun other outside => ?_⟩
    · obtain ⟨others, isTotal, isSet⟩ := Bodies.exists_total_setStmts weighing.closed isPresent
      rw [isSet] at rest
      refine le_trans ?_ rest
      rw [isTotal, map_cons, sum_cons, ← add_assoc, add_assoc others]
      exact add_le_add_left (add_le_add_right (weighing.closed_splice isSpliced) _) _
    · obtain ⟨different, outside⟩ : other ≠ body ∧ other ∉ targets := by simpa using outside
      rw [unchanged other outside, Bodies.stmts_setStmts isPresent, if_neg (Ne.symm different)]

/-! ## Roots -/

variable {written : Written} {defined : List ValueId} {taken : List BodyId} {due hand : M}
  {before after : Assembly} {result : Unit} {record : RootRecord} {inst : FunctionInstance}

theorem Bodies.setStmts_setStmts (bodies : Bodies) (id : BodyId) (stmts others : List Stmt) :
    (bodies.setStmts id stmts).setStmts id others = bodies.setStmts id others := by
  simp only [setStmts, Arena.modify]
  congr 2
  ext index body
  · simp
  · simp [Array.getElem_modify]
    split <;> rfl

theorem Written.Complete.eq_of_body (complete : written.Complete) {other : RootRecord}
    (member : record ∈ written.roots) (isOther : other ∈ written.roots)
    (same : record.body = other.body) : record.function = other.function := by
  have kind := (complete.records record member).kind
  rw [same, (complete.records other isOther).kind] at kind
  exact (BodyKind.root.inj kind).symm

namespace Assembly

namespace Carries

variable [IsOrderedAddMonoid M]

theorem takingRoot (weighable : written.Weighable weighing) (member : record ∈ written.roots)
    (isSpliced : spliceInto record.body (before.splices.groupsOf record.body)
      (before.bodies.stmts record.body) = .ok spliced)
    (carries : Carries weighing written defined taken due hand before) :
    Carries weighing written defined (record.body :: taken) due
      (hand + (weighing.closed spliced +
        weighing.loose ((before.rootPreludes.get? record.function).getD [])))
      (before.takingRoot record) := by
  have complete := weighable.complete
  have stays : ∀ other, before.bodies.stmts other = [] →
      (before.bodies.setStmts record.body []).stmts other = [] := by
    intro other isEmpty
    rw [Bodies.stmts_setStmts_nil, isEmpty, ite_self]
  refine { carries with
    size := (Bodies.size_setStmts _ _ _).trans carries.size
    takenBodies := congrArg (record.body :: ·) carries.takenBodies
    waiting := fun entry isWaiting => ?_
    takenEmpty := fun body isTaken => ?_
    lazyEmpty := fun other object isLazy => stays other (carries.lazyEmpty other object isLazy)
    delayedEmpty := fun id member other isBody =>
      stays other (carries.delayedEmpty id member other isBody)
    distinctPreludes := ?_
    preludes := fun root isKey => ?_
    weight := ?_ }
  · obtain ⟨isWaiting, different⟩ := mem_filter.mp isWaiting
    obtain ⟨present, declares, notTaken⟩ := carries.waiting entry isWaiting
    exact ⟨present, declares, not_mem_cons_of_ne_of_not_mem (by simpa using different) notTaken⟩
  · rcases mem_cons.mp isTaken with rfl | isTaken
    · exact (Bodies.stmts_setStmts_nil ..).trans (if_pos rfl)
    · exact stays body (carries.takenEmpty body isTaken)
  · change (before.rootPreludes.erase record.function).keys.Nodup
    rw [KeyedTable.keys_erase]
    exact carries.distinctPreludes.filter _
  · change root ∈ (before.rootPreludes.erase record.function).keys at isKey
    rw [KeyedTable.keys_erase] at isKey
    obtain ⟨isKey, different⟩ := mem_filter.mp isKey
    obtain ⟨outer, isOuter, rfl, notTaken⟩ := carries.preludes root isKey
    refine ⟨outer, isOuter, rfl, not_mem_cons_of_ne_of_not_mem (fun same => ?_) notTaken⟩
    exact absurd (complete.eq_of_body isOuter member same) (by simpa using different)
  · have isTotal := before.bodies.total_take weighing.closed_nil record.body
    have preludes := KeyedTable.total_erase weighing.loose carries.distinctPreludes record.function
    have own : ((before.rootPreludes.get? record.function).map weighing.loose).getD 0 =
        weighing.loose ((before.rootPreludes.get? record.function).getD []) := by
      cases before.rootPreludes.get? record.function <;> simp
    have whole := weighing.closed_splice isSpliced
    calc due ≤ weighing.assembly written before + hand := carries.weight
      _ = weighing.closed (before.bodies.stmts record.body) +
            weighing.waitingFor before.splices record.body +
          (weighing.assembly written (before.takingRoot record) + (hand +
            weighing.loose ((before.rootPreludes.get? record.function).getD []))) := by
        simp only [Weighing.assembly, isTotal, preludes, own,
          weighing.waiting_eq before.splices record.body, Assembly.takingRoot]
        abel
      _ ≤ weighing.closed spliced + (weighing.assembly written (before.takingRoot record) + (hand +
            weighing.loose ((before.rootPreludes.get? record.function).getD []))) :=
        add_le_add_left whole _
      _ = _ := by abel

end Carries

theorem runs_rootBody (present : before.bodies.Has record.body)
    (runs : Runs (rootBody written inst record) before body after) :
    ∃ spliced prologue assignments init,
      spliceInto record.body (before.splices.groupsOf record.body)
        (before.bodies.stmts record.body) = .ok spliced ∧
      written.scopePrologue inst (fun _ scope => written.selectorLiteral scope) = .ok prologue ∧
      writeBacks written inst record = .ok assignments ∧
      Runs (delayedInit inst) (before.takingRoot record) init after ∧
      body = init ++ written.session.captured.bootstrap (some record.function) ++
        (before.rootPreludes.get? record.function).getD [] ++ prologue ++ spliced ++
        record.verbatim ++ assignments ++
        record.result.toList.map fun value => Stmt.returnValue (some value) := by
  obtain ⟨_, prologue, assignments, init, isClosed, isPrologue, areAssignments, delaying, rfl⟩ :=
    rootBody_cases runs
  obtain ⟨spliced, isSpliced, rfl⟩ := Splices.applyTo_eq_ok.mp isClosed
  rw [Bodies.setStmts_setStmts] at delaying
  refine ⟨spliced, prologue, assignments, init, isSpliced, isPrologue, areAssignments, delaying, ?_⟩
  rw [Bodies.stmts_setStmts present, if_pos rfl]
  rfl

def EntersClass (written : Written) (record : RootRecord) (inst : FunctionInstance)
    (method : MethodInstance) (before placed : Assembly) : Prop :=
  ∃ code body built added, written.context.graph.codeBlock inst.code = .ok code ∧
    Runs (rootBody written inst record) before body built ∧ inst.method = some method ∧
    Runs (addClassMember method code { code.function with body }) built.countingRoot ⟨⟩ added ∧
    (method.kind = .constructor ∧ placed = added ∨
      method.kind ≠ .constructor ∧ ∃ group point, memberGroup written inst method = .ok group ∧
        inst.insertionPoint = some point ∧ point.body ∉ added.takenBodies ∧
        Runs (splice point inst.serial group) added ⟨⟩ placed)

theorem rootBody_frame (runs : Runs (rootBody written inst record) before body after) :
    ∃ bodies, after = { before.takingRoot record with bodies } := by
  obtain ⟨_, _, _, _, -, -, -, delaying, -⟩ := rootBody_cases runs
  obtain ⟨bodies, rfl⟩ := delayedInit_frame delaying
  exact ⟨bodies, rfl⟩

theorem EntersClass.frame (enters : EntersClass written record inst method before after) :
    after.awaitedMembers = before.awaitedMembers ∧
      ∃ node, after.classes = before.classes.insert method.classPrototype node := by
  obtain ⟨code, body, _, _, -, building, -, adding, splicing⟩ := enters
  obtain ⟨bodies, rfl⟩ := rootBody_frame building
  obtain rfl := modify_iff.mp adding
  rcases splicing with ⟨-, rfl⟩ | ⟨-, _, _, -, -, -, splicing⟩
  · exact ⟨rfl, _, rfl⟩
  · obtain rfl := runs_splice.mp splicing
    exact ⟨rfl, _, rfl⟩

end Assembly

namespace Written

theorem Complete.declared_writeBacks (complete : written.Complete) (member : record ∈ written.roots)
    {assignments : List Stmt} (found : Assembly.writeBacks written inst record = .ok assignments) :
    declaredIn (blocksOf assignments) = [] := by
  refine eq_nil_iff_forall_not_mem.mpr fun name declared => ?_
  obtain ⟨stmt, isStmt, declared⟩ := mem_declaredIn_blocksOf.mp declared
  obtain ⟨⟨target, value⟩, isBinding, isAssigned⟩ := exists_of_mem_mapM found isStmt
  obtain ⟨replacement, isReplacement, same⟩ := bind_eq_ok.mp isAssigned
  obtain rfl := pure_eq_ok.mp same
  obtain ⟨id, refers⟩ := (complete.records record member).values value
    (.inl (mem_map_of_mem isBinding))
  have plainTarget : (replacement.getD (.var target)).blocks = [] := by
    cases replacement with
    | none => rfl
    | some expr => exact complete.plain_replacementFor isReplacement
  simp [Stmt.declares, Stmt.blocks, plainTarget, refers.isReference.blocks] at declared

theorem Complete.declared_result (complete : written.Complete) (member : record ∈ written.roots) :
    declaredIn (blocksOf (record.result.toList.map fun value => Stmt.returnValue (some value))) =
      [] := by
  cases isResult : record.result with
  | none => rfl
  | some value =>
    obtain ⟨id, refers⟩ := (complete.records record member).values value (.inr isResult)
    simp [blocksOf, blocksWithin, Stmt.declares, Stmt.blocks, refers.isReference.blocks]

variable [IsOrderedAddMonoid M]

theorem Weighable.le_rootBody (weighable : written.Weighable weighing)
    (member : record ∈ written.roots) {prologue assignments : List Stmt}
    (isPrologue : written.scopePrologue inst (fun _ scope => written.selectorLiteral scope) =
      .ok prologue)
    (areAssignments : Assembly.writeBacks written inst record = .ok assignments)
    (init prelude values : List Stmt) :
    weighing.closed values + weighing.loose prelude + weighing.loose init ≤
      weighing.closed (init ++ written.session.captured.bootstrap (some record.function) ++
        prelude ++ prologue ++ values ++ record.verbatim ++ assignments ++
        record.result.toList.map fun value => Stmt.returnValue (some value)) := by
  have complete := weighable.complete
  let bootstrap := written.session.captured.bootstrap (some record.function)
  let results := record.result.toList.map fun value => Stmt.returnValue (some value)
  have bootstrapWeight : 0 ≤ weighing.loose bootstrap :=
    weighable.loose_nonneg fun _ => complete.given_bootstrap
  have prologueWeight : 0 ≤ weighing.loose prologue := weighable.loose_nonneg fun _ =>
    given_prologue isPrologue fun _ _ _ => plain_selectorLiteral
  have verbatimWeight : 0 ≤ weighing.loose record.verbatim :=
    weighable.loose_nonneg fun _ => complete.given_verbatim member
  have assignmentsWeight : 0 ≤ weighing.loose assignments :=
    weighable.loose_nonneg (by simp [complete.declared_writeBacks member areAssignments])
  have resultWeight : 0 ≤ weighing.loose results :=
    weighable.loose_nonneg (by simp [results, complete.declared_result member])
  have whole := weighing.closed_between (init ++ bootstrap ++ prelude ++ prologue) values
    (record.verbatim ++ assignments ++ results)
  simp only [weighing.loose_append] at whole
  simp only [← append_assoc] at whole
  refine le_trans ?_ whole
  calc weighing.closed values + weighing.loose prelude + weighing.loose init
    _ = weighing.loose init + 0 + weighing.loose prelude + 0 + weighing.closed values +
        (0 + 0 + 0) := by abel
    _ ≤ _ := by gcongr

end Written

namespace Assembly.Carries

variable [IsOrderedAddMonoid M]

theorem rootBody (weighable : written.Weighable weighing) (member : record ∈ written.roots)
    (runs : Runs (Assembly.rootBody written inst record) before body after)
    (isInstance : written.session.HasInstance record.function inst)
    (carries : Carries weighing written defined taken due 0 before) :
    Carries weighing written defined (record.body :: taken) due (weighing.closed body) after ∧
      ∀ delayed, written.session.delayedBodies.get? record.function = some delayed →
        after.bodies.stmts delayed = [] := by
  have present : before.bodies.Has record.body := by
    rw [Bodies.Has, carries.size]
    exact (weighable.complete.records record member).present
  obtain ⟨spliced, prologue, assignments, init, isSpliced, isPrologue, areAssignments, delaying,
    rfl⟩ := runs_rootBody present runs
  obtain ⟨inHand, emptied⟩ :=
    (carries.takingRoot weighable member isSpliced).delayedInit weighable delaying isInstance
  refine ⟨inHand.mono ?_, emptied⟩
  rw [zero_add]
  exact weighable.le_rootBody member isPrologue areAssignments init _ spliced

/-- The function of a root, and the statements that its body took, weigh what is due. -/
theorem le_blocks_root (weighable : written.Weighable weighing) {code : CodeBlock}
    {codeId : CodeId} (isCode : written.IsCode codeId code) (body : List Stmt) :
    weighing.closed body ≤ weighing.blocks ({ code.function with body } : FunctionDef).blocks := by
  have params : 0 ≤ weighing.blocks (blocksOfParams code.function.params) := by
    refine weighable.blocks_nonneg fun name declared => Written.given_code isCode ?_
    rw [FunctionDef.blocks_eq, declaredIn_append]
    exact mem_append_left _ declared
  rw [FunctionDef.blocks_eq, weighing.blocks_append]
  exact le_add_of_nonneg_left params

theorem enterRoot (weighable : written.Weighable weighing) (member : record ∈ written.roots)
    (isInstance : written.session.HasInstance record.function inst)
    (enters : EntersClass written record inst method before placed)
    (isNew : record.function ∉ defined)
    (carries : Carries weighing written defined taken due 0 before) :
    Carries weighing written (record.function :: defined) (record.body :: taken)
      (due + weighing.definition inst) 0 placed := by
  obtain ⟨code, body, built, added, isCode, building, isMethod, adding, splicing⟩ := enters
  obtain ⟨inHand, emptied⟩ := carries.rootBody weighable member building isInstance
  have counted : Carries weighing written defined (record.body :: taken) due (weighing.closed body)
      built.countingRoot := { inHand with }
  have isMember : written.IsMember record.function inst method := ⟨isInstance, isMethod⟩
  obtain ⟨function, facts⟩ := weighable.complete.facts isInstance
  obtain ⟨prologue, targets, isRoot⟩ := isRoot_rootBody code building
  have entered := counted.enterClass weighable adding isMember
    (.root member facts.isId.symm isCode isRoot) isNew emptied
      (le_blocks_root weighable isCode body)
  rcases splicing with ⟨isConstructor, rfl⟩ | ⟨notConstructor, group, point, isGroup, isPoint,
    notTaken, splicing⟩
  · rwa [if_pos isConstructor] at entered
  · obtain rfl := runs_splice.mp splicing
    rw [if_neg notConstructor] at entered
    refine splice inst.serial (entered.mono ?_) ?_
    · rw [zero_add]
      exact memberGroup weighable isGroup isMember notConstructor
    · exact weighable.complete.accepts isInstance isPoint (entered.takenBodies ▸ notTaken)

end Assembly.Carries

/-! ## Classes of roots -/

def Written.joins (written : Written) (prototype : ValueId) (record : RootRecord) : Bool :=
  ((written.session.instances.get? record.function).bind (·.method)).any
    (·.classPrototype = prototype)

theorem Written.joins_iff {prototype : ValueId} : written.joins prototype record = true ↔
    written.BelongsTo prototype record.function := by
  simp only [joins, Option.any_eq_true, Option.bind_eq_some_iff, decide_eq_true_eq, BelongsTo]
  constructor
  · rintro ⟨method, ⟨inst, isInstance, isMethod⟩, same⟩
    exact ⟨inst, method, ⟨isInstance, isMethod⟩, same⟩
  · rintro ⟨inst, method, ⟨isInstance, isMethod⟩, same⟩
    exact ⟨method, ⟨inst, isInstance, isMethod⟩, same⟩

namespace Assembly

theorem get?_awaitedMembersOf {awaited : KeyedTable ValueId Nat}
    (found : awaitedMembersOf written = .ok awaited) (prototype : ValueId) :
    (awaited.get? prototype).getD 0 = written.roots.countP (written.joins prototype) ∧
      awaited.get? prototype ≠ some 0 := by
  refine foldlM_remaining (fun records (table : KeyedTable ValueId Nat) =>
    (table.get? prototype).getD 0 + records.countP (written.joins prototype) =
      written.roots.countP (written.joins prototype) ∧ table.get? prototype ≠ some 0)
    (fun record records table next step counted => ?_) found (by simp [KeyedTable.get?])
  obtain ⟨inst, isInstance, step⟩ := bind_eq_ok.mp step
  simp only [countP_cons, Written.joins, Written.instanceOf_eq_ok isInstance,
    Option.bind_some] at counted
  split at step
  · rename_i noMethod
    obtain rfl := pure_eq_ok.mp step
    simpa [noMethod] using counted
  · rename_i method isMethod
    obtain rfl := pure_eq_ok.mp step
    rw [KeyedTable.get?_insert]
    by_cases same : method.classPrototype = prototype
    · refine ⟨Eq.trans ?_ counted.1, by simp [same]⟩
      simp only [same, if_true, Option.getD_some, isMethod, Option.any_some, decide_true]
      omega
    · simpa [isMethod, same, Written.joins] using counted

/-- All members of a class are defined, if none of them is a root that is left. -/
theorem whole_of_covered {records : List RootRecord}
    (covered : ∀ id inst, written.session.HasInstance id inst →
      id ∈ defined ∨ ∃ record ∈ records, record.function = id) {prototype : ValueId}
    (none : records.countP (written.joins prototype) = 0) :
    ∀ id, written.BelongsTo prototype id → id ∈ defined := by
  intro id belongs
  have ⟨inst, method, isMember, _⟩ := belongs
  rcases covered id inst isMember.isInstance with isDefined | ⟨record, member, rfl⟩
  · exact isDefined
  · exact absurd (Written.joins_iff.mpr belongs) (countP_eq_zero.mp none record member)

theorem pairwise_definitionOrder (records : List RootRecord) :
    (definitionOrder records).Pairwise fun left right => right.depth ≤ left.depth := by
  refine (pairwise_sortBy ?_ ?_ records).imp of_decide_eq_true
  · simpa using fun _ _ _ first second => Nat.le_trans second first
  · simpa using fun (left right : RootRecord) => Nat.le_total right.depth left.depth

/-- What holds while roots are built, from the inside out, and how many of them are left. -/
structure Building (weighing : Weighing M) (written : Written) (total : M) (defined : List ValueId)
    (taken : List BodyId) (due : M) (records : List RootRecord) (assembly : Assembly) : Prop
    extends Carries weighing written defined taken due 0 assembly where
  inside : ∀ record ∈ records, record ∈ written.roots
  distinct : (records.map (·.function)).Nodup
  sorted : records.Pairwise fun left right => right.depth ≤ left.depth
  outer : ∀ record ∈ records, ∀ parent, record.parent = some parent →
    ∃ around ∈ records, around.function = parent ∧ record.depth = around.depth + 1
  areNew : ∀ record ∈ records, record.function ∉ defined
  areOpen : ∀ record ∈ records, record.body ∉ taken
  covered : ∀ id inst, written.session.instances.get? id = some inst →
    id ∈ defined ∨ ∃ record ∈ records, record.function = id
  built : ∀ record ∈ written.roots, record ∈ records ∨ record.body ∈ taken
  owed : due + ((records.filterMap fun record =>
    written.session.instances.get? record.function).map weighing.definition).sum = total
  counted : ∀ prototype, (assembly.awaitedMembers.get? prototype).getD 0 =
    records.countP (written.joins prototype)
  pending : ∀ prototype, (assembly.classes.get? prototype).isSome →
    0 < records.countP (written.joins prototype)

namespace Building

variable {total : M} {records : List RootRecord}

theorem awaits (weighable : written.Weighable weighing)
    (building : Building weighing written total defined taken due (record :: records) before) :
    (∀ other ∈ records, other.body ∉ record.body :: taken) ∧
      ∀ parent, record.parent = some parent →
        written.Awaits (record.body :: taken) parent := by
  obtain ⟨isFirst, -⟩ := nodup_cons.mp building.distinct
  have isRoot := building.inside record mem_cons_self
  have later := fun other isOther => building.inside other (mem_cons_of_mem record isOther)
  have stillOpen : ∀ other ∈ records, other.body ∉ record.body :: taken := by
    intro other isOther isTaken
    rcases mem_cons.mp isTaken with same | isTaken
    · refine isFirst (mem_map.mpr ⟨other, isOther, ?_⟩)
      exact weighable.complete.eq_of_body (later other isOther) isRoot same
    · exact building.areOpen other (mem_cons_of_mem _ isOther) isTaken
  refine ⟨stillOpen, fun parent isParent => ?_⟩
  obtain ⟨around, isAround, rfl, deeper⟩ := building.outer record mem_cons_self parent isParent
  rcases mem_cons.mp isAround with rfl | isAround
  · omega
  · exact ⟨around, later around isAround, rfl, stillOpen around isAround⟩

theorem covered_next
    (building : Building weighing written total defined taken due (record :: records) before) :
    ∀ id inst, written.session.instances.get? id = some inst →
      id ∈ record.function :: defined ∨ ∃ other ∈ records, other.function = id := by
  intro id inst isInstance
  rcases building.covered id inst isInstance with isDefined | ⟨other, isOther, rfl⟩
  · exact .inl (mem_cons_of_mem _ isDefined)
  · rcases mem_cons.mp isOther with rfl | isOther
    · exact .inl mem_cons_self
    · exact .inr ⟨other, isOther, rfl⟩

section

variable (weighable : written.Weighable weighing)
  (building : Building weighing written total defined taken due (record :: records) before)
  (isInstance : written.session.HasInstance record.function inst)

include weighable building isInstance

theorem next
    (carries : Carries weighing written (record.function :: defined) (record.body :: taken)
      (due + weighing.definition inst) 0 after)
    (counted : ∀ prototype, (after.awaitedMembers.get? prototype).getD 0 =
      records.countP (written.joins prototype))
    (pending : ∀ prototype, (after.classes.get? prototype).isSome →
      0 < records.countP (written.joins prototype)) :
    Building weighing written total (record.function :: defined) (record.body :: taken)
      (due + weighing.definition inst) records after := by
  obtain ⟨isFirst, distinct⟩ := nodup_cons.mp building.distinct
  obtain ⟨deepest, sorted⟩ := pairwise_cons.mp building.sorted
  refine { carries with
    inside := fun other isOther => building.inside other (mem_cons_of_mem _ isOther)
    distinct, sorted, counted, pending
    areOpen := (building.awaits weighable).1
    outer := fun other isOther parent isParent => ?_
    areNew := fun other isOther isDefined => ?_
    covered := building.covered_next
    built := fun other isOther => ?_
    owed := ?_ }
  · obtain ⟨around, isAround, isFunction, deeper⟩ :=
      building.outer other (mem_cons_of_mem _ isOther) parent isParent
    rcases mem_cons.mp isAround with rfl | isAround
    · have shallow := deepest other isOther
      omega
    · exact ⟨around, isAround, isFunction, deeper⟩
  · rcases mem_cons.mp isDefined with same | isDefined
    · exact isFirst (mem_map.mpr ⟨other, isOther, same⟩)
    · exact building.areNew other (mem_cons_of_mem _ isOther) isDefined
  · rcases building.built other isOther with isLeft | isTaken
    · rcases mem_cons.mp isLeft with rfl | isLeft
      · exact .inr mem_cons_self
      · exact .inl isLeft
    · exact .inr (mem_cons_of_mem _ isTaken)
  · rw [← building.owed]
    simp [isInstance, add_assoc]

theorem enter [IsOrderedAddMonoid M]
    (enters : EntersClass written record inst method before placed) :
    Carries weighing written (record.function :: defined) (record.body :: taken)
        (due + weighing.definition inst) 0 placed ∧
      ∀ prototype, (placed.awaitedMembers.get? prototype).getD 0 =
        records.countP (written.joins prototype) +
          if method.classPrototype = prototype then 1 else 0 := by
  refine ⟨building.toCarries.enterRoot weighable (building.inside record mem_cons_self)
    isInstance enters (building.areNew record mem_cons_self), fun prototype => ?_⟩
  have isMethod : inst.method = some method := by
    obtain ⟨_, _, _, _, _, _, isMethod, _⟩ := enters
    exact isMethod
  rw [enters.frame.1, building.counted, countP_cons]
  simp [Written.joins, isInstance, isMethod]

end

theorem ready [IsOrderedAddMonoid M] (weighable : written.Weighable weighing)
    (agree : written.context.graph.ClassesAgree)
    (building : Building weighing written total defined taken due (record :: records) before)
    (isInstance : written.session.HasInstance record.function inst)
    (enters : EntersClass written record inst method before placed)
    (isLast : (placed.awaitedMembers.get? method.classPrototype).getD 0 - 1 = 0) :
    ∀ node, placed.classes.get? method.classPrototype = some node →
      node.hasConstructor = true := by
  obtain ⟨carries, counted⟩ := building.enter weighable isInstance enters
  rw [counted, if_pos rfl, Nat.add_sub_cancel] at isLast
  exact carries.hasConstructor weighable.complete agree
    (whole_of_covered building.covered_next isLast)

theorem defineRoot [IsOrderedAddMonoid M] (weighable : written.Weighable weighing)
    (building : Building weighing written total defined taken due (record :: records) before)
    (runs : Runs (Assembly.defineRoot written record) before result after) :
    ∃ defined taken due, Building weighing written total defined taken due records after := by
  have member := building.inside record mem_cons_self
  obtain ⟨inst, code, body, built, isInstance, isCode, taking, placing⟩ := defineRoot_cases runs
  have isInstance := Written.instanceOf_eq_ok isInstance
  have joins : ∀ prototype, written.joins prototype record =
      inst.method.any (·.classPrototype = prototype) := by simp [Written.joins, isInstance]
  have counted := building.counted
  have pending := building.pending
  simp only [countP_cons, joins] at counted pending
  rcases placing with ⟨noMethod, adding⟩ |
    ⟨method, added, placed, isMethod, adding, splicing, releasing⟩
  · simp only [noMethod, Option.any_none, Bool.false_eq_true, if_false, add_zero] at counted pending
    obtain ⟨inHand, emptied⟩ := building.toCarries.rootBody weighable member taking isInstance
    have inHand : Carries weighing written defined (record.body :: taken) due (weighing.closed body)
        built.countingRoot := { inHand with }
    have carries : Carries weighing written (record.function :: defined) (record.body :: taken)
        (due + weighing.definition inst) 0 after := by
      refine Carries.addToPrelude adding
        (((inHand.define emptied isInstance noMethod).gain _).mono ?_)
        (building.awaits weighable).2
      rw [zero_add]
      refine le_trans ?_ (weighable.le_loose_definition isInstance rfl (.of_none noMethod))
      exact add_le_add_left (Carries.le_blocks_root weighable isCode body) _
    obtain ⟨bodies, rfl⟩ := rootBody_frame taking
    obtain ⟨_, _, rfl⟩ := addToPrelude_frame adding
    exact ⟨_, _, _, building.next weighable isInstance carries counted pending⟩
  · have enters : EntersClass written record inst method before placed :=
      ⟨code, body, built, added, isCode, taking, isMethod, adding, splicing⟩
    obtain ⟨carries, counted⟩ := building.enter weighable isInstance enters
    obtain ⟨-, node, areClasses⟩ := enters.frame
    simp only [isMethod, Option.any_some, decide_eq_true_eq] at pending
    obtain ⟨remaining, counting, isRemaining, rfl, released⟩ := releaseClass_cases releasing
    rw [counted, if_pos rfl, Nat.add_sub_cancel] at isRemaining
    have areCounted : ∀ prototype, ((placed.awaitedMembers.insert method.classPrototype
        remaining).get? prototype).getD 0 = records.countP (written.joins prototype) := by
      intro prototype
      rw [KeyedTable.get?_insert]
      split
      · rename_i same
        rw [Option.getD_some, isRemaining, same]
      · rename_i different
        rw [counted, if_neg different, add_zero]
    rcases released with ⟨isLast, defining⟩ | ⟨notLast, rfl⟩
    · have whole := whole_of_covered building.covered_next (isRemaining.symm.trans isLast)
      have defined := Carries.defineClass weighable defining whole { carries with }
      rcases defineClass_cases defining with ⟨noClass, -⟩ | ⟨_, _, _, -, -, -, -, -, rfl⟩
      · simp [areClasses] at noClass
      · refine ⟨_, _, _, building.next weighable isInstance defined areCounted
          fun other isClass => ?_⟩
        rw [KeyedTable.get?_erase, areClasses] at isClass
        by_cases same : method.classPrototype = other
        · simp [same] at isClass
        · simpa [same] using pending other (by simpa [same, KeyedTable.get?_insert] using isClass)
    · refine ⟨_, _, _, building.next weighable isInstance { carries with } areCounted
        fun other isClass => ?_⟩
      by_cases same : method.classPrototype = other
      · rw [← same, ← isRemaining]
        exact Nat.pos_of_ne_zero notLast
      · rw [areClasses] at isClass
        simpa [same] using pending other (by simpa [same, KeyedTable.get?_insert] using isClass)

end Building

end Assembly

end HeapScript
