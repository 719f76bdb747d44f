import HeapScript.Proofs.Assembly.Roots

/-!
The whole script.

When all functions are defined, all waiting statements are in their bodies and only the global body
and the prelude of the script are left. With the filling of lazy objects the script weighs at least
as much as all bodies of the session and the definitions of all functions.
-/

namespace HeapScript

open List

variable {M : Type} [AddCommMonoid M] [PartialOrder M] {weighing : Weighing M}
  {written : Written} {defined : List ValueId} {taken : List BodyId} {due hand : M}
  {before after : Assembly} {result : Unit} {inst : FunctionInstance}

/-! ## All functions -/

namespace Written

/-- A function that is defined with the code block that it belongs to. -/
def isPlain (written : Written) (inst : FunctionInstance) : Bool :=
  written.roots.all (·.function ≠ inst.function)

def closures (written : Written) : List FunctionInstance :=
  written.session.instances.values.filter written.isPlain

def closuresOf (written : Written) (code : CodeId) : List FunctionInstance :=
  written.closures.filter (·.code = code)

namespace Complete

section

variable (complete : written.Complete)

include complete

theorem get?_function (member : inst ∈ written.session.instances.values) :
    written.session.HasInstance inst.function inst := by
  obtain ⟨⟨id, _⟩, isEntry, rfl⟩ := mem_map.mp member
  have isInstance := KeyedTable.get?_eq_some_of_mem complete.idle.sound.distinctInstances isEntry
  obtain ⟨function, facts⟩ := complete.facts isInstance
  exact facts.isId ▸ isInstance

theorem distinct_instances : (written.session.instances.values.map (·.function)).Nodup := by
  have same : written.session.instances.values.map (·.function) =
      written.session.instances.keys := by
    rw [KeyedTable.values, map_map]
    refine map_congr_left fun entry isEntry => ?_
    have isInstance := KeyedTable.get?_eq_some_of_mem complete.idle.sound.distinctInstances isEntry
    obtain ⟨function, facts⟩ := complete.facts isInstance
    exact facts.isId
  exact same ▸ complete.idle.sound.distinctInstances

theorem perm_closuresOf {functions : List ValueId} {code : CodeId}
    (sorted : functions.Perm ((written.closuresOf code).map (·.function))) :
    (functions.filterMap written.session.instances.get?).Perm (written.closuresOf code) := by
  refine (sorted.filterMap _).trans (.of_eq ?_)
  rw [filterMap_map]
  refine (filterMap_congr fun inst member => ?_).trans filterMap_some
  exact complete.get?_function (mem_of_mem_filter (mem_of_mem_filter member))

/-- Each function that is no root stands in one group. -/
theorem perm_blockGroups {groups : List Assembly.BlockGroup}
    (areGroups : Assembly.blockGroups written = .ok groups) :
    (groups.flatMap written.instancesIn).Perm
      (written.session.instances.values.filter written.isPlain) := by
  obtain ⟨unsorted, areUnsorted, isSorted⟩ := bind_eq_ok.mp areGroups
  obtain rfl := pure_eq_ok.mp isSorted
  have grouped : (unsorted.flatMap written.instancesIn).Perm
      ((written.closures.map (·.code)).eraseDups.flatMap written.closuresOf) := by
    have pairs := mapM_eq_ok.mp areUnsorted
    change List.Forall₂ _ (written.closures.map (·.code)).eraseDups unsorted at pairs
    generalize (written.closures.map (·.code)).eraseDups = codes at pairs ⊢
    clear areGroups areUnsorted isSorted
    induction pairs with
    | nil => exact .nil
    | @cons code group codes groups isGroup _ induction =>
      obtain ⟨block, isBlock, same⟩ := bind_eq_ok.mp isGroup
      obtain rfl := pure_eq_ok.mp same
      exact (complete.perm_closuresOf (perm_sortBy _ _)).append induction
  refine (List.Perm.flatMap_right _ (perm_sortBy _ _)).trans (grouped.trans ?_)
  exact perm_flatMap_filter FunctionInstance.code (nodup_eraseDups _) fun inst member =>
    mem_eraseDups.mpr (mem_map_of_mem member)

theorem perm_roots (distinct : written.context.graph.DistinctRoots) :
    (written.roots.filterMap fun record => written.session.instances.get? record.function).Perm
      (written.session.instances.values.filter fun inst => !written.isPlain inst) := by
  have isFunction : ∀ id inst, written.session.instances.get? id = some inst →
      inst.function = id := by
    intro id inst isInstance
    obtain ⟨function, facts⟩ := complete.facts isInstance
    exact facts.isId
  refine (perm_ext_iff_of_nodup ?_ (complete.distinct_instances.of_map.filter _)).mpr
    fun inst => ?_
  · refine List.Pairwise.filterMap _ (fun left right different inst isLeft inst' isRight same => ?_)
      (pairwise_map.mp (complete.distinct_functions distinct))
    exact different ((isFunction _ _ isLeft).symm.trans (same ▸ isFunction _ _ isRight))
  · simp only [mem_filterMap, mem_filter, isPlain, Bool.not_eq_true', all_eq_false]
    constructor
    · rintro ⟨record, member, isInstance⟩
      exact ⟨mem_map.mpr ⟨_, KeyedTable.mem_entries_of_get? isInstance, rfl⟩, record, member,
        by simpa using (isFunction _ _ isInstance).symm⟩
    · rintro ⟨isValue, record, member, same⟩
      exact ⟨record, member, by simpa [show record.function = inst.function by simpa using same]
        using complete.get?_function isValue⟩

theorem grouped {groups : List Assembly.BlockGroup}
    (areGroups : Assembly.blockGroups written = .ok groups) {id : ValueId} {inst : FunctionInstance}
    (isInstance : written.session.HasInstance id inst) :
    (∃ group ∈ groups, inst ∈ written.instancesIn group) ∨
      ∃ record ∈ written.roots, record.function = id := by
  have isValue : inst ∈ written.session.instances.values :=
    mem_map.mpr ⟨_, KeyedTable.mem_entries_of_get? isInstance, rfl⟩
  obtain ⟨function, facts⟩ := complete.facts isInstance
  cases isPlain : written.isPlain inst with
  | true =>
    exact .inl (mem_flatMap.mp ((complete.perm_blockGroups areGroups).mem_iff.mpr
      (mem_filter.mpr ⟨isValue, isPlain⟩)))
  | false =>
    obtain ⟨record, member, same⟩ := all_eq_false.mp isPlain
    exact .inr ⟨record, member,
      (show record.function = inst.function by simpa using same).trans facts.isId⟩

theorem covered_blockGroups {groups : List Assembly.BlockGroup}
    (areGroups : Assembly.blockGroups written = .ok groups) :
    ∀ id inst, written.session.HasInstance id inst →
      id ∈ ((groups.flatMap written.instancesIn).map (·.function)).reverse ∨
        ∃ record ∈ Assembly.definitionOrder written.roots, record.function = id := by
  intro id inst isInstance
  obtain ⟨function, facts⟩ := complete.facts isInstance
  rcases complete.grouped areGroups isInstance with inGroup | ⟨record, member, isId⟩
  · exact .inl (mem_reverse.mpr
      (mem_map.mpr ⟨inst, mem_flatMap.mpr inGroup, facts.isId⟩))
  · exact .inr ⟨record, (Assembly.perm_definitionOrder _).mem_iff.mpr member, isId⟩

end

end Complete

end Written

def Written.ClassesHaveConstructors (written : Written) : Prop :=
  ∀ id inst method, written.IsMember id inst method → ∃ other inst' method',
    written.IsMember other inst' method' ∧ method'.kind = .constructor ∧
      method'.classPrototype = method.classPrototype

namespace Assembly

structure Covers (written : Written) (defined : List ValueId) (taken : List BodyId) : Prop where
  functions : ∀ id inst, written.session.instances.get? id = some inst → id ∈ defined
  roots : ∀ record ∈ written.roots, record.body ∈ taken

variable [IsOrderedAddMonoid M]

namespace Carries

theorem defineBlocks (weighable : written.Weighable weighing) {groups : List BlockGroup}
    (areGroups : blockGroups written = .ok groups)
    (runs : Runs (groups.forM fun group => Assembly.defineBlock written group.code group.functions)
      before result after)
    (carries : Carries weighing written [] [] due 0 before) :
    Carries weighing written ((groups.flatMap written.instancesIn).map (·.function)).reverse []
      (due +
      ((written.session.instances.values.filter written.isPlain).map weighing.definition).sum) 0
      after := by
  have plain := weighable.complete.perm_blockGroups areGroups
  have distinct : ((groups.flatMap written.instancesIn).map (·.function)).Nodup :=
    (plain.map _).nodup_iff.mpr
      (weighable.complete.distinct_instances.sublist (filter_sublist.map _))
  have one : ∀ group ∈ groups, ((written.instancesIn group).map (·.function)).Nodup :=
    (nodup_flatMap.mp (map_flatMap ▸ distinct)).1
  have all := forM_define written.instancesIn (fun group isGroup _ _ _ _ runs areNew =>
    defineBlock weighable areGroups isGroup runs (one group isGroup) areNew) runs distinct (by simp)
    carries
  rwa [append_nil, (plain.map _).sum_eq] at all

theorem defineReadyClasses (weighable : written.Weighable weighing)
    (runs : Runs (Assembly.defineReadyClasses written) before result after)
    {records : List RootRecord}
    (covered : ∀ id inst, written.session.HasInstance id inst →
      id ∈ defined ∨ ∃ record ∈ records, record.function = id)
    (counted : ∀ prototype, (before.awaitedMembers.get? prototype).getD 0 =
      records.countP (written.joins prototype) ∧ before.awaitedMembers.get? prototype ≠ some 0)
    (carries : Carries weighing written defined taken due hand before) :
    Carries weighing written defined taken due hand after ∧
      after.awaitedMembers = before.awaitedMembers ∧
      ∀ prototype, (after.classes.get? prototype).isSome →
        0 < records.countP (written.joins prototype) := by
  simp only [Assembly.defineReadyClasses, Runs.get_bind] at runs
  have isReady : ∀ prototype, prototype ∈ before.classes.keys.filter (fun prototype =>
      !before.awaitedMembers.contains prototype) ↔ prototype ∈ before.classes.keys ∧
        before.awaitedMembers.get? prototype = none := by
    simp [KeyedTable.contains_eq_isSome_get?]
  -- A class that is still there in the end was there before, and is none of those that are ready.
  have all := Runs.forM_remaining (fun prototypes middle =>
    Carries weighing written defined taken due hand middle ∧
      middle.awaitedMembers = before.awaitedMembers ∧
      (∀ prototype ∈ prototypes, before.awaitedMembers.get? prototype = none) ∧
      ∀ prototype, (middle.classes.get? prototype).isSome → prototype ∈ prototypes ∨
        before.awaitedMembers.get? prototype ≠ none)
    (fun prototype prototypes middle next defining holds => ?_) runs
    ⟨carries, rfl, fun prototype member => ((isReady prototype).mp member).2,
      fun prototype isClass => ?_⟩
  · obtain ⟨carries, same, -, left⟩ := all
    refine ⟨carries, same, fun prototype isClass => ?_⟩
    obtain ⟨isCount, notZero⟩ := counted prototype
    obtain ⟨number, isAwaited⟩ := Option.ne_none_iff_exists'.mp
      ((left prototype isClass).resolve_left not_mem_nil)
    rw [isAwaited] at isCount notZero
    refine Nat.pos_of_ne_zero fun none => notZero ?_
    rw [← none, ← isCount, Option.getD_some]
  · obtain ⟨carries, same, ready, left⟩ := holds
    have notAwaited := ready prototype mem_cons_self
    have whole := whole_of_covered covered (by simpa [notAwaited] using (counted prototype).1.symm)
    refine ⟨carries.defineClass weighable defining whole, ?_⟩
    have others : (∀ other ∈ prototypes, before.awaitedMembers.get? other = none) :=
      fun other member => ready other (mem_cons_of_mem _ member)
    rcases defineClass_cases defining with ⟨missing, rfl⟩ | ⟨_, _, _, -, -, -, -, -, rfl⟩
    · refine ⟨same, others, fun other isClass => (left other isClass).imp_left fun member => ?_⟩
      refine (mem_cons.mp member).resolve_left ?_
      rintro rfl
      simp [missing] at isClass
    · refine ⟨same, others, fun other isClass => ?_⟩
      rw [KeyedTable.get?_erase] at isClass
      split at isClass
      · cases isClass
      · rename_i different
        exact (left other isClass).imp_left fun member =>
          (mem_cons.mp member).resolve_left (Ne.symm different)
  · obtain ⟨node, isNode⟩ := Option.isSome_iff_exists.mp isClass
    by_cases none : before.awaitedMembers.get? prototype = none
    · exact .inl ((isReady prototype).mpr
        ⟨mem_map_of_mem (KeyedTable.mem_entries_of_get? isNode), none⟩)
    · exact .inr none

end Carries

theorem Building.start (weighable : written.Weighable weighing)
    (distinct : written.context.graph.DistinctRoots) {groups : List BlockGroup}
    {awaitedMembers : KeyedTable ValueId Nat} {blocks : Assembly}
    (areGroups : blockGroups written = .ok groups)
    (defining : Runs (groups.forM fun group => defineBlock written group.code group.functions)
      before ⟨⟩ blocks)
    (areAwaited : awaitedMembersOf written = .ok awaitedMembers)
    (readying : Runs (defineReadyClasses written) { blocks with awaitedMembers } result after)
    (carries : Carries weighing written [] [] due 0 before) :
    ∃ defined due', Building weighing written
      (due + (written.session.instances.values.map weighing.definition).sum) defined [] due'
      (definitionOrder written.roots) after := by
  have complete := weighable.complete
  have plain := complete.perm_blockGroups areGroups
  have blocksDone := carries.defineBlocks weighable areGroups defining
  have order := perm_definitionOrder written.roots
  have covered := complete.covered_blockGroups areGroups
  have counted := get?_awaitedMembersOf areAwaited
  simp only [← order.countP_eq] at counted
  obtain ⟨classesDone, same, pending⟩ :=
    Carries.defineReadyClasses weighable readying covered counted
    { blocksDone with }
  refine ⟨_, _, { classesDone with
    inside := fun record member => order.mem_iff.mp member
    distinct := (order.map _).nodup_iff.mpr (complete.distinct_functions distinct)
    sorted := pairwise_definitionOrder _
    outer := fun record member parent isParent => ?_
    areNew := fun record member isDefined => ?_
    areOpen := by simp
    covered
    built := fun record member => .inl (order.mem_iff.mpr member)
    owed := ?_
    counted := fun prototype => same ▸ (counted prototype).1
    pending }⟩
  · obtain ⟨outer, isOuter, facts⟩ :=
      complete.exists_outer distinct (order.mem_iff.mp member) isParent
    exact ⟨outer, order.mem_iff.mpr isOuter, facts⟩
  · obtain ⟨inst, isPlain, same⟩ := mem_map.mp (mem_reverse.mp isDefined)
    have isPlain := (mem_filter.mp (plain.mem_iff.mp isPlain)).2
    simp only [Written.isPlain, all_eq_true, decide_eq_true_eq] at isPlain
    exact isPlain record (order.mem_iff.mp member) same.symm
  · have isRoot := (order.filterMap _).trans (complete.perm_roots distinct)
    rw [(isRoot.map _).sum_eq, add_assoc, ← sum_append, ← map_append]
    exact congrArg _ ((filter_append_perm written.isPlain _).map _).sum_eq

namespace Building

variable {total : M} {records later : List RootRecord}

theorem defineRoots (weighable : written.Weighable weighing)
    (runs : Runs (records.forM (Assembly.defineRoot written)) before result after)
    (building : ∃ defined taken due,
      Building weighing written total defined taken due (records ++ later) before) :
    ∃ defined taken due, Building weighing written total defined taken due later after := by
  refine Runs.forM_remaining (fun remaining assembly => ∃ defined taken due,
    Building weighing written total defined taken due (remaining ++ later) assembly)
    (fun _ _ _ _ runs holds => ?_) runs building
  obtain ⟨_, _, _, building⟩ := holds
  exact building.defineRoot weighable runs

/-- When some roots are built, the other ones are left. -/
theorem defineUpTo (weighable : written.Weighable weighing)
    (distinct : written.context.graph.DistinctRoots)
    (isSplit : definitionOrder written.roots = records ++ later)
    (runs : Runs (Assembly.defineUpTo written records) before result after)
    (carries : Carries weighing written [] [] due 0 before) :
    ∃ defined taken due', Building weighing written
      (due + (written.session.instances.values.map weighing.definition).sum) defined taken due'
      later after := by
  obtain ⟨groups, awaited, blocks, ready, areGroups, defining, areAwaited, readying, rooting⟩ :=
    runs_defineUpTo.mp runs
  obtain ⟨defined, due', start⟩ :=
    Building.start weighable distinct areGroups defining areAwaited readying carries
  exact defineRoots weighable rooting ⟨defined, [], due', isSplit ▸ start⟩

omit [IsOrderedAddMonoid M] in
theorem finished (building : Building weighing written total defined taken due [] after) :
    Covers written defined taken ∧ Carries weighing written defined taken total 0 after := by
  refine ⟨⟨fun id inst isInstance => ?_, fun record member => ?_⟩, ?_⟩
  · exact (building.covered id inst isInstance).resolve_right (by simp)
  · exact (building.built record member).resolve_left (by simp)
  · rw [← building.owed]
    simpa using building.toCarries

omit [IsOrderedAddMonoid M] in
theorem anew (building : Building weighing written total defined taken due records after) :
    Building weighing written (weighing.assembly written after +
        ((records.filterMap fun record =>
          written.session.instances.get? record.function).map weighing.definition).sum)
      defined taken (weighing.assembly written after) records after :=
  { building with
    weight := (add_zero _).ge
    owed := rfl }

end Building

theorem Carries.defineAll (weighable : written.Weighable weighing)
    (distinct : written.context.graph.DistinctRoots)
    (runs : Runs (defineAll written) before result after)
    (carries : Carries weighing written [] [] due 0 before) :
    ∃ defined taken, Covers written defined taken ∧ after.classes.keys = [] ∧
      Carries weighing written defined taken
        (due + (written.session.instances.values.map weighing.definition).sum) 0 after := by
  obtain ⟨defining, noClasses⟩ := defineAll_cases runs
  obtain ⟨defined, taken, _, building⟩ :=
    Building.defineUpTo weighable distinct (append_nil _).symm defining carries
  exact ⟨defined, taken, building.finished.1, noClasses, building.finished.2⟩

/-! ## The end -/

/-- When all functions are defined only the global body holds statements, and only to it more can be
added. -/
theorem Orderly.inner_empty (complete : written.Complete)
    (orderly : Orderly written defined taken before) (covers : Covers written defined taken)
    {body : BodyId} (present : written.session.bodies.Has body) (isInner : body ≠ Bodies.global) :
    before.bodies.stmts body = [] ∧ ¬written.Accepts taken body := by
  obtain ⟨inner, isBody⟩ := Arena.exists_get? present
  have notGlobal := (complete.idle.valid.tree.inner body inner isBody isInner).1
  have isKind : written.session.bodies.kind body = inner.kind := by simp [Bodies.kind, isBody]
  cases kind : inner.kind with
  | global => exact absurd kind notGlobal
  | root function =>
    obtain ⟨record, member, rfl⟩ := complete.rootBodies body function (isKind.trans kind)
    have isTaken := covers.roots record member
    exact ⟨orderly.takenEmpty _ isTaken, fun accepts => accepts.2.2 isTaken⟩
  | lazyInitializer object =>
    refine ⟨orderly.lazyEmpty body object (isKind.trans kind), fun accepts => ?_⟩
    simpa [isKind, kind, BodyKind.declaresValues] using accepts.2.1
  | delayedInit function =>
    have isDelayed := (complete.kept.housed.delayedBodies body function).mp (isKind.trans kind)
    obtain ⟨inst, isInstance⟩ := complete.exists_instance_of_delayed isDelayed
    refine ⟨orderly.delayedEmpty function (covers.functions _ inst isInstance) body isDelayed,
      fun accepts => ?_⟩
    simpa [isKind, kind, BodyKind.declaresValues] using accepts.2.1

/-- The waiting statements are put into the global body, and nothing else is left. -/
theorem Carries.applyAll (weighable : written.Weighable weighing) {bodies : Bodies}
    (covers : Covers written defined taken) (noClasses : before.classes.keys = [])
    (isApplied : before.splices.applyEach before.splices.bodiesWaiting before.bodies =
      (bodies, none))
    (finished : Carries weighing written defined taken due 0 before) :
    due ≤ weighing.loose (written.session.captured.bootstrap none ++ before.globalPrelude) +
      weighing.closed (bodies.stmts Bodies.global) := by
  have complete := weighable.complete
  have empty : ∀ body, written.session.bodies.Has body → body ≠ Bodies.global →
      before.bodies.stmts body = [] ∧ ¬written.Accepts taken body :=
    fun _ => finished.toOrderly.inner_empty complete covers
  have targets : ∀ body ∈ before.splices.bodiesWaiting, written.Accepts taken body := by
    intro body member
    have isWaiting : body ∈ before.splices.waiting.map (·.1) :=
      mem_eraseDups.mp (mem_sortBy.mp member)
    obtain ⟨entry, isEntry, rfl⟩ := mem_map.mp isWaiting
    exact finished.waiting entry isEntry
  have sameHas : ∀ body, before.bodies.Has body ↔ written.session.bodies.Has body := by
    intro body
    rw [Bodies.Has, Bodies.Has, finished.size]
  obtain ⟨all, size, unchanged⟩ := Splices.applyEach_weight weighing isApplied
    fun body member => (sameHas body).mpr (targets body member).1
  have onlyGlobal : bodies.total weighing.closed =
    weighing.closed (bodies.stmts Bodies.global) := by
    refine Finset.sum_eq_single_of_mem 0 ?_ fun index inside isInner => ?_
    · rw [Finset.mem_range, size, finished.size]
      exact complete.idle.valid.tree.has_global
    · have isInner : (⟨index⟩ : BodyId) ≠ Bodies.global := fun same =>
        isInner (congrArg Handle.index same)
      rw [Finset.mem_range, size, finished.size] at inside
      obtain ⟨isEmpty, notAccepted⟩ := empty ⟨index⟩ inside isInner
      rw [unchanged _ fun member => notAccepted (targets _ member), isEmpty, weighing.closed_nil]
  have noPreludes : before.rootPreludes.keys = [] := by
    refine eq_nil_iff_forall_not_mem.mpr fun root isKey => ?_
    obtain ⟨record, member, -, notTaken⟩ := finished.preludes root isKey
    exact notTaken (covers.roots record member)
  have weight := finished.weight
  have bootstrapWeight : 0 ≤ weighing.loose (written.session.captured.bootstrap none) :=
    weighable.loose_nonneg fun _ => complete.given_bootstrap
  rw [Weighing.assembly, KeyedTable.eq_empty_of_keys noPreludes,
    KeyedTable.eq_empty_of_keys noClasses, KeyedTable.total_empty, KeyedTable.total_empty,
    weighing.waiting_eq_sum, add_zero, add_zero, add_zero] at weight
  calc due
    _ ≤ bodies.total weighing.closed + weighing.loose before.globalPrelude :=
      weight.trans (add_le_add_left all _)
    _ = 0 + weighing.loose before.globalPrelude + weighing.closed (bodies.stmts Bodies.global) := by
      rw [onlyGlobal, zero_add, add_comm]
    _ ≤ _ := by
      rw [weighing.loose_append]
      gcongr

theorem Carries.assemble (weighable : written.Weighable weighing)
    (distinct : written.context.graph.DistinctRoots) {prelude : List Stmt}
    (runs : Runs (assemble written) before prelude after)
    (carries : Carries weighing written [] [] due 0 before) :
    due + (written.session.instances.values.map weighing.definition).sum ≤
        weighing.loose prelude + weighing.closed (after.bodies.stmts Bodies.global) ∧
      written.ClassesHaveConstructors := by
  obtain ⟨middle, bodies, defining, isApplied, rfl, rfl⟩ := assemble_cases runs
  obtain ⟨defined, taken, covers, noClasses, finished⟩ :=
    carries.defineAll weighable distinct defining
  refine ⟨finished.applyAll weighable covers noClasses isApplied, fun id inst method isMember => ?_⟩
  have noClass : middle.classes.get? method.classPrototype = none := by
    rw [KeyedTable.eq_empty_of_keys noClasses]
    rfl
  have isDefined := covers.functions id inst isMember.isInstance
  rcases finished.members id isDefined inst method isMember with isClass | ⟨⟨other, -, facts⟩, -⟩
  · simp [noClass] at isClass
  · exact ⟨other, facts⟩

end Assembly

/-! ## Lazy objects -/

def Bodies.clearing (bodies : Bodies) (cleared : List BodyId) : Bodies :=
  cleared.foldl (fun bodies body => bodies.setStmts body []) bodies

namespace Bodies

variable {bodies : Bodies} {cleared : List BodyId}

theorem size_clearing : (bodies.clearing cleared).arena.size = bodies.arena.size := by
  induction cleared generalizing bodies with
  | nil => rfl
  | cons body cleared induction => exact induction.trans (size_setStmts ..)

theorem stmts_clearing (other : BodyId) : (bodies.clearing cleared).stmts other =
    if other ∈ cleared then [] else bodies.stmts other := by
  induction cleared generalizing bodies with
  | nil => simp [clearing]
  | cons body cleared induction =>
    change ((bodies.setStmts body []).clearing cleared).stmts other = _
    rw [induction, stmts_setStmts_nil]
    by_cases same : body = other
    · simp [same]
    · simp [same, Ne.symm same]

omit [PartialOrder M] in
theorem total_clearing {weight : List Stmt → M} (weightless : weight [] = 0)
    (distinct : cleared.Nodup) : bodies.total weight = (bodies.clearing cleared).total weight +
      (cleared.map fun body => weight (bodies.stmts body)).sum := by
  induction cleared generalizing bodies with
  | nil => simp [clearing]
  | cons body cleared induction =>
    obtain ⟨isNew, distinct⟩ := nodup_cons.mp distinct
    have same : cleared.map (fun other => weight ((bodies.setStmts body []).stmts other)) =
        cleared.map fun other => weight (bodies.stmts other) := by
      refine map_congr_left fun other member => ?_
      have different : body ≠ other := fun same => isNew (same ▸ member)
      rw [stmts_setStmts_nil, if_neg different]
    change _ = ((bodies.setStmts body []).clearing cleared).total weight + _
    rw [bodies.total_take weightless body, induction distinct, same, map_cons, sum_cons]
    abel

end Bodies

namespace Session

variable {context : Context} {session : Session} {body : BodyId}

def lazyBodies (session : Session) : List BodyId := session.lazyObjects.values.filterMap (·.body)

theorem withoutLazyBodies_eq (session : Session) :
    withoutLazyBodies session = session.bodies.clearing session.lazyBodies :=
  rfl

theorem mem_lazyBodies :
    body ∈ session.lazyBodies ↔
      ∃ entry ∈ session.lazyObjects.entries, entry.2.body = some body := by
  simp [lazyBodies, KeyedTable.values]

theorem lazyBodies_eq :
    session.lazyBodies = session.lazyObjects.entries.filterMap fun entry => entry.2.body := by
  rw [lazyBodies, KeyedTable.values, filterMap_map]
  rfl

theorem Housed.kind_of_lazyBody (housed : Housed context session) {entry : ValueId × LazyObject}
    (member : entry ∈ session.lazyObjects.entries) (isBody : entry.2.body = some body) :
    session.bodies.kind body = .lazyInitializer entry.1 := by
  have found := KeyedTable.get?_eq_some_of_mem housed.distinctLazy member
  exact (housed.lazyObjects body entry.1).mpr (by simp [lazyBody?, found, isBody])

theorem Housed.distinct_lazyBodies (housed : Housed context session) :
    session.lazyBodies.Nodup := by
  rw [lazyBodies_eq, List.Nodup, pairwise_filterMap]
  refine (pairwise_map.mp housed.distinctLazy).imp_of_mem
    fun {entry other} member isOther different body isBody otherBody itsBody same => different ?_
  subst same
  have kinds := (housed.kind_of_lazyBody member isBody).symm.trans
    (housed.kind_of_lazyBody isOther itsBody)
  exact BodyKind.lazyInitializer.inj kinds

end Session

theorem lazyCase_eq_ok {bodies : Bodies} {entry : ValueId × LazyObject} {item : SwitchCase} :
    lazyCase bodies entry = .ok item ↔ ∃ body, entry.2.body = some body ∧
      item = { test := .nat entry.2.number, body := bodies.stmts body ++ [.breakLoop] } := by
  rw [lazyCase]
  split <;> simp_all [eq_comm]

theorem lazyPrelude_cases {session : Session} {settings : Option LazySettings} {stmts : List Stmt}
    (isPrelude : lazyPrelude session settings = .ok stmts) :
    stmts = [] ∧ (settings = none ∨ session.lazyObjects.entries = []) ∨
      ∃ lazySettings cases_, settings = some lazySettings ∧ session.lazyObjects.entries ≠ [] ∧
        Forall₂ (fun entry item => lazyCase session.bodies entry = .ok item)
          session.lazyObjects.entries cases_ ∧ stmts = lazyRegistration lazySettings cases_ := by
  unfold lazyPrelude at isPrelude
  split at isPrelude
  case h_1 => exact .inl ⟨(pure_eq_ok.mp isPrelude).symm, .inl rfl⟩
  case h_2 noObjects => exact .inl ⟨(pure_eq_ok.mp isPrelude).symm, .inr noObjects⟩
  case h_3 lazySettings filled =>
    obtain ⟨cases_, areCases, made⟩ := bind_eq_ok.mp isPrelude
    exact .inr ⟨lazySettings, cases_, rfl, filled, mapM_eq_ok.mp areCases,
      (pure_eq_ok.mp made).symm⟩

variable [IsOrderedAddMonoid M]

theorem Written.Weighable.le_blocks_lazyCases (weighable : written.Weighable weighing)
    {bodies : Bodies} {entries : List (ValueId × LazyObject)} {cases_ : List SwitchCase}
    (areCases : Forall₂ (fun entry item => lazyCase bodies entry = .ok item) entries cases_) :
    ((entries.filterMap fun entry => entry.2.body).map fun body =>
        weighing.closed (bodies.stmts body)).sum ≤ weighing.blocks (blocksOfCases cases_) := by
  induction areCases with
  | nil => exact le_refl _
  | @cons entry item entries cases_ isCase _ induction =>
    obtain ⟨body, isBody, rfl⟩ := lazyCase_eq_ok.mp isCase
    have own := weighing.closed_append_right (bodies.stmts body) [.breakLoop]
    have breakWeight : 0 ≤ weighing.loose [.breakLoop] :=
      weighable.loose_nonneg (by simp [blocksOf, blocksWithin, Stmt.declares, Stmt.blocks])
    simp only [filterMap_cons, isBody, map_cons, sum_cons, blocksOfCases, Expr.nat, Expr.blocks,
      nil_append, weighing.blocks_append]
    exact add_le_add ((le_add_of_nonneg_right breakWeight).trans own) induction

theorem Written.Weighable.le_blocks_lazyInitializer (weighable : written.Weighable weighing)
    (cases_ : List SwitchCase) :
    weighing.blocks (blocksOfCases cases_) ≤ weighing.blocks (lazyInitializer cases_).blocks := by
  let message : Stmt := .throwMessage "Unknown lazy id"
  have alone : ∀ stmt : Stmt, stmt.declares = [] → 0 ≤ weighing.block [stmt] := by
    intro stmt none
    refine (weighable.quiet stmt (by simp [none])).trans ?_
    simpa using weighing.sum_stmt_le_block [stmt]
  have switchWeight := alone (.switch (.var "id") cases_ (some [message])) rfl
  have messageWeight := alone message rfl
  have whole : weighing.blocks (lazyInitializer cases_).blocks =
      weighing.block [.switch (.var "id") cases_ (some [message])] +
        (weighing.blocks (blocksOfCases cases_) + weighing.block [message]) := by
    simp [lazyInitializer, FunctionDef.blocks, blocksOfParams, blocksWithin, Stmt.blocks,
      Expr.blocks, message, Stmt.throwMessage, Expr.string, blocksOfExprs]
  rw [whole]
  exact (le_add_of_nonneg_right messageWeight).trans (le_add_of_nonneg_left switchWeight)

theorem Written.Weighable.le_lazyPrelude (weighable : written.Weighable weighing)
    {stmts : List Stmt}
    (isPrelude :
      lazyPrelude written.session written.context.settings.lazyObjects = .ok stmts) :
    (written.session.lazyBodies.map fun body =>
        weighing.closed (written.session.bodies.stmts body)).sum ≤ weighing.loose stmts := by
  rw [Session.lazyBodies_eq]
  rcases lazyPrelude_cases isPrelude with ⟨rfl, none⟩ | ⟨settings, cases_, -, -, areCases, rfl⟩
  · have noObjects : written.session.lazyObjects.entries = [] := by
      rcases none with noSettings | noObjects
      · have allowed := weighable.complete.kept.housed.allowed
        simp only [noSettings, Option.isSome_none, Bool.false_eq_true, or_false] at allowed
        rw [allowed]
      · exact noObjects
    rw [noObjects, weighing.loose_nil]
    exact le_refl _
  · have stmtWeight : 0 ≤ ((lazyRegistration settings cases_).map weighing.stmt).sum := by
      refine sum_nonneg fun weight member => ?_
      obtain ⟨stmt, isStmt, rfl⟩ := mem_map.mp member
      refine weighable.quiet stmt fun name declared => ?_
      rcases mem_pair.mp isStmt with rfl | rfl
      · obtain rfl : name = "__lazyObjectInitializer" := by
          simpa [Stmt.var, Stmt.declares] using declared
        exact .inr .initializer
      · simp [Stmt.declares] at declared
    have blocks : weighing.blocks (blocksWithin (lazyRegistration settings cases_)) =
        weighing.blocks (lazyInitializer cases_).blocks := by
      simp [lazyRegistration, blocksWithin, Stmt.var, Stmt.blocks, Expr.blocks, Expr.methodCall,
        blocksOfExprs, (Expr.isChain_path settings.runtime).blocks]
    rw [Weighing.loose, blocks]
    exact (weighable.le_blocks_lazyCases areCases).trans
      ((weighable.le_blocks_lazyInitializer _).trans (le_add_of_nonneg_left stmtWeight))

/-! ## Scripts -/

def Written.ComesTo (written : Written) (records : List RootRecord) (assembly : Assembly) : Prop :=
  Runs (Assembly.defineUpTo written records) { bodies := withoutLazyBodies written.session } ⟨⟩
    assembly

theorem Written.ComesTo.unique {records : List RootRecord} (first : written.ComesTo records before)
    (second : written.ComesTo records after) : before = after :=
  congrArg Prod.snd (Except.ok.inj (first.symm.trans second))

theorem materialize_cases {graph : HeapGraph} {settings : Settings} {script : Script}
    (isScript : materialize graph settings = .ok script) :
    ∃ context written lazyStmts last bodies, Context.prepare graph settings = .ok context ∧
      writeHeap context = .ok written ∧
      lazyPrelude written.session settings.lazyObjects = .ok lazyStmts ∧
      written.ComesTo (Assembly.definitionOrder written.roots) last ∧ last.classes.keys = [] ∧
      last.splices.applyEach last.splices.bodiesWaiting last.bodies = (bodies, none) ∧
      script.prelude =
        written.session.captured.bootstrap none ++ last.globalPrelude ++ lazyStmts ∧
      script.body = bodies.stmts Bodies.global := by
  simp only [materialize, bind_eq_ok, pure_eq_ok] at isScript
  obtain ⟨context, prepared, written, isWritten, lazyStmts, isLazy, ⟨prelude, assembly⟩, assembling,
    _, _, rfl⟩ := isScript
  obtain ⟨last, bodies, defining, isApplied, rfl, rfl⟩ :=
    Assembly.assemble_cases (show Runs _ _ prelude assembly from assembling)
  obtain ⟨comesTo, noClasses⟩ := Assembly.defineAll_cases defining
  exact ⟨context, written, lazyStmts, last, bodies, prepared, isWritten, isLazy, comesTo, noClasses,
    isApplied, rfl, rfl⟩

omit [IsOrderedAddMonoid M] in
theorem Assembly.Carries.initial (weighable : written.Weighable weighing) :
    Assembly.Carries weighing written [] []
      ((withoutLazyBodies written.session).total weighing.closed) 0
      { bodies := withoutLazyBodies written.session } := by
  have housed := weighable.complete.kept.housed
  have isCleared := written.session.withoutLazyBodies_eq
  constructor
  case toOrderly =>
    constructor
    case size => exact isCleared ▸ Bodies.size_clearing
    case lazyEmpty =>
      intro body object isLazy
      have isListed := (housed.lazyObjects body object).mp isLazy
      obtain ⟨lazyObject, found, isBody⟩ := Option.bind_eq_some_iff.mp isListed
      have member : body ∈ written.session.lazyBodies :=
        Session.mem_lazyBodies.mpr ⟨_, KeyedTable.mem_entries_of_get? found, isBody⟩
      rw [isCleared, Bodies.stmts_clearing, if_pos member]
    all_goals simp [KeyedTable.keys]
  case weight => simp [Weighing.assembly, Weighing.waiting]

theorem materialize_weight {graph : HeapGraph} {settings : Settings} {context : Context}
    {script : Script} (prepared : Context.prepare graph settings = .ok context)
    (isWritten : writeHeap context = .ok written)
    (isScript : materialize graph settings = .ok script) (weighable : written.Weighable weighing)
    (distinct : graph.DistinctRoots) :
    written.session.bodies.total weighing.closed +
        (written.session.instances.values.map weighing.definition).sum ≤
      weighing.closed script.stmts ∧ written.ClassesHaveConstructors := by
  obtain ⟨isGraph, isSettings, -, -⟩ := Context.prepare_eq_ok prepared
  obtain ⟨isContext, complete⟩ := writeHeap_eq_ok isWritten
  simp only [materialize, prepared, isWritten, bind_eq_ok, pure_eq_ok, Except.ok.injEq,
    exists_eq_left'] at isScript
  obtain ⟨lazyStmts, isLazy, ⟨prelude, assembly⟩, assembling, _, _, rfl⟩ := isScript
  have sameGraph : written.context.graph = graph := isContext ▸ isGraph
  obtain ⟨assembled, constructors⟩ := (Assembly.Carries.initial weighable).assemble weighable
    (sameGraph ▸ distinct) (show Runs _ _ _ _ from assembling)
  refine ⟨?_, constructors⟩
  have sameSettings : written.context.settings = settings := isContext ▸ isSettings
  have lazyWeight := weighable.le_lazyPrelude (sameSettings ▸ isLazy)
  have parts : written.session.bodies.total weighing.closed =
      (withoutLazyBodies written.session).total weighing.closed +
        (written.session.lazyBodies.map fun body =>
          weighing.closed (written.session.bodies.stmts body)).sum := by
    rw [written.session.withoutLazyBodies_eq]
    exact Bodies.total_clearing weighing.closed_nil complete.kept.housed.distinct_lazyBodies
  have joined := weighing.closed_append_left (prelude ++ lazyStmts)
    (assembly.bodies.stmts Bodies.global)
  rw [weighing.loose_append] at joined
  refine le_trans ?_ joined
  calc written.session.bodies.total weighing.closed +
        (written.session.instances.values.map weighing.definition).sum
    _ = (withoutLazyBodies written.session).total weighing.closed +
          (written.session.instances.values.map weighing.definition).sum +
        (written.session.lazyBodies.map fun body =>
          weighing.closed (written.session.bodies.stmts body)).sum := by
      rw [parts]
      abel
    _ ≤ weighing.loose prelude + weighing.closed (assembly.bodies.stmts Bodies.global) +
        weighing.loose lazyStmts :=
      add_le_add assembled lazyWeight
    _ = _ := by abel

end HeapScript
