import HeapScript.Proofs.Assembly.Factories

/-!
The definitions of instances that have been collected: copies, members of classes and the functions
of optimized roots.
-/

namespace HeapScript

open List Runs

namespace Assembly

variable {stmts : List Stmt} {prototype : ValueId} {record : RootRecord} {point : Position}
  {order : Nat}

variable {written : Written} {code : CodeBlock} {inst : FunctionInstance}
  {before after : Assembly} {result : Unit}

/-! ## Collected definitions -/

/-- A statement that defines a function as a variable or as a member of a class. -/
inductive DefinedBy (definition : FunctionDef) : Stmt → Prop where
  | declared (name : String) : DefinedBy definition (.var name (.function definition))
  | classMember {name : String} {classDef : ClassDef} {member : ClassMember}
      (isMember : member ∈ classDef.members)
      (isFunction : member.function = { definition with name := none }) :
      DefinedBy definition (.var name (.classExpr classDef))

inductive Collects (assembly : Assembly) (definition : FunctionDef) : Prop where
  | waiting {body : BodyId} {group : SpliceGroup} {stmt : Stmt}
      (isWaiting : (body, group) ∈ assembly.splices.waiting) (isStmt : stmt ∈ group.stmts)
      (defines : DefinedBy definition stmt)
  | prelude {root : Option ValueId} {stmt : Stmt} (isStmt : stmt ∈ assembly.preludeAt root)
      (defines : DefinedBy definition stmt)
  | member {prototype : ValueId} {node : ClassNode} {classMember : ClassMember}
      (isClass : assembly.classes.get? prototype = some node)
      (isMember : classMember ∈ node.members)
      (isFunction : classMember.function = { definition with name := none })

/-- What has been collected stays, possibly as a part of a class that is defined. -/
def Keeps (before after : Assembly) : Prop :=
  ∀ definition, Collects before definition → Collects after definition

theorem Keeps.trans {middle : Assembly} (first : Keeps before middle)
    (second : Keeps middle after) : Keeps before after :=
  fun definition collects => second definition (first definition collects)

/-- A change that only adds groups, statements at the start of bodies and members of classes. -/
theorem keeps_of_subset (waiting : before.splices.waiting ⊆ after.splices.waiting)
    (preludes : ∀ root, before.preludeAt root ⊆ after.preludeAt root)
    (classes : ∀ prototype node, before.classes.get? prototype = some node →
      ∃ node', after.classes.get? prototype = some node' ∧ node.members ⊆ node'.members) :
    Keeps before after := by
  rintro definition (⟨isWaiting, isStmt, defines⟩ | ⟨isStmt, defines⟩ |
    ⟨isClass, isMember, isFunction⟩)
  · exact .waiting (waiting isWaiting) isStmt defines
  · exact .prelude (preludes _ isStmt) defines
  · obtain ⟨node', isClass', members⟩ := classes _ _ isClass
    exact .member isClass' (members isMember) isFunction

theorem preludeAt_eq (globalPrelude : after.globalPrelude = before.globalPrelude)
    (rootPreludes : after.rootPreludes = before.rootPreludes) (root : Option ValueId) :
    after.preludeAt root = before.preludeAt root := by
  cases root <;> simp [preludeAt, globalPrelude, rootPreludes]

theorem keeps_of_same (splices : after.splices = before.splices)
    (globalPrelude : after.globalPrelude = before.globalPrelude)
    (rootPreludes : after.rootPreludes = before.rootPreludes)
    (classes : after.classes = before.classes) : Keeps before after := by
  refine keeps_of_subset (by rw [splices]; exact List.Subset.refl _) (fun root => ?_) ?_
  · rw [preludeAt_eq globalPrelude rootPreludes]
    exact List.Subset.refl _
  · intro prototype node isClass
    exact ⟨node, classes ▸ isClass, List.Subset.refl _⟩

/-! ## Runs of the primitives -/

theorem classes_delayedInit (runs : Runs (delayedInit inst) before stmts after) :
    after.classes = before.classes := by
  unfold delayedInit at runs
  split at runs
  · obtain ⟨_, rfl⟩ := pure_iff.mp runs
    rfl
  · simp only [takeBody, Runs.bind_iff, get_iff, modify_iff, pure_iff] at runs
    obtain ⟨_, _, ⟨_, _, ⟨rfl, rfl⟩, _, _, rfl, _, rfl⟩, _, rfl⟩ := runs
    rfl

theorem keeps_delayedInit (runs : Runs (delayedInit inst) before stmts after) :
    Keeps before after := by
  have same := sameDefinitions_delayedInit runs
  exact keeps_of_same same.splices same.globalPrelude same.rootPreludes (classes_delayedInit runs)

theorem waiting_add (splices : Splices) (point : Position) (order : Nat) (some_ : stmts ≠ []) :
    (splices.add point order stmts).waiting =
      splices.waiting ++ [(point.body, { index := point.index, order, stmts })] := by
  simp [Splices.add, some_]

theorem keeps_splice (runs : Runs (splice point order stmts) before result after) :
    Keeps before after := by
  obtain rfl := runs_splice.mp runs
  refine keeps_of_subset ?_ (fun root => ?_) fun prototype node isClass =>
    ⟨node, isClass, List.Subset.refl _⟩
  · simp only [Splices.add]
    split
    · exact List.Subset.refl _
    · exact subset_append_left _ _
  · cases root <;> exact List.Subset.refl _

theorem collects_splice {stmt : Stmt} {definition : FunctionDef}
    (runs : Runs (splice point order (stmt :: stmts)) before result after)
    (defines : DefinedBy definition stmt) : Collects after definition := by
  obtain rfl := runs_splice.mp runs
  have isWaiting := waiting_add before.splices point order (cons_ne_nil stmt stmts)
  exact .waiting (isWaiting ▸ mem_append_right _ mem_cons_self) mem_cons_self defines

theorem runs_spliceLate (runs : Runs (spliceLate point order stmts) before result after) :
    point.body ∉ before.takenBodies ∧ Runs (splice point order stmts) before result after := by
  simp only [spliceLate, Runs.bind_iff, get_iff] at runs
  obtain ⟨_, _, ⟨rfl, rfl⟩, runs⟩ := runs
  split at runs
  · obtain ⟨_, _, thrown, _⟩ := Runs.bind_iff.mp runs
    exact absurd thrown throw_ne_ok
  · rename_i notTaken
    exact ⟨notTaken, by simpa using runs⟩

theorem members_add (node : ClassNode) (method : MethodInstance) (className : Option String)
    (definition : FunctionDef) : node.members ⊆ (node.add method className definition).members ∧
      ∃ member ∈ (node.add method className definition).members,
        member.function = { definition with name := none } := by
  unfold ClassNode.add
  simp only
  split
  · exact ⟨subset_cons_self _ _, _, mem_cons_self, rfl⟩
  · exact ⟨subset_append_left _ _, _, mem_append_right _ mem_cons_self, rfl⟩

theorem addClassMember_collects {method : MethodInstance} {definition : FunctionDef}
    (runs : Runs (addClassMember method code definition) before result after) :
    Keeps before after ∧ Collects after definition := by
  simp only [addClassMember, modify_iff] at runs
  subst runs
  refine ⟨keeps_of_subset (List.Subset.refl _) (fun root => ?_)
    fun prototype node isClass => ?_, ?_⟩
  · cases root <;> exact List.Subset.refl _
  · by_cases same : method.classPrototype = prototype
    · subst same
      exact ⟨_, KeyedTable.get?_insert_self _ _ _, by
        simpa [isClass] using (members_add node method code.function.name definition).1⟩
    · exact ⟨node, by simpa [KeyedTable.get?_insert, same] using isClass, List.Subset.refl _⟩
  · obtain ⟨member, isMember, isFunction⟩ := (members_add
      ((before.classes.get? method.classPrototype).getD { constructor := method.constructor })
      method code.function.name definition).2
    exact .member (KeyedTable.get?_insert_self _ _ _) isMember isFunction

/-! ## Copies -/

structure IsCopy (written : Written) (code : CodeBlock) (inst : FunctionInstance)
    (prologue : List Stmt) (replacements : Replacements) (definition : FunctionDef) : Prop where
  isPrologue : written.scopePrologue inst (fun _ scope => written.selectorLiteral scope) =
    .ok prologue
  areReplacements : written.replacementsFor inst = .ok replacements
  isDefinition : ∃ init, definition = { code.function.replace replacements with
    body := init ++ prologue ++ (code.function.replace replacements).body }

def HasCopy (written : Written) (code : CodeBlock) (inst : FunctionInstance)
    (assembly : Assembly) : Prop :=
  ∃ prologue replacements definition,
    IsCopy written code inst prologue replacements definition ∧ Collects assembly definition

theorem hasCopy_defineClone (runs : Runs (defineClone written code inst) before result after) :
    Keeps before after ∧ HasCopy written code inst after := by
  simp only [defineClone, Runs.bind_iff, Runs.lift_iff] at runs
  obtain ⟨point, before, ⟨isPoint, rfl⟩, replacements, before, ⟨areReplacements, rfl⟩, prologue,
    before, ⟨isPrologue, rfl⟩, init, middle, delaying, placing⟩ := runs
  have keeps := keeps_delayedInit delaying
  generalize isDefinition : { code.function.replace replacements with
    body := init ++ prologue ++ (code.function.replace replacements).body } = definition at placing
  suffices placed : Keeps middle after ∧ Collects after definition from
    ⟨keeps.trans placed.1, prologue, replacements, definition,
      ⟨isPrologue, areReplacements, init, isDefinition.symm⟩, placed.2⟩
  split at placing
  · exact ⟨keeps_splice placing, collects_splice placing (.declared _)⟩
  · obtain ⟨_, added, adding, placing⟩ := Runs.bind_iff.mp placing
    obtain ⟨keeps', collects⟩ := addClassMember_collects adding
    have rest : Keeps added after := by
      split at placing
      · obtain ⟨_, rfl⟩ := pure_iff.mp placing
        exact fun _ => id
      · simp only [Runs.bind_iff, Runs.lift_iff] at placing
        obtain ⟨_, _, ⟨_, rfl⟩, placing⟩ := placing
        exact keeps_splice placing
    exact ⟨keeps'.trans rest, rest definition collects⟩

theorem hasCopy_defineClones {instances : List FunctionInstance}
    (runs : Runs (instances.forM (defineClone written code)) before result after) :
    ∀ inst ∈ instances, HasCopy written code inst after := by
  have does : ∀ inst ∈ instances, ∀ before after,
      Runs (defineClone written code inst) before ⟨⟩ after → True →
      True ∧ HasCopy written code inst after ∧
        ∀ other, HasCopy written code other before → HasCopy written code other after := by
    intro inst _ before after runs _
    obtain ⟨keeps, hasCopy⟩ := hasCopy_defineClone runs
    refine ⟨trivial, hasCopy, fun other known => ?_⟩
    obtain ⟨prologue, replacements, definition, isCopy, collects⟩ := known
    exact ⟨prologue, replacements, definition, isCopy, keeps definition collects⟩
  exact (Runs.forM_each does runs trivial).2

/-! ## Optimized roots -/

def classGroup (node : ClassNode) (constructor : FunctionInstance) : List Stmt :=
  .var constructor.name (.classExpr node.definition) :: constructor.extras

theorem defineClass_cases (runs : Runs (defineClass written prototype) before result after) :
    before.classes.get? prototype = none ∧ after = before ∨
      ∃ node constructor point, before.classes.get? prototype = some node ∧
        node.hasConstructor = true ∧ written.instanceOf node.constructor = .ok constructor ∧
        constructor.insertionPoint = some point ∧ point.body ∉ before.takenBodies ∧
        after = { before with
          classes := before.classes.erase prototype
          splices := before.splices.add point constructor.serial
            (classGroup node constructor) } := by
  simp only [defineClass, Runs.bind_iff, get_iff] at runs
  obtain ⟨_, _, ⟨rfl, rfl⟩, runs⟩ := runs
  split at runs
  · rename_i missing
    obtain ⟨_, rfl⟩ := pure_iff.mp runs
    exact .inl ⟨missing, rfl⟩
  · rename_i node isClass
    simp only [Runs.bind_iff, modify_iff] at runs
    obtain ⟨_, _, rfl, runs⟩ := runs
    split at runs
    · rename_i hasConstructor
      simp only [Runs.bind_iff, Runs.lift_iff] at runs
      obtain ⟨constructor, _, ⟨isConstructor, rfl⟩, point, _, ⟨isPoint, rfl⟩, runs⟩ := runs
      obtain ⟨notTaken, runs⟩ := runs_spliceLate runs
      exact .inr ⟨node, constructor, point, isClass, hasConstructor, isConstructor,
        definitionPoint_eq_ok isPoint, notTaken, runs_splice.mp runs⟩
    · obtain ⟨_, _, thrown, _⟩ := Runs.bind_iff.mp runs
      exact absurd thrown throw_ne_ok

theorem keeps_defineClass (runs : Runs (defineClass written prototype) before result after) :
    Keeps before after := by
  rcases defineClass_cases runs with
    ⟨_, rfl⟩ | ⟨node, constructor, point, isClass, _, _, _, _, isAfter⟩
  · exact fun _ => id
  have isWaiting : after.splices.waiting = before.splices.waiting ++ [(point.body,
      { index := point.index, order := constructor.serial,
        stmts := classGroup node constructor })] := by
    rw [isAfter]
    exact waiting_add _ _ _ (cons_ne_nil _ _)
  have samePrelude : ∀ root, after.preludeAt root = before.preludeAt root :=
    preludeAt_eq (by rw [isAfter]) (by rw [isAfter])
  rintro definition (⟨isOld, isStmt, defines⟩ | ⟨isStmt, defines⟩ | ⟨isOther, isMember, isFunction⟩)
  · exact .waiting (isWaiting ▸ mem_append_left _ isOld) isStmt defines
  · exact .prelude (samePrelude _ ▸ isStmt) defines
  · rename_i other members _
    by_cases same : prototype = other
    · obtain rfl := Option.some.inj (isClass.symm.trans (same ▸ isOther))
      exact .waiting (isWaiting ▸ mem_append_right _ mem_cons_self) mem_cons_self
        (.classMember isMember isFunction)
    · have stays : after.classes.get? other = some members := by
        simpa [isAfter, KeyedTable.get?_erase, same] using isOther
      exact .member stays isMember isFunction

theorem releaseClass_cases (runs : Runs (releaseClass written prototype) before result after) :
    ∃ remaining counted, remaining = (before.awaitedMembers.get? prototype).getD 0 - 1 ∧
      counted = { before with
        awaitedMembers := before.awaitedMembers.insert prototype remaining } ∧
      (remaining = 0 ∧ Runs (defineClass written prototype) counted ⟨⟩ after ∨
        remaining ≠ 0 ∧ after = counted) := by
  simp only [releaseClass, Runs.get_bind, Runs.modify_bind] at runs
  refine ⟨_, _, rfl, rfl, ?_⟩
  split at runs
  · rename_i isLast
    exact .inl ⟨isLast, runs⟩
  · rename_i notLast
    exact .inr ⟨notLast, (pure_iff.mp runs).2⟩

theorem keeps_releaseClass (runs : Runs (releaseClass written prototype) before result after) :
    Keeps before after := by
  obtain ⟨_, counted, -, rfl, rest⟩ := releaseClass_cases runs
  have keeps : ∀ awaitedMembers, Keeps before { before with awaitedMembers } :=
    fun _ => keeps_of_same rfl rfl rfl rfl
  rcases rest with ⟨-, runs⟩ | ⟨-, rfl⟩
  · exact (keeps _).trans (keeps_defineClass runs)
  · exact keeps _

/-- The function of an optimized root, with the targets of the assignments at its end. -/
structure IsRoot (written : Written) (code : CodeBlock) (inst : FunctionInstance)
    (record : RootRecord) (prologue : List Stmt) (targets : List Expr) (definition : FunctionDef) :
    Prop where
  isPrologue : written.scopePrologue inst (fun _ scope => written.selectorLiteral scope) =
    .ok prologue
  areTargets : List.Forall₂ (fun entry target => ∃ replacement,
    written.replacementFor inst entry.1 = .ok replacement ∧
    target = replacement.getD (.var entry.1)) record.modifiedBindings targets
  isDefinition : ∃ init prelude values, definition = { code.function with
    body := init ++ written.session.captured.bootstrap (some record.function) ++ prelude ++
      prologue ++ values ++ record.verbatim ++
      List.zipWith (fun entry target => Stmt.assign target entry.2)
        record.modifiedBindings targets ++
      record.result.toList.map fun value => .returnValue (some value) }

theorem writeBacks_eq_ok {assignments : List Stmt}
    (found : writeBacks written inst record = .ok assignments) : ∃ targets,
      List.Forall₂ (fun entry target => ∃ replacement,
        written.replacementFor inst entry.1 = .ok replacement ∧
        target = replacement.getD (.var entry.1)) record.modifiedBindings targets ∧
      assignments = List.zipWith (fun entry target => Stmt.assign target entry.2)
        record.modifiedBindings targets := by
  have pairs := mapM_eq_ok.mp found
  clear found
  generalize record.modifiedBindings = entries at pairs ⊢
  induction pairs with
  | nil => exact ⟨[], .nil, rfl⟩
  | cons first _ induction =>
    obtain ⟨replacement, isReplacement, same⟩ := bind_eq_ok.mp first
    obtain ⟨targets, areTargets, rfl⟩ := induction
    exact ⟨_ :: targets, .cons ⟨replacement, isReplacement, rfl⟩ areTargets, by
      rw [← pure_eq_ok.mp same]; rfl⟩

theorem runs_takeBody {body : BodyId} {stmts : List Stmt} :
    Runs (takeBody body) before stmts after ↔ stmts = before.bodies.stmts body ∧
      after = { before with bodies := before.bodies.setStmts body [] } := by
  simp only [takeBody, Runs.get_bind, Runs.modify_bind, pure_iff, Bodies.take]

def takingRoot (record : RootRecord) (assembly : Assembly) : Assembly :=
  { assembly with
    bodies := assembly.bodies.setStmts record.body []
    splices := assembly.splices.without record.body
    takenBodies := record.body :: assembly.takenBodies
    rootPreludes := assembly.rootPreludes.erase record.function }

theorem rootBody_cases {body : List Stmt}
    (runs : Runs (rootBody written inst record) before body after) :
    ∃ closed prologue assignments init,
      before.splices.applyTo record.body before.bodies = .ok closed ∧
      written.scopePrologue inst (fun _ scope => written.selectorLiteral scope) = .ok prologue ∧
      writeBacks written inst record = .ok assignments ∧
      Runs (delayedInit inst)
        { before.takingRoot record with bodies := closed.setStmts record.body [] } init after ∧
      body = init ++ written.session.captured.bootstrap (some record.function) ++
        before.preludeAt (some record.function) ++ prologue ++ closed.stmts record.body ++
        record.verbatim ++ assignments ++
        record.result.toList.map fun value => Stmt.returnValue (some value) := by
  simp only [rootBody, closeBody, takeRootPrelude, Runs.bind_iff, get_iff, modify_iff, set_iff,
    Runs.lift_iff, pure_iff, runs_takeBody] at runs
  obtain ⟨_, _, ⟨_, _, ⟨rfl, rfl⟩, closed, _, ⟨isClosed, rfl⟩, rfl⟩, _, _,
    ⟨_, _, ⟨rfl, rfl⟩, _, _, rfl, rfl, rfl⟩, prologue, _, ⟨isPrologue, rfl⟩, _, _, ⟨rfl, rfl⟩,
    assignments, _, ⟨areAssignments, rfl⟩, init, _, delaying, rfl, rfl⟩ := runs
  exact ⟨closed, prologue, assignments, init, isClosed, isPrologue, areAssignments, delaying, rfl⟩

theorem isRoot_rootBody {body : List Stmt} (code : CodeBlock)
    (runs : Runs (rootBody written inst record) before body after) :
    ∃ prologue targets,
      IsRoot written code inst record prologue targets { code.function with body } := by
  obtain ⟨_, prologue, _, init, -, isPrologue, areAssignments, -, rfl⟩ := rootBody_cases runs
  obtain ⟨targets, areTargets, rfl⟩ := writeBacks_eq_ok areAssignments
  exact ⟨prologue, targets, isPrologue, areTargets, init, _, _, rfl⟩

/-- What a function is defined as: its own copy of the code of its block or, if it has a root, the
function of the root. -/
inductive Builds (written : Written) (inst : FunctionInstance) (definition : FunctionDef) :
    Prop where
  | copy {code : CodeBlock} {prologue : List Stmt} {replacements : Replacements}
      (notRoot : ∀ root ∈ written.context.graph.roots, root.function ≠ inst.function)
      (isCode : written.context.graph.codeBlock inst.code = .ok code)
      (isCopy : IsCopy written code inst prologue replacements definition)
  | root {record : RootRecord} {code : CodeBlock} {prologue : List Stmt} {targets : List Expr}
      (isRecord : record ∈ written.roots) (isFunction : record.function = inst.function)
      (isCode : written.context.graph.codeBlock inst.code = .ok code)
      (isRoot : IsRoot written code inst record prologue targets definition)

def countingRoot (assembly : Assembly) : Assembly :=
  { assembly with
    report := { assembly.report with optimizedRoots := assembly.report.optimizedRoots + 1 } }

theorem defineRoot_cases (runs : Runs (defineRoot written record) before result after) :
    ∃ inst code body built, written.instanceOf record.function = .ok inst ∧
      written.context.graph.codeBlock inst.code = .ok code ∧
      Runs (rootBody written inst record) before body built ∧
      (inst.method = none ∧ Runs (addToPrelude record.parent
          (.var inst.name (.function { code.function with body }) :: inst.extras))
          built.countingRoot ⟨⟩ after ∨
        ∃ method added placed, inst.method = some method ∧
          Runs (addClassMember method code { code.function with body }) built.countingRoot
            ⟨⟩ added ∧
          (method.kind = .constructor ∧ placed = added ∨
            method.kind ≠ .constructor ∧
              ∃ group point, memberGroup written inst method = .ok group ∧
              inst.insertionPoint = some point ∧ point.body ∉ added.takenBodies ∧
              Runs (splice point inst.serial group) added ⟨⟩ placed) ∧
          Runs (releaseClass written method.classPrototype) placed ⟨⟩ after) := by
  simp only [defineRoot, Runs.bind_iff, Runs.lift_iff, runs_count] at runs
  obtain ⟨inst, _, ⟨isInstance, rfl⟩, code, _, ⟨isCode, rfl⟩, body, built, building, _, _, rfl,
    placing⟩ := runs
  refine ⟨inst, code, body, built, isInstance, isCode, building, ?_⟩
  split at placing
  · rename_i noMethod
    exact .inl ⟨noMethod, placing⟩
  · rename_i method isMethod
    obtain ⟨_, added, adding, placing⟩ := Runs.bind_iff.mp placing
    split at placing
    · rename_i isConstructor
      exact .inr ⟨method, added, added, isMethod, adding, .inl ⟨isConstructor, rfl⟩, placing⟩
    · rename_i notConstructor
      simp only [Runs.lift_bind] at placing
      obtain ⟨group, isGroup, point, isPoint, placing⟩ := placing
      obtain ⟨_, placed, splicing, releasing⟩ := Runs.bind_iff.mp placing
      obtain ⟨notTaken, splicing⟩ := runs_spliceLate splicing
      exact .inr ⟨method, added, placed, isMethod, adding,
        .inr ⟨notConstructor, group, point, isGroup,
        definitionPoint_eq_ok isPoint, notTaken, splicing⟩, releasing⟩

theorem collects_defineRoot (runs : Runs (defineRoot written record) before result after) :
    ∃ inst code body built, written.instanceOf record.function = .ok inst ∧
      written.context.graph.codeBlock inst.code = .ok code ∧
      Runs (rootBody written inst record) before body built ∧
      Collects after { code.function with body } := by
  obtain ⟨inst, code, body, built, isInstance, isCode, building, placing⟩ := defineRoot_cases runs
  refine ⟨inst, code, body, built, isInstance, isCode, building, ?_⟩
  rcases placing with ⟨-, adding⟩ | ⟨method, added, placed, -, adding, splicing, releasing⟩
  · obtain ⟨prelude, -⟩ := preludeAt_addToPrelude adding
    have added := prelude record.parent
    rw [if_pos rfl] at added
    exact .prelude (added ▸ mem_append_right _ mem_cons_self) (.declared _)
  · refine keeps_releaseClass releasing _ ?_
    obtain ⟨-, collects⟩ := addClassMember_collects adding
    rcases splicing with ⟨-, rfl⟩ | ⟨-, _, _, -, -, -, splicing⟩
    · exact collects
    · exact keeps_splice splicing _ collects

/-! ## All functions -/

theorem runs_defineUpTo {records : List RootRecord} :
    Runs (defineUpTo written records) before result after ↔
      ∃ groups awaitedMembers blocks ready, blockGroups written = .ok groups ∧
        Runs (groups.forM fun group => defineBlock written group.code group.functions)
          before ⟨⟩ blocks ∧
        awaitedMembersOf written = .ok awaitedMembers ∧
        Runs (defineReadyClasses written) { blocks with awaitedMembers } ⟨⟩ ready ∧
        Runs (records.forM (defineRoot written)) ready result after := by
  constructor
  · intro runs
    obtain ⟨groups, areGroups, runs⟩ := Runs.lift_bind.mp runs
    obtain ⟨_, blocks, defining, runs⟩ := Runs.bind_iff.mp runs
    obtain ⟨awaitedMembers, areAwaited, runs⟩ := Runs.lift_bind.mp runs
    obtain ⟨_, ready, readying, rooting⟩ := Runs.bind_iff.mp (Runs.modify_bind.mp runs)
    exact ⟨groups, awaitedMembers, blocks, ready, areGroups, defining, areAwaited, readying,
      rooting⟩
  · rintro ⟨groups, awaitedMembers, blocks, ready, areGroups, defining, areAwaited, readying,
      rooting⟩
    exact Runs.lift_bind.mpr ⟨groups, areGroups, Runs.bind_iff.mpr ⟨⟨⟩, blocks, defining,
      Runs.lift_bind.mpr ⟨awaitedMembers, areAwaited, Runs.modify_bind.mpr
        (Runs.bind_iff.mpr ⟨⟨⟩, ready, readying, rooting⟩)⟩⟩⟩

theorem runs_defineUpTo_append {earlier later : List RootRecord} :
    Runs (defineUpTo written (earlier ++ later)) before result after ↔
      ∃ middle, Runs (defineUpTo written earlier) before ⟨⟩ middle ∧
        Runs (later.forM (defineRoot written)) middle result after := by
  simp only [runs_defineUpTo, Runs.forM_append]
  constructor
  · rintro ⟨groups, awaited, blocks, ready, areGroups, defining, areAwaited, readying, middle,
      first, rest⟩
    exact ⟨middle, ⟨groups, awaited, blocks, ready, areGroups, defining, areAwaited, readying,
      first⟩, rest⟩
  · rintro ⟨middle, ⟨groups, awaited, blocks, ready, areGroups, defining, areAwaited, readying,
      first⟩, rest⟩
    exact ⟨groups, awaited, blocks, ready, areGroups, defining, areAwaited, readying, middle, first,
      rest⟩

theorem defineAll_cases (runs : Runs (defineAll written) before result after) :
    Runs (defineUpTo written (definitionOrder written.roots)) before ⟨⟩ after ∧
      after.classes.keys = [] := by
  obtain ⟨_, final, defining, runs⟩ := Runs.bind_iff.mp runs
  rw [Runs.get_bind] at runs
  split at runs
  · rename_i noClasses
    obtain ⟨_, rfl⟩ := pure_iff.mp runs
    exact ⟨defining, noClasses⟩
  · exact absurd runs not_throw

theorem assemble_cases {prelude : List Stmt} (runs : Runs (assemble written) before prelude after) :
    ∃ defined bodies, Runs (defineAll written) before ⟨⟩ defined ∧
      defined.splices.applyEach defined.splices.bodiesWaiting defined.bodies = (bodies, none) ∧
      after = { defined with bodies, splices := {} } ∧
      prelude = written.session.captured.bootstrap none ++ defined.globalPrelude := by
  simp only [assemble, applySplices, Runs.bind_iff, get_iff, pure_iff] at runs
  obtain ⟨_, defined, defining, _, _, ⟨_, _, ⟨rfl, rfl⟩, splicing⟩, _, _, ⟨rfl, rfl⟩, rfl, rfl⟩ :=
    runs
  split at splicing
  · rename_i bodies isApplied
    obtain rfl := set_iff.mp splicing
    exact ⟨_, bodies, defining, isApplied, rfl, rfl⟩
  · exact absurd splicing not_throw

end Assembly

end HeapScript
