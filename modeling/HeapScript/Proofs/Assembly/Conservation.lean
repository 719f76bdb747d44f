import HeapScript.Proofs.Assembly.Scales

/-!
Nothing is lost when a script is put together.

Each step that defines a function keeps what is due and adds the names that it declares. In the end
all waiting definitions are in their bodies, all bodies but the global one are empty, and the script
weighs at least as much as the session and all definitions.
-/

namespace HeapScript

open List Runs

variable {id : ValueId} {inst : FunctionInstance}

variable {M : Type} [AddCommMonoid M] [PartialOrder M] {weighing : Weighing M}
  {written : Written} {defined : List ValueId} {taken : List BodyId} {due hand : M}
  {before after : Assembly} {result : Unit}

namespace Written.Complete

theorem accepts (complete : written.Complete) {point : Position}
    (isInstance : written.session.HasInstance id inst)
    (isPoint : inst.insertionPoint = some point) (notTaken : point.body ∉ taken) :
    written.Accepts taken point.body := by
  have sameBody := complete.kept.prepared.atHome id inst point isInstance isPoint
  obtain ⟨function, facts⟩ := complete.facts isInstance
  obtain ⟨home, isHome, present, declares⟩ := complete.idle.valid.homes id inst.name facts.named
  obtain rfl := Option.some.inj (facts.home.symm.trans isHome)
  exact ⟨sameBody ▸ present, sameBody ▸ declares, notTaken⟩

theorem exists_rootRecord (complete : written.Complete) {root : ValueId}
    (isInstance : written.session.HasInstance id inst) (isRoot : inst.root = some root) :
    ∃ record ∈ written.roots, record.function = root := by
  obtain ⟨function, facts⟩ := complete.facts isInstance
  rw [facts.root, Session.rootOfBody] at isRoot
  split at isRoot
  · rename_i function' isKind
    obtain rfl := Option.some.inj isRoot
    obtain ⟨record, member, isBody⟩ := complete.rootBodies _ _ isKind
    have isFunction := (complete.records record member).kind
    rw [isBody, isKind] at isFunction
    exact ⟨record, member, (BodyKind.root.inj isFunction).symm⟩
  · cases isRoot

end Written.Complete

namespace Assembly

end Assembly

namespace Assembly.Carries

/-! ## Classes -/

theorem addClassMember (weighable : written.Weighable weighing) {method : MethodInstance}
    {code : CodeBlock} {definition : FunctionDef}
    (runs : Runs (addClassMember method code definition) before result after)
    (isMember : written.IsMember id inst method) (builds : Builds written inst definition)
    (isNew : id ∉ defined)
    (emptied : ∀ body, written.session.delayedBodies.get? id = some body →
      before.bodies.stmts body = [])
    (carries : Carries weighing written defined taken due
      (hand + (weighing.blocks definition.blocks +
      if method.kind = .constructor then weighing.definition inst else 0)) before) :
    Carries weighing written (id :: defined) taken due hand after := by
  simp only [Assembly.addClassMember, modify_iff] at runs
  subst runs
  obtain ⟨others, isTotal, isInserted⟩ :=
    before.classes.exists_total_insert (weighing.classNode written) method.classPrototype
  let node := (before.classes.get? method.classPrototype).getD { constructor := method.constructor }
  have isFor : node.IsFor written defined method.classPrototype := by
    cases found : before.classes.get? method.classPrototype with
    | none =>
      simp only [node, found, Option.getD_none]
      refine ⟨⟨id, inst, method, isMember, rfl, rfl⟩, by simp, by simp, ⟨[],
        ⟨nodup_nil, .nil, .nil⟩, fun other => ?_⟩, by simp⟩
      -- The class is new: if it were finished already, this member would be defined.
      simp only [not_mem_nil, false_iff, not_and]
      rintro isDefined ⟨inst', method', isOther, same⟩
      have known := carries.members other isDefined inst' method' isOther
      rw [same, found] at known
      simp only [Option.isSome_none, Bool.false_eq_true, false_or] at known
      exact isNew (known.2 id ⟨inst, method, isMember, rfl⟩)
    | some old =>
      simp only [node, found, Option.getD_some]
      exact carries.nodes _ old found
  have nodeWeight : ((before.classes.get? method.classPrototype).map
      (weighing.classNode written)).getD 0 = weighing.classNode written node := by
    cases found : before.classes.get? method.classPrototype <;>
      simp [node, found, Weighing.classNode, blocksOfMembers]
  refine { carries with
    delayedEmpty := fun other member body isBody => ?_
    distinctClasses := KeyedTable.nodup_keys_insert _ _ carries.distinctClasses
    nodes := fun prototype found isFound => ?_
    members := fun other member inst' method' isOther => ?_
    weight := ?_ }
  · rcases mem_cons.mp member with rfl | member
    · exact emptied body isBody
    · exact carries.delayedEmpty other member body isBody
  · rw [KeyedTable.get?_insert] at isFound
    split at isFound
    · rename_i same
      subst same
      cases isFound
      have superClass := (weighable.equipped.blocks_method isMember.isInstance isMember.isMethod).2
      exact isFor.add isMember isNew superClass code.function.name builds
    · rename_i different
      exact (carries.nodes prototype found isFound).mono (Written.not_belongsTo isMember different)
  · rw [KeyedTable.get?_insert]
    split
    · exact .inl rfl
    · rename_i different
      rcases mem_cons.mp member with rfl | member
      · obtain rfl := Option.some.inj (isMember.isInstance.symm.trans isOther.isInstance)
        obtain rfl := Option.some.inj (isMember.isMethod.symm.trans isOther.isMethod)
        exact absurd rfl different
      · exact (carries.members other member inst' method' isOther).imp_right fun known =>
          ⟨known.1.mono id, fun _ belongs => mem_cons_of_mem _ (known.2 _ belongs)⟩
  · refine carries.weight.trans (le_of_eq ?_)
    have added := weighable.classNode_add isMember isNew isFor code.function.name definition
    change _ = weighing.assembly written { before with
      classes := before.classes.insert method.classPrototype
        (node.add method code.function.name definition) } + hand
    simp only [Weighing.assembly, isTotal, isInserted, nodeWeight, added]
    abel

variable [IsOrderedAddMonoid M]

theorem defineClass (weighable : written.Weighable weighing) {prototype : ValueId}
    (runs : Runs (defineClass written prototype) before result after)
    (whole : ∀ id, written.BelongsTo prototype id → id ∈ defined)
    (carries : Carries weighing written defined taken due hand before) :
    Carries weighing written defined taken due hand after := by
  rcases defineClass_cases runs with ⟨_, rfl⟩ | ⟨node, constructor, point, isClass, hasConstructor,
    isConstructor, isPoint, notTaken, rfl⟩
  · exact carries
  have isConstructor := Written.instanceOf_eq_ok isConstructor
  have isFor := carries.nodes prototype node isClass
  have noSuper : node.definition.blocks = blocksOfMembers node.members := by
    unfold ClassNode.definition
    cases isSuper : node.superClass with
    | none => rfl
    | some expr => simp [ClassDef.blocks, isFor.superClass expr isSuper]
  have suits : written.Suits constructor (.var constructor.name (.classExpr node.definition)) := by
    intro method isMethod isKind
    obtain ⟨ids, lists, areIds⟩ := isFor.lists
    obtain ⟨function, facts⟩ := weighable.complete.facts isConstructor
    refine ⟨node.definition, prototype, ids, rfl, lists, fun id => ?_, facts.isId ▸ isFor.member⟩
    exact (areIds id).trans (and_iff_right_of_imp (whole id))
  have inside : weighing.classNode written node ≤ weighing.loose (classGroup node constructor) := by
    refine le_trans (le_of_eq ?_) (weighable.le_loose_definition isConstructor rfl suits)
    rw [Weighing.classNode, if_pos hasConstructor, isConstructor, ← noSuper]
    rfl
  have erased : Carries weighing written defined taken due
      (hand + weighing.loose (classGroup node constructor))
      { before with classes := before.classes.erase prototype } := by
    refine { carries with
      distinctClasses := ?_
      nodes := fun other found isFound => ?_
      members := fun id member inst method isMember => ?_
      weight := ?_ }
    · rw [KeyedTable.keys_erase]
      exact carries.distinctClasses.filter _
    · rw [KeyedTable.get?_erase] at isFound
      split at isFound
      · cases isFound
      · exact carries.nodes other found isFound
    · rw [KeyedTable.get?_erase]
      split
      · rename_i same
        exact .inr (same ▸ ⟨isFor.constructor hasConstructor, whole⟩)
      · exact carries.members id member inst method isMember
    · have isTotal := KeyedTable.total_erase (weighing.classNode written) carries.distinctClasses
        prototype
      refine carries.weight.trans (le_trans (le_of_eq ?_)
        (add_le_add_right (add_le_add_right inside hand) _))
      simp only [Weighing.assembly, isTotal, isClass, Option.map_some, Option.getD_some]
      abel
  exact erased.splice constructor.serial
    (weighable.complete.accepts isConstructor isPoint (carries.takenBodies ▸ notTaken))

/-! ## Functions -/

/-- What a function constructs on its first call is in hand, and its body is empty. -/
theorem delayedInit (weighable : written.Weighable weighing) {init : List Stmt}
    (runs : Runs (delayedInit inst) before init after)
    (isInstance : written.session.HasInstance id inst)
    (carries : Carries weighing written defined taken due hand before) :
    Carries weighing written defined taken due (hand + weighing.loose init) after ∧
      ∀ body, written.session.delayedBodies.get? id = some body → after.bodies.stmts body = [] := by
  have attached := fun body isBody => weighable.complete.kept.prepared.attached id body inst isBody
    isInstance (weighable.complete.placed isInstance)
  unfold Assembly.delayedInit at runs
  split at runs
  · rename_i noDelay
    obtain ⟨rfl, rfl⟩ := pure_iff.mp runs
    refine ⟨by simpa using carries, fun body isBody => ?_⟩
    obtain ⟨flag, isDelayed⟩ := attached body isBody
    simp [noDelay] at isDelayed
  · rename_i delayed isDelayed
    simp only [Runs.bind_iff, runs_takeBody, pure_iff] at runs
    obtain ⟨_, _, ⟨rfl, rfl⟩, rfl, rfl⟩ := runs
    refine ⟨(carries.takeBody delayed.body).mono (add_le_add_right ?_ hand), fun body isBody => ?_⟩
    · have inside := weighing.closed_append_left
        [.assign (.var delayed.flag) (.literal (.bool true))] (before.bodies.stmts delayed.body)
      have assignWeight :
        0 ≤ weighing.loose [.assign (.var delayed.flag) (.literal (.bool true))] :=
        weighable.loose_nonneg (by
          simp [blocksOf, blocksWithin, Stmt.declares, Stmt.blocks, Expr.blocks])
      have testWeight : 0 ≤ weighing.stmt (.ifElse (.not (.var delayed.flag))
          (.assign (.var delayed.flag) (.literal (.bool true)) ::
            before.bodies.stmts delayed.body) []) :=
        weighable.quiet _ (by simp [Stmt.declares])
      refine ((le_add_of_nonneg_left assignWeight).trans inside).trans
        ((le_add_of_nonneg_left testWeight).trans (le_of_eq ?_))
      simp [Weighing.loose_singleton, Weighing.closed_eq, Stmt.blocks, Expr.blocks,
        weighing.block_nil, blocksWithin]
    · obtain ⟨flag, isDelayed'⟩ := attached body isBody
      obtain rfl : delayed = _ := Option.some.inj (isDelayed.symm.trans isDelayed')
      rw [Bodies.stmts_setStmts_nil, if_pos rfl]

omit [IsOrderedAddMonoid M] in
theorem define (carries : Carries weighing written defined taken due hand before)
    (emptied : ∀ body, written.session.delayedBodies.get? id = some body →
      before.bodies.stmts body = []) (isInstance : written.session.HasInstance id inst)
    (noMethod : inst.method = none) :
    Carries weighing written (id :: defined) taken due hand before :=
  have noMember : ∀ inst' method, ¬written.IsMember id inst' method := by
    intro inst' method isMember
    obtain rfl := Option.some.inj (isInstance.symm.trans isMember.isInstance)
    exact absurd (noMethod.symm.trans isMember.isMethod) (by simp)
  { carries with
    delayedEmpty := by
      intro other member body isBody
      rcases mem_cons.mp member with rfl | member
      · exact emptied body isBody
      · exact carries.delayedEmpty other member body isBody
    nodes := fun prototype node isNode => (carries.nodes prototype node isNode).mono fun belongs =>
      let ⟨inst, method, isMember, _⟩ := belongs
      noMember inst method isMember
    members := by
      intro other member inst method isMember
      rcases mem_cons.mp member with rfl | member
      · exact absurd isMember (noMember inst method)
      · exact (carries.members other member inst method isMember).imp_right fun known =>
          ⟨known.1.mono id, fun _ belongs => mem_cons_of_mem _ (known.2 _ belongs)⟩ }

end Assembly.Carries

namespace Written.Weighable

variable [IsOrderedAddMonoid M]

/-- Statements at the start of a function whose other statements have no weight below zero. -/
theorem loose_le_blocks (weighable : written.Weighable weighing) {definition : FunctionDef}
    {init rest : List Stmt} (isBody : definition.body = init ++ rest)
    (params : ∀ name ∈ declaredIn (blocksOfParams definition.params), written.Given name)
    (given : ∀ name ∈ declaredIn (blocksOf rest), written.Given name) :
    weighing.loose init ≤ weighing.blocks definition.blocks := by
  have paramsWeight := weighable.blocks_nonneg params
  have restWeight : 0 ≤ weighing.closed rest := weighable.blocks_nonneg given
  rw [FunctionDef.blocks_eq, isBody, weighing.blocks_append]
  calc weighing.loose init = weighing.loose init + 0 := (add_zero _).symm
    _ ≤ weighing.loose init + weighing.closed rest := add_le_add_right restWeight _
    _ ≤ weighing.closed (init ++ rest) := weighing.closed_append_left init rest
    _ = 0 + weighing.closed (init ++ rest) := (zero_add _).symm
    _ ≤ _ := add_le_add_left paramsWeight _

end Written.Weighable

theorem MethodInstance.blocks_valueExpr {method : MethodInstance} (plain : method.key.blocks = [])
    (className : String) : (method.valueExpr className).blocks = [] := by
  have holder : (if method.isStatic then Expr.var className
      else .member (.var className) "prototype").blocks = [] := by split <;> rfl
  cases isKey : method.key with
  | named name =>
    cases isKind : method.kind <;>
      simp [valueExpr, keyExpr, isKey, isKind, Expr.blocks, Expr.methodCall, Expr.string,
        blocksOfExprs, holder]
  | computed value =>
    have isPlain : value.blocks = [] := by simpa [isKey, MemberKey.blocks] using plain
    cases isKind : method.kind <;>
      simp [valueExpr, keyExpr, isKey, isKind, Expr.blocks, Expr.methodCall, blocksOfExprs, holder,
        isPlain]

namespace Assembly.Carries

variable {plan : FactoryPlan}

variable [IsOrderedAddMonoid M] {id : ValueId} {inst : FunctionInstance} {method : MethodInstance}
  {code : CodeBlock} {definition : FunctionDef}

/-- A member of a class is in hand until the class has it; other members than the constructor have a
declaration of their own, which is then in hand. -/
theorem enterClass (weighable : written.Weighable weighing)
    (runs : Runs (Assembly.addClassMember method code definition) before result after)
    (isMember : written.IsMember id inst method) (builds : Builds written inst definition)
    (isNew : id ∉ defined)
    (emptied : ∀ body, written.session.delayedBodies.get? id = some body →
      before.bodies.stmts body = [])
    (carries : Carries weighing written defined taken due hand before)
    (inside : hand ≤ weighing.blocks definition.blocks) :
    Carries weighing written (id :: defined) taken (due + weighing.definition inst)
      (if method.kind = .constructor then 0 else weighing.definition inst) after := by
  refine addClassMember weighable runs isMember builds isNew emptied ?_
  refine (carries.gain (weighing.definition inst)).mono ?_
  split
  · simpa using add_le_add_left inside (weighing.definition inst)
  · simpa [add_comm] using add_le_add_left inside (weighing.definition inst)

theorem memberGroup (weighable : written.Weighable weighing) {group : List Stmt}
    (found : Assembly.memberGroup written inst method = .ok group)
    (isMember : written.IsMember id inst method) (notConstructor : method.kind ≠ .constructor) :
    weighing.definition inst ≤ weighing.loose group := by
  obtain ⟨constructor, -, same⟩ := bind_eq_ok.mp found
  obtain rfl := pure_eq_ok.mp same
  have plain := (weighable.equipped.blocks_method isMember.isInstance isMember.isMethod).1
  refine le_trans (le_of_eq ?_) (weighable.le_loose_definition isMember.isInstance rfl ?_)
  · rw [Stmt.var, Stmt.blocks, MethodInstance.blocks_valueExpr plain, weighing.blocks_nil, zero_add]
  · intro method' isMethod
    obtain rfl := Option.some.inj (isMember.isMethod.symm.trans isMethod)
    exact fun isConstructor => absurd isConstructor notConstructor

/-! ## Copies -/

theorem defineClone (weighable : written.Weighable weighing)
    (runs : Runs (Assembly.defineClone written code inst) before result after)
    (isInstance : written.session.HasInstance id inst) (isCode : written.IsCode inst.code code)
    (notRoot : ∀ root ∈ written.context.graph.roots, root.function ≠ inst.function)
    (isNew : id ∉ defined) (carries : Carries weighing written defined [] due 0 before) :
    Carries weighing written (id :: defined) [] (due + weighing.definition inst) 0 after := by
  have complete := weighable.complete
  simp only [Assembly.defineClone, Runs.bind_iff, Runs.lift_iff] at runs
  obtain ⟨point, before, ⟨isPoint, rfl⟩, replacements, before, ⟨areReplacements, rfl⟩, prologue,
    before, ⟨isPrologue, rfl⟩, init, middle, delaying, placing⟩ := runs
  have accepts := complete.accepts isInstance (definitionPoint_eq_ok isPoint)
    not_mem_nil
  obtain ⟨inHand, emptied⟩ := carries.delayedInit weighable delaying isInstance
  rw [zero_add] at inHand
  have plain := complete.plain_replacementsFor isInstance areReplacements
  let copy := code.function.replace replacements
  have inside : weighing.loose init ≤
      weighing.blocks ({ copy with body := init ++ prologue ++
        copy.body } : FunctionDef).blocks := by
    refine weighable.loose_le_blocks (append_assoc ..) (fun name declared => ?_)
      fun name declared => ?_
    · refine Written.given_replace isCode plain ?_
      rw [FunctionDef.blocks_eq, declaredIn_append]
      exact mem_append_left _ declared
    · obtain ⟨stmt, member, declared⟩ := mem_declaredIn_blocksOf.mp declared
      rcases mem_append.mp member with member | member
      · exact Written.given_prologue isPrologue (fun _ _ _ => Written.plain_selectorLiteral)
          (mem_declaredIn_blocksOf.mpr ⟨stmt, member, declared⟩)
      · refine Written.given_replace isCode plain ?_
        rw [FunctionDef.blocks_eq, declaredIn_append]
        exact mem_append_right _ (mem_declaredIn_blocksOf.mpr ⟨stmt, member, declared⟩)
  split at placing
  · rename_i noMethod
    obtain rfl := runs_splice.mp placing
    refine splice inst.serial (((inHand.define emptied isInstance noMethod).gain _).mono ?_) accepts
    rw [zero_add]
    refine le_trans ?_ (weighable.le_loose_definition isInstance rfl (.of_none noMethod))
    exact add_le_add_left inside _
  · rename_i method isMethod
    have isMember : written.IsMember id inst method := ⟨isInstance, isMethod⟩
    obtain ⟨_, added, adding, placing⟩ := Runs.bind_iff.mp placing
    have builds : Builds written inst { copy with body := init ++ prologue ++ copy.body } :=
      .copy notRoot isCode ⟨isPrologue, areReplacements, init, rfl⟩
    have entered := inHand.enterClass weighable adding isMember builds isNew emptied inside
    split at placing
    · rename_i isConstructor
      obtain ⟨_, rfl⟩ := pure_iff.mp placing
      simpa [isConstructor] using entered
    · rename_i notConstructor
      simp only [Runs.bind_iff, Runs.lift_iff] at placing
      obtain ⟨group, _, ⟨isGroup, rfl⟩, placing⟩ := placing
      obtain rfl := runs_splice.mp placing
      rw [if_neg notConstructor] at entered
      refine splice inst.serial (entered.mono ?_) accepts
      rw [zero_add]
      exact memberGroup weighable isGroup isMember notConstructor

/-! ## Stubs and factories -/

omit [AddCommMonoid M] [PartialOrder M] [IsOrderedAddMonoid M] in
theorem blocks_leadingArgs (complete : written.Complete) {selectors args : List Expr}
    (leading : LeadingArgs written code plan inst selectors args) :
    blocksOfExprs (selectors ++ args) = [] := by
  have none : ∀ expr ∈ selectors ++ args, expr.blocks = [] := by
    intro expr member
    rcases mem_append.mp member with member | member
    · obtain ⟨_, _, _, _, rfl⟩ := exists_related leading.areSelectors.flip member
      rfl
    · obtain ⟨name, _, passes⟩ := exists_related leading.areArgs.flip member
      change written.PassesFor code inst name expr at passes
      unfold Written.PassesFor at passes
      split at passes
      · rw [passes]
        rfl
      · exact complete.plain_replacementFor passes
  generalize selectors ++ args = exprs at none
  induction exprs with
  | nil => rfl
  | cons expr exprs induction =>
    rw [blocksOfExprs, none expr mem_cons_self,
      induction fun other member => none other (mem_cons_of_mem _ member), append_nil]

/-- A stub that calls its factory holds what the closure constructs on its first call. -/
theorem callStub (weighable : written.Weighable weighing) {factory : String} {leading : List Expr}
    {stub : Stmt} (runs : Runs (Assembly.callStub inst code factory leading) before stub after)
    (isInstance : written.session.HasInstance id inst) (noMethod : inst.method = none)
    (plain : blocksOfExprs leading = [])
    (carries : Carries weighing written defined taken due 0 before) :
    Carries weighing written defined taken (due + weighing.definition inst)
        (weighing.loose (stub :: inst.extras)) after ∧
      ∀ body, written.session.delayedBodies.get? id = some body → after.bodies.stmts body = [] := by
  simp only [Assembly.callStub, Runs.bind_iff, Runs.lift_iff, pure_iff] at runs
  obtain ⟨⟨params, args⟩, _, ⟨areParams, rfl⟩, init, _, delaying, rfl, rfl⟩ := runs
  have forwards := forwards_forwardParams areParams
  obtain ⟨inHand, emptied⟩ := carries.delayedInit weighable delaying isInstance
  rw [zero_add] at inHand
  refine ⟨(inHand.gain _).mono ?_, emptied⟩
  have noCall : ∀ exprs : List Expr, blocksOfExprs exprs = [] →
      blocksOfExprs (exprs ++ args) = [] := by
    intro exprs none
    induction exprs with
    | nil => exact forwards.plain
    | cons expr exprs induction =>
      simp only [blocksOfExprs, append_eq_nil_iff, cons_append] at none ⊢
      exact ⟨none.1, induction none.2⟩
  have inside : weighing.loose init ≤ weighing.blocks (FunctionDef.blocks {
      name := some inst.name, params
      body := init ++ [.returnValue (some (.methodCall (.var factory) "call"
        (.thisRef :: leading ++ args)))] }) := by
    refine weighable.loose_le_blocks rfl (by simp [forwards.noBlocks]) ?_
    simp [blocksOf, blocksWithin, Stmt.declares, Stmt.blocks, Expr.methodCall, Expr.blocks,
      blocksOfExprs, noCall leading plain]
  refine le_trans ?_ (weighable.le_loose_definition isInstance rfl (.of_none noMethod))
  exact add_le_add_left inside _

theorem defineStub (weighable : written.Weighable weighing) {first : FunctionInstance}
    {instances : List FunctionInstance} {factory : String} {number : Nat}
    (runs : Runs (Assembly.defineStub written code code.function.facts plan factory number inst)
      before result after) (facts : written.PlanFacts code first instances plan)
    (isNumber : instances[number]? = some inst) (isInstance : written.session.HasInstance id inst)
    (noMethod : inst.method = none) (carries : Carries weighing written defined [] due 0 before) :
    Carries weighing written (id :: defined) [] (due + weighing.definition inst) 0 after := by
  have complete := weighable.complete
  simp only [Assembly.defineStub, Runs.bind_iff, Runs.lift_iff] at runs
  obtain ⟨point, before, ⟨isPoint, rfl⟩, selectors, before, ⟨areSelectors, rfl⟩, needs, before,
    ⟨isNeeded, rfl⟩, making⟩ := runs
  have accepts := complete.accepts isInstance (definitionPoint_eq_ok isPoint) not_mem_nil
  have plain := blocks_leadingArgs complete (leadingArgs facts isNumber areSelectors)
  split at making
  · simp only [Runs.bind_iff, runs_count] at making
    obtain ⟨_, _, rfl, stub, middle, calling, splicing⟩ := making
    obtain rfl := runs_splice.mp splicing
    have counted : Carries weighing written defined [] due 0
        { before with report := { before.report with callStubs := before.report.callStubs + 1 } } :=
      { carries with }
    obtain ⟨inHand, emptied⟩ := counted.callStub weighable calling isInstance noMethod plain
    exact splice inst.serial
      (by rw [zero_add]; exact inHand.define emptied isInstance noMethod) accepts
  · rename_i noCall
    simp only [Runs.bind_iff, runs_count, pure_iff] at making
    obtain ⟨_, _, rfl, _, _, ⟨rfl, rfl⟩, splicing⟩ := making
    obtain rfl := runs_splice.mp splicing
    have counted : Carries weighing written defined [] due 0
        { before with report := { before.report with bindStubs := before.report.bindStubs + 1 } } :=
      { carries with }
    have emptied : ∀ body, written.session.delayedBodies.get? id = some body →
        before.bodies.stmts body = [] := by
      intro body isBody
      obtain ⟨flag, isDelayed⟩ := complete.kept.prepared.attached id body inst isBody isInstance
        (complete.placed isInstance)
      obtain ⟨_, _, same⟩ := bind_eq_ok.mp isNeeded
      exact absurd (pure_eq_ok.mp same) (by simpa [isDelayed] using noCall)
    refine splice inst.serial
      (((counted.define emptied isInstance noMethod).gain _).mono ?_) accepts
    refine le_trans (le_of_eq ?_)
      (add_le_add_right (weighable.le_loose_definition isInstance rfl (.of_none noMethod)) 0)
    simp [bindStub, Stmt.var, Stmt.blocks, Expr.methodCall, Expr.null, Expr.blocks, blocksOfExprs,
      plain]

omit [IsOrderedAddMonoid M] in
theorem forM_define {α : Type} {items : List α} {action : α → AssemblyM Unit}
    (defines : α → List FunctionInstance)
    (does : ∀ item ∈ items, ∀ {defined due before after},
      Runs (action item) before ⟨⟩ after →
      (∀ inst ∈ defines item, inst.function ∉ defined) →
      Carries weighing written defined taken due 0 before →
      Carries weighing written (((defines item).map (·.function)).reverse ++ defined) taken
        (due + ((defines item).map weighing.definition).sum) 0 after)
    (runs : Runs (items.forM action) before result after)
    (distinct : ((items.flatMap defines).map (·.function)).Nodup)
    (areNew : ∀ inst ∈ items.flatMap defines, inst.function ∉ defined)
    (carries : Carries weighing written defined taken due 0 before) :
    Carries weighing written (((items.flatMap defines).map (·.function)).reverse ++ defined) taken
      (due + ((items.flatMap defines).map weighing.definition).sum) 0 after := by
  induction items generalizing defined due before with
  | nil =>
    obtain ⟨_, rfl⟩ := pure_iff.mp runs
    simpa using carries
  | cons item items induction =>
    obtain ⟨middle, first, rest⟩ := Runs.forM_cons.mp runs
    simp only [flatMap_cons, map_append, nodup_append] at distinct
    have step := does item mem_cons_self first
      (fun inst member => areNew inst (by simp [member])) carries
    have all := induction (fun other member => does other (mem_cons_of_mem _ member)) rest
      distinct.2.1 ?_ step
    · simpa [add_assoc] using all
    · intro inst member isDefined
      rcases mem_append.mp isDefined with isFirst | isOld
      · exact distinct.2.2 _ (mem_reverse.mp isFirst) _ (mem_map_of_mem member) rfl
      · exact areNew inst (by
          rw [flatMap_cons]
          exact mem_append_right _ member) isOld

/-- The factory stands at the start of a body that is still open. -/
theorem placeFactory (weighable : written.Weighable weighing) {first : FunctionInstance}
    {others : List FunctionInstance} {number : Nat} {codeId : CodeId}
    (runs : Runs (Assembly.addToPrelude plan.placement [.function definition]) before result after)
    (isDefinition : factoryDefinition written code plan s!"$f_{number}" first = .ok definition)
    (facts : written.PlanFacts code first (first :: others) plan)
    (isFirst : written.session.HasInstance id first) (isCode : written.IsCode codeId code)
    (carries : Carries weighing written defined [] due 0 before) :
    Carries weighing written defined [] due 0 after := by
  have complete := weighable.complete
  obtain ⟨prologue, isPrologue, rfl⟩ := factoryDefinition_eq_ok isDefinition
  have plain :
      Replacements.Plain { names := plan.bakedNames, modules := plan.modules.entries } := by
    refine ⟨fun entry member => ?_, facts.modules ▸ complete.plain_modules isFirst⟩
    exact (facts.baked_value complete member mem_cons_self).1.blocks
  have noParams : ∀ (names : List String) (params : List Param),
      blocksOfParams (names.map Param.plain ++ params) = blocksOfParams params := by
    intro names params
    induction names with
    | nil => rfl
    | cons name names induction => exact induction
  have copied : ∀ name ∈ declaredIn (plan.bake code.function).blocks, written.Given name :=
    fun name => Written.given_replace isCode plain
  rw [FunctionDef.blocks_eq] at copied
  refine addToPrelude runs (carries.mono ?_) fun root isPlacement => ?_
  · rw [zero_add]
    refine weighable.loose_nonneg fun name declared => ?_
    obtain ⟨_, member, declared⟩ := mem_declaredIn_blocksOf.mp declared
    obtain rfl := mem_singleton.mp member
    rcases declared with isName | declared
    · obtain rfl : name = s!"$f_{number}" := by simpa [Stmt.declares] using isName
      exact .inr (.factory number)
    · rw [Stmt.blocks, FunctionDef.blocks_eq, declaredIn_append, mem_append] at declared
      rcases declared with declared | declared
      · have isParam : (List.range plan.scopeCount).map (fun position =>
            Param.plain (selectorParamName position)) =
            ((List.range plan.scopeCount).map selectorParamName).map Param.plain := by
          rw [map_map]
          rfl
        dsimp only at declared
        rw [isParam, append_assoc, noParams, noParams] at declared
        exact copied name (by rw [declaredIn_append]; exact mem_append_left _ declared)
      · obtain ⟨stmt, member, declared⟩ := mem_declaredIn_blocksOf.mp declared
        rcases mem_append.mp member with member | member
        · refine Written.given_prologue isPrologue (fun _ _ expr found => ?_)
            (mem_declaredIn_blocksOf.mpr ⟨stmt, member, declared⟩)
          obtain rfl := pure_eq_ok.mp found
          rfl
        · refine copied name ?_
          rw [declaredIn_append]
          exact mem_append_right _ (mem_declaredIn_blocksOf.mpr ⟨stmt, member, declared⟩)
  · obtain ⟨record, member, isFunction⟩ :=
      complete.exists_rootRecord isFirst (facts.placement.symm.trans isPlacement)
    exact ⟨record, member, isFunction, not_mem_nil⟩

end Assembly.Carries

/-! ## Code blocks -/

def Written.instancesIn (written : Written) (group : Assembly.BlockGroup) : List FunctionInstance :=
  group.functions.filterMap written.session.instances.get?

theorem Written.mapM_instanceOf {functions : List ValueId} {instances : List FunctionInstance}
    (found : functions.mapM (fun id => written.instanceOf id) = .ok instances) :
    functions.filterMap written.session.instances.get? = instances := by
  have pairs := mapM_eq_ok.mp found
  clear found
  induction pairs with
  | nil => rfl
  | cons first _ induction =>
    rw [filterMap_cons_some (Written.instanceOf_eq_ok first), induction]

theorem Assembly.Carries.defineBlock [IsOrderedAddMonoid M] (weighable : written.Weighable weighing)
    {groups : List Assembly.BlockGroup} {group : Assembly.BlockGroup}
    (areGroups : Assembly.blockGroups written = .ok groups) (isGroup : group ∈ groups)
    (runs : Runs (Assembly.defineBlock written group.code group.functions) before result after)
    (distinct : ((written.instancesIn group).map (·.function)).Nodup)
    (areNew : ∀ inst ∈ written.instancesIn group, inst.function ∉ defined)
    (carries : Assembly.Carries weighing written defined [] due 0 before) :
    Assembly.Carries weighing written
      (((written.instancesIn group).map (·.function)).reverse ++ defined) []
      (due + ((written.instancesIn group).map weighing.definition).sum) 0 after := by
  have complete := weighable.complete
  obtain ⟨code, instances, isCode, areInstances, cases_⟩ :=
    Assembly.defineBlock_cases weighable.facts runs
  have closures : ∀ inst ∈ instances, written.session.instances.get? inst.function = some inst ∧
      inst.code = group.code ∧
      ∀ root ∈ written.context.graph.roots, root.function ≠ inst.function := by
    intro inst member
    obtain ⟨_, closure⟩ := Written.isClosure_of_mem complete areGroups isGroup areInstances member
    exact ⟨(Written.get?_of_mem_mapM complete areInstances member).2,
      closure.facts.code.trans closure.isCode, closure.notRoot⟩
  rw [Written.instancesIn, Written.mapM_instanceOf areInstances] at distinct areNew ⊢
  rcases cases_ with ⟨plan, first, others, rfl, shares, runs⟩ | ⟨-, report, runs⟩
  · have planFacts := Written.planFacts_of_planFactory shares.2
    have noMethods : ∀ inst ∈ first :: others, inst.method = none := by
      have shareable := shares.1
      simp only [Assembly.isShareable, Bool.and_eq_true, all_eq_true,
        Option.isNone_iff_eq_none] at shareable
      exact shareable.1.2
    simp only [Assembly.defineFactory, Runs.bind_iff, get_iff, modify_iff, Runs.lift_iff,
      Assembly.runs_count] at runs
    obtain ⟨_, _, rfl, _, _, ⟨rfl, rfl⟩, _, _, rfl, definition, _, ⟨isDefinition, rfl⟩, _, placed,
      placing, stubs⟩ := runs
    have isFirst := closures first mem_cons_self
    have factory := Assembly.Carries.placeFactory weighable placing isDefinition planFacts isFirst.1
      isCode { carries with }
    have same : ((first :: others).zipIdx.flatMap fun item => [item.1]) = first :: others := by
      rw [← map_eq_flatMap, zipIdx_map_fst]
    rw [← same] at distinct areNew ⊢
    refine Assembly.Carries.forM_define (fun item => [item.1])
      (fun item member => ?_) stubs distinct
      areNew factory
    · intro defined due before after runs _ carries
      have isNumber := List.mem_zipIdx_iff_getElem?.mp member
      have inside := mem_of_getElem? isNumber
      simpa using carries.defineStub weighable runs planFacts isNumber (closures _ inside).1
        (noMethods _ inside)
  · have same : (instances.flatMap fun inst => [inst]) = instances := flatMap_singleton' _
    rw [← same] at distinct areNew ⊢
    refine Assembly.Carries.forM_define (fun inst => [inst]) (fun inst member => ?_) runs distinct
      areNew { carries with }
    · intro defined due before after runs isNew carries
      have isCode' : written.context.graph.codeBlock inst.code = .ok code :=
        (closures inst member).2.1 ▸ isCode
      simpa using carries.defineClone weighable runs (closures inst member).1 isCode'
        (closures inst member).2.2 (isNew inst (by simp))

end HeapScript
