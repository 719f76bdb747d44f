import HeapScript.Proofs.Assembly.Completion
import HeapScript.Proofs.Assembly.ScopeUses

/-!
Functions declare the variables for captured scopes before they use them.

The statements of a session have no such variables. A copy, a factory and an optimized root each
declare their own ones after the statements that come first, and use them only from there on. All of
this is kept while definitions are collected, put into their bodies and moved into roots.
-/

namespace HeapScript

open List Runs

variable {given : String → Prop} {definition : FunctionDef} {stmt : Stmt} {record : RootRecord}
  {plan : FactoryPlan} {first : FunctionInstance}

/-! ## Statements and functions -/

mutual

/-- Every variable for a captured scope is declared before it is used. The function around the
statement has declared those with numbers below a bound; other functions declare their own. -/
inductive Stmt.InitializesScopes (given : String → Prop) : Nat → Stmt → Prop where
  | plain {bound : Nat} {stmt : Stmt} (below : ScopesBelow given bound (stmt.usedNames true)) :
      Stmt.InitializesScopes given bound stmt
  | function {bound : Nat} {definition : FunctionDef}
      (initializes : FunctionDef.InitializesScopes given definition) :
      Stmt.InitializesScopes given bound (.function definition)
  | functionValue {bound : Nat} {name : String} {definition : FunctionDef}
      (initializes : FunctionDef.InitializesScopes given definition) :
      Stmt.InitializesScopes given bound (.var name (.function definition))
  | classValue {bound : Nat} {name : String} {definition : ClassDef}
      (initializes : ClassDef.InitializesScopes given definition) :
      Stmt.InitializesScopes given bound (.var name (.classExpr definition))

/-- The parameters of a function use none of its variables for captured scopes, and its body uses
them after their declarations only. -/
inductive FunctionDef.InitializesScopes (given : String → Prop) : FunctionDef → Prop where
  | intro {definition : FunctionDef} {lead prologue rest : List Stmt}
      (params : ScopesBelow given 0 (usedNamesOfParams true definition.params))
      (isBody : definition.body = lead ++ prologue ++ rest)
      (areLead : ∀ stmt ∈ lead, Stmt.InitializesScopes given 0 stmt)
      (declares : DeclaresScopes given prologue)
      (areRest : ∀ stmt ∈ rest, Stmt.InitializesScopes given prologue.length stmt) :
      FunctionDef.InitializesScopes given definition

inductive ClassDef.InitializesScopes (given : String → Prop) : ClassDef → Prop where
  | intro {definition : ClassDef}
      (superClass : ∀ value, definition.superClass = some value →
        ScopesBelow given 0 (value.usedNames true))
      (keys : ∀ member ∈ definition.members, ScopesBelow given 0 (member.key.usedNames true))
      (members : ∀ member ∈ definition.members,
        FunctionDef.InitializesScopes given member.function) :
      ClassDef.InitializesScopes given definition

end

theorem Stmt.InitializesScopes.mono (initializes : stmt.InitializesScopes given 0) (bound : Nat) :
    stmt.InitializesScopes given bound := by
  cases initializes with
  | plain below => exact .plain (below.mono (fun _ known => known) (Nat.zero_le bound))
  | function initializes => exact .function initializes
  | functionValue initializes => exact .functionValue initializes
  | classValue initializes => exact .classValue initializes

theorem FunctionDef.InitializesScopes.named (initializes : definition.InitializesScopes given)
    (name : Option String) : FunctionDef.InitializesScopes given { definition with name } := by
  cases initializes with
  | intro params isBody areLead declares areRest =>
      exact .intro params isBody areLead declares areRest

theorem FunctionDef.InitializesScopes.of_stmts
    (params : ScopesBelow given 0 (usedNamesOfParams true definition.params))
    (stmts : ∀ stmt ∈ definition.body, stmt.InitializesScopes given 0) :
    definition.InitializesScopes given :=
  .intro params (by rw [append_nil, append_nil]) stmts (fun _ _ found => by simp at found)
    (fun _ member => absurd member not_mem_nil)

/-- All statements declare the variables for captured scopes before they use them. -/
def Written.InitializesAll (written : Written) (stmts : List Stmt) : Prop :=
  ∀ stmt ∈ stmts, stmt.InitializesScopes written.context.Gives 0

namespace Written

variable {written : Written} {id : ValueId} {inst : FunctionInstance} {method : MethodInstance}

/-! ## What instances keep -/

section

variable (facts : written.ScopeFacts) (isInstance : written.session.HasInstance id inst)

include facts isInstance

theorem ScopeFacts.initializes_extras : written.InitializesAll inst.extras :=
  fun stmt member => .plain
    ((((facts.complete.namesKept.instances id inst isInstance).extras stmt member).scopesBelow
      facts.complete.kept.named).gives 0)

theorem ScopeFacts.initializes_definition
    (initializes : stmt.InitializesScopes written.context.Gives 0) :
    written.InitializesAll (stmt :: inst.extras) :=
  forall_mem_cons.mpr ⟨initializes, facts.initializes_extras isInstance⟩

theorem ScopeFacts.scopesBelow_name : ScopesBelow written.context.Gives 0 [inst.name] := by
  obtain ⟨function, instanceFacts⟩ := facts.complete.facts isInstance
  exact Session.scopesBelow_value facts.complete.kept.named instanceFacts.named

theorem ScopeFacts.scopesBelow_key (isMethod : inst.method = some method) :
    ScopesBelow written.context.Gives 0 (method.key.usedNames true) := by
  obtain ⟨function, source, superClass, isFunction, isClass, rfl, -⟩ :=
    facts.complete.kept.equipped.methods id inst method isInstance isMethod
  unfold Session.methodInstance
  dsimp only
  split
  · rename_i isComputed
    refine (Session.scopesBelow_path (mem_append_right _ ?_)).gives 0
    exact mem_filterMap.mpr ⟨_, Arena.mem_toList_of_get? isFunction, by simp [isClass, isComputed]⟩
  · exact .nil

end

theorem scopesBelow_valueExpr {className : String}
    (key : ScopesBelow given 0 (method.key.usedNames true))
    (name : ScopesBelow given 0 [className]) :
    ScopesBelow given 0 ((method.valueExpr className).usedNames true) := by
  have holder : ScopesBelow given 0 ((if method.isStatic then Expr.var className
      else .member (.var className) "prototype").usedNames true) := by split <;> exact name
  have keyExpr : ScopesBelow given 0 (method.keyExpr.usedNames true) := by
    unfold MethodInstance.keyExpr
    split
    · exact .nil
    · rename_i isKey
      rwa [isKey] at key
  have descriptor : ScopesBelow given 0 ((Expr.methodCall (.var "Object") "getOwnPropertyDescriptor"
      [if method.isStatic then Expr.var className else .member (.var className) "prototype",
        method.keyExpr]).usedNames true) :=
    ScopesBelow.append_iff.mpr ⟨Session.scopesBelow_object,
      ScopesBelow.exprs_iff.mpr (by simpa using ⟨holder, keyExpr⟩)⟩
  unfold MethodInstance.valueExpr
  dsimp only
  split
  · exact descriptor
  · exact descriptor
  · exact holder
  · rename_i isKey _ _
    rw [isKey] at key
    exact ScopesBelow.append_iff.mpr ⟨holder, key⟩

theorem ScopeFacts.initializes_memberGroup (facts : written.ScopeFacts)
    (isInstance : written.session.HasInstance id inst) (isMethod : inst.method = some method)
    {group : List Stmt} (found : Assembly.memberGroup written inst method = .ok group) :
    written.InitializesAll group := by
  obtain ⟨constructor, isConstructor, same⟩ := bind_eq_ok.mp found
  obtain rfl := pure_eq_ok.mp same
  exact facts.initializes_definition isInstance (.plain (scopesBelow_valueExpr
    (facts.scopesBelow_key isInstance isMethod)
    (facts.scopesBelow_name (instanceOf_eq_ok isConstructor))))

/-! ## What roots keep -/

theorem ScopeFacts.scopesBelow_writeBacks (facts : written.ScopeFacts)
    (isRecord : record ∈ written.roots) {assignments : List Stmt}
    (found : Assembly.writeBacks written inst record = .ok assignments)
    (member : stmt ∈ assignments) :
    ScopesBelow written.context.Gives inst.scopes.length (stmt.usedNames true) := by
  have recordFacts := facts.complete.records record isRecord
  obtain ⟨root, isRoot, -, -, -, sameNames, -⟩ := recordFacts.root
  obtain ⟨⟨name, value⟩, isBinding, isAssigned⟩ := exists_of_mem_mapM found member
  obtain ⟨replacement, isReplacement, same⟩ := bind_eq_ok.mp isAssigned
  obtain rfl := pure_eq_ok.mp same
  refine ScopesBelow.append_iff.mpr ⟨?_, ?_⟩
  · cases replacement with
    | some target => exact scopesBelow_replacementFor facts.complete isReplacement
    | none =>
      have isListed : name ∈ root.modifiedBindings.map (·.1) :=
        sameNames ▸ mem_map.mpr ⟨_, isBinding, rfl⟩
      intro position isName
      rw [mem_singleton.mp isName]
      exact .inl (.inr (.inr ⟨root, isRoot, isListed⟩))
  · obtain ⟨id, refers⟩ := recordFacts.values value (.inl (mem_map.mpr ⟨_, isBinding, rfl⟩))
    exact (refers.meansAll.scopesBelow facts.complete.kept.named).gives _

theorem ScopeFacts.scopesBelow_result (facts : written.ScopeFacts)
    (isRecord : record ∈ written.roots) {bound : Nat}
    (member : stmt ∈ record.result.toList.map fun value => Stmt.returnValue (some value)) :
    ScopesBelow written.context.Gives bound (stmt.usedNames true) := by
  obtain ⟨value, isResult, rfl⟩ := mem_map.mp member
  obtain ⟨id, refers⟩ := (facts.complete.records record isRecord).values value
    (.inr (Option.mem_toList.mp isResult))
  exact (refers.meansAll.scopesBelow facts.complete.kept.named).gives _

/-! ## What closures pass -/

theorem ScopeFacts.scopesBelow_leading (facts : written.ScopeFacts) {code : CodeBlock}
    {instances : List FunctionInstance} (planFacts : written.PlanFacts code first instances plan)
    (isInstance : written.session.HasInstance id inst) (member : inst ∈ instances)
    {selectors args : List Expr} (leading : LeadingArgs written code plan inst selectors args) :
    ∀ expr ∈ selectors ++ args, ScopesBelow written.context.Gives 0 (expr.usedNames true) := by
  intro expr isLeading
  rcases mem_append.mp isLeading with isSelector | isArg
  · obtain ⟨_, _, _, _, rfl⟩ := exists_related leading.areSelectors.flip isSelector
    exact .nil
  · obtain ⟨name, isVarying, passes⟩ := exists_related leading.areArgs.flip isArg
    obtain ⟨plans, planned⟩ := FactoryPlan.mem_varyingNames.mp isVarying
    change written.PassesFor code inst name expr at passes
    unfold PassesFor at passes
    split at passes
    · rw [passes]
      exact facts.scopesBelow_name isInstance
    · rename_i notItself
      obtain ⟨key, binding, resolves⟩ := resolves_of_replacementFor passes
      refine resolves.scopesBelow facts.complete fun isSlot => ?_
      cases planFacts.varying planned with
      | itself refers isName => exact absurd ⟨refers, isName⟩ notItself
      | captured _ resolvesAll notShared =>
        obtain ⟨found, isFound, -, isBinding⟩ := exists_related resolvesAll member
        have unshared := notShared found isFound
        rw [bindingOf?_of_resolves resolves] at isBinding
        simp [ResolvedName.isShared, isBinding, isSlot, Storage.isShared] at unshared

end Written

theorem ClassNode.initializes_add {node : ClassNode}
    (initializes : node.definition.InitializesScopes given) {method : MethodInstance}
    (key : ScopesBelow given 0 (method.key.usedNames true))
    (superClass : ∀ value, method.superClass = some value →
      ScopesBelow given 0 (value.usedNames true)) (defines : definition.InitializesScopes given)
    {className : Option String} :
    (node.add method className definition).definition.InitializesScopes given := by
  cases initializes with
  | intro known keys members =>
    unfold ClassNode.add
    dsimp only
    split
    · exact .intro superClass (forall_mem_cons.mpr ⟨key, keys⟩)
        (forall_mem_cons.mpr ⟨defines.named none, members⟩)
    · exact .intro known (forall_mem_append.mpr ⟨keys, forall_mem_singleton.mpr key⟩)
        (forall_mem_append.mpr
          ⟨members, forall_mem_singleton.mpr (defines.named none)⟩)

/-! ## Definitions -/

namespace Assembly

variable {codeId : CodeId} {function : FunctionValue} {factory : String}

variable {written : Written} {code : CodeBlock} {inst : FunctionInstance} {id : ValueId}
  {before after : Assembly} {result : Unit}

theorem initializes_copy (facts : written.ScopeFacts)
    (closure : written.IsClosure codeId function inst)
    (isInstance : written.session.HasInstance inst.function inst)
    (isCode : written.IsCode codeId code) {replacements : Replacements}
    (areReplacements : written.replacementsFor inst = .ok replacements)
    {prologue init : List Stmt}
    (isPrologue : written.scopePrologue inst (fun _ scope => written.selectorLiteral scope) =
      .ok prologue) (areInit : written.InitializesAll init) :
    FunctionDef.InitializesScopes written.context.Gives { code.function.replace replacements with
      body := init ++ prologue ++ (code.function.replace replacements).body } := by
  have uses := facts.usesOwnScopes_copy closure isInstance isCode areReplacements
  obtain ⟨declares, sameLength⟩ := Written.declaresScopes_literals isPrologue
  refine .intro uses.params rfl areInit declares fun stmt member => .plain ?_
  rw [sameLength]
  exact ScopesBelow.stmts_iff.mp uses.body stmt member

theorem usedNames_plainParams (names : List String) (params : List Param) :
    usedNamesOfParams true (names.map Param.plain ++ params) = usedNamesOfParams true params := by
  induction names with
  | nil => rfl
  | cons name names induction => exact induction

theorem initializes_factory (facts : written.ScopeFacts) {others : List FunctionInstance}
    (closure : written.IsClosure codeId function first)
    (isInstance : written.session.HasInstance first.function first)
    (isCode : written.IsCode codeId code)
    (planFacts : written.PlanFacts code first (first :: others) plan)
    (found : factoryDefinition written code plan factory first = .ok definition) :
    definition.InitializesScopes written.context.Gives := by
  obtain ⟨prologue, isPrologue, rfl⟩ := factoryDefinition_eq_ok found
  have uses := facts.usesOwnScopes_bake closure isInstance isCode planFacts
  have selectors : ∀ position (scope : ScopeId) expr,
      (return .var (selectorParamName position) : Except Failure Expr) = .ok expr →
      ScopesBelow written.context.Gives 0 (expr.usedNames true) := by
    intro position _ expr found
    obtain rfl := pure_eq_ok.mp found
    exact .of_letter 3 'e' (letter_append _ (by decide)) (by decide)
  obtain ⟨declares, sameLength⟩ := Written.declaresScopes_scopePrologue isPrologue selectors
  have areSelectors : (List.range plan.scopeCount).map (fun position =>
      Param.plain (selectorParamName position)) =
      ((List.range plan.scopeCount).map selectorParamName).map Param.plain := by
    rw [map_map]
    rfl
  refine .intro ?_ (nil_append _).symm (fun _ member => absurd member not_mem_nil)
    declares fun stmt member => .plain ?_
  · dsimp only
    rw [areSelectors, append_assoc, usedNames_plainParams, usedNames_plainParams]
    exact uses.params
  · rw [sameLength]
    exact ScopesBelow.stmts_iff.mp uses.body stmt member

/-! ## Collected statements -/

/-- What has been collected declares the variables for captured scopes before it uses them, and the
bodies hold statements of the session. -/
structure Initializes (written : Written) (assembly : Assembly) : Prop where
  size : assembly.bodies.arena.size = written.session.bodies.arena.size
  bodies : ∀ body, assembly.bodies.stmts body ⊆ written.session.bodies.stmts body
  waiting : ∀ entry ∈ assembly.splices.waiting, written.InitializesAll entry.2.stmts
  globalPrelude : written.InitializesAll assembly.globalPrelude
  rootPreludes : ∀ root stmts, assembly.rootPreludes.get? root = some stmts →
    written.InitializesAll stmts
  classes : ∀ prototype node, assembly.classes.get? prototype = some node →
    node.definition.InitializesScopes written.context.Gives

namespace Initializes

section

variable (initializes : Initializes written before)

include initializes

theorem stmts (facts : written.ScopeFacts) (body : BodyId) :
    written.InitializesAll (before.bodies.stmts body) :=
  fun stmt member => .plain (facts.stmts body stmt (initializes.bodies body member))

theorem rootPrelude (root : ValueId) :
    written.InitializesAll ((before.rootPreludes.get? root).getD []) := by
  cases found : before.rootPreludes.get? root with
  | none => exact fun _ member => absurd member not_mem_nil
  | some stmts => exact initializes.rootPreludes root stmts found

theorem waiting_add {point : Position} {order : Nat} {stmts : List Stmt}
    (areStmts : written.InitializesAll stmts) :
    ∀ entry ∈ (before.splices.add point order stmts).waiting,
      written.InitializesAll entry.2.stmts := by
  intro entry member
  unfold Splices.add at member
  split at member
  · exact initializes.waiting entry member
  · rcases mem_append.mp member with old | new
    · exact initializes.waiting entry old
    · rw [mem_singleton.mp new]
      exact areStmts

theorem splice {point : Position} {order : Nat} {stmts : List Stmt}
    (areStmts : written.InitializesAll stmts)
    (runs : Runs (Assembly.splice point order stmts) before result after) :
    Initializes written after := by
  obtain rfl := runs_splice.mp runs
  exact { initializes with waiting := initializes.waiting_add areStmts }

theorem clear (body : BodyId) :
    Initializes written { before with bodies := before.bodies.setStmts body [] } := by
  refine { initializes with
    size := (Bodies.size_setStmts _ _ _).trans initializes.size
    bodies := fun other => ?_ }
  dsimp only
  rw [Bodies.stmts_setStmts_nil]
  split
  · exact nil_subset _
  · exact initializes.bodies other

theorem delayedInit (facts : written.ScopeFacts) (isInstance : written.session.HasInstance id inst)
    {init : List Stmt} (runs : Runs (Assembly.delayedInit inst) before init after) :
    Initializes written after ∧ written.InitializesAll init := by
  unfold Assembly.delayedInit at runs
  split at runs
  · obtain ⟨rfl, rfl⟩ := pure_iff.mp runs
    exact ⟨initializes, fun _ member => absurd member not_mem_nil⟩
  · rename_i delayed isDelayed
    simp only [Runs.bind_iff, runs_takeBody, pure_iff] at runs
    obtain ⟨_, _, ⟨rfl, rfl⟩, rfl, rfl⟩ := runs
    refine ⟨initializes.clear delayed.body, fun stmt member => ?_⟩
    rw [mem_singleton.mp member]
    have flag : ScopesBelow written.context.Gives 0 [delayed.flag] := by
      obtain ⟨number, isFlag⟩ :=
        (facts.complete.namesKept.instances id inst isInstance).flag delayed isDelayed
      rw [isFlag]
      exact .of_letter 2 'i' (letter_append _ (by decide)) (by decide)
    refine .plain (ScopesBelow.append_iff.mpr ⟨ScopesBelow.append_iff.mpr ⟨flag, ?_⟩, .nil⟩)
    refine ScopesBelow.stmts_iff.mpr (forall_mem_cons.mpr ⟨?_, fun stmt member => ?_⟩)
    · exact ScopesBelow.append_iff.mpr ⟨flag, .nil⟩
    · exact facts.stmts _ stmt (initializes.bodies _ member)

theorem addToPrelude {placement : Option ValueId} {stmts : List Stmt}
    (areStmts : written.InitializesAll stmts)
    (runs : Runs (Assembly.addToPrelude placement stmts) before result after) :
    Initializes written after := by
  simp only [Assembly.addToPrelude, modify_iff] at runs
  subst runs
  cases placement with
  | none =>
    exact { initializes with
      globalPrelude := forall_mem_append.mpr ⟨initializes.globalPrelude, areStmts⟩ }
  | some placement =>
    refine { initializes with rootPreludes := fun root prelude found => ?_ }
    rw [KeyedTable.get?_insert] at found
    split at found
    · cases found
      exact forall_mem_append.mpr ⟨initializes.rootPrelude placement, areStmts⟩
    · exact initializes.rootPreludes root prelude found

end

/-! ## Classes -/

theorem addClassMember (initializes : Initializes written before) (facts : written.ScopeFacts)
    (isInstance : written.session.HasInstance id inst) {method : MethodInstance}
    (isMethod : inst.method = some method)
    (defines : definition.InitializesScopes written.context.Gives)
    (runs : Runs (Assembly.addClassMember method code definition) before result after) :
    Initializes written after := by
  simp only [Assembly.addClassMember, modify_iff] at runs
  subst runs
  refine { initializes with classes := fun prototype node found => ?_ }
  rw [KeyedTable.get?_insert] at found
  split at found
  · cases found
    refine ClassNode.initializes_add ?_ (facts.scopesBelow_key isInstance isMethod)
      (fun value isSuper => ?_) defines
    · cases known : before.classes.get? method.classPrototype with
      | none =>
        refine .intro (fun value isSuper => ?_) (fun _ member => ?_) (fun _ member => ?_)
        · cases isSuper
        · cases member
        · cases member
      | some node => exact initializes.classes _ node known
    · exact (((facts.complete.namesKept.instances id inst isInstance).superClass method value
        isMethod isSuper).scopesBelow facts.complete.kept.named).gives 0
  · exact initializes.classes prototype node found

theorem defineClass (initializes : Initializes written before) (facts : written.ScopeFacts)
    {prototype : ValueId}
    (runs : Runs (Assembly.defineClass written prototype) before result after) :
    Initializes written after := by
  rcases defineClass_cases runs with ⟨_, rfl⟩ |
    ⟨node, constructor, point, isClass, -, isConstructor, -, -, rfl⟩
  · exact initializes
  · have group : written.InitializesAll (classGroup node constructor) :=
      facts.initializes_definition (Written.instanceOf_eq_ok isConstructor)
        (.classValue (initializes.classes prototype node isClass))
    refine { initializes with
      waiting := initializes.waiting_add group
      classes := fun other found isFound => ?_ }
    rw [KeyedTable.get?_erase] at isFound
    split at isFound
    · cases isFound
    · exact initializes.classes other found isFound

/-! ## Code blocks -/

section

variable (initializes : Initializes written before) (facts : written.ScopeFacts)

include initializes facts

theorem defineClone (closure : written.IsClosure codeId function inst)
    (isInstance : written.session.HasInstance inst.function inst)
    (isCode : written.IsCode codeId code)
    (runs : Runs (Assembly.defineClone written code inst) before result after) :
    Initializes written after := by
  simp only [Assembly.defineClone, Runs.bind_iff, Runs.lift_iff] at runs
  obtain ⟨point, before, ⟨-, rfl⟩, replacements, before, ⟨areReplacements, rfl⟩, prologue, before,
    ⟨isPrologue, rfl⟩, init, middle, delaying, placing⟩ := runs
  obtain ⟨delayed, areInit⟩ := initializes.delayedInit facts isInstance delaying
  have copy := initializes_copy facts closure isInstance isCode areReplacements isPrologue areInit
  split at placing
  · exact delayed.splice (facts.initializes_definition isInstance (.functionValue copy)) placing
  · rename_i method isMethod
    obtain ⟨_, added, adding, placing⟩ := Runs.bind_iff.mp placing
    have entered := delayed.addClassMember facts isInstance isMethod copy adding
    split at placing
    · obtain ⟨_, rfl⟩ := pure_iff.mp placing
      exact entered
    · simp only [Runs.bind_iff, Runs.lift_iff] at placing
      obtain ⟨group, _, ⟨isGroup, rfl⟩, placing⟩ := placing
      exact entered.splice (facts.initializes_memberGroup isInstance isMethod isGroup) placing

theorem callStub (isInstance : written.session.HasInstance id inst)
    (isCode : written.IsCode codeId code)
    (isFactory : ScopesBelow written.context.Gives 0 [factory]) {leading : List Expr}
    (areLeading : ∀ expr ∈ leading, ScopesBelow written.context.Gives 0 (expr.usedNames true))
    {stub : Stmt} (runs : Runs (Assembly.callStub inst code factory leading) before stub after) :
    Initializes written after ∧ stub.InitializesScopes written.context.Gives 0 := by
  simp only [Assembly.callStub, Runs.bind_iff, Runs.lift_iff, pure_iff] at runs
  obtain ⟨⟨params, args⟩, _, ⟨areParams, rfl⟩, init, _, delaying, rfl, rfl⟩ := runs
  obtain ⟨delayed, areInit⟩ := initializes.delayedInit facts isInstance delaying
  have forwards := forwards_forwardParams areParams
  have areArgs : ScopesBelow written.context.Gives 0 (usedNamesOfExprs true args) := by
    intro position used
    have isBound : scopeLocalName position ∈ code.function.surroundings.bound := by
      refine FunctionDef.mem_surroundings_bound.mpr ⟨?_, fun same => ?_⟩
      · simp only [FunctionDef.boundNames, mem_append]
        exact .inl (.inl (.inl (forwards.used used)))
      · have letter : (scopeLocalName position).toList[0]? = some '_' := letter_append _ (by decide)
        rw [same] at letter
        exact absurd letter (by decide)
    have isMention : Mention.declared (scopeLocalName position) ∈ code.function.mentions :=
      mem_append_left _ (mem_append_left _
        (mem_map_of_mem (mem_append_right _ isBound)))
    exact .inl (Context.gives_of_mention facts.facts isCode isMention rfl)
  refine ⟨delayed, .function (.of_stmts ?_ (forall_mem_append.mpr ⟨areInit, ?_⟩))⟩
  · rw [forwards.noDefaults]
    exact .nil
  · refine forall_mem_singleton.mpr (.plain (ScopesBelow.append_iff.mpr ⟨isFactory, ?_⟩))
    refine ScopesBelow.exprs_iff.mpr fun expr member => ?_
    rcases mem_append.mp member with member | isArg
    · rcases mem_cons.mp member with rfl | isLeading
      · exact .nil
      · exact areLeading expr isLeading
    · exact ScopesBelow.exprs_iff.mp areArgs expr isArg

theorem defineStub {instances : List FunctionInstance}
    (planFacts : written.PlanFacts code first instances plan) {number : Nat}
    (isNumber : instances[number]? = some inst) (isInstance : written.session.HasInstance id inst)
    (isCode : written.IsCode codeId code)
    (isFactory : ScopesBelow written.context.Gives 0 [factory])
    (runs : Runs (Assembly.defineStub written code code.function.facts plan factory number inst)
      before result after) :
    Initializes written after := by
  simp only [Assembly.defineStub, Runs.bind_iff, Runs.lift_iff] at runs
  obtain ⟨point, before, ⟨-, rfl⟩, selectors, before, ⟨areSelectors, rfl⟩, needs, before, ⟨-, rfl⟩,
    making⟩ := runs
  have areLeading := facts.scopesBelow_leading planFacts isInstance (mem_of_getElem? isNumber)
    (leadingArgs planFacts isNumber areSelectors)
  split at making
  · simp only [Runs.bind_iff, runs_count] at making
    obtain ⟨_, _, rfl, stub, middle, calling, splicing⟩ := making
    have counted : Initializes written
        { before with report := { before.report with callStubs := before.report.callStubs + 1 } } :=
      { initializes with }
    obtain ⟨called, isStub⟩ := counted.callStub facts isInstance isCode isFactory areLeading calling
    exact called.splice (facts.initializes_definition isInstance isStub) splicing
  · simp only [Runs.bind_iff, runs_count, pure_iff] at making
    obtain ⟨_, _, rfl, _, _, ⟨rfl, rfl⟩, splicing⟩ := making
    have counted : Initializes written
        { before with report := { before.report with bindStubs := before.report.bindStubs + 1 } } :=
      { initializes with }
    refine counted.splice (facts.initializes_definition isInstance (.plain ?_)) splicing
    refine ScopesBelow.append_iff.mpr ⟨isFactory, ScopesBelow.exprs_iff.mpr ?_⟩
    exact forall_mem_cons.mpr ⟨.nil, areLeading⟩

theorem defineBlock {groups : List BlockGroup} {group : BlockGroup}
    (areGroups : blockGroups written = .ok groups) (isGroup : group ∈ groups)
    (runs : Runs (Assembly.defineBlock written group.code group.functions) before result after) :
    Initializes written after := by
  obtain ⟨code, instances, isCode, areInstances, defined⟩ := defineBlock_cases facts.facts runs
  have closures : ∀ inst ∈ instances, ∃ function, written.IsClosure group.code function inst :=
    fun inst => Written.isClosure_of_mem facts.complete areGroups isGroup areInstances
  have known : ∀ inst ∈ instances, written.session.instances.get? inst.function = some inst :=
    fun inst member => (Written.get?_of_mem_mapM facts.complete areInstances member).2
  rcases defined with ⟨plan, first, others, rfl, shares, runs⟩ | ⟨-, report, runs⟩
  · have planFacts := Written.planFacts_of_planFactory shares.2
    simp only [defineFactory, Runs.bind_iff, get_iff, modify_iff, Runs.lift_iff,
      runs_count] at runs
    obtain ⟨_, _, rfl, _, _, ⟨rfl, rfl⟩, _, _, rfl, definition, _, ⟨isDefinition, rfl⟩, _, placed,
      placing, stubs⟩ := runs
    obtain ⟨_, closure⟩ := closures first mem_cons_self
    have factory := initializes_factory facts closure (known first mem_cons_self) isCode
      planFacts isDefinition
    have counted : Initializes written
        { before with
          report := { before.report with factoryBlocks := before.report.factoryBlocks + 1 }
          factoryCount := before.factoryCount + 1 } := { initializes with }
    refine forM_invariant (fun item member before after runs initializes => ?_) stubs
      (counted.addToPrelude (forall_mem_singleton.mpr (.function factory)) placing)
    have isNumber := List.mem_zipIdx_iff_getElem?.mp member
    exact initializes.defineStub facts planFacts isNumber (known _ (mem_of_getElem? isNumber))
      isCode (.of_letter 0 '$' (letter_append _ (by decide)) (by decide)) runs
  · have counted : Initializes written { before with report } := { initializes with }
    refine forM_invariant (fun inst member before after runs initializes => ?_) runs counted
    obtain ⟨_, closure⟩ := closures inst member
    exact initializes.defineClone facts closure (known inst member) isCode runs

end

/-! ## Optimized roots -/

section

variable (initializes : Initializes written before)

include initializes

theorem spliced (facts : written.ScopeFacts) {body : BodyId} {stmts : List Stmt}
    (found : spliceInto body (before.splices.groupsOf body) (before.bodies.stmts body) =
      .ok stmts) :
    written.InitializesAll stmts := by
  intro stmt member
  exact ((Splices.spliced_groupsOf initializes.waiting found).mem_or member).elim
    (initializes.stmts facts body stmt) id

theorem takingRoot (record : RootRecord) : Initializes written (before.takingRoot record) := by
  refine { initializes.clear record.body with
    waiting := fun entry member => initializes.waiting entry (mem_filter.mp member).1
    rootPreludes := fun root prelude found => ?_ }
  change (before.rootPreludes.erase record.function).get? root = some prelude at found
  rw [KeyedTable.get?_erase] at found
  split at found
  · cases found
  · exact initializes.rootPreludes root prelude found

/-- A root uses its variables for captured scopes in the assignments at its end. -/
theorem rootBody (facts : written.ScopeFacts) (isRecord : record ∈ written.roots)
    (isInstance : written.session.HasInstance record.function inst)
    (isCode : written.IsCode codeId code) {body : List Stmt}
    (runs : Runs (Assembly.rootBody written inst record) before body after) :
    Initializes written after ∧
      FunctionDef.InitializesScopes written.context.Gives { code.function with body } := by
  have recordFacts := facts.complete.records record isRecord
  have present : before.bodies.Has record.body := by
    rw [Bodies.Has, initializes.size]
    exact recordFacts.present
  obtain ⟨spliced, prologue, assignments, init, isSpliced, isPrologue, areAssignments, delaying,
    rfl⟩ := runs_rootBody present runs
  obtain ⟨delayed, areInit⟩ :=
    (initializes.takingRoot record).delayedInit facts isInstance delaying
  obtain ⟨declares, sameLength⟩ := Written.declaresScopes_literals isPrologue
  have areLead : written.InitializesAll (init ++
      written.session.captured.bootstrap (some record.function) ++
      (before.rootPreludes.get? record.function).getD []) := by
    refine forall_mem_append.mpr ⟨forall_mem_append.mpr ⟨areInit, fun stmt member => ?_⟩,
      initializes.rootPrelude record.function⟩
    exact .plain (facts.scopesBelow_bootstrap member)
  have areRest : ∀ stmt ∈ spliced ++ record.verbatim ++ assignments ++
      record.result.toList.map fun value => Stmt.returnValue (some value),
      stmt.InitializesScopes written.context.Gives prologue.length := by
    rw [sameLength]
    intro stmt member
    simp only [mem_append, or_assoc] at member
    rcases member with isValue | isVerbatim | isAssigned | isResult
    · exact (initializes.spliced facts isSpliced stmt isValue).mono _
    · exact .plain (facts.scopesBelow_verbatim isRecord isVerbatim)
    · exact .plain (facts.scopesBelow_writeBacks isRecord areAssignments isAssigned)
    · exact .plain (facts.scopesBelow_result isRecord isResult)
  refine ⟨delayed, .intro (facts.scopesBelow_params isCode) ?_ areLead declares areRest⟩
  simp only [append_assoc]

theorem releaseClass (facts : written.ScopeFacts) {prototype : ValueId}
    (runs : Runs (Assembly.releaseClass written prototype) before result after) :
    Initializes written after := by
  obtain ⟨_, _, -, rfl, ⟨-, runs⟩ | ⟨-, rfl⟩⟩ := releaseClass_cases runs
  · refine defineClass ?_ facts runs
    exact { initializes with }
  · exact { initializes with }

theorem defineRoot (facts : written.ScopeFacts) (isRecord : record ∈ written.roots)
    (runs : Runs (Assembly.defineRoot written record) before result after) :
    Initializes written after := by
  obtain ⟨inst, code, body, built, isInstance, isCode, building, placing⟩ := defineRoot_cases runs
  have isInstance := Written.instanceOf_eq_ok isInstance
  obtain ⟨taken, defines⟩ := initializes.rootBody facts isRecord isInstance isCode building
  have counted : Initializes written built.countingRoot := { taken with }
  rcases placing with ⟨-, adding⟩ | ⟨method, added, placed, isMethod, adding, splicing, releasing⟩
  · exact counted.addToPrelude (facts.initializes_definition isInstance (.functionValue defines))
      adding
  · have entered := counted.addClassMember facts isInstance isMethod defines adding
    refine releaseClass ?_ facts releasing
    rcases splicing with ⟨-, rfl⟩ | ⟨-, group, point, isGroup, -, -, splicing⟩
    · exact entered
    · exact entered.splice (facts.initializes_memberGroup isInstance isMethod isGroup) splicing

end

/-! ## All functions -/

theorem defineAll (initializes : Initializes written before) (facts : written.ScopeFacts)
    (runs : Runs (Assembly.defineAll written) before result after) : Initializes written after := by
  obtain ⟨groups, awaited, blocks, ready, areGroups, defining, -, readying, rooting⟩ :=
    runs_defineUpTo.mp (defineAll_cases runs).1
  have blocksDone : Initializes written _ :=
    forM_invariant (fun group isGroup _ _ runs initializes =>
      initializes.defineBlock facts areGroups isGroup runs) defining initializes
  have classesDone : Initializes written ready := by
    simp only [defineReadyClasses, Runs.get_bind] at readying
    exact forM_invariant (fun _ _ _ _ runs initializes => initializes.defineClass facts runs)
      readying { blocksDone with }
  exact forM_invariant (fun record member _ _ runs initializes =>
    initializes.defineRoot facts ((perm_definitionOrder _).mem_iff.mp member) runs) rooting
    classesDone

theorem assemble (initializes : Initializes written before) (facts : written.ScopeFacts)
    {prelude : List Stmt} (runs : Runs (Assembly.assemble written) before prelude after) :
    written.InitializesAll prelude ∧ ∀ body, written.InitializesAll (after.bodies.stmts body) := by
  obtain ⟨middle, bodies, defining, isApplied, rfl, rfl⟩ := assemble_cases runs
  have done := initializes.defineAll facts defining
  refine ⟨forall_mem_append.mpr ⟨fun stmt member => ?_, done.globalPrelude⟩,
    fun body stmt member => ?_⟩
  · exact .plain (facts.scopesBelow_bootstrap member)
  · exact ((Splices.spliced_applyEach done.waiting isApplied body).mem_or member).elim
      (done.stmts facts body stmt) id

end Initializes

end Assembly

end HeapScript
