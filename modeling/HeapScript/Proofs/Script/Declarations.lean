import HeapScript.Proofs.Assembly.Completion
import HeapScript.Proofs.Session.Accounts
import Mathlib.Algebra.Order.Group.Int
import Mathlib.Algebra.Order.Group.Nat
import Mathlib.Algebra.Order.Monoid.OrderDual

/-!
Every value that has been reached is declared once in the whole script.

An object is declared by a statement of its own, a function by its definition, and a `prototype` by
an alias that follows the definition of its function. The script keeps the weights of all names, so
that nothing is declared again and nothing is forgotten.
-/

namespace HeapScript

open List

variable {id : ValueId} {purpose : Purpose} {body : BodyId} {name : String} {entries : List Entry}

/-! ## Weighing names -/

section

variable {M : Type} [AddCommMonoid M]

variable [PartialOrder M]

/-- Each block weighs as much as its statements. -/
def Weighing.ofStmts (name : String → M) (stmt : Stmt → M) : Weighing M where
  name
  stmt
  block stmts := (stmts.map stmt).sum
  block_nil := rfl
  block_insert start inserted rest := by
    simp only [map_append, sum_append]
    exact le_of_eq (by abel)

/-- Each statement weighs as much as the names that it declares. -/
def Weighing.ofNames (weight : String → M) : Weighing M :=
  .ofStmts weight fun stmt => (stmt.declares.map weight).sum

theorem Weighing.blocks_ofNames (weight : String → M) (blocks : List (List Stmt)) :
    (Weighing.ofNames weight).blocks blocks = ((declaredIn blocks).map weight).sum := by
  simp [Weighing.blocks, ofNames, ofStmts, declaredIn, flatMap_def, sum_flatten,
    Function.comp_def]

end

def weighOnly (target : String) (weight : Int) (name : String) : Int :=
  if name = target then weight else 0

theorem sum_weighOnly (target : String) (weight : Int) (names : List String) :
    (names.map (weighOnly target weight)).sum = weight * names.count target := by
  induction names with
  | nil => simp
  | cons name names induction =>
    by_cases same : name = target
    · simp [weighOnly, same, induction, mul_add, add_comm]
    · simp [weighOnly, same, induction, count_cons_of_ne]

theorem sum_indicator {α : Type} (holds : α → Bool) (items : List α) :
    (items.map fun item => if holds item then 1 else 0).sum = items.countP holds := by
  induction items with
  | nil => rfl
  | cons item items induction =>
    rw [map_cons, sum_cons, induction, countP_cons, add_comm]

/-! ## Where values are declared -/

namespace Purpose

/-- Whether the statement declares the variable of the object. -/
def isDeclaration (id : ValueId) : Purpose → Bool
  | .declared other _ => other = id
  | _ => false

@[simp] theorem isDeclaration_declared (id : ValueId) (creation : Creation) :
    (declared id creation).isDeclaration id = true := by
  simp [isDeclaration]

theorem subject_of_isDeclaration (declares : purpose.isDeclaration id = true) :
    purpose.subject = .value id := by
  cases purpose <;> simp_all [isDeclaration, subject]

@[simp] theorem isDeclaration_created (id other : ValueId) (creation : Creation) :
    (created other creation).isDeclaration id = false := rfl

@[simp] theorem isDeclaration_link (id other : ValueId) :
    (link other).isDeclaration id = false := rfl

end Purpose

def declarationCount (id : ValueId) (places : Multiset (BodyId × Purpose)) : Nat :=
  places.countP fun place => place.2.isDeclaration id

@[simp] theorem declarationCount_zero (id : ValueId) : declarationCount id 0 = 0 := rfl

theorem declarationCount_add (id : ValueId) (places others : Multiset (BodyId × Purpose)) :
    declarationCount id (places + others) =
    declarationCount id places + declarationCount id others :=
  Multiset.countP_add _ _ _

@[simp] theorem declarationCount_singleton (id : ValueId) (place : BodyId × Purpose) :
    declarationCount id {place} = if place.2.isDeclaration id then 1 else 0 := by
  cases declares : place.2.isDeclaration id <;>
    simp [declarationCount, ← Multiset.cons_zero, declares]

theorem declarationCount_eq_zero {places : Multiset (BodyId × Purpose)}
    (none : ∀ place ∈ places, place.2.isDeclaration id = false) : declarationCount id places = 0 :=
  Multiset.countP_eq_zero.mpr fun place member => by simp [none place member]

/-- All names that the definition of a function declares. -/
def FunctionInstance.definedNames (inst : FunctionInstance) : List String :=
  inst.name :: inst.extraNames

namespace Session

variable {M : Type} [AddCommMonoid M] [PartialOrder M] {context : Context} {session : Session}
  {entries : List Entry}

/-- A statement declares the name of the object whose declaration it is, and no other value. -/
theorem Serves.count_declares {stmt : Stmt} (serves : session.Serves context body purpose stmt)
    (names : Named context session) (named : session.HasName id name) :
    stmt.declares.count name = if purpose.isDeclaration id then 1 else 0 := by
  have notShared : ∀ number, sharedName number ≠ name := fun number same =>
    names.ne_of_line named (letter_append _ (by decide)) same.symm
  cases serves with
  | @declared other creation otherName init otherNamed creates =>
    by_cases same : other = id
    · subst same
      obtain rfl := Option.some.inj (named.symm.trans otherNamed)
      simp [Stmt.declares, Purpose.isDeclaration]
    · have different : otherName ≠ name := by
        rintro rfl
        exact same (names.distinct _ _ _ otherNamed named)
      simp [Stmt.declares, Purpose.isDeclaration, same, different]
  | sharedVariable => simp [Stmt.declares, Purpose.isDeclaration, notShared]
  | sharedInit => simp [Stmt.declares, Stmt.var, Purpose.isDeclaration, notShared]
  | _ => rfl

/-- The statements of a session hold no functions. -/
theorem Serves.blocks {stmt : Stmt} (serves : session.Serves context body purpose stmt) :
    stmt.blocks = [] := by
  have plain : ∀ {id expr}, session.Refers context body id expr → expr.blocks = [] :=
    fun refers => refers.isReference.blocks
  cases serves with
  | declared _ creates | created _ _ creates =>
    cases creates with
    | fromPrototype _ _ refers =>
      simp [Stmt.blocks, Expr.methodCall, Expr.blocks, blocksOfExprs, plain refers]
    | placeholder number _ =>
      simp [Stmt.blocks, Expr.methodCall, Expr.blocks, blocksOfExprs, Expr.nat,
        (Expr.isChain_path _).blocks]
    | _ => rfl
  | link _ _ refersTarget refers =>
    simp [setPrototypeOf, Stmt.blocks, Expr.methodCall, Expr.blocks, blocksOfExprs,
      plain refersTarget, plain refers]
  | property refersTarget refers =>
    simp [Stmt.blocks, Expr.blocks, plain refersTarget, plain refers]
  | @lock _ level _ _ refersTarget =>
    cases level <;>
      simp [lockStmt, Stmt.blocks, Expr.methodCall, Expr.blocks, blocksOfExprs, plain refersTarget]
  | sharedVariable => rfl
  | sharedInit refers => exact plain refers
  | sharedValue refers | globalAssign refers => simp [Stmt.blocks, Expr.blocks, plain refers]
  | propertyAssign refersTarget refers =>
    simp [Stmt.blocks, Expr.blocks, plain refersTarget, plain refers]
  | @call callee args function exprs refersCallee refers =>
    have noBlocks : blocksOfExprs exprs = [] := by
      clear refersCallee
      induction refers with
      | nil => rfl
      | cons first _ induction => simp [blocksOfExprs, plain first, induction]
    simp [Stmt.blocks, Expr.blocks, plain refersCallee, noBlocks]

namespace Accounts

theorem count_declares (accounts : session.Accounts context entries)
    (names : Named context session) (named : session.HasName id name) :
    (entries.flatMap (·.stmt.declares)).count name =
      declarationCount id (placesOf id entries) := by
  have each : ∀ entry ∈ entries, entry.stmt.declares.count name =
      if entry.purpose.isDeclaration id then 1 else 0 := fun entry member =>
    (accounts.records entry member).2.count_declares names named
  have places : declarationCount id (placesOf id entries) =
      entries.countP (·.purpose.isDeclaration id) := by
    rw [placesOf, declarationCount, Multiset.coe_countP, countP_map, countP_filter]
    refine countP_congr fun entry _ => ?_
    simpa [Entry.place] using Purpose.subject_of_isDeclaration
  rw [places, count_flatMap, ← sum_indicator]
  exact congrArg List.sum (map_congr_left each)

omit [PartialOrder M] in
/-- The statements of all bodies together are those of the accounts. -/
theorem total_eq (accounts : session.Accounts context entries) {whole : List Stmt → M}
    {weight : Stmt → M}
    (additive : ∀ stmts : List Stmt, (∀ stmt ∈ stmts, stmt.blocks = []) →
      whole stmts = (stmts.map weight).sum) :
    session.bodies.total whole = (entries.map fun entry => weight entry.stmt).sum := by
  have perBody : ∀ body, whole (session.bodies.stmts body) =
      ((entries.filter (·.body = body)).map fun entry => weight entry.stmt).sum := by
    intro body
    have noBlocks : ∀ stmt ∈ session.bodies.stmts body, stmt.blocks = [] := by
      intro stmt member
      rw [accounts.stmts body] at member
      obtain ⟨entry, isEntry, rfl⟩ := mem_map.mp member
      exact (accounts.records entry (mem_of_mem_filter isEntry)).2.blocks
    rw [additive _ noBlocks, accounts.stmts body, map_map]
    rfl
  let bodies : List BodyId := (List.range session.bodies.arena.size).map Handle.mk
  have distinct : bodies.Nodup :=
    nodup_range.map fun _ _ same => congrArg Handle.index same
  have inside : ∀ entry ∈ entries, entry.body ∈ bodies := fun entry member =>
    mem_map.mpr ⟨entry.body.index, mem_range.mpr (accounts.records entry member).1, rfl⟩
  have grouped := perm_flatMap_filter Entry.body distinct inside
  have isTotal : session.bodies.total whole =
      (bodies.map fun body => whole (session.bodies.stmts body)).sum := by
    simp only [Bodies.total, bodies, map_map, Finset.sum_eq_multiset_sum, Finset.range_val]
    rfl
  rw [← (grouped.map fun entry => weight entry.stmt).sum_eq, map_flatMap, flatMap_def,
    sum_flatten, map_map, isTotal]
  simp only [perBody, Function.comp_def]

theorem total_ofStmts (accounts : session.Accounts context entries) (name : String → M)
    (weight : Stmt → M) : session.bodies.total (Weighing.ofStmts name weight).closed =
      (entries.map fun entry => weight entry.stmt).sum := by
  refine accounts.total_eq fun stmts plain => ?_
  have noBlocks : blocksWithin stmts = [] := by
    induction stmts with
    | nil => rfl
    | cons stmt stmts induction => simp_all [blocksWithin]
  rw [Weighing.closed_eq, noBlocks, Weighing.blocks_nil, add_zero]
  rfl

end Accounts

end Session

/-! ## What declares a value -/

namespace Context

variable {context : Context} {id : ValueId}

/-- The function whose definition declares a value; an object has a statement of its own. -/
def introducer? (context : Context) (id : ValueId) : Option ValueId :=
  match context.graph.values.get? id with
  | some (.function _) => some id
  | _ => context.prototypeOwners.get? id

theorem introducer?_of_function {function : FunctionValue}
    (isFunction : context.IsFunction id function) :
    context.introducer? id = some id := by
  simp [introducer?, isFunction]

theorem introducer?_of_object {object : ObjectValue}
    (isObject : context.IsObject id object) :
    context.introducer? id = context.prototypeOwners.get? id := by
  simp [introducer?, isObject]

theorem declarationCount_filling (context : Context) (id : ValueId) (body : BodyId) :
    declarationCount id (context.filling id body) = 0 := by
  refine declarationCount_eq_zero fun place member => ?_
  rcases Multiset.mem_add.mp member with isProperty | isLock
  · obtain ⟨property, _, rfl⟩ := mem_map.mp (Multiset.mem_coe.mp isProperty)
    rfl
  · obtain ⟨level, _, rfl⟩ := mem_map.mp (Multiset.mem_coe.mp isLock)
    rfl

theorem Arises.declarationCount_eq {arising : Multiset (BodyId × Purpose)}
    (arises : context.Arises id body arising) :
    declarationCount id arising = if (context.introducer? id).isSome then 0 else 1 := by
  have links : ∀ {object : ObjectValue} {creation links}, object.Inherits id body creation links →
      declarationCount id links = 0 := fun inherits =>
    declarationCount_eq_zero fun place member => by simp [inherits.isLink place member]
  cases arises with
  | function isFunction => simp [introducer?_of_function isFunction]
  | owned isObject owned =>
    have isOwned : context.prototypeOwners.get? id = some _ := owned
    simp [introducer?_of_object isObject, isOwned]
  | eager constructs inherits =>
    rw [declarationCount_add, links inherits]
    simp [introducer?_of_object constructs.isObject, constructs.notOwned]
  | @lazy object home constructs =>
    have link : declarationCount id
        (object.prototype.toList.map fun _ => (body, Purpose.link id) : List _) = 0 :=
      declarationCount_eq_zero (by cases object.prototype <;> simp)
    rw [declarationCount_add, link]
    simp [introducer?_of_object constructs.isObject, constructs.notOwned]
  | delayed constructs inherits =>
    rw [declarationCount_add, declarationCount_add, links inherits]
    simp [introducer?_of_object constructs.isObject, constructs.notOwned]

end Context

namespace Written

variable {written : Written} {id : ValueId} {name : String}

namespace Complete

section

variable (complete : written.Complete)

include complete

/-- What follows the definition of a function declares `prototype` objects of the function only. -/
theorem owned_of_extraNames {owner : ValueId} {inst : FunctionInstance}
    (isInstance : written.session.HasInstance owner inst) (named : written.session.HasName id name)
    (declared : name ∈ inst.extraNames) :
    ∃ object, written.context.IsObject id object ∧
      written.context.prototypeOwners.get? id = some owner := by
  have names := complete.kept.named
  obtain ⟨stmt, isExtra, declares⟩ := mem_flatMap.mp declared
  cases complete.kept.equipped.extras owner inst isInstance stmt isExtra with
  | flag number =>
    obtain rfl : name = _ := by simpa [Stmt.declares] using declares
    exact absurd rfl (names.ne_of_line named (letter_append _ (by decide)))
  | «alias» isObject owned isNamed =>
    obtain rfl : name = _ := by simpa [Stmt.declares, Stmt.var] using declares
    obtain rfl := names.distinct _ _ _ isNamed named
    exact ⟨_, isObject, owned⟩

/-- The definition of a function declares a value once if it introduces the value, and otherwise
not at all. -/
theorem count_definedNames {inst : FunctionInstance}
    (member : inst ∈ written.session.instances.values) (named : written.session.HasName id name) :
    inst.definedNames.count name =
      if written.context.introducer? id = some inst.function then 1 else 0 := by
  have names := complete.kept.named
  have isInstance := complete.get?_function member
  obtain ⟨function, facts⟩ := complete.facts isInstance
  have own : inst.name = name ↔ inst.function = id := by
    refine ⟨fun same => names.distinct _ _ _ facts.named (same ▸ named), fun same => ?_⟩
    exact Option.some.inj ((same ▸ facts.named).symm.trans named)
  rw [FunctionInstance.definedNames, count_cons]
  by_cases declared : name ∈ inst.extraNames
  · obtain ⟨object, isObject, owned⟩ := complete.owned_of_extraNames isInstance named declared
    have different : inst.name ≠ name := fun same => by
      simpa [own.mp same, isObject] using facts.isFunction
    obtain ⟨inst', isInstance', once⟩ :=
      complete.kept.equipped.aliases id object name _ isObject owned named
    obtain rfl := Option.some.inj (isInstance.symm.trans isInstance')
    simp [Context.introducer?_of_object isObject, owned, once, different]
  · rw [count_eq_zero_of_not_mem declared, zero_add]
    by_cases same : inst.function = id
    · subst same
      simp [own, Context.introducer?_of_function facts.isFunction]
    · have notIntroduced : written.context.introducer? id ≠ some inst.function := by
        intro introduced
        rcases complete.idle.valid.isBuilt id name named with
          ⟨object, isObject, -⟩ | ⟨other, isOther⟩
        · rw [Context.introducer?_of_object isObject] at introduced
          obtain ⟨inst', isInstance', once⟩ :=
            complete.kept.equipped.aliases id object name _ isObject introduced named
          obtain rfl := Option.some.inj (isInstance.symm.trans isInstance')
          simp [count_eq_zero_of_not_mem declared] at once
        · rw [Context.introducer?_of_function isOther] at introduced
          exact same (Option.some.inj introduced).symm
      simp [own, same, notIntroduced]

theorem exists_introducer (named : written.session.HasName id name) {owner : ValueId}
    (introduced : written.context.introducer? id = some owner) :
    ∃ inst, written.session.HasInstance owner inst := by
  rcases complete.idle.valid.isBuilt id name named
    with ⟨object, isObject, -⟩ | ⟨function, isFunction⟩
  · rw [Context.introducer?_of_object isObject] at introduced
    obtain ⟨inst, isInstance, -⟩ :=
      complete.kept.equipped.aliases id object name owner isObject introduced named
    exact ⟨inst, isInstance⟩
  · obtain rfl := Option.some.inj
      ((Context.introducer?_of_function isFunction).symm.trans introduced)
    exact complete.kept.prepared.instanced id name function named isFunction

/-- A value is declared by a statement of a body, unless it comes with the definition of a function.
-/
theorem count_declares (accounts : written.session.Accounts written.context entries)
    (named : written.session.HasName id name) :
    (entries.flatMap (·.stmt.declares)).count name =
      if (written.context.introducer? id).isSome then 0 else 1 := by
  obtain ⟨body, arising, arises, isAccount⟩ := accounts.accounted id name named
  rw [accounts.count_declares complete.kept.named named, isAccount, declarationCount_add,
    Context.declarationCount_filling, arises.declarationCount_eq, add_zero]

/-- Each value that has been reached is declared once, by a statement or by a definition. -/
theorem declared_once (accounts : written.session.Accounts written.context entries)
    (named : written.session.HasName id name) :
    (entries.flatMap (·.stmt.declares)).count name +
      (written.session.instances.values.map fun inst => inst.definedNames.count name).sum = 1 := by
  have inDefinitions : (written.session.instances.values.map fun inst =>
      inst.definedNames.count name) = written.session.instances.values.map fun inst =>
        if written.context.introducer? id = some inst.function then 1 else 0 :=
    map_congr_left fun inst member => complete.count_definedNames member named
  rw [complete.count_declares accounts named, inDefinitions]
  cases isIntroducer : written.context.introducer? id with
  | none => simp
  | some owner =>
    obtain ⟨inst, isInstance⟩ := complete.exists_introducer named isIntroducer
    have isValue : inst ∈ written.session.instances.values :=
      mem_map.mpr ⟨_, KeyedTable.mem_entries_of_get? isInstance, rfl⟩
    obtain ⟨function, facts⟩ := complete.facts isInstance
    have once := count_eq_one_of_mem complete.distinct_instances
      (mem_map.mpr ⟨inst, isValue, facts.isId⟩)
    rw [List.count, countP_map, ← sum_indicator] at once
    simpa [eq_comm (a := owner)] using once

end

end Complete

end Written

/-! ## Rules for statements -/

open Classical in
/-- Counts the statements that break a rule. The order is the other way round: there are to be no
more of them than before. -/
noncomputable def Weighing.ofRule (rule : Stmt → Prop) : Weighing ℕᵒᵈ :=
  .ofStmts (fun _ => 0) fun stmt => OrderDual.toDual (if rule stmt then 0 else 1)

/-- A rule that all statements of the session, of the code and of definitions follow is followed in
the whole script. -/
theorem follows_rule {graph : HeapGraph} {settings : Settings} {context : Context}
    {written : Written} {script : Script} (rule : Stmt → Prop)
    (prepared : Context.prepare graph settings = .ok context)
    (isWritten : writeHeap context = .ok written)
    (isScript : materialize graph settings = .ok script) (distinct : graph.DistinctRoots)
    (accounts : written.session.Accounts written.context entries)
    (given : ∀ stmt : Stmt, (∀ name ∈ stmt.declares, written.Given name) → rule stmt)
    (defining : ∀ id inst stmt, written.session.HasInstance id inst →
      stmt.declares = [inst.name] → written.Suits inst stmt → rule stmt)
    (extra : ∀ id inst, written.session.HasInstance id inst → ∀ stmt ∈ inst.extras, rule stmt)
    (serving : ∀ entry ∈ entries, rule entry.stmt) :
    ∀ block ∈ blocksOf script.stmts, ∀ stmt ∈ block, rule stmt := by
  obtain ⟨isGraph, -, areFacts, -⟩ := Context.prepare_eq_ok prepared
  obtain ⟨rfl, complete⟩ := writeHeap_eq_ok isWritten
  have kept : ∀ {stmt}, rule stmt → (Weighing.ofRule rule).stmt stmt = 0 :=
    fun holds => if_pos holds
  have weightless : ∀ id inst, written.session.instances.get? id = some inst →
      (Weighing.ofRule rule).definition inst = 0 := by
    intro id inst isInstance
    have extras : inst.extras.map (Weighing.ofRule rule).stmt = inst.extras.map fun _ => 0 :=
      map_congr_left fun stmt member => kept (extra id inst isInstance stmt member)
    rw [Weighing.definition, extras]
    simp [Weighing.ofRule, Weighing.ofStmts]
  have weighable : written.Weighable (Weighing.ofRule rule) := {
    complete
    facts := isGraph ▸ areFacts
    quiet := fun stmt areGiven => (kept (given stmt areGiven)).ge
    defines := fun id inst stmt isInstance declares suits =>
      (kept (defining id inst stmt isInstance declares suits)).ge
    classes := .inl weightless }
  have whole := (materialize_weight prepared isWritten isScript weighable distinct).1
  have definitions : written.session.instances.values.map (Weighing.ofRule rule).definition =
      written.session.instances.values.map fun _ => 0 :=
    map_congr_left fun inst member => weightless _ inst (complete.get?_function member)
  have bodies : (entries.map fun entry => (Weighing.ofRule rule).stmt entry.stmt) =
      entries.map fun _ => 0 :=
    map_congr_left fun entry member => kept (serving entry member)
  have total : written.session.bodies.total (Weighing.ofRule rule).closed = 0 := by
    refine (accounts.total_ofStmts _ _).trans ?_
    change (entries.map fun entry => (Weighing.ofRule rule).stmt entry.stmt).sum = 0
    simp [bodies]
  have closed : (Weighing.ofRule rule).closed script.stmts =
      ((blocksOf script.stmts).flatten.map (Weighing.ofRule rule).stmt).sum := by
    rw [map_flatten, sum_flatten, map_map]
    rfl
  rw [total, definitions, map_const', sum_replicate, nsmul_zero, add_zero, closed] at whole
  have none : ((blocksOf script.stmts).flatten.map (Weighing.ofRule rule).stmt : List ℕ).sum = 0 :=
    Nat.le_zero.mp whole
  intro block isBlock stmt member
  by_contra broken
  have weight : (Weighing.ofRule rule).stmt stmt = OrderDual.toDual 1 :=
    congrArg OrderDual.toDual (if_neg broken)
  have weightless := sum_eq_zero_iff.mp none _
    (mem_map_of_mem (mem_flatten.mpr ⟨block, isBlock, member⟩))
  exact absurd (weight.symm.trans weightless) Nat.one_ne_zero

/-! ## Scripts -/

theorem count_declaredIn {graph : HeapGraph} {settings : Settings} {context : Context}
    {written : Written} {script : Script}
    (prepared : Context.prepare graph settings = .ok context)
    (isWritten : writeHeap context = .ok written)
    (isScript : materialize graph settings = .ok script) (distinct : graph.DistinctRoots)
    (agree : graph.ClassesAgree) (named : written.session.HasName id name) :
    (declaredIn (blocksOf script.stmts)).count name = 1 := by
  obtain ⟨isGraph, -, areFacts, -⟩ := Context.prepare_eq_ok prepared
  obtain ⟨rfl, complete⟩ := writeHeap_eq_ok isWritten
  obtain ⟨entries, accounts⟩ := exists_accounts isWritten
  have once := complete.declared_once accounts named
  -- With a weight above and one below zero the count is bounded from both sides.
  have weighed : ∀ weight : Int, weight ≤
      weight * (declaredIn (blocksOf script.stmts)).count name := by
    intro weight
    have weighable : written.Weighable (Weighing.ofNames (weighOnly name weight)) := {
      complete
      facts := isGraph ▸ areFacts
      quiet := fun stmt given => by
        change 0 ≤ (stmt.declares.map (weighOnly name weight)).sum
        have other : name ∉ stmt.declares := fun declared =>
          complete.foreign_of_given (isGraph ▸ areFacts) (given name declared) id named
        rw [sum_weighOnly, count_eq_zero_of_not_mem other, Nat.cast_zero, mul_zero]
      defines := fun _ inst stmt _ declares _ => by
        simp [Weighing.ofNames, Weighing.ofStmts, declares]
      classes := .inr (complete.classesAgree (isGraph ▸ agree)) }
    have kept := (materialize_weight prepared isWritten isScript weighable distinct).1
    have definitions : (written.session.instances.values.map
        (Weighing.ofNames (weighOnly name weight)).definition).sum = weight *
          (written.session.instances.values.map fun inst => inst.definedNames.count name).sum := by
      have each : ∀ inst, (Weighing.ofNames (weighOnly name weight)).definition inst =
          weight * inst.definedNames.count name := by
        intro inst
        rw [← sum_weighOnly, FunctionInstance.definedNames, map_cons, sum_cons,
          FunctionInstance.extraNames, map_flatMap, flatMap_def, sum_flatten,
          map_map]
        rfl
      induction written.session.instances.values with
      | nil => simp
      | cons inst others induction => simp [each, induction, mul_add]
    have inBodies : (entries.map fun entry =>
        (entry.stmt.declares.map (weighOnly name weight)).sum).sum =
          weight * (entries.flatMap (·.stmt.declares)).count name := by
      rw [← sum_weighOnly, map_flatMap, flatMap_def, sum_flatten, map_map]
      rfl
    rw [Weighing.ofNames, accounts.total_ofStmts, inBodies, ← Weighing.ofNames, definitions,
      ← mul_add, ← Nat.cast_add, once, Nat.cast_one,
      mul_one, Weighing.closed, Weighing.blocks_ofNames, sum_weighOnly] at kept
    exact kept
  have atLeast := weighed 1
  have atMost := weighed (-1)
  omega

/-- Every value that has been reached is declared once in the whole script, if no function is the
one of two roots and all members of a class name its one constructor. -/
theorem materialize_declaresOnce {graph : HeapGraph} {settings : Settings} {script : Script}
    (isScript : materialize graph settings = .ok script) (distinct : graph.DistinctRoots)
    (agree : graph.ClassesAgree) :
    ∃ context written, Context.prepare graph settings = .ok context ∧
      writeHeap context = .ok written ∧
      ∀ id name, written.session.identifiers.get? id = some name →
        (declaredIn (blocksOf script.stmts)).count name = 1 := by
  obtain ⟨context, prepared, rest⟩ := bind_eq_ok.mp isScript
  obtain ⟨written, isWritten, -⟩ := bind_eq_ok.mp rest
  exact ⟨context, written, prepared, isWritten, fun id name named =>
    count_declaredIn prepared isWritten isScript distinct agree named⟩

/-- A class without methods whose prototype holds an object that refers to itself. -/
def loneClass : HeapGraph where
  values := .ofList [
    .function {
      code := ⟨0⟩
      classMethod := some {
        kind := .constructor, key := "constructor", isStatic := false, isComputed := false
        classPrototype := ⟨1⟩, constructor := ⟨0⟩, superClass := none } },
    .object { properties := [{ key := "shared", value := ⟨2⟩ }] },
    .object { properties := [{ key := "itself", value := ⟨2⟩ }] }]
  codeBlocks := .ofList [{ function := { name := some "C" } }]
  effects := [.globalAssign "p" ⟨1⟩, .globalAssign "C" ⟨0⟩]

theorem loneClass_classesAgree : loneClass.ClassesAgree := by
  have only : ∀ id function, loneClass.values.get? id = some (.function function) →
      id = ⟨0⟩ ∧ loneClass.values.get? ⟨0⟩ = some (.function function) := by
    rintro ⟨index⟩ function isFunction
    match index, isFunction with
    | 0, isFunction => exact ⟨rfl, isFunction⟩
    | 1, isFunction | 2, isFunction | _ + 3, isFunction => cases isFunction
  intro id function method isFunction isMethod constructor
  obtain ⟨rfl, isFunction⟩ := only id function isFunction
  cases isFunction
  cases isMethod
  constructor
  · rintro ⟨function, -, isConstructor, -⟩
    exact (only _ _ isConstructor).1
  · rintro rfl
    exact ⟨_, _, rfl, rfl, rfl, rfl⟩

set_option maxRecDepth 20000 in
theorem loneClass_declaresOnce : ∃ script context written,
    materialize loneClass {} = .ok script ∧ Context.prepare loneClass {} = .ok context ∧
    writeHeap context = .ok written ∧ ∀ id ∈ [(⟨0⟩ : ValueId), ⟨1⟩, ⟨2⟩], ∃ name,
      written.session.identifiers.get? id = some name ∧
      (declaredIn (blocksOf script.stmts)).count name = 1 := by
  obtain ⟨script, isScript⟩ : ∃ script, materialize loneClass {} = .ok script := by
    have works : (materialize loneClass {}).toOption.isSome = true := by decide +kernel
    cases isScript : materialize loneClass {} with
    | error failure => simp [isScript, Except.toOption] at works
    | ok script => exact ⟨script, rfl⟩
  obtain ⟨context, written, prepared, isWritten, once⟩ :=
    materialize_declaresOnce isScript List.nodup_nil loneClass_classesAgree
  have named : ((Context.prepare loneClass {}).bind writeHeap).toOption.any (fun written =>
      [(⟨0⟩ : ValueId), ⟨1⟩, ⟨2⟩].all fun id => (written.session.identifiers.get? id).isSome) =
        true := by
    decide +kernel
  rw [prepared] at named
  simp only [Except.bind, isWritten, Except.toOption, Option.any_some, List.all_eq_true] at named
  refine ⟨script, context, written, isScript, prepared, isWritten, fun id member => ?_⟩
  obtain ⟨name, isNamed⟩ := Option.isSome_iff_exists.mp (named id member)
  exact ⟨name, isNamed, once id name isNamed⟩

end HeapScript
