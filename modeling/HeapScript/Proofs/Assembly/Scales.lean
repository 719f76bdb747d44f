import HeapScript.Proofs.Assembly.Definitions
import HeapScript.Proofs.Assembly.ForeignNames
import HeapScript.Proofs.Assembly.Weighing

/-!
The weight of an assembly, with the statements that are in hand.

Statements leave a body when a function or root takes them, and come back as a part of a definition.
`Carries` says that nothing has been lost on the way: the assembly and what is in hand together
weigh at least as much as the session did, and the definitions since.
-/

namespace HeapScript

open List

variable {M : Type} {inst : FunctionInstance} {id prototype : ValueId} {method : MethodInstance}
  {written : Written} {stmts : List Stmt} [AddCommMonoid M] [PartialOrder M]

/-! ## Weights -/

namespace Weighing

variable (weighing : Weighing M) (written : Written)

def definition (inst : FunctionInstance) : M :=
  weighing.name inst.name + (inst.extras.map weighing.stmt).sum

def classNode (node : ClassNode) : M :=
  weighing.blocks (blocksOfMembers node.members) +
    if node.hasConstructor then
      ((written.session.instances.get? node.constructor).map weighing.definition).getD 0
    else 0

def waiting (splices : Splices) : M :=
  (splices.waiting.map fun entry => weighing.loose entry.2.stmts).sum

def assembly (assembly : Assembly) : M :=
  assembly.bodies.total weighing.closed + weighing.waiting assembly.splices +
    weighing.loose assembly.globalPrelude + assembly.rootPreludes.total weighing.loose +
    assembly.classes.total (weighing.classNode written)

theorem waiting_add (splices : Splices) (point : Position) (order : Nat) (stmts : List Stmt) :
    weighing.waiting (splices.add point order stmts) =
      weighing.waiting splices + weighing.loose stmts := by
  unfold Splices.add
  split
  · rename_i isEmpty
    simp [List.isEmpty_iff.mp isEmpty]
  · simp [waiting]

end Weighing

namespace Bodies

theorem stmts_setStmts_nil (bodies : Bodies) (id other : BodyId) :
    (bodies.setStmts id []).stmts other = if id = other then [] else bodies.stmts other := by
  by_cases same : id = other
  · subst same
    cases found : bodies.arena.get? id <;> simp [stmts, setStmts, Arena.get?_modify, found]
  · simp [stmts, setStmts, Arena.get?_modify, same]

omit [PartialOrder M] in
theorem total_take {weight : List Stmt → M} (weightless : weight [] = 0) (bodies : Bodies)
    (id : BodyId) :
    bodies.total weight = (bodies.setStmts id []).total weight + weight (bodies.stmts id) := by
  by_cases present : bodies.Has id
  · obtain ⟨others, isTotal, isSet⟩ := exists_total_setStmts weight present
    rw [isTotal, isSet, weightless, add_zero]
  · have isEmpty : bodies.stmts id = [] := by
      have missing : bodies.arena.items.size ≤ id.index := Nat.le_of_not_lt present
      simp [stmts, Arena.get?, missing]
    rw [isEmpty, weightless, add_zero, total, total, size_setStmts]
    refine Finset.sum_congr rfl fun index _ => ?_
    rw [stmts_setStmts_nil]
    split
    · rename_i same
      rw [← same, isEmpty]
    · rfl

end Bodies

/-! ## Order -/

namespace Written

variable (written : Written)

def Accepts (taken : List BodyId) (body : BodyId) : Prop :=
  written.session.bodies.Has body ∧ (written.session.bodies.kind body).declaresValues = true ∧
    body ∉ taken

def Awaits (taken : List BodyId) (root : ValueId) : Prop :=
  ∃ record ∈ written.roots, record.function = root ∧ record.body ∉ taken

/-- A function that has been reached belongs to a class. -/
structure IsMember (id : ValueId) (inst : FunctionInstance) (method : MethodInstance) : Prop where
  isInstance : written.session.instances.get? id = some inst
  isMethod : inst.method = some method

def BelongsTo (prototype id : ValueId) : Prop :=
  ∃ inst method, written.IsMember id inst method ∧ method.classPrototype = prototype

def HasConstructor (defined : List ValueId) (prototype : ValueId) : Prop :=
  ∃ id ∈ defined, ∃ inst method, written.IsMember id inst method ∧ method.kind = .constructor ∧
    method.classPrototype = prototype

def ClassesAgree : Prop :=
  ∀ id other inst inst' method method', written.IsMember id inst method →
    written.IsMember other inst' method' → method.kind = .constructor →
    method'.classPrototype = method.classPrototype → method'.constructor = id

def Describes (prototype id : ValueId) (classMember : ClassMember) : Prop :=
  ∃ inst method, written.IsMember id inst method ∧ method.classPrototype = prototype ∧
    classMember.kind = method.kind ∧ classMember.key = method.key ∧
    classMember.isStatic = method.isStatic ∧
    ∃ definition, Assembly.Builds written inst definition ∧
      classMember.function = { definition with name := none }

/-- Members of a class, of which constructors come first. -/
structure Lists (prototype : ValueId) (ids : List ValueId) (members : List ClassMember) : Prop where
  distinct : ids.Nodup
  each : List.Forall₂ (written.Describes prototype) ids members
  sorted : members.Pairwise fun left right => right.kind = .constructor → left.kind = .constructor

def Suits (inst : FunctionInstance) (stmt : Stmt) : Prop :=
  ∀ method, inst.method = some method → method.kind = .constructor →
    ∃ definition prototype ids, stmt = .var inst.name (.classExpr definition) ∧
      written.Lists prototype ids definition.members ∧
      (∀ id, id ∈ ids ↔ written.BelongsTo prototype id) ∧
      ∃ id inst' method', written.IsMember id inst' method' ∧ method'.classPrototype = prototype ∧
        method'.constructor = inst.function

end Written

/-- A class whose members are being collected. -/
structure ClassNode.IsFor (node : ClassNode) (written : Written) (defined : List ValueId)
    (prototype : ValueId) : Prop where
  member : ∃ id inst method, written.IsMember id inst method ∧
    method.classPrototype = prototype ∧ method.constructor = node.constructor
  constructor : node.hasConstructor = true → written.HasConstructor defined prototype
  superClass : ∀ expr, node.superClass = some expr → expr.blocks = []
  lists : ∃ ids, written.Lists prototype ids node.members ∧
    ∀ id, id ∈ ids ↔ id ∈ defined ∧ written.BelongsTo prototype id
  flag : ∀ classMember ∈ node.members, classMember.kind = .constructor → node.hasConstructor = true

/-- What holds of an assembly when some functions are defined and the bodies of some roots are
taken. -/
structure Assembly.Orderly (written : Written) (defined : List ValueId) (taken : List BodyId)
    (assembly : Assembly) : Prop where
  size : assembly.bodies.arena.size = written.session.bodies.arena.size
  takenBodies : assembly.takenBodies = taken
  waiting : ∀ entry ∈ assembly.splices.waiting, written.Accepts taken entry.1
  takenEmpty : ∀ body ∈ taken, assembly.bodies.stmts body = []
  lazyEmpty : ∀ body object, written.session.bodies.kind body = .lazyInitializer object →
    assembly.bodies.stmts body = []
  delayedEmpty : ∀ id ∈ defined, ∀ body, written.session.delayedBodies.get? id = some body →
    assembly.bodies.stmts body = []
  distinctPreludes : assembly.rootPreludes.keys.Nodup
  distinctClasses : assembly.classes.keys.Nodup
  preludes : ∀ root ∈ assembly.rootPreludes.keys, written.Awaits taken root
  nodes : ∀ prototype node, assembly.classes.get? prototype = some node →
    node.IsFor written defined prototype
  members : ∀ id ∈ defined, ∀ inst method, written.IsMember id inst method →
    (assembly.classes.get? method.classPrototype).isSome ∨
      written.HasConstructor defined method.classPrototype ∧
        ∀ other, written.BelongsTo method.classPrototype other → other ∈ defined

structure Assembly.Carries (weighing : Weighing M) (written : Written) (defined : List ValueId)
    (taken : List BodyId) (due hand : M) (assembly : Assembly) : Prop
    extends Assembly.Orderly written defined taken assembly where
  weight : due ≤ weighing.assembly written assembly + hand

namespace Assembly.Carries

variable {weighing : Weighing M} {written : Written} {defined : List ValueId} {taken : List BodyId}
  {due hand : M} {before after : Assembly} {result : Unit}

/-! ## Single changes -/

theorem splice {point : Position} (order : Nat)
    (carries : Carries weighing written defined taken due (hand + weighing.loose stmts) before)
    (accepts : written.Accepts taken point.body) :
    Carries weighing written defined taken due hand
      { before with splices := before.splices.add point order stmts } :=
  { carries with
    waiting := by
      intro entry member
      unfold Splices.add at member
      split at member
      · exact carries.waiting entry member
      · rcases mem_append.mp member with old | new
        · exact carries.waiting entry old
        · rw [mem_singleton.mp new]
          exact accepts
    weight := by
      have same : weighing.assembly written
          { before with splices := before.splices.add point order stmts } + hand =
          weighing.assembly written before + (hand + weighing.loose stmts) := by
        simp only [Weighing.assembly, Weighing.waiting_add]
        abel
      exact same ▸ carries.weight }

theorem addToPrelude {placement : Option ValueId}
    (runs : Runs (addToPrelude placement stmts) before result after)
    (carries : Carries weighing written defined taken due (hand + weighing.loose stmts) before)
    (awaits : ∀ root, placement = some root → written.Awaits taken root) :
    Carries weighing written defined taken due hand after := by
  simp only [Assembly.addToPrelude, Runs.modify_iff] at runs
  cases placement with
  | none =>
    subst runs
    have same : weighing.assembly written
        { before with globalPrelude := before.globalPrelude ++ stmts } + hand =
        weighing.assembly written before + (hand + weighing.loose stmts) := by
      simp only [Weighing.assembly, Weighing.loose_append]
      abel
    exact { carries with weight := same ▸ carries.weight }
  | some root =>
    subst runs
    obtain ⟨others, isTotal, isInserted⟩ :=
      before.rootPreludes.exists_total_insert weighing.loose root
    have old : ((before.rootPreludes.get? root).map weighing.loose).getD 0 =
        weighing.loose ((before.rootPreludes.get? root).getD []) := by
      cases before.rootPreludes.get? root <;> simp
    refine { carries with
      distinctPreludes := KeyedTable.nodup_keys_insert _ _ carries.distinctPreludes
      preludes := fun other member => ?_
      weight := ?_ }
    · obtain ⟨entry, isEntry, rfl⟩ := mem_map.mp member
      rcases KeyedTable.mem_putEntry isEntry with rfl | isOld
      · exact awaits root rfl
      · exact carries.preludes entry.1 (mem_map_of_mem isOld)
    · refine carries.weight.trans (le_of_eq ?_)
      simp only [Weighing.assembly, isTotal, isInserted, old, Weighing.loose_append]
      abel

theorem takeBody (carries : Carries weighing written defined taken due hand before)
    (body : BodyId) : Carries weighing written defined taken due
      (hand + weighing.closed (before.bodies.stmts body))
      { before with bodies := before.bodies.setStmts body [] } := by
  have stays : ∀ other, before.bodies.stmts other = [] →
      (before.bodies.setStmts body []).stmts other = [] := by
    intro other isEmpty
    rw [Bodies.stmts_setStmts_nil, isEmpty, ite_self]
  refine { carries with
    size := (Bodies.size_setStmts _ _ _).trans carries.size
    takenEmpty := fun other member => stays other (carries.takenEmpty other member)
    lazyEmpty := fun other object isLazy => stays other (carries.lazyEmpty other object isLazy)
    delayedEmpty := fun id member other isBody =>
      stays other (carries.delayedEmpty id member other isBody)
    weight := ?_ }
  refine carries.weight.trans (le_of_eq ?_)
  simp only [Weighing.assembly, before.bodies.total_take weighing.closed_nil body]
  abel

/-! ## The hand -/

variable [IsOrderedAddMonoid M]

theorem mono (carries : Carries weighing written defined taken due hand before) {more : M}
    (le : hand ≤ more) : Carries weighing written defined taken due more before :=
  { carries with weight := carries.weight.trans (add_le_add_right le _) }

/-- What is new is due as soon as it is in hand. -/
theorem gain (carries : Carries weighing written defined taken due hand before) (more : M) :
    Carries weighing written defined taken (due + more) (hand + more) before :=
  { carries with
    weight := by
      rw [← add_assoc]
      exact add_le_add_left carries.weight more }

end Assembly.Carries

/-! ## Classes -/

namespace Session.Equipped

variable {context : Context} {session : Session}

theorem blocks_method (equipped : session.Equipped context)
    (isInstance : session.HasInstance id inst) (isMethod : inst.method = some method) :
    method.key.blocks = [] ∧ ∀ expr, method.superClass = some expr → expr.blocks = [] := by
  obtain ⟨function, found, superClass, -, -, rfl, refers⟩ :=
    equipped.methods id inst method isInstance isMethod
  refine ⟨?_, fun expr isSuper => (refers expr isSuper).blocks⟩
  unfold methodInstance
  dsimp only
  split
  · exact (Expr.isChain_path found.key).blocks
  · rfl

theorem blocks_extras (equipped : session.Equipped context)
    (isInstance : session.HasInstance id inst) : blocksWithin inst.extras = [] := by
  have none : ∀ stmt ∈ inst.extras, stmt.blocks = [] := by
    intro stmt member
    cases equipped.extras id inst isInstance stmt member <;> rfl
  generalize inst.extras = extras at none
  induction extras with
  | nil => rfl
  | cons stmt stmts induction =>
    rw [blocksWithin, none stmt mem_cons_self,
      induction fun other member => none other (mem_cons_of_mem _ member), append_nil]

end Session.Equipped

namespace Weighing

variable (weighing : Weighing M)

theorem blocks_add {node : ClassNode} (plain : method.key.blocks = []) (className : Option String)
    (definition : FunctionDef) :
    weighing.blocks (blocksOfMembers (node.add method className definition).members) =
      weighing.blocks (blocksOfMembers node.members) + weighing.blocks definition.blocks := by
  have unnamed : ({ definition with name := none } : FunctionDef).blocks = definition.blocks := by
    cases definition
    rfl
  unfold ClassNode.add
  dsimp only
  split
  · simp [blocksOfMembers, plain, unnamed, add_comm]
  · simp [blocksOfMembers, plain, unnamed]

theorem loose_extras {context : Context} {session : Session} (equipped : session.Equipped context)
    (isInstance : session.HasInstance id inst) :
    weighing.loose inst.extras = (inst.extras.map weighing.stmt).sum := by
  simp [loose, equipped.blocks_extras isInstance]

end Weighing

def HeapGraph.IsConstructor (graph : HeapGraph) (prototype id : ValueId) : Prop :=
  ∃ function method, graph.values.get? id = some (.function function) ∧
    function.classMethod = some method ∧ method.kind = .constructor ∧
    method.classPrototype = prototype

def HeapGraph.ClassesAgree (graph : HeapGraph) : Prop :=
  ∀ id function method, graph.values.get? id = some (.function function) →
    function.classMethod = some method →
    ∀ constructor, graph.IsConstructor method.classPrototype constructor ↔
      constructor = method.constructor

theorem Written.Complete.classesAgree (complete : written.Complete)
    (agree : written.context.graph.ClassesAgree) : written.ClassesAgree := by
  intro id other inst inst' method method' isMember isOther isConstructor samePrototype
  obtain ⟨function, found, _, isFunction, isMethod, rfl, -⟩ :=
    complete.kept.equipped.methods id inst method isMember.isInstance isMember.isMethod
  obtain ⟨function', found', _, isFunction', isMethod', rfl, -⟩ :=
    complete.kept.equipped.methods other inst' method' isOther.isInstance isOther.isMethod
  refine ((agree other function' found' isFunction' isMethod' id).mp ?_).symm
  exact ⟨function, found, isFunction, isMethod, isConstructor, samePrototype.symm⟩

theorem Written.Complete.exists_member (complete : written.Complete) {function : FunctionValue}
    {method : ClassMethod} {name : String} (isFunction : written.context.IsFunction id function)
    (isMethod : function.classMethod = some method) (named : written.session.HasName id name) :
    ∃ inst superClass, written.IsMember id inst (Session.methodInstance method superClass) := by
  have equipped := complete.kept.equipped
  obtain ⟨inst, isInstance⟩ := complete.kept.prepared.instanced id name function named isFunction
  obtain ⟨place, isPlace⟩ := Option.isSome_iff_exists.mp
    (equipped.hasMethod id inst function method isInstance isFunction isMethod
      (complete.placed isInstance))
  obtain ⟨function', method', superClass, isFunction', isMethod', rfl, -⟩ :=
    equipped.methods id inst place isInstance isPlace
  obtain rfl : function = function' := by simpa [isFunction] using isFunction'
  obtain rfl := Option.some.inj (isMethod.symm.trans isMethod')
  exact ⟨inst, superClass, isInstance, isPlace⟩

theorem Written.Complete.exists_constructor (complete : written.Complete)
    (agree : written.context.graph.ClassesAgree) (belongs : written.BelongsTo prototype id) :
    ∃ constructor inst method, written.IsMember constructor inst method ∧
      method.kind = .constructor ∧ method.classPrototype = prototype := by
  obtain ⟨inst, place, isMember, rfl⟩ := belongs
  by_cases isConstructor : place.kind = .constructor
  · exact ⟨id, inst, place, isMember, isConstructor, rfl⟩
  have equipped := complete.kept.equipped
  obtain ⟨function, method, superClass, isFunction, isMethod, rfl, -⟩ :=
    equipped.methods id inst place isMember.isInstance isMember.isMethod
  obtain ⟨function', method', isFunction', isMethod', isKind, same⟩ :=
    (agree id function method isFunction isMethod method.constructor).mpr rfl
  obtain ⟨name, named⟩ := equipped.constructors id inst _ isMember.isInstance isMember.isMethod
    isConstructor (.inr ⟨function', isFunction'⟩)
  obtain ⟨inst', superClass', isMember'⟩ := complete.exists_member isFunction' isMethod' named
  exact ⟨method.constructor, inst', _, isMember', isKind, same⟩

/-- What is asked of a weighing: statements that declare names in the code and names of helpers have
no weight below zero, the definition of a function has the weight that is due, and either there is
none or all members of a class agree on its constructor. -/
structure Written.Weighable (written : Written) (weighing : Weighing M) : Prop where
  complete : written.Complete
  facts : written.context.facts = written.context.graph.codeFacts
  quiet : ∀ stmt : Stmt, (∀ name ∈ stmt.declares, written.Given name) → 0 ≤ weighing.stmt stmt
  defines : ∀ id inst stmt, written.session.instances.get? id = some inst →
    stmt.declares = [inst.name] → written.Suits inst stmt →
    weighing.name inst.name ≤ weighing.stmt stmt
  classes : (∀ id inst, written.session.instances.get? id = some inst →
    weighing.definition inst = 0) ∨ written.ClassesAgree

namespace Written

variable {written : Written} {weighing : Weighing M} {defined : List ValueId} {taken : List BodyId}

theorem HasConstructor.mono (has : written.HasConstructor defined prototype) (id : ValueId) :
    written.HasConstructor (id :: defined) prototype := by
  obtain ⟨other, member, isConstructor⟩ := has
  exact ⟨other, mem_cons_of_mem _ member, isConstructor⟩

theorem Suits.of_none (noMethod : inst.method = none) {stmt : Stmt} : written.Suits inst stmt := by
  intro method isMethod
  cases noMethod.symm.trans isMethod

theorem not_belongsTo (isMember : written.IsMember id inst method)
    (other : method.classPrototype ≠ prototype) : ¬written.BelongsTo prototype id := by
  rintro ⟨inst', method', ⟨isInstance, isMethod⟩, same⟩
  obtain rfl := Option.some.inj (isMember.isInstance.symm.trans isInstance)
  obtain rfl := Option.some.inj (isMember.isMethod.symm.trans isMethod)
  exact other same

end Written

namespace ClassNode.IsFor

variable {written : Written} {defined : List ValueId} {node : ClassNode} {prototype id : ValueId}

theorem mono (isFor : node.IsFor written defined prototype)
    (outside : ¬written.BelongsTo prototype id) : node.IsFor written (id :: defined) prototype where
  member := isFor.member
  constructor has := (isFor.constructor has).mono id
  superClass := isFor.superClass
  lists := by
    obtain ⟨ids, lists, areIds⟩ := isFor.lists
    refine ⟨ids, lists, fun other => ?_⟩
    rw [areIds, mem_cons]
    refine and_congr_left fun belongs => (or_iff_right ?_).symm
    rintro rfl
    exact outside belongs
  flag := isFor.flag

theorem add (isFor : node.IsFor written defined method.classPrototype)
    (isMember : written.IsMember id inst method) (isNew : id ∉ defined)
    (plain : ∀ expr, method.superClass = some expr → expr.blocks = []) (className : Option String)
    {definition : FunctionDef} (builds : Assembly.Builds written inst definition) :
    (node.add method className definition).IsFor written (id :: defined) method.classPrototype := by
  obtain ⟨ids, lists, areIds⟩ := isFor.lists
  have isOutside : id ∉ ids := fun inside => isNew ((areIds id).mp inside).1
  have belongs : written.BelongsTo method.classPrototype id := ⟨inst, method, isMember, rfl⟩
  have isMore : ∀ other, other = id ∨ other ∈ ids ↔
      other ∈ id :: defined ∧ written.BelongsTo method.classPrototype other := by
    intro other
    rw [areIds, mem_cons, or_and_right]
    exact or_congr_left ⟨fun same => ⟨same, same ▸ belongs⟩, And.left⟩
  unfold ClassNode.add
  dsimp only
  split
  · rename_i isConstructor
    refine ⟨isFor.member, fun _ => ⟨id, mem_cons_self, inst, method, isMember, isConstructor,
      rfl⟩, plain, ⟨id :: ids, ⟨nodup_cons.mpr ⟨isOutside, lists.distinct⟩, .cons ?_ lists.each,
      pairwise_cons.mpr ⟨fun _ _ _ => isConstructor, lists.sorted⟩⟩, fun other => ?_⟩,
      fun _ _ _ => rfl⟩
    · exact ⟨inst, method, isMember, rfl, rfl, rfl, rfl, definition, builds, rfl⟩
    · rw [mem_cons, isMore]
  · rename_i notConstructor
    refine ⟨isFor.member, fun has => (isFor.constructor has).mono id, isFor.superClass,
      ⟨ids ++ [id], ⟨?_, rel_append lists.each (.cons ?_ .nil), ?_⟩, fun other => ?_⟩, ?_⟩
    · exact (perm_append_singleton id ids).nodup_iff.mpr
        (nodup_cons.mpr ⟨isOutside, lists.distinct⟩)
    · exact ⟨inst, method, isMember, rfl, rfl, rfl, rfl, definition, builds, rfl⟩
    · simpa [pairwise_append, lists.sorted] using fun _ _ same => absurd same notConstructor
    · rw [mem_append, mem_singleton, or_comm, isMore]
    · intro classMember member isConstructor
      rcases mem_append.mp member with old | new
      · exact isFor.flag classMember old isConstructor
      · rw [mem_singleton.mp new] at isConstructor
        exact absurd isConstructor notConstructor

theorem hasConstructor (isFor : node.IsFor written defined prototype)
    (whole : ∀ id, written.BelongsTo prototype id → id ∈ defined)
    (isMember : written.IsMember id inst method) (isConstructor : method.kind = .constructor)
    (isPrototype : method.classPrototype = prototype) : node.hasConstructor = true := by
  obtain ⟨ids, lists, areIds⟩ := isFor.lists
  have belongs : written.BelongsTo prototype id := ⟨inst, method, isMember, isPrototype⟩
  obtain ⟨⟨index, inside⟩, rfl⟩ := mem_iff_get.mp ((areIds id).mpr ⟨whole id belongs, belongs⟩)
  obtain ⟨inst', method', isMember', -, sameKind, -⟩ :=
    lists.each.get inside (lists.each.length_eq ▸ inside)
  obtain rfl := Option.some.inj (isMember.isInstance.symm.trans isMember'.isInstance)
  obtain rfl := Option.some.inj (isMember.isMethod.symm.trans isMember'.isMethod)
  exact isFor.flag _ (get_mem ..) (sameKind.trans isConstructor)

end ClassNode.IsFor

theorem Assembly.Orderly.hasConstructor {defined : List ValueId} {taken : List BodyId}
    {assembly : Assembly} (orderly : Orderly written defined taken assembly)
    (complete : written.Complete) (agree : written.context.graph.ClassesAgree)
    (whole : ∀ id, written.BelongsTo prototype id → id ∈ defined) (node : ClassNode)
    (isClass : assembly.classes.get? prototype = some node) : node.hasConstructor = true := by
  have isFor := orderly.nodes prototype node isClass
  obtain ⟨id, inst, method, isMember, samePrototype, -⟩ := isFor.member
  obtain ⟨_, _, _, isConstructor, isKind, isPrototype⟩ :=
    complete.exists_constructor agree ⟨inst, method, isMember, samePrototype⟩
  exact isFor.hasConstructor whole isConstructor isKind isPrototype

namespace Written

variable {written : Written} {weighing : Weighing M} {defined : List ValueId} {taken : List BodyId}

theorem Complete.weightless (complete : written.Complete)
    (facts : written.context.facts = written.context.graph.codeFacts) :
    written.Weighable Weighing.weightless where
  complete := complete
  facts := facts
  quiet _ _ := le_rfl
  defines _ _ _ _ _ _ := le_rfl
  classes := .inl fun _ _ _ => rfl

theorem Weighable.equipped (weighable : written.Weighable weighing) :
    written.session.Equipped written.context :=
  weighable.complete.kept.equipped

theorem Weighable.le_loose_definition [IsOrderedAddMonoid M]
    (weighable : written.Weighable weighing) (isInstance : written.session.HasInstance id inst)
    {stmt : Stmt} (declares : stmt.declares = [inst.name]) (suits : written.Suits inst stmt) :
    weighing.blocks stmt.blocks + weighing.definition inst ≤
      weighing.loose (stmt :: inst.extras) := by
  rw [weighing.loose_cons, weighing.loose_singleton,
    weighing.loose_extras weighable.equipped isInstance, Weighing.definition, ← add_assoc,
    add_comm (weighing.blocks _)]
  gcongr
  exact weighable.defines id inst stmt isInstance declares suits

section

variable [IsOrderedAddMonoid M]

theorem Weighable.blocks_nonneg (weighable : written.Weighable weighing) {blocks : List (List Stmt)}
    (given : ∀ name ∈ declaredIn blocks, written.Given name) : 0 ≤ weighing.blocks blocks :=
  weighing.blocks_nonneg fun block isBlock stmt isStmt => weighable.quiet stmt fun name declared =>
    given name (mem_flatMap.mpr ⟨block, isBlock, mem_flatMap.mpr ⟨stmt, isStmt, declared⟩⟩)

theorem Weighable.loose_nonneg (weighable : written.Weighable weighing)
    (given : ∀ name ∈ declaredIn (blocksOf stmts), written.Given name) : 0 ≤ weighing.loose stmts :=
  weighing.loose_nonneg fun block isBlock stmt isStmt => weighable.quiet stmt fun name declared =>
    given name (mem_flatMap.mpr ⟨block, isBlock, mem_flatMap.mpr ⟨stmt, isStmt, declared⟩⟩)

end

/-- A class that gets its constructor gets the weight of the constructor's definition. -/
theorem Weighable.classNode_add (weighable : written.Weighable weighing) {node : ClassNode}
    (isMember : written.IsMember id inst method) (isNew : id ∉ defined)
    (isFor : node.IsFor written defined method.classPrototype) (className : Option String)
    (definition : FunctionDef) :
    weighing.classNode written (node.add method className definition) =
      weighing.classNode written node + (weighing.blocks definition.blocks +
        if method.kind = .constructor then weighing.definition inst else 0) := by
  have plain := (weighable.equipped.blocks_method isMember.isInstance isMember.isMethod).1
  rw [Weighing.classNode, weighing.blocks_add plain, Weighing.classNode]
  by_cases isConstructor : method.kind = .constructor
  · have isAdded : node.add method className definition =
      { node.add method className definition with
        hasConstructor := true, constructor := node.constructor } := by
      simp [ClassNode.add, isConstructor]
    have flag : (node.add method className definition).hasConstructor = true := by rw [isAdded]
    have same : (node.add method className definition).constructor = node.constructor := by
      rw [isAdded]
    rw [if_pos isConstructor, flag, same, if_pos rfl]
    rcases weighable.classes with weightless | agree
    · have nothing : ((written.session.instances.get? node.constructor).map
          weighing.definition).getD 0 = 0 := by
        cases found : written.session.instances.get? node.constructor with
        | none => rfl
        | some constructor => exact weightless _ constructor found
      simp [nothing, weightless id inst isMember.isInstance]
    · obtain ⟨other, inst', method', isOther, samePrototype, isNamed⟩ := isFor.member
      obtain rfl : node.constructor = id :=
        isNamed.symm.trans (agree _ _ _ _ _ _ isMember isOther isConstructor samePrototype)
      have unset : node.hasConstructor = false := by
        refine Bool.eq_false_iff.mpr fun hasConstructor => isNew ?_
        obtain ⟨first, isDefined, inst'', method'', isFirst, isConstructor', samePrototype'⟩ :=
          isFor.constructor hasConstructor
        have own := agree _ _ _ _ _ _ isMember isMember isConstructor rfl
        have others := agree _ _ _ _ _ _ isFirst isMember isConstructor' samePrototype'.symm
        rwa [← own.symm.trans others] at isDefined
      rw [unset, isMember.isInstance]
      simp [add_assoc]
  · have isAdded : (node.add method className definition).hasConstructor = node.hasConstructor ∧
        (node.add method className definition).constructor = node.constructor := by
      simp [ClassNode.add, isConstructor]
    rw [isAdded.1, isAdded.2, if_neg isConstructor]
    abel

end Written

end HeapScript
