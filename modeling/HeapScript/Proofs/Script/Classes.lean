import HeapScript.Proofs.Script.Declarations
import HeapScript.Proofs.Script.Failures

/-!
Each class is defined once, with all its members.

The members of a class are collected while functions and roots are defined, in whatever order these
come. All of them have been reached with the constructor, so that the class expression that declares
the constructor's name lists every function of the class.
-/

namespace HeapScript

open List

/-- A function belongs to the class with the given prototype. -/
def HeapGraph.HasMember (graph : HeapGraph) (prototype id : ValueId) : Prop :=
  ∃ function method, graph.values.get? id = some (.function function) ∧
    function.classMethod = some method ∧ method.classPrototype = prototype

def HeapGraph.Describes (graph : HeapGraph) (id : ValueId) (classMember : ClassMember) : Prop :=
  ∃ function method, graph.values.get? id = some (.function function) ∧
    function.classMethod = some method ∧ classMember.kind = method.kind ∧
    classMember.key =
      (if method.isComputed then .computed (.path method.key) else .named method.key) ∧
    classMember.isStatic = method.isStatic

/-- The function of a member is what is built for the function in the graph, from its own code block
and without a name. -/
def Written.Defines (written : Written) (id : ValueId) (classMember : ClassMember) : Prop :=
  ∃ function inst definition, written.context.graph.values.get? id = some (.function function) ∧
    written.session.instances.get? id = some inst ∧ inst.function = id ∧ inst.code = function.code ∧
    Assembly.Builds written inst definition ∧
    classMember.function = { definition with name := none }

/-- The failures of classes that cannot be defined. -/
inductive Failure.IsOfClass : Failure → Prop where
  | neverDefined (prototype : ValueId) : IsOfClass (.classNeverDefined prototype)
  | withoutConstructor (prototype : ValueId) : IsOfClass (.classWithoutConstructor prototype)

theorem Failure.EndsRun.not_isOfClass {graph : HeapGraph} {failure : Failure}
    (ends : failure.EndsRun graph) (fit : graph.DefinesClasses) : ¬failure.IsOfClass := by
  intro isOfClass
  rcases ends with ⟨-, isRefusal⟩ | ⟨ends | _, -⟩ | ends
  · cases isOfClass <;> cases isRefusal
  · cases isOfClass <;> cases ends
  · cases isOfClass
  · cases isOfClass <;> cases ends <;> contradiction

/-! ## Members -/

namespace Written

variable {written : Written} {prototype constructor id : ValueId} {name : String}

/-- The functions of a class have been reached when its constructor has. -/
theorem Complete.belongsTo_iff (complete : written.Complete) (closed : written.context.Closed)
    (agree : written.context.graph.ClassesAgree)
    (isConstructor : written.context.graph.IsConstructor prototype constructor)
    (named : written.session.HasName constructor name) (id : ValueId) :
    written.BelongsTo prototype id ↔ written.context.graph.HasMember prototype id := by
  constructor
  · rintro ⟨inst, place, isMember, rfl⟩
    obtain ⟨function, method, _, isFunction, isMethod, rfl, -⟩ :=
      complete.kept.equipped.methods id inst place isMember.isInstance isMember.isMethod
    exact ⟨function, method, isFunction, isMethod, rfl⟩
  · rintro ⟨function, method, isFunction, isMethod, rfl⟩
    obtain ⟨name, named⟩ : ∃ name, written.session.identifiers.get? id = some name := by
      by_cases isKind : method.kind = .constructor
      · have own := (agree id function method isFunction isMethod id).mp
          ⟨function, method, isFunction, isMethod, isKind, rfl⟩
        have others := (agree id function method isFunction isMethod constructor).mp isConstructor
        exact ⟨name, own.trans others.symm ▸ named⟩
      · obtain ⟨function', method', isFunction', isMethod', isKind', same⟩ := isConstructor
        refine complete.idle.gathered constructor function' name isFunction' named id ?_
          (.inr ⟨function, isFunction⟩)
        rw [Session.membersOfClass, isMethod']
        simp only [isKind', if_true, closed.areMembers, same]
        exact HeapGraph.mem_classMembers.mpr
          ⟨function, method, HeapGraph.mem_functions isFunction, isMethod, isKind, rfl⟩
    obtain ⟨inst, superClass, isMember⟩ := complete.exists_member isFunction isMethod named
    exact ⟨inst, _, isMember, rfl⟩

theorem Complete.describes (complete : written.Complete) {classMember : ClassMember}
    (describes : written.Describes prototype id classMember) :
    written.context.graph.Describes id classMember ∧ written.Defines id classMember := by
  obtain ⟨inst, place, isMember, -, sameKind, sameKey, sameStatic, definition, builds,
    isFunction⟩ := describes
  obtain ⟨function, method, _, isValue, isMethod, rfl, -⟩ :=
    complete.kept.equipped.methods id inst place isMember.isInstance isMember.isMethod
  obtain ⟨function', facts⟩ := complete.facts isMember.isInstance
  exact ⟨⟨function, method, isValue, isMethod, sameKind, sameKey, sameStatic⟩,
    function', inst, definition, facts.isFunction, isMember.isInstance, facts.isId, facts.code,
    builds, isFunction⟩

theorem Lists.constructor_first {ids : List ValueId} {members : List ClassMember}
    (lists : written.Lists prototype ids members) (complete : written.Complete)
    (agree : written.context.graph.ClassesAgree)
    (isConstructor : written.context.graph.IsConstructor prototype constructor)
    (inside : constructor ∈ ids) : ∃ others, ids = constructor :: others := by
  obtain ⟨-, each, sorted⟩ := lists
  have kinds : ∀ id classMember, written.Describes prototype id classMember →
      (classMember.kind = .constructor ↔ id = constructor) := by
    rintro id classMember ⟨inst, place, isMember, rfl, sameKind, -⟩
    obtain ⟨function, method, _, isFunction, isMethod, rfl, -⟩ :=
      complete.kept.equipped.methods id inst place isMember.isInstance isMember.isMethod
    have only := (agree id function method isFunction isMethod constructor).mp isConstructor
    rw [sameKind]
    constructor
    · intro isKind
      exact ((agree id function method isFunction isMethod id).mp
        ⟨function, method, isFunction, isMethod, isKind, rfl⟩).trans only.symm
    · rintro rfl
      obtain ⟨function', method', isFunction', isMethod', isKind, -⟩ := isConstructor
      obtain rfl : function = function' := by simpa [isFunction] using isFunction'
      obtain rfl := Option.some.inj (isMethod.symm.trans isMethod')
      exact isKind
  cases each with
  | nil => cases inside
  | @cons first classMember others rest describes each =>
    refine ⟨others, congrArg (· :: others) ((kinds first classMember describes).mp ?_)⟩
    rcases mem_cons.mp inside with rfl | inside
    · exact (kinds _ _ describes).mpr rfl
    · obtain ⟨⟨index, isIndex⟩, rfl⟩ := mem_iff_get.mp inside
      have describes' := each.get isIndex (each.length_eq ▸ isIndex)
      exact (pairwise_cons.mp sorted).1 _ (get_mem ..) ((kinds _ _ describes').mpr rfl)

end Written

/-! ## Statements -/

theorem exists_filter_declares {stmts : List Stmt} {name : String}
    (once : (stmts.flatMap Stmt.declares).count name = 1) :
    ∃ stmt, stmts.filter (name ∈ ·.declares) = [stmt] := by
  induction stmts with
  | nil => simp at once
  | cons stmt stmts induction =>
    rw [flatMap_cons, count_append] at once
    by_cases declared : name ∈ stmt.declares
    · have positive := count_pos_iff.mpr declared
      have none : name ∉ stmts.flatMap Stmt.declares := count_eq_zero.mp (by omega)
      refine ⟨stmt, ?_⟩
      rw [filter_cons_of_pos (by simpa using declared), filter_eq_nil_iff.mpr]
      exact fun other member isDeclared =>
        none (mem_flatMap.mpr ⟨other, member, by simpa using isDeclared⟩)
    · rw [filter_cons_of_neg (by simpa using declared)]
      exact induction (by rwa [count_eq_zero.mpr declared, Nat.zero_add] at once)

theorem isClass_of_declares {graph : HeapGraph} {settings : Settings} {context : Context}
    {written : Written} {script : Script} {prototype constructor : ValueId} {name : String}
    (prepared : Context.prepare graph settings = .ok context)
    (isWritten : writeHeap context = .ok written)
    (isScript : materialize graph settings = .ok script) (fit : graph.DefinesClasses)
    (isConstructor : graph.IsConstructor prototype constructor)
    (named : written.session.HasName constructor name) :
    ∀ block ∈ blocksOf script.stmts, ∀ stmt ∈ block, name ∈ stmt.declares →
      ∃ definition ids, stmt = .var name (.classExpr definition) ∧
        written.Lists prototype ids definition.members ∧
        ∀ id, id ∈ ids ↔ written.BelongsTo prototype id := by
  obtain ⟨rfl, -, areFacts, -⟩ := Context.prepare_eq_ok prepared
  obtain ⟨rfl, complete⟩ := writeHeap_eq_ok isWritten
  obtain ⟨entries, accounts⟩ := exists_accounts isWritten
  obtain ⟨function, method, isFunction, isMethod, isKind, rfl⟩ := isConstructor
  have distinct := complete.kept.named.distinct
  refine follows_rule _ prepared isWritten isScript fit.distinct accounts ?_ ?_ ?_ ?_
  · intro stmt given declared
    exact absurd named (complete.foreign_of_given areFacts (given name declared) constructor)
  · intro id inst stmt isInstance declares suits declared
    obtain ⟨_, facts⟩ := complete.facts isInstance
    obtain rfl : name = inst.name := by simpa [declares] using declared
    obtain rfl := distinct _ _ _ facts.named named
    obtain ⟨inst', superClass, isMember⟩ := complete.exists_member isFunction isMethod named
    obtain rfl := Option.some.inj (isInstance.symm.trans isMember.isInstance)
    obtain ⟨definition, prototype, ids, isStmt, lists, areIds, other, _, place, isOther, rfl,
      isOwn⟩ := suits _ isMember.isMethod isKind
    -- The class that names this constructor is the one that the constructor belongs to.
    obtain ⟨function', method', _, isFunction', isMethod', rfl, -⟩ :=
      complete.kept.equipped.methods other _ place isOther.isInstance isOther.isMethod
    obtain ⟨function'', method'', isFunction'', isMethod'', -, same⟩ :=
      (fit.agree other function' method' isFunction' isMethod' id).mpr
        (facts.isId.symm.trans isOwn.symm)
    obtain rfl : function = function'' := by simpa [isFunction] using isFunction''
    obtain rfl := Option.some.inj (isMethod.symm.trans isMethod'')
    exact ⟨definition, ids, isStmt, same ▸ lists, same ▸ areIds⟩
  · intro id inst isInstance stmt isExtra declared
    cases complete.kept.equipped.extras id inst isInstance stmt isExtra with
    | flag number =>
      obtain rfl : name = _ := by simpa [Stmt.declares] using declared
      exact absurd rfl (complete.kept.named.ne_of_line named (letter_append _ (by decide)))
    | «alias» isObject _ isNamed =>
      obtain rfl : name = _ := by simpa [Stmt.declares, Stmt.var] using declared
      obtain rfl := distinct _ _ _ isNamed named
      simp [isFunction] at isObject
  · intro entry isEntry declared
    have none := complete.count_declares accounts named
    rw [Context.introducer?_of_function isFunction] at none
    exact absurd (mem_flatMap.mpr ⟨entry, isEntry, declared⟩) (count_eq_zero.mp none)

/-- Each class is defined once and whole, if all its members name its one constructor and no
function is the one of two roots. No class is left over or without a constructor. One statement
declares the name of a constructor that has been reached: its class expression, in which the
constructor comes first and every other function of the class follows once. Each member is a copy of
its own code or the function of its root. -/
theorem materialize_definesClasses {graph : HeapGraph} (distinct : graph.DistinctRoots)
    (agree : graph.ClassesAgree) (settings : Settings) :
    ErrorsOnly (fun failure => ¬failure.IsOfClass) (materialize graph settings) ∧
      ∀ script, materialize graph settings = .ok script → ∃ written,
        (Context.prepare graph settings >>= writeHeap) = .ok written ∧
        ∀ prototype constructor name, graph.IsConstructor prototype constructor →
          written.session.identifiers.get? constructor = some name →
          ∃ definition others,
            (blocksOf script.stmts).flatten.filter (name ∈ ·.declares) =
              [.var name (.classExpr definition)] ∧
            (constructor :: others).Nodup ∧
            (∀ id, id ∈ constructor :: others ↔ graph.HasMember prototype id) ∧
            List.Forall₂ (fun id member => graph.Describes id member ∧ written.Defines id member)
              (constructor :: others) definition.members := by
  have fit : graph.DefinesClasses := ⟨distinct, agree⟩
  refine ⟨(errorsOnly_materialize graph settings).mono fun _ ends => ends.not_isOfClass fit,
    fun script isScript => ?_⟩
  obtain ⟨context, prepared, rest⟩ := bind_eq_ok.mp isScript
  obtain ⟨written, isWritten, -⟩ := bind_eq_ok.mp rest
  refine ⟨written, bind_eq_ok.mpr ⟨context, prepared, isWritten⟩, ?_⟩
  intro prototype constructor name isConstructor named
  have once := count_declaredIn prepared isWritten isScript distinct agree named
  have classes := isClass_of_declares prepared isWritten isScript fit isConstructor named
  obtain ⟨rfl, -⟩ := Context.prepare_eq_ok prepared
  obtain ⟨rfl, complete⟩ := writeHeap_eq_ok isWritten
  have belongs := complete.belongsTo_iff
    (Context.closed_of_prepare prepared) agree isConstructor named
  obtain ⟨stmt, isOnly⟩ := exists_filter_declares
    (show ((blocksOf script.stmts).flatten.flatMap Stmt.declares).count name = 1 by
      simpa [declaredIn, List.flatMap_def, List.map_flatten, List.flatten_flatten,
        Function.comp_def] using once)
  obtain ⟨member, declared⟩ := List.mem_filter.mp
    (show stmt ∈ (blocksOf script.stmts).flatten.filter (name ∈ ·.declares) by simp [isOnly])
  obtain ⟨block, isBlock, member⟩ := List.mem_flatten.mp member
  obtain ⟨definition, ids, rfl, lists, areIds⟩ :=
    classes block isBlock stmt member (by simpa using declared)
  have inside : constructor ∈ ids := by
    obtain ⟨function, method, isFunction, isMethod, -, isPrototype⟩ := isConstructor
    exact (areIds _).mpr ((belongs _).mpr ⟨function, method, isFunction, isMethod, isPrototype⟩)
  obtain ⟨others, rfl⟩ := lists.constructor_first complete agree isConstructor inside
  exact ⟨definition, others, isOnly, lists.distinct, fun id => (areIds id).trans (belongs id),
    lists.each.imp fun _ _ => complete.describes⟩

/-- A class with a method and a static getter, which is an optimized root. -/
def classWithRoot : HeapGraph where
  values := .ofList [
    .function { code := ⟨0⟩, classMethod := some (member .constructor "constructor" false) },
    .object {},
    .function { code := ⟨1⟩, classMethod := some (member .method "m" false) },
    .function { code := ⟨2⟩, classMethod := some (member .getter "s" true) },
    .object {}]
  codeBlocks := .ofList [
    { function := { name := some "C", params := [.plain "a"] } },
    { function := { params := [.plain "b"], body := [.returnValue (some (.var "b"))] } },
    { function := {} }]
  roots := [{ function := ⟨3⟩, values := [⟨4⟩] }]
  effects := [.globalAssign "C" ⟨0⟩]
where
  member (kind : MethodKind) (key : String) (isStatic : Bool) : ClassMethod :=
    { kind, key, isStatic, isComputed := false, classPrototype := ⟨1⟩, constructor := ⟨0⟩
      superClass := none }

theorem classWithRoot_members {id : ValueId} {function : FunctionValue} {method : ClassMethod}
    (isFunction : classWithRoot.values.get? id = some (.function function))
    (isMethod : function.classMethod = some method) :
    method.classPrototype = ⟨1⟩ ∧ method.constructor = ⟨0⟩ ∧
      (method.kind = .constructor → id = ⟨0⟩) := by
  obtain ⟨index⟩ := id
  match index, isFunction with
  | 0, isFunction | 2, isFunction | 3, isFunction =>
    cases isFunction
    cases isMethod
    exact ⟨rfl, rfl, by decide⟩
  | 1, isFunction | 4, isFunction | _ + 5, isFunction => cases isFunction

theorem classWithRoot_classesAgree : classWithRoot.ClassesAgree := by
  intro id function method isFunction isMethod constructor
  obtain ⟨isPrototype, isConstructor, -⟩ := classWithRoot_members isFunction isMethod
  rw [isPrototype, isConstructor]
  constructor
  · rintro ⟨function', method', isFunction', isMethod', isKind, -⟩
    exact (classWithRoot_members isFunction' isMethod').2.2 isKind
  · rintro rfl
    exact ⟨_, _, rfl, rfl, rfl, rfl⟩

/-- The constructor and the method have their own code, and the getter has the body of its root. -/
def classWithRootText : String :=
  "var _0 = class C \x7b\n  constructor(a) \x7b\n  \x7d\n  m(b) \x7b\n    return b;\n  \x7d\n" ++
    "  static get s() \x7b\n    var _3 = \x7b\x7d;\n  \x7d\n\x7d;\n"

theorem classWithRoot_definesClasses : ∃ script written name,
    materialize classWithRoot {} = .ok script ∧
    (Context.prepare classWithRoot {} >>= writeHeap) = .ok written ∧
    written.session.identifiers.get? ⟨0⟩ = some name ∧ ∃ definition others,
      (blocksOf script.stmts).flatten.filter (name ∈ ·.declares) =
        [.var name (.classExpr definition)] ∧
      ⟨2⟩ ∈ ⟨0⟩ :: others ∧ ⟨3⟩ ∈ ⟨0⟩ :: others ∧
      List.Forall₂ (fun id member => classWithRoot.Describes id member ∧ written.Defines id member)
        (⟨0⟩ :: others) definition.members ∧
      Stmt.text 0 (.var name (.classExpr definition)) = classWithRootText := by
  obtain ⟨script, isScript, isText⟩ : ∃ script, materialize classWithRoot {} = .ok script ∧
      (((blocksOf script.stmts).flatten.filter ("_0" ∈ ·.declares)).map (Stmt.text 0) ==
        [classWithRootText]) = true :=
    exists_ok (by decide +kernel)
  obtain ⟨written, isWritten, named⟩ : ∃ written,
      (Context.prepare classWithRoot {} >>= writeHeap) = .ok written ∧
        (written.session.identifiers.get? ⟨0⟩ == some "_0") = true := exists_ok (by decide +kernel)
  obtain ⟨written', isWritten', classes⟩ := (materialize_definesClasses
    (show (classWithRoot.roots.map (·.function)).Nodup by decide) classWithRoot_classesAgree
    {}).2 script isScript
  obtain rfl := Except.ok.inj (isWritten.symm.trans isWritten')
  obtain ⟨definition, others, isOnly, -, areMembers, describes⟩ :=
    classes ⟨1⟩ ⟨0⟩ "_0" ⟨_, _, rfl, rfl, rfl, rfl⟩ (beq_iff_eq.mp named)
  have isMethod := (areMembers ⟨2⟩).mpr ⟨_, _, rfl, rfl, rfl⟩
  have isGetter := (areMembers ⟨3⟩).mpr ⟨_, _, rfl, rfl, rfl⟩
  rw [isOnly, beq_iff_eq] at isText
  exact ⟨script, written, "_0", isScript, isWritten, beq_iff_eq.mp named, definition, others,
    isOnly, isMethod, isGetter, describes, (cons.inj isText).1⟩

end HeapScript
