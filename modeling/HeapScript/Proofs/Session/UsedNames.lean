import HeapScript.Proofs.Session.Accounts
import HeapScript.Proofs.Session.Outcome

/-!
What the names stand for that a session writes.

In a statement of a body a name stands for a value, for something outside of the script or for a
shared binding, or it is the parameter of the body that fills a lazy object. What a session keeps
for the definitions uses names as the top level does.
-/

namespace HeapScript

open List

theorem Expr.IsChain.usedNames_eq {expr : Expr} (chain : expr.IsChain) (inner : Bool) :
    expr.usedNames inner = expr.usedNames false := by
  induction chain with
  | var name => rfl
  | member _ field induction => exact induction

namespace Session

variable {context : Context} {before after session : Session} {body : BodyId} {name : String}

inductive Means (context : Context) (session : Session) (body : BodyId) (name : String) : Prop where
  | outside (isOutside : name ∈ context.outsideNames)
  | value (id : ValueId) (named : session.identifiers.get? id = some name)
      (outside : ∀ home, session.lazyBody? id = some home →
        session.bodies.isWithin body home = false)
  | filled (id : ValueId) (home : BodyId) (isLazy : session.lazyBody? id = some home)
      (inside : session.bodies.isWithin body home = true) (isParam : name = lazyParam)
  | shared (number : Nat) (isShared : name = sharedName number)

def MeansAll (context : Context) (session : Session) (body : BodyId) (names : List String) : Prop :=
  ∀ name ∈ names, session.Means context body name

namespace MeansAll

variable {names others : List String}

@[simp] theorem nil : session.MeansAll context body [] := by simp [MeansAll]

@[simp] theorem append_iff : session.MeansAll context body (names ++ others) ↔
    session.MeansAll context body names ∧ session.MeansAll context body others := by
  simp only [MeansAll, mem_append, or_imp, forall_and]

theorem exprs_iff {exprs : List Expr} :
    session.MeansAll context body (usedNamesOfExprs true exprs) ↔
    ∀ expr ∈ exprs, session.MeansAll context body (expr.usedNames true) := by
  simp only [MeansAll, mem_usedNamesOfExprs]
  grind

theorem singleton (means : session.Means context body name) :
    session.MeansAll context body [name] := by
  simpa [MeansAll] using means

theorem path {path : String} (isPath : path ∈ context.outsidePaths) :
    session.MeansAll context body ((Expr.path path).usedNames true) := by
  intro name member
  rw [(Expr.isChain_path path).usedNames_eq] at member
  exact .outside (mem_outsideNames isPath member)

theorem of_extends (meansAll : before.MeansAll context body names) (extends_ : Extends before after)
    (tree : before.bodies.Tree) (present : before.bodies.Has body) :
    after.MeansAll context body names := by
  intro name member
  cases meansAll name member with
  | outside isOutside => exact .outside isOutside
  | value id named outside =>
    exact .value id (extends_.identifiers id name named)
      (extends_.outside_lazy tree present outside)
  | filled id home isLazy inside isParam =>
    exact .filled id home (extends_.lazyBody isLazy)
      (by rwa [extends_.bodies.isWithin_eq tree present]) isParam
  | shared number isShared => exact .shared number isShared

theorem atGlobal (meansAll : session.MeansAll context body names) (valid : session.Valid context)
    (declares : (session.bodies.kind body).declaresValues = true) :
    session.MeansAll context Bodies.global names := by
  intro name member
  cases meansAll name member with
  | outside isOutside => exact .outside isOutside
  | value id named _ => exact .value id named (valid.outside_lazy valid.tree.declares_global)
  | filled id home isLazy inside _ => simp [valid.outside_lazy declares _ isLazy] at inside
  | shared number isShared => exact .shared number isShared

end MeansAll

/-! ## Statements -/

theorem means_object : session.MeansAll context body ["Object"] :=
  .singleton (.outside (by simp [Context.outsideNames]))

theorem Refers.meansAll {id : ValueId} {expr : Expr}
    (refers : session.Refers context body id expr) :
    session.MeansAll context body (expr.usedNames true) := by
  cases refers with
  | primitive _ => exact .nil
  | known isObject isKnown => exact .path (mem_outsidePaths_of_known isObject isKnown)
  | named _ isNamed _ outside => exact .singleton (.value id isNamed outside)
  | filled _ _ isLazy inside => exact .singleton (.filled id _ isLazy inside rfl)

theorem Creates.meansAll {id : ValueId} {creation : Creation} {init : Expr}
    (creates : session.Creates context body id creation (some init)) :
    session.MeansAll context body (init.usedNames true) := by
  cases creates with
  | plain => exact .nil
  | fromPrototype _ _ refers =>
    exact MeansAll.append_iff.mpr ⟨means_object,
      MeansAll.exprs_iff.mpr (by simpa using refers.meansAll)⟩
  | placeholder number isSettings =>
    refine MeansAll.append_iff.mpr ⟨.path ?_, .nil⟩
    exact mem_append_left _ (by simp [isSettings])

theorem Serves.meansAll {purpose : Purpose} {stmt : Stmt}
    (serves : session.Serves context body purpose stmt) :
    session.MeansAll context body (stmt.usedNames true) := by
  have call : ∀ {method : String} {args : List Expr},
      (∀ arg ∈ args, session.MeansAll context body (arg.usedNames true)) →
      session.MeansAll context body
        ((Expr.methodCall (.var "Object") method args).usedNames true) :=
    fun known => MeansAll.append_iff.mpr ⟨means_object, MeansAll.exprs_iff.mpr known⟩
  cases serves with
  | @declared _ _ _ init _ creates =>
    cases init with
    | none => exact .nil
    | some init => exact creates.meansAll
  | created _ refersTarget creates =>
    exact MeansAll.append_iff.mpr ⟨refersTarget.meansAll, creates.meansAll⟩
  | link _ _ refersTarget refers =>
      exact call (by simpa using ⟨refersTarget.meansAll, refers.meansAll⟩)
  | property refersTarget refers | propertyAssign refersTarget refers =>
    exact MeansAll.append_iff.mpr ⟨refersTarget.meansAll, refers.meansAll⟩
  | lock _ refersTarget => exact call (by simpa using refersTarget.meansAll)
  | sharedVariable => exact .nil
  | sharedInit refers => exact refers.meansAll
  | @sharedValue number _ _ refers =>
    exact MeansAll.append_iff.mpr ⟨.singleton (.shared number rfl), refers.meansAll⟩
  | globalAssign refers =>
    exact MeansAll.append_iff.mpr
      ⟨.singleton (.outside (by simp [Context.outsideNames])), refers.meansAll⟩
  | call refersCallee refers =>
    refine MeansAll.append_iff.mpr ⟨refersCallee.meansAll, MeansAll.exprs_iff.mpr ?_⟩
    intro expr member
    obtain ⟨_, _, refers⟩ := exists_related refers.flip member
    exact Refers.meansAll refers

/-! ## Instances and slots -/

/-- What an instance keeps for its definition uses names as the top level does. -/
structure KeepsNames (context : Context) (session : Session) (inst : FunctionInstance) : Prop where
  modules : ∀ entry ∈ inst.modules.entries,
    session.MeansAll context Bodies.global (entry.2.usedNames true)
  superClass : ∀ method expr, inst.method = some method → method.superClass = some expr →
    session.MeansAll context Bodies.global (expr.usedNames true)
  extras : ∀ stmt ∈ inst.extras, session.MeansAll context Bodies.global (stmt.usedNames true)
  flag : ∀ delayed, inst.delayed = some delayed → ∃ number : Nat, delayed.flag = s!"__init_{number}"

theorem KeepsNames.of_extends {inst : FunctionInstance} (keeps : KeepsNames context before inst)
    (extends_ : Extends before after) (tree : before.bodies.Tree) :
    KeepsNames context after inst where
  modules entry member := (keeps.modules entry member).of_extends extends_ tree tree.has_global
  superClass method expr isMethod isSuper :=
    (keeps.superClass method expr isMethod isSuper).of_extends extends_ tree tree.has_global
  extras stmt member := (keeps.extras stmt member).of_extends extends_ tree tree.has_global
  flag := keeps.flag

theorem InstanceChange.keepsNames {id : ValueId} {inst later : FunctionInstance}
    (change : InstanceChange context session id inst later) (valid : session.Valid context)
    (keeps : KeepsNames context session inst) : KeepsNames context session later := by
  cases change with
  | addAlias ownerNamed =>
    refine { keeps with extras := fun stmt member => ?_ }
    rcases mem_append.mp member with old | new
    · exact keeps.extras stmt old
    · rw [mem_singleton.mp new]
      exact .singleton (.value id ownerNamed (valid.outside_lazy valid.tree.declares_global))
  | attachFlag _ =>
    refine { keeps with
      extras := fun stmt member => ?_
      flag := fun delayed isDelayed => ⟨_, (congrArg _ (Option.some.inj isDelayed)).symm⟩ }
    rcases mem_cons.mp member with rfl | old
    · exact .nil
    · exact keeps.extras stmt old
  | adjust _ adjusts =>
    cases adjusts with
    | addModule _ refers declares =>
      refine { keeps with modules := fun entry member => ?_ }
      rcases KeyedTable.mem_putEntry member with rfl | old
      · exact refers.meansAll.atGlobal valid declares
      · exact keeps.modules entry old
    | setMethod _ _ linked =>
      refine { keeps with superClass := fun place expr isPlace isSuper => ?_ }
      obtain rfl := Option.some.inj isPlace
      obtain ⟨_, _, _, refers⟩ := linked.superClass expr isSuper
      exact refers.meansAll.atGlobal valid linked.declares
    | addScope _ _ =>
      dsimp only
      exact inst.addScope_eq _ ▸ { keeps with }
    | _ => exact { keeps with }
  | _ => exact { keeps with }

/-- All instances and the first values of slots use names as the top level does. -/
structure NamesKept (context : Context) (session : Session) : Prop where
  instances : ∀ id inst, session.instances.get? id = some inst → KeepsNames context session inst
  slots : ∀ found ∈ session.captured.scopes.values, ∀ value ∈ found.slots.values,
    session.MeansAll context Bodies.global (value.usedNames true)

namespace NamesKept

theorem initial (context : Context) : NamesKept context (Session.initial context) where
  instances _ _ found := by simp [Session.initial] at found
  slots := by simp [Session.initial, KeyedTable.values]

theorem of_extends (kept : NamesKept context before) (extends_ : Extends before after)
    (tree : before.bodies.Tree) (instances : after.instances = before.instances)
    (captured : after.captured = before.captured) : NamesKept context after where
  instances id inst found := (kept.instances id inst (instances ▸ found)).of_extends extends_ tree
  slots found member value isValue :=
    (kept.slots found (captured ▸ member) value isValue).of_extends extends_ tree tree.has_global

theorem step (kept : NamesKept context before) (step : Step context before after)
    (valid : before.Valid context) : NamesKept context after where
  instances id later found := by
    rcases step.instance_cases found with ⟨inst, isInstance, change⟩ | ⟨_, _, _, _, _, rfl⟩
    · exact (change.keepsNames valid (kept.instances id inst isInstance)).of_extends
        (step.extends_ valid) valid.tree
    · exact ⟨by simp [newInstance], by simp [newInstance], by simp [newInstance],
        by simp [newInstance]⟩
  slots := by
    refine step.captured_cases.slots (fun value declares isValue => ?_)
      fun found member value isValue =>
      (kept.slots found member value isValue).of_extends (step.extends_ valid) valid.tree
        valid.tree.has_global
    rcases isValue with rfl | ⟨id, refers⟩
    · exact .nil
    · exact (refers.meansAll.atGlobal valid declares).of_extends (step.extends_ valid) valid.tree
        valid.tree.has_global

end NamesKept

theorem Denotes.meansAll {id : ValueId} {expr : Expr} (denotes : session.Denotes context id expr)
    (valid : session.Valid context) :
    session.MeansAll context Bodies.global (expr.usedNames true) := by
  cases denotes with
  | primitive _ => exact .nil
  | known isObject isKnown => exact .path (mem_outsidePaths_of_known isObject isKnown)
  | named _ isNamed =>
    exact .singleton (.value id isNamed (valid.outside_lazy valid.tree.declares_global))

end Session

theorem Written.Complete.namesKept {written : Written} (complete : written.Complete) :
    written.session.NamesKept written.context :=
  (complete.advances.moves.invariant (fun step valid kept => kept.step step valid)
    (fun _ valid kept => kept.of_extends (.adding (.refl _) _ _) valid.tree rfl rfl)
    (Session.valid_initial _) (.initial _)).2

end HeapScript
