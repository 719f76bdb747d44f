import HeapScript.Proofs.Assembly.Replacements
import HeapScript.Proofs.Session.UsedNames

/-!
How lazy objects are referred to.

The body that fills a lazy object sees the object through a parameter. Everywhere else it goes by
its name: in all other bodies, and in what is kept for the definitions of functions and roots.
-/

namespace HeapScript

namespace Session

variable {context : Context} {session : Session} {id : ValueId} {home : BodyId} {name : String}

/-- The expression in a body for a lazy object with the given name, which is filled at home. -/
def lazyExpr (home : BodyId) (name : String) (body : BodyId) : Expr :=
  if body = home then .var lazyParam else .var name

theorem lazyBody?_eq {object : LazyObject} (isLazy : session.lazyObjects.get? id = some object)
    (isHome : object.body = some home) : session.lazyBody? id = some home := by
  simp [lazyBody?, isLazy, isHome]

theorem Valid.isWithin_lazy (valid : session.Valid context)
    (isLazy : session.lazyBody? id = some home)
    (body : BodyId) : session.bodies.isWithin body home = true ↔ body = home := by
  refine ⟨fun within => ?_, ?_⟩
  · exact valid.tree.eq_of_isWithin within (valid.declares_lazyBody isLazy)
  · rintro rfl
    exact Bodies.Tree.isWithin_self _ _

/-- A reference to a lazy object always succeeds. Which one it is depends on the cursor. -/
theorem runs_reference_lazy (valid : session.Valid context) (housed : Housed context session)
    (isLazy : session.lazyBody? id = some home) (named : session.HasName id name) :
    Runs (reference id) session (lazyExpr home name session.bodies.current)
      (session.noting id) := by
  obtain ⟨object, isObject, -⟩ := Option.bind_eq_some_iff.mp isLazy
  have checked : Runs (checkVisible id) session () session := by
    simp [checkVisible, Runs.get_bind, (housed.selected id object isObject).2,
      valid.tree.kind_global]
  have resolved : Runs (resolve id) (session.noting id)
      (lazyExpr home name session.bodies.current) (session.noting id) := by
    have within := valid.isWithin_lazy isLazy session.bodies.current
    have isLazy : (session.noting id).lazyBody? id = some home := isLazy
    have named : (session.noting id).identifiers.get? id = some name := named
    simp only [resolve, Runs.get_bind, isLazy, Option.any_some, lazyExpr]
    by_cases inside : session.bodies.current = home
    · have filled : (session.noting id).bodies.currentIsWithin home = true := within.mpr inside
      simp [filled, inside]
    · have unfilled : (session.noting id).bodies.currentIsWithin home = false :=
        Bool.eq_false_iff.mpr fun filled => inside (within.mp filled)
      simp [unfilled, inside, runs_identifier, named]
  simp only [reference, Runs.bind_iff, runs_noteUsage]
  exact ⟨(), session, checked, (), _, rfl, resolved⟩

theorem Refers.eq_lazyExpr {body : BodyId} {expr : Expr}
    (refers : session.Refers context body id expr) (valid : session.Valid context)
    (isLazy : session.lazyBody? id = some home) (named : session.HasName id name) :
    expr = lazyExpr home name body := by
  have isBuilt := valid.isBuilt id name named
  cases refers with
  | primitive isPrimitive => simp [Context.IsBuilt, isPrimitive] at isBuilt
  | known isObject isKnown => simp [Context.IsBuilt, isObject, isKnown] at isBuilt
  | named _ named' _ outside =>
    obtain rfl := Option.some.inj (named.symm.trans named')
    have apart : body ≠ home := fun inside => by
      simpa [outside home isLazy] using (valid.isWithin_lazy isLazy body).mpr inside
    exact (if_neg apart).symm
  | filled _ _ isLazy' inside =>
    obtain rfl := Option.some.inj (isLazy.symm.trans isLazy')
    exact (if_pos ((valid.isWithin_lazy isLazy body).mp inside)).symm

theorem MeansAll.not_mem_name {names : List String}
    (meansAll : session.MeansAll context home names) (valid : session.Valid context)
    (distinct : Named context session) (isLazy : session.lazyBody? id = some home)
    (named : session.HasName id name) (used : name ∈ names) : name ∈ context.outsideNames := by
  cases meansAll name used with
  | outside isOutside => exact isOutside
  | value other named' outside =>
    obtain rfl := distinct.distinct id other name named named'
    simpa [outside home isLazy] using (valid.isWithin_lazy isLazy home).mpr rfl
  | filled _ _ _ _ isParam => exact absurd isParam (distinct.ne_of_letter named (by decide))
  | shared number isShared =>
    exact absurd isShared (distinct.ne_of_line named (letter_append _ (by decide)))

/-- The parameter is used in the bodies that fill objects only. -/
theorem MeansAll.lazyParam_cases {body : BodyId} {names : List String}
    (meansAll : session.MeansAll context body names) (valid : session.Valid context)
    (named : Named context session) (used : lazyParam ∈ names) :
    lazyParam ∈ context.outsideNames ∨ ∃ id, session.lazyBody? id = some body := by
  cases meansAll lazyParam used with
  | outside isOutside => exact .inl isOutside
  | value id isNamed _ => exact absurd rfl (named.ne_of_letter isNamed (by decide))
  | filled id home isLazy inside _ =>
    obtain rfl := (valid.isWithin_lazy isLazy body).mp inside
    exact .inr ⟨id, isLazy⟩
  | shared number isShared =>
    have letter : (sharedName number).toList[0]? = some '_' := letter_append _ (by decide)
    rw [← isShared] at letter
    exact absurd letter (by decide)

end Session

namespace Written

open Session

/-- The expressions for values that definitions are made with. -/
inductive Keeps (written : Written) : Expr → Prop where
  | binding {key : BindingKey} {binding : Binding} {value : Expr}
      (isMet : written.session.bindings.get? key = some binding)
      (isDirect : binding.storage = .direct value) : Keeps written value
  | slot {found : CapturedScope} {value : Expr}
      (isScope : found ∈ written.session.captured.scopes.values)
      (isValue : value ∈ found.slots.values) : Keeps written value
  | module {id : ValueId} {inst : FunctionInstance} {name : String} {value : Expr}
      (isInstance : written.session.instances.get? id = some inst)
      (isModule : (name, value) ∈ inst.modules.entries) : Keeps written value
  | superClass {id : ValueId} {inst : FunctionInstance} {method : MethodInstance} {value : Expr}
      (isInstance : written.session.instances.get? id = some inst)
      (isMethod : inst.method = some method) (isSuper : method.superClass = some value) :
      Keeps written value
  | root {record : RootRecord} {value : Expr} (isRecord : record ∈ written.roots)
      (isValue : value ∈ record.modifiedBindings.map (·.2) ∨ value ∈ record.result) :
      Keeps written value

/-- Definitions refer to values as the top level does. -/
theorem Keeps.meansAll {written : Written} {value : Expr} (keeps : written.Keeps value)
    (complete : written.Complete) :
    written.session.MeansAll written.context Bodies.global (value.usedNames true) := by
  have valid := complete.idle.valid
  cases keeps with
  | @binding _ binding _ isMet isDirect =>
    obtain ⟨denotes, noValue⟩ := denotes_of_direct complete isMet isDirect
    cases isValue : binding.value with
    | none =>
      rw [noValue isValue]
      exact .nil
    | some id => exact (denotes id isValue).meansAll valid
  | slot isScope isValue => exact complete.namesKept.slots _ isScope _ isValue
  | module isInstance isModule =>
    exact (complete.namesKept.instances _ _ isInstance).modules _ isModule
  | superClass isInstance isMethod isSuper =>
    exact (complete.namesKept.instances _ _ isInstance).superClass _ _ isMethod isSuper
  | root isRecord isValue =>
    have facts := complete.records _ isRecord
    obtain ⟨id, refers⟩ := facts.values _ isValue
    exact refers.meansAll.atGlobal valid (by simp [facts.kind, BodyKind.declaresValues])

end Written

open Session

/-- The parameter stands for the object that is filled, and for nothing else. Whatever a run has
done so far, a reference to a lazy object is the parameter if the cursor is in the body that fills
the object, and the name of the object otherwise. Each statement refers to values as its own body
does. So the body that fills an object never uses the object's name, and no other body and no
definition uses the parameter. Names from outside the script are not meant by this. -/
theorem lazyParam_standsForFilled (context : Context) :
    (∀ session, Reached context session → ∀ id, Under context session id → ∀ expr after,
      Runs (writeValue context id) session expr after → Moves context session after) ∧
    (∀ session, Reached context session → ∀ id object,
      session.lazyObjects.get? id = some object →
      ∃ name home, session.identifiers.get? id = some name ∧ name ≠ lazyParam ∧
        object.body = some home ∧
        Runs (reference id) session (lazyExpr home name session.bodies.current)
          (session.noting id)) ∧
    ∀ written, writeHeap context = .ok written → Reached context written.session ∧
      (∃ entries : List Entry,
        (∀ body, written.session.bodies.stmts body =
          (entries.filter (·.body = body)).map Entry.stmt) ∧
        ∀ entry ∈ entries, written.session.Serves context entry.body entry.purpose entry.stmt) ∧
      (∀ id object name, written.session.lazyObjects.get? id = some object →
        written.session.identifiers.get? id = some name →
        ∃ home, object.body = some home ∧
          (∀ body expr, written.session.Refers context body id expr →
            expr = lazyExpr home name body) ∧
          ∀ stmt ∈ written.session.bodies.stmts home, name ∈ stmt.usedNames true →
            name ∈ context.outsideNames) ∧
      (∀ body, ∀ stmt ∈ written.session.bodies.stmts body, lazyParam ∈ stmt.usedNames true →
        lazyParam ∈ context.outsideNames ∨
          ∃ id object, written.session.lazyObjects.get? id = some object ∧
            object.body = some body) ∧
      ∀ value, written.Keeps value → lazyParam ∈ value.usedNames true →
        lazyParam ∈ context.outsideNames := by
  refine ⟨fun session reached id under expr after => reached.moves_writeValue under,
    fun session reached id object isLazy => ?_, fun written isWritten => ?_⟩
  · obtain ⟨valid, kept⟩ := reached.regular
    obtain ⟨⟨name, named⟩, home, isHome, -⟩ := valid.lazyObjects id object isLazy
    exact ⟨name, home, named, kept.named.ne_of_letter named (by decide), isHome,
      runs_reference_lazy valid kept.housed (lazyBody?_eq isLazy isHome) named⟩
  obtain ⟨rfl, complete⟩ := writeHeap_eq_ok isWritten
  obtain ⟨entries, accounts⟩ := exists_accounts isWritten
  have valid := complete.idle.valid
  have named := complete.kept.named
  have meansAll : ∀ {body stmt}, stmt ∈ written.session.bodies.stmts body →
      written.session.MeansAll written.context body (stmt.usedNames true) := by
    intro body stmt member
    rw [accounts.stmts] at member
    obtain ⟨entry, isEntry, rfl⟩ := List.mem_map.mp member
    obtain ⟨member, isBody⟩ := List.mem_filter.mp isEntry
    rw [← of_decide_eq_true isBody]
    exact (accounts.records entry member).2.meansAll
  refine ⟨complete.advances.moves, ⟨entries, accounts.stmts,
    fun entry member => (accounts.records entry member).2⟩,
      fun id object name isObject isNamed => ?_,
    fun body stmt member used => ?_, fun value keeps used => ?_⟩
  · obtain ⟨-, home, isHome, -⟩ := valid.lazyObjects id object isObject
    have isLazy := lazyBody?_eq isObject isHome
    exact ⟨home, isHome, fun body expr refers => refers.eq_lazyExpr valid isLazy isNamed,
      fun stmt member => (meansAll member).not_mem_name valid named isLazy isNamed⟩
  · rcases (meansAll member).lazyParam_cases valid named used with isOutside | ⟨id, isLazy⟩
    · exact .inl isOutside
    · exact .inr ⟨id, Option.bind_eq_some_iff.mp isLazy⟩
  · rcases (keeps.meansAll complete).lazyParam_cases valid named used with isOutside | ⟨id, isLazy⟩
    · exact isOutside
    · have outside := valid.outside_lazy valid.tree.declares_global _ isLazy
      simp [Bodies.Tree.isWithin_self] at outside

/-- Two lazy objects, one of which refers to itself. -/
def lazyPair : HeapGraph where
  values := .ofList [
    .object {
      isLazy := true
      properties := [{ key := "self", value := ⟨0⟩ }, { key := "peer", value := ⟨1⟩ }] },
    .object { isLazy := true, properties := [{ key := "peer", value := ⟨0⟩ }] }]
  effects := [.globalAssign "it" ⟨0⟩]

set_option maxRecDepth 20000 in
theorem lazyPair_standsForFilled : ∃ context written object home,
    Context.prepare lazyPair { lazyObjects := some {} } = .ok context ∧
    writeHeap context = .ok written ∧ written.session.lazyObjects.get? ⟨0⟩ = some object ∧
    object.body = some home ∧ written.session.identifiers.get? ⟨0⟩ = some "_0" ∧
    (written.session.bodies.stmts home).map (Stmt.usedNames true) =
      [["obj", "obj"], ["obj", "_1"]] ∧
    (∀ stmt ∈ written.session.bodies.stmts home, "_0" ∈ stmt.usedNames true →
      "_0" ∈ context.outsideNames) ∧
    Runs (reference ⟨0⟩) written.session (.var "_0") (written.session.noting ⟨0⟩) := by
  obtain ⟨written, found, check⟩ : ∃ written,
      (Context.prepare lazyPair { lazyObjects := some {} } >>= writeHeap) = .ok written ∧
        (written.session.identifiers.get? ⟨0⟩ == some "_0" &&
          (written.session.lazyObjects.get? ⟨0⟩).any fun object => object.body.any fun home =>
            home != written.session.bodies.current &&
            (written.session.bodies.stmts home).map (Stmt.usedNames true) ==
              [["obj", "obj"], ["obj", "_1"]]) = true :=
    exists_ok (by decide +kernel)
  obtain ⟨context, prepared, isWritten⟩ := bind_eq_ok.mp found
  simp only [Bool.and_eq_true, beq_iff_eq, Option.any_eq_true, bne_iff_ne] at check
  obtain ⟨named, object, isLazy, home, isHome, outside, areUsed⟩ := check
  obtain ⟨-, refer, standsFor⟩ := lazyParam_standsForFilled context
  obtain ⟨reached, -, fills, -⟩ := standsFor written isWritten
  obtain ⟨name, own, named', -, isOwn, runs⟩ := refer written.session reached ⟨0⟩ object isLazy
  obtain rfl := Option.some.inj (named.symm.trans named')
  obtain rfl := Option.some.inj (isHome.symm.trans isOwn)
  obtain ⟨other, isOther, -, unused⟩ := fills ⟨0⟩ object "_0" isLazy named
  obtain rfl := Option.some.inj (isHome.symm.trans isOther)
  rw [lazyExpr, if_neg outside.symm] at runs
  exact ⟨context, written, object, home, prepared, isWritten, isLazy, isHome, named, areUsed,
    unused, runs⟩

end HeapScript
