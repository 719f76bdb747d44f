import HeapScript.Proofs.Session.Step

/-!
What a session never loses.

Names, places of declarations, decided bindings and the definitions of instances stay, and a value
that is complete stays so. A name that a statement may use at some time may therefore be used from
then on.
-/

namespace HeapScript

open List

theorem FunctionInstance.addScope_eq (inst : FunctionInstance) (scope : ScopeId) :
    inst.addScope scope = { inst with scopes := (inst.addScope scope).scopes } := by
  unfold addScope
  split <;> rfl

/-- An instance after further facts on it have been found. -/
structure FunctionInstance.Grows (inst later : FunctionInstance) : Prop where
  declarationBody : later.declarationBody = inst.declarationBody
  bindings : ∀ name, (inst.bindings.get? name).isSome → (later.bindings.get? name).isSome
  method : inst.method.isSome → later.method.isSome

namespace FunctionInstance.Grows

theorem refl (inst : FunctionInstance) : inst.Grows inst :=
  ⟨rfl, fun _ => id, id⟩

theorem trans {inst later last : FunctionInstance} (first : inst.Grows later)
    (second : later.Grows last) : inst.Grows last where
  declarationBody := second.declarationBody.trans first.declarationBody
  bindings name bound := second.bindings name (first.bindings name bound)
  method isMethod := second.method (first.method isMethod)

section

variable (inst : FunctionInstance)

include inst

theorem noting (current : BodyId) (position : Position) :
    inst.Grows (if inst.firstUsage.isNone ∧ inst.declarationBody = current then
      { inst with firstUsage := some position } else inst) := by
  split
  · exact { refl inst with }
  · exact refl inst

theorem addAlias (name ownerName : String) : inst.Grows (Session.addAlias name ownerName inst) :=
  { refl inst with }

theorem attachFlag (body : BodyId) (flag : String) :
    inst.Grows (Session.attachFlag body flag inst) :=
  { refl inst with }

theorem insertBinding (name : String) (key : Option BindingKey) :
    inst.Grows { inst with bindings := inst.bindings.insert name key } :=
  { refl inst with
    bindings := by
      intro other bound
      by_cases same : name = other <;> simp [KeyedTable.get?_insert, same, bound] }

theorem insertNewBinding (name : String) (key : Option BindingKey) :
    inst.Grows { inst with bindings := inst.bindings.insertIfNew name key } :=
  { refl inst with
    bindings := by
      intro other bound
      by_cases same : name = other <;> simp [KeyedTable.get?_insertIfNew, same, bound] }

end

end FunctionInstance.Grows

namespace Session

variable {id : ValueId} {body : BodyId} {context : Context} {name : String}
  {awaited : Option ValueId} {expr : Expr}

structure Extends (before after : Session) : Prop where
  bodies : before.bodies.Grows after.bodies
  identifiers : ∀ id name, before.identifiers.get? id = some name →
    after.identifiers.get? id = some name
  declaredIn : ∀ id home, before.declaredIn.get? id = some home →
    after.declaredIn.get? id = some home
  settled : ∀ id, before.Settled id → id ∉ after.inProgress
  lazyObjects : ∀ id object, before.lazyObjects.get? id = some object →
    after.lazyObjects.get? id = some object
  newLazy : ∀ id home, before.lazyObjects.get? id = none →
    after.lazyBody? id = some home → ¬before.bodies.Has home
  delayedBodies : ∀ id body, before.delayedBodies.get? id = some body →
    after.delayedBodies.get? id = some body
  sharedCaptures : before.sharedCaptures ≤ after.sharedCaptures
  instances : ∀ id inst, before.instances.get? id = some inst →
    ∃ later, after.instances.get? id = some later ∧ inst.Grows later
  bindings : ∀ key binding, before.bindings.get? key = some binding →
    ∃ later, after.bindings.get? key = some later ∧ later.value = binding.value ∧
      (binding.storage ≠ .undecided → later = binding)

namespace Extends

variable {before middle after : Session}

theorem refl (session : Session) : Extends session session where
  bodies := .refl _
  identifiers _ _ := id
  declaredIn _ _ := id
  settled _ settled := settled.2
  lazyObjects _ _ := id
  newLazy _ _ isNew found := by simp [lazyBody?, isNew] at found
  delayedBodies _ _ := id
  sharedCaptures := Nat.le_refl _
  instances _ inst found := ⟨inst, found, .refl inst⟩
  bindings _ binding found := ⟨binding, found, rfl, fun _ => rfl⟩

theorem lazyBody (extends_ : Extends before after) {home : BodyId}
    (isLazy : before.lazyBody? id = some home) : after.lazyBody? id = some home := by
  obtain ⟨object, isObject, isBody⟩ := Option.bind_eq_some_iff.mp isLazy
  exact Option.bind_eq_some_iff.mpr ⟨object, extends_.lazyObjects id object isObject, isBody⟩

theorem settled_of_settled (extends_ : Extends before after) (settled : before.Settled id) :
    after.Settled id := by
  obtain ⟨name, named⟩ := settled.1
  exact ⟨⟨name, extends_.identifiers id name named⟩, extends_.settled id settled⟩

theorem trans (first : Extends before middle) (second : Extends middle after) :
    Extends before after where
  bodies := first.bodies.trans second.bodies
  identifiers id name named := second.identifiers id name (first.identifiers id name named)
  declaredIn id home found := second.declaredIn id home (first.declaredIn id home found)
  settled id settled := second.settled id (first.settled_of_settled settled)
  lazyObjects id object found := second.lazyObjects id object (first.lazyObjects id object found)
  newLazy id home isNew found := by
    cases between : middle.lazyObjects.get? id with
    | none => exact fun present => second.newLazy id home between found (first.bodies.has present)
    | some object =>
      refine first.newLazy id home isNew ?_
      simpa [lazyBody?, between, second.lazyObjects id object between] using found
  delayedBodies id body found :=
    second.delayedBodies id body (first.delayedBodies id body found)
  sharedCaptures := Nat.le_trans first.sharedCaptures second.sharedCaptures
  instances id inst found := by
    obtain ⟨between, foundBetween, grows⟩ := first.instances id inst found
    obtain ⟨later, foundLater, grows'⟩ := second.instances id between foundBetween
    exact ⟨later, foundLater, grows.trans grows'⟩
  bindings key binding found := by
    obtain ⟨between, foundBetween, value, decided⟩ := first.bindings key binding found
    obtain ⟨later, foundLater, value', decided'⟩ := second.bindings key between foundBetween
    refine ⟨later, foundLater, value'.trans value, fun isDecided => ?_⟩
    have same := decided isDecided
    subst same
    exact decided' isDecided

/-! ### Single changes -/

section Changes

variable {session : Session} (extends_ : Extends before session)

include extends_

theorem emitting (body : BodyId) (stmt : Stmt) : Extends before (session.emitting body stmt) :=
  { extends_ with bodies := extends_.bodies.emitInto body stmt }

theorem entering (body : BodyId) : Extends before (session.entering body) :=
  { extends_ with bodies := extends_.bodies.of_arena_eq rfl }

theorem leaving : Extends before session.leaving :=
  { extends_ with bodies := extends_.bodies.of_arena_eq rfl }

theorem adding (kind : BodyKind) (parent : BodyId) : Extends before (session.adding kind parent) :=
  { extends_ with bodies := extends_.bodies.newBody kind parent }

theorem deferring (awaited : ValueId) (work : Deferred) :
    Extends before (session.deferring awaited work) :=
  { extends_ with }

theorem finishing (id : ValueId) : Extends before (session.finishing id) :=
  { extends_ with
    settled := fun other settled member =>
      extends_.settled other settled (mem_filter.mp member).1 }

theorem starting (isNew : before.identifiers.get? id = none) :
    Extends before (session.starting id) :=
  { extends_ with
    settled := by
      intro other settled member
      rcases mem_insert_iff.mp member with rfl | member
      · obtain ⟨name, named⟩ := settled.1
        simp [isNew] at named
      · exact extends_.settled other settled member }

theorem allocating (isNew : session.identifiers.get? id = none)
    (homeless : session.declaredIn.get? id = none) : Extends before (session.allocating id) :=
  { extends_ with
    identifiers := by
      intro other name named
      have known := extends_.identifiers other name named
      have different : other ≠ id := by
        rintro rfl
        simp [isNew] at known
      simpa [Session.allocating, SideTable.get?_insert, different] using known
    declaredIn := by
      intro other home found
      have known := extends_.declaredIn other home found
      have different : other ≠ id := by
        rintro rfl
        simp [homeless] at known
      simpa [Session.allocating, SideTable.get?_insert, different] using known }

theorem changing {change : FunctionInstance → FunctionInstance}
    (grows : ∀ inst : FunctionInstance, inst.Grows (change inst)) :
    Extends before (session.changing id change) :=
  { extends_ with
    instances := by
      intro other inst found
      obtain ⟨later, foundLater, growsLater⟩ := extends_.instances other inst found
      by_cases same : other = id
      · subst same
        exact ⟨change later, by simp [Session.changing, KeyedTable.get?_modify, foundLater],
          growsLater.trans (grows later)⟩
      · exact ⟨later, by simp [Session.changing, KeyedTable.get?_modify, same, foundLater],
          growsLater⟩ }

theorem binding {key : BindingKey} {changed : Binding}
    (same : ∀ found, session.bindings.get? key = some found →
      changed.value = found.value ∧ found.storage = .undecided) :
    Extends before (session.binding key changed) :=
  { extends_ with
    bindings := by
      intro other found isFound
      obtain ⟨later, foundLater, value, decided⟩ := extends_.bindings other found isFound
      by_cases isKey : key = other
      · subst isKey
        obtain ⟨sameValue, undecided⟩ := same later foundLater
        refine ⟨changed, by simp [Session.binding], sameValue.trans value, fun isDecided => ?_⟩
        have unchanged := decided isDecided
        subst unchanged
        exact absurd undecided isDecided
      · exact ⟨later, by simp [Session.binding, KeyedTable.get?_insert, isKey, foundLater], value,
          decided⟩ }

theorem linking (name : String) (link : Option (ValueId × Expr)) :
    Extends before (session.linking name link) := by
  cases link with
  | none => exact extends_
  | some link => exact extends_.deferring _ _

theorem delaying (function : ValueId) : Extends before (session.delaying function) := by
  unfold Session.delaying
  split
  · exact extends_
  · rename_i isNew
    exact { extends_.adding (.delayedInit function) session.bodies.declarationBody with
      delayedBodies := by
        intro id body found
        have known := extends_.delayedBodies id body found
        have different : function ≠ id := by
          rintro rfl
          simp [isNew] at known
        simpa [KeyedTable.get?_insert, different] using known }

theorem placing (id : ValueId) : Extends before (session.placing id) := by
  have placed : Extends before (session.changing id fun found =>
      { found with
        insertionPoint := some session.bodies.position, serial := session.serial }) :=
    extends_.changing fun inst => { FunctionInstance.Grows.refl inst with }
  exact { placed with }

theorem reachingFunction (code : CodeId) (isNew : before.identifiers.get? id = none)
    (unnamed : session.identifiers.get? id = none) (homeless : session.declaredIn.get? id = none)
    (unknown : session.instances.get? id = none) :
    Extends before (session.reachingFunction id code) :=
  { (extends_.allocating unnamed homeless).starting isNew with
    instances := by
      intro other inst found
      obtain ⟨later, foundLater, grows⟩ := extends_.instances other inst found
      have different : id ≠ other := by
        rintro rfl
        simp [unknown] at foundLater
      exact ⟨later, by simp [Session.reachingFunction, KeyedTable.get?_insert, different,
        foundLater], grows⟩ }

end Changes

/-! ### Names -/

variable (extends_ : Extends before after) (tree : before.bodies.Tree)

include extends_ tree

theorem sees (present : before.bodies.Has body) (sees : before.Sees body id) :
    after.Sees body id := by
  obtain ⟨home, found, isVisible⟩ := sees
  refine ⟨home, extends_.declaredIn id home found, isVisible.imp_right fun inside => ?_⟩
  rwa [extends_.bodies.isWithin_eq tree present]

theorem nameable (present : before.bodies.Has body)
    (nameable : before.Nameable context awaited body name) :
    after.Nameable context awaited body name := by
  cases nameable with
  | value id named complete sees =>
    refine .value id (extends_.identifiers id name named) ?_ (extends_.sees tree present sees)
    exact complete.imp_left fun complete => extends_.settled id ⟨⟨name, named⟩, complete⟩
  | outside isOutside => exact .outside isOutside
  | filled id home isLazy inside isParam =>
    refine .filled id home (extends_.lazyBody isLazy) ?_ isParam
    rwa [extends_.bodies.isWithin_eq tree present]
  | shared number used isShared =>
    exact .shared number (Nat.lt_of_lt_of_le used extends_.sharedCaptures) isShared

theorem allows {stmt : Stmt} (allows : before.Allows context awaited body stmt) :
    after.Allows context awaited body stmt :=
  ⟨extends_.bodies.has allows.1,
    fun name used => extends_.nameable tree allows.1 (allows.2 name used)⟩

theorem canWait {awaited : ValueId} {work : Deferred}
    (canWait : before.CanWait context awaited work) : after.CanWait context awaited work := by
  cases canWait with
  | stmt allowed => exact .stmt (extends_.allows tree allowed)
  | prototype owned named isObject =>
    exact .prototype owned (extends_.identifiers _ _ named) isObject

theorem outside_lazy (present : before.bodies.Has body)
    (outside : ∀ home, before.lazyBody? id = some home →
      before.bodies.isWithin body home = false) (home : BodyId)
    (isLazy : after.lazyBody? id = some home) : after.bodies.isWithin body home = false := by
  rw [extends_.bodies.isWithin_eq tree present]
  cases isOld : before.lazyObjects.get? id with
  | none => exact tree.not_isWithin_of_not_has present (extends_.newLazy id home isOld isLazy)
  | some old =>
    refine outside home ?_
    simpa [lazyBody?, isOld, extends_.lazyObjects id old isOld] using isLazy

theorem refers (present : before.bodies.Has body) (refers : before.Refers context body id expr) :
    after.Refers context body id expr := by
  cases refers with
  | primitive isPrimitive => exact .primitive isPrimitive
  | known isObject isKnown => exact .known isObject isKnown
  | named isBuilt named sees outside =>
    exact .named isBuilt (extends_.identifiers id _ named) (extends_.sees tree present sees)
      (extends_.outside_lazy tree present outside)
  | filled isBuilt named isLazy inside =>
    refine .filled isBuilt (extends_.identifiers id _ named)
      (extends_.lazyBody isLazy) ?_
    rwa [extends_.bodies.isWithin_eq tree present]

end Extends

/-! ## Names of references -/

theorem mem_outsideNames {path : String} (isPath : path ∈ context.outsidePaths)
    (used : name ∈ (Expr.path path).usedNames false) : name ∈ context.outsideNames :=
  mem_append_right _ (mem_flatMap.mpr ⟨path, isPath, used⟩)

theorem mem_outsidePaths_of_known {object : ObjectValue} {path : String}
    (isObject : context.IsObject id object)
    (isKnown : object.knownPath = some path) : path ∈ context.outsidePaths :=
  mem_append_right _
    (mem_filterMap.mpr ⟨_, Arena.mem_toList_of_get? isObject, isKnown⟩)

theorem Refers.nameable {session : Session} (refers : session.Refers context body id expr)
    (complete : id ∉ session.inProgress ∨ awaited = some id) (name : String)
    (used : name ∈ expr.usedNames false) : session.Nameable context awaited body name := by
  cases refers with
  | primitive isPrimitive => simp [Expr.usedNames] at used
  | known isObject isKnown =>
    exact .outside (mem_outsideNames (mem_outsidePaths_of_known isObject isKnown) used)
  | named isBuilt named sees _ =>
    obtain rfl : name = _ := by simpa [Expr.usedNames] using used
    exact .value id named complete sees
  | filled isBuilt named isLazy inside =>
    obtain rfl : name = _ := by simpa [Expr.usedNames] using used
    exact .filled id _ isLazy inside rfl

/-! ## Valid sessions -/

/-- What holds between any two steps. -/
structure Valid (context : Context) (session : Session) : Prop where
  tree : session.bodies.Tree
  entered : ∀ body ∈ session.bodies.entered, session.bodies.Has body
  homes : ∀ id name, session.identifiers.get? id = some name →
    ∃ home, session.declaredIn.get? id = some home ∧ session.bodies.Has home ∧
      (session.bodies.kind home).declaresValues = true
  homeless : ∀ id, session.identifiers.get? id = none → session.declaredIn.get? id = none
  isBuilt : ∀ id name, session.identifiers.get? id = some name → context.IsBuilt id
  started : ∀ id ∈ session.inProgress, ∃ name, session.identifiers.get? id = some name
  notInstance : ∀ id, session.identifiers.get? id = none → session.instances.get? id = none
  awaited : ∀ id works, session.deferred.get? id = some works → id ∈ session.inProgress
  deferred : ∀ id works, session.deferred.get? id = some works →
    ∀ work ∈ works, session.CanWait context id work
  locks : ∀ id lock, session.locks.get? id = some lock →
    session.Allows context none lock.body lock.stmt
  lazyObjects : ∀ id object, session.lazyObjects.get? id = some object →
    (∃ name, session.identifiers.get? id = some name) ∧ ∃ home, object.body = some home ∧
      session.bodies.Has home ∧ (session.bodies.kind home).declaresValues = false
  /-- The body for a function's first call lies in the body where the function is declared. -/
  delayedBodies : ∀ id body, session.delayedBodies.get? id = some body →
    session.bodies.Has body ∧ session.bodies.kind body = .delayedInit id ∧
      ∃ home, session.declaredIn.get? id = some home ∧ session.bodies.parent? body = some home

namespace Valid

variable {context : Context} {before after session : Session}

theorem has_current (valid : session.Valid context) :
    session.bodies.Has session.bodies.current := by
  unfold Bodies.current
  cases entered : session.bodies.entered with
  | nil => exact valid.tree.has_global
  | cons body rest => exact valid.entered body (by simp [entered])

theorem notLazy (valid : session.Valid context) (isNew : session.identifiers.get? id = none) :
    session.lazyObjects.get? id = none := by
  refine Option.eq_none_iff_forall_ne_some.mpr fun object isLazy => ?_
  obtain ⟨⟨name, named⟩, -⟩ := valid.lazyObjects id object isLazy
  simp [isNew] at named

theorem declares_lazyBody (valid : session.Valid context) {home : BodyId}
    (isLazy : session.lazyBody? id = some home) :
    (session.bodies.kind home).declaresValues = false := by
  obtain ⟨object, isObject, isBody⟩ := Option.bind_eq_some_iff.mp isLazy
  obtain ⟨-, home', isHome, -, plain⟩ := valid.lazyObjects id object isObject
  obtain rfl := Option.some.inj (isHome.symm.trans isBody)
  exact plain

theorem outside_lazy (valid : session.Valid context)
    (declares : (session.bodies.kind body).declaresValues = true) (home : BodyId)
    (isLazy : session.lazyBody? id = some home) : session.bodies.isWithin body home = false :=
  valid.tree.not_isWithin declares _ (valid.declares_lazyBody isLazy)

/-- All that is new after a step is in order. -/
structure Renews (context : Context) (before after : Session) : Prop where
  tree : after.bodies.Tree
  entered : ∀ body ∈ after.bodies.entered,
    body ∈ before.bodies.entered ∨ after.bodies.Has body := by exact fun _ => .inl
  identifiers : ∀ id name, after.identifiers.get? id = some name →
    before.identifiers.get? id = some name ∨ context.IsBuilt id ∧
      ∃ home, after.declaredIn.get? id = some home ∧ after.bodies.Has home ∧
        (after.bodies.kind home).declaresValues = true := by exact fun _ _ => .inl
  unnamed : ∀ id, after.identifiers.get? id = none → before.identifiers.get? id = none ∧
    (before.declaredIn.get? id = none → after.declaredIn.get? id = none) ∧
    (before.instances.get? id = none → after.instances.get? id = none) := by
      exact fun _ unnamed => ⟨unnamed, (·), (·)⟩
  started : ∀ id ∈ after.inProgress,
    id ∈ before.inProgress ∨ ∃ name, after.identifiers.get? id = some name := by
      exact fun _ => .inl
  awaited : ∀ id works, after.deferred.get? id = some works →
    (∃ old, before.deferred.get? id = some old ∧ (id ∈ before.inProgress → id ∈ after.inProgress)) ∨
      id ∈ after.inProgress := by exact fun _ works found => .inl ⟨works, found, (·)⟩
  deferred : ∀ id works, after.deferred.get? id = some works → ∀ work ∈ works,
    (∃ old, before.deferred.get? id = some old ∧ work ∈ old) ∨ after.CanWait context id work := by
      exact fun _ works found _ member => .inl ⟨works, found, member⟩
  locks : ∀ id lock, after.locks.get? id = some lock →
    before.locks.get? id = some lock ∨ after.Allows context none lock.body lock.stmt := by
      exact fun _ _ => .inl
  lazyObjects : ∀ id object, after.lazyObjects.get? id = some object →
    before.lazyObjects.get? id = some object ∨
      (∃ name, after.identifiers.get? id = some name) ∧ ∃ home, object.body = some home ∧
        after.bodies.Has home ∧ (after.bodies.kind home).declaresValues = false := by
          exact fun _ _ => .inl
  delayedBodies : ∀ id body, after.delayedBodies.get? id = some body →
    before.delayedBodies.get? id = some body ∨
      after.bodies.Has body ∧ after.bodies.kind body = .delayedInit id ∧
      ∃ home, after.declaredIn.get? id = some home ∧ after.bodies.parent? body = some home := by
        exact fun _ _ => .inl

theorem of_extends (valid : before.Valid context) (extends_ : Extends before after)
    (renews : Renews context before after) : after.Valid context where
  tree := renews.tree
  entered body member := (renews.entered body member).elim
    (fun old => extends_.bodies.has (valid.entered body old)) (·)
  homes id name named := by
    rcases renews.identifiers id name named with old | ⟨_, new⟩
    · obtain ⟨home, found, present, declares⟩ := valid.homes id name old
      refine ⟨home, extends_.declaredIn id home found, extends_.bodies.has present, ?_⟩
      rwa [extends_.bodies.kind_eq present]
    · exact new
  homeless id unnamed := (renews.unnamed id unnamed).2.1
    (valid.homeless id (renews.unnamed id unnamed).1)
  isBuilt id name named := (renews.identifiers id name named).elim (valid.isBuilt id name) (·.1)
  started id member := by
    rcases renews.started id member with old | new
    · obtain ⟨name, named⟩ := valid.started id old
      exact ⟨name, extends_.identifiers id name named⟩
    · exact new
  notInstance id unnamed := (renews.unnamed id unnamed).2.2
    (valid.notInstance id (renews.unnamed id unnamed).1)
  awaited id works found := by
    rcases renews.awaited id works found with ⟨old, foundOld, kept⟩ | new
    · exact kept (valid.awaited id old foundOld)
    · exact new
  deferred id works found work member := by
    rcases renews.deferred id works found work member with ⟨old, foundOld, memberOld⟩ | new
    · exact extends_.canWait valid.tree (valid.deferred id old foundOld work memberOld)
    · exact new
  locks id lock found := (renews.locks id lock found).elim
    (fun old => extends_.allows valid.tree (valid.locks id lock old)) (·)
  lazyObjects id object found := by
    rcases renews.lazyObjects id object found with old | new
    · obtain ⟨⟨name, named⟩, home, isHome, present, plain⟩ := valid.lazyObjects id object old
      exact ⟨⟨name, extends_.identifiers id name named⟩, home, isHome, extends_.bodies.has present,
        by rwa [extends_.bodies.kind_eq present]⟩
    · exact new
  delayedBodies id body found := by
    rcases renews.delayedBodies id body found with old | new
    · obtain ⟨present, plain, home, foundHome, around⟩ := valid.delayedBodies id body old
      refine ⟨extends_.bodies.has present, by rwa [extends_.bodies.kind_eq present], home,
        extends_.declaredIn id home foundHome, ?_⟩
      rwa [extends_.bodies.parent?_eq present]
    · exact new

theorem emitting (valid : session.Valid context) (body : BodyId) (stmt : Stmt) :
    (session.emitting body stmt).Valid context :=
  valid.of_extends ((Extends.refl session).emitting body stmt)
    { tree := valid.tree.emitInto body stmt }

theorem changing (valid : session.Valid context) {change : FunctionInstance → FunctionInstance}
    (grows : ∀ inst : FunctionInstance, inst.Grows (change inst)) :
    (session.changing id change).Valid context := by
  refine valid.of_extends ((Extends.refl session).changing grows)
    { tree := valid.tree, unnamed := fun other unnamed => ⟨unnamed, (·), fun unknown => ?_⟩ }
  simp [Session.changing, KeyedTable.get?_modify, unknown]

theorem deferred_finishing {other : ValueId} {works : List Deferred}
    (found : (session.finishing id).deferred.get? other = some works) :
    other ≠ id ∧ session.deferred.get? other = some works := by
  simp only [Session.finishing, KeyedTable.get?_erase] at found
  split at found
  · cases found
  · exact ⟨Ne.symm ‹_›, found⟩

theorem finishing (valid : session.Valid context) (id : ValueId) :
    (session.finishing id).Valid context :=
  valid.of_extends ((Extends.refl session).finishing id) {
    tree := valid.tree
    started := fun other member => .inl (mem_filter.mp member).1
    awaited := fun other works found => .inl ⟨works, (deferred_finishing found).2, fun member =>
      mem_filter.mpr ⟨member, by simpa using (deferred_finishing found).1⟩⟩
    deferred := fun other works found _ member =>
      .inl ⟨works, (deferred_finishing found).2, member⟩ }

theorem deferred_deferring {awaited other : ValueId} {work : Deferred} {works : List Deferred}
    (found : (session.deferring awaited work).deferred.get? other = some works) :
    (other = awaited ∨ session.deferred.get? other = some works) ∧ ∀ item ∈ works,
      (∃ old, session.deferred.get? other = some old ∧ item ∈ old) ∨
        other = awaited ∧ item = work := by
  simp only [Session.deferring, KeyedTable.get?_insert] at found
  split at found
  · rename_i same
    subst same
    cases found
    refine ⟨.inl rfl, fun item member => (mem_append.mp member).imp (fun old => ?_) fun new =>
      ⟨rfl, mem_singleton.mp new⟩⟩
    cases waiting : session.deferred.get? awaited with
    | none => simp [waiting] at old
    | some works => exact ⟨works, rfl, by simpa [waiting] using old⟩
  · exact ⟨.inr found, fun item member => .inl ⟨works, found, member⟩⟩

/-- The parts of a session that stay as they are need no proof. -/
example (valid : session.Valid context) : Renews context session session :=
  { tree := valid.tree }

theorem identifiers_allocating_self (session : Session) (id : ValueId) :
    (session.allocating id).identifiers.get? id = some session.names.generate.1 := by
  simp [Session.allocating, SideTable.get?_insert]

theorem home_allocating (valid : session.Valid context) (declares : session.AtDeclarations)
    (id : ValueId) :
    (session.allocating id).declaredIn.get? id = some session.bodies.current := by
  have same := valid.tree.declarationBodyOf_eq_self valid.has_current declares
  simp [Session.allocating, SideTable.get?_insert, Bodies.declarationBody, same]

/-- All names that a value gets are either old ones, or that of the value which is reached now. -/
theorem identifiers_allocating (valid : session.Valid context) (declares : session.AtDeclarations)
    (isBuilt : context.IsBuilt id) (other : ValueId) (name : String)
    (named : (session.allocating id).identifiers.get? other = some name) :
    session.identifiers.get? other = some name ∨ context.IsBuilt other ∧
      ∃ home, (session.allocating id).declaredIn.get? other = some home ∧
        session.bodies.Has home ∧ (session.bodies.kind home).declaresValues = true := by
  by_cases same : other = id
  · subst same
    exact .inr ⟨isBuilt, _, valid.home_allocating declares other, valid.has_current, declares⟩
  · exact .inl (by simpa [Session.allocating, SideTable.get?_insert, same] using named)

theorem unnamed_allocating (session : Session) (id other : ValueId)
    (unnamed : (session.allocating id).identifiers.get? other = none) :
    other ≠ id ∧ session.identifiers.get? other = none ∧
      (session.declaredIn.get? other = none →
        (session.allocating id).declaredIn.get? other = none) := by
  by_cases same : other = id
  · simp [Session.allocating, SideTable.get?_insert, same] at unnamed
  · simpa [Session.allocating, SideTable.get?_insert, same] using unnamed

section

variable (valid : session.Valid context)

include valid

theorem allocating (isBuilt : context.IsBuilt id) (isNew : session.identifiers.get? id = none)
    (declares : session.AtDeclarations) :
    (session.allocating id).Valid context := by
  refine valid.of_extends ((Extends.refl session).allocating isNew (valid.homeless id isNew)) {
    tree := valid.tree
    identifiers := valid.identifiers_allocating declares isBuilt
    unnamed := fun other unnamed => ?_ }
  obtain ⟨-, unnamed, homeless⟩ := unnamed_allocating session id other unnamed
  exact ⟨unnamed, homeless, (·)⟩

theorem entering (present : session.bodies.Has body) : (session.entering body).Valid context := by
  refine valid.of_extends ((Extends.refl session).entering body)
    { tree := valid.tree.of_arena_eq rfl, entered := fun other member => ?_ }
  rcases mem_cons.mp member with rfl | member
  · exact .inr present
  · exact .inl member

theorem adding {kind : BodyKind} {parent : BodyId} (notGlobal : kind ≠ .global)
    (present : session.bodies.Has parent)
    (declares : (session.bodies.kind parent).declaresValues = true) :
    (session.adding kind parent).Valid context :=
  valid.of_extends ((Extends.refl session).adding kind parent)
    { tree := valid.tree.newBody notGlobal present declares }

theorem deferring {awaited : ValueId} {work : Deferred} (isWaiting : awaited ∈ session.inProgress)
    (canWait : session.CanWait context awaited work) :
    (session.deferring awaited work).Valid context := by
  have extends_ := (Extends.refl session).deferring awaited work
  refine valid.of_extends extends_ {
    tree := valid.tree
    awaited := fun id works found => ?_
    deferred := fun id works found other member => ?_ }
  · exact (deferred_deferring found).1.elim (fun same => .inr (same ▸ isWaiting))
      fun found => .inl ⟨works, found, (·)⟩
  · rcases (deferred_deferring found).2 other member with old | ⟨rfl, rfl⟩
    · exact .inl old
    · exact .inr (extends_.canWait valid.tree canWait)

/-- A value that has just been reached may be started, because nothing waits that names it. -/
theorem starting (old : before.Valid context) (extends_ : Extends before session)
    (isNew : before.identifiers.get? id = none)
    (named : ∃ name, session.identifiers.get? id = some name)
    (deferred : session.deferred = before.deferred) (locks : session.locks = before.locks) :
    (session.starting id).Valid context := by
  have started := extends_.starting isNew
  exact { valid with
    started := by
      intro other member
      rcases mem_insert_iff.mp member with rfl | member
      · exact named
      · exact valid.started other member
    awaited := fun other works found =>
      mem_insert_iff.mpr (.inr (valid.awaited other works found))
    deferred := fun other works found work member =>
      started.canWait old.tree (old.deferred other works (deferred ▸ found) work member)
    locks := fun other lock found =>
      started.allows old.tree (old.locks other lock (locks ▸ found)) }

theorem delaying {function : ValueId} (declares : session.AtDeclarations)
    (home : session.declaredIn.get? function = some session.bodies.current) :
    (session.delaying function).Valid context := by
  have extends_ := (Extends.refl session).delaying function
  have same := valid.tree.declarationBodyOf_eq_self valid.has_current declares
  cases found : session.delayedBodies.get? function with
  | some body => simpa [Session.delaying, found] using valid
  | none =>
    have isNew := Bodies.get?_newBody session.bodies session.bodies.arena.next
      (.delayedInit function) session.bodies.current
    simp only [if_true] at isNew
    simp only [Session.delaying, found, Bodies.declarationBody, same] at extends_ ⊢
    refine valid.of_extends extends_ {
      tree := valid.tree.newBody (by simp) valid.has_current declares
      delayedBodies := fun id body isBody => ?_ }
    simp only [KeyedTable.get?_insert] at isBody
    split at isBody
    · rename_i isFunction
      subst isFunction
      cases isBody
      refine .inr ⟨Arena.lt_size_of_get? isNew, ?_, _, home, ?_⟩
      · simp [Session.adding, Bodies.kind, isNew]
      · simp [Session.adding, Bodies.parent?, isNew]
    · exact .inl isBody

theorem placing (id : ValueId) : (session.placing id).Valid context := by
  refine valid.of_extends ((Extends.refl session).placing id)
    { tree := valid.tree, unnamed := fun other unnamed => ⟨unnamed, (·), fun unknown => ?_⟩ }
  simp [Session.placing, Session.changing, KeyedTable.get?_modify, unknown]

/-- Once an object is complete, setting its prototype may wait for the prototype. -/
theorem canWait_linked {prototype : ValueId} (extends_ : Extends session after)
    (complete : id ∉ after.inProgress) (named : session.identifiers.get? id = some name)
    (sees : session.Sees session.bodies.current id)
    (refers : session.Refers context session.bodies.current prototype expr) :
    after.CanWait context prototype
      (.stmt session.bodies.current (setPrototypeOf (.var name) expr) none) := by
  refine .stmt ⟨extends_.bodies.has valid.has_current, fun used member => ?_⟩
  simp only [setPrototypeOf, Expr.methodCall, Stmt.usedNames, Expr.usedNames, usedNamesOfExprs,
    append_nil, mem_append, mem_singleton] at member
  rcases member with rfl | rfl | member
  · exact .outside (by simp [Context.outsideNames])
  · exact .value id (extends_.identifiers id _ named) (.inl complete)
      (extends_.sees valid.tree valid.has_current sees)
  · have nameable := refers.nameable (.inr rfl) used member
    exact extends_.nameable valid.tree valid.has_current nameable

/-- Completes an object by a statement, after which its prototype may be set later. -/
theorem completing {link : Option (ValueId × Expr)} (stmt : Stmt)
    (named : session.identifiers.get? id = some name)
    (sees : session.Sees session.bodies.current id) (canLink : session.CanLink context link) :
    (((session.linking name link).emitting session.bodies.current stmt).finishing id).Valid
      context := by
  cases link with
  | none => exact (valid.emitting _ _).finishing _
  | some link =>
    obtain ⟨prototype, expr⟩ := link
    obtain ⟨isWaiting, refers⟩ := canLink prototype expr rfl
    have extends_ := (((Extends.refl session).linking name (some (prototype, expr))).emitting
      session.bodies.current stmt).finishing id
    refine valid.of_extends extends_ {
      tree := valid.tree.emitInto _ _
      started := fun _ member => .inl (mem_filter.mp member).1
      awaited := fun other works found => ?_
      deferred := fun other works found work member => ?_ }
    all_goals obtain ⟨different, waiting⟩ := deferred_finishing found
    all_goals replace waiting := deferred_deferring waiting
    · refine .inr (mem_filter.mpr ⟨?_, by simpa using different⟩)
      exact waiting.1.elim (fun same => same ▸ isWaiting) (valid.awaited other works)
    · refine (waiting.2 work member).imp_right ?_
      rintro ⟨rfl, rfl⟩
      exact valid.canWait_linked extends_ (by simp [Session.finishing]) named sees refers

end

end Valid

/-! ## Every step -/

theorem AtDeclarations.emitting {session : Session} (declares : session.AtDeclarations)
    (present : session.bodies.Has session.bodies.current) (body : BodyId) (stmt : Stmt) :
    (session.emitting body stmt).AtDeclarations := by
  have grows := (Bodies.Grows.refl session.bodies).emitInto body stmt
  exact (congrArg BodyKind.declaresValues (grows.kind_eq present)).trans declares

section Delaying

variable (session : Session) (function : ValueId)

@[simp] theorem identifiers_delaying :
    (session.delaying function).identifiers = session.identifiers := by
  unfold delaying
  split <;> rfl

@[simp] theorem declaredIn_delaying :
    (session.delaying function).declaredIn = session.declaredIn := by
  unfold delaying
  split <;> rfl

@[simp] theorem inProgress_delaying :
    (session.delaying function).inProgress = session.inProgress := by
  unfold delaying
  split <;> rfl

@[simp] theorem deferred_delaying :
    (session.delaying function).deferred = session.deferred := by
  unfold delaying
  split <;> rfl

@[simp] theorem locks_delaying :
    (session.delaying function).locks = session.locks := by
  unfold delaying
  split <;> rfl

@[simp] theorem openFunctions_delaying :
    (session.delaying function).openFunctions = session.openFunctions := by
  unfold delaying
  split <;> rfl

@[simp] theorem instances_delaying :
    (session.delaying function).instances = session.instances := by
  unfold delaying
  split <;> rfl

@[simp] theorem bindings_delaying :
    (session.delaying function).bindings = session.bindings := by
  unfold delaying
  split <;> rfl

@[simp] theorem lazyObjects_delaying :
    (session.delaying function).lazyObjects = session.lazyObjects := by
  unfold delaying
  split <;> rfl

@[simp] theorem captured_delaying :
    (session.delaying function).captured = session.captured := by
  unfold delaying
  split <;> rfl

@[simp] theorem stmts_delaying (body : BodyId) :
    (session.delaying function).bodies.stmts body = session.bodies.stmts body := by
  unfold delaying
  split
  · rfl
  · exact Bodies.stmts_newBody _ _ _ _

@[simp] theorem entered_delaying :
    (session.delaying function).bodies.entered = session.bodies.entered := by
  unfold delaying
  split <;> rfl

end Delaying

namespace Adjusts

variable {context : Context} {session : Session} {change : FunctionInstance → FunctionInstance}
  (adjusts : Adjusts context session id change) (inst : FunctionInstance)

include adjusts

theorem grows : inst.Grows (change inst) := by
  cases adjusts with
  | setMethod _ _ _ => exact { FunctionInstance.Grows.refl inst with method := fun _ => rfl }
  | bindName _ _ _ _ => exact .insertBinding inst _ _
  | bindModified _ _ _ _ _ _ => exact .insertNewBinding inst _ _
  | addModule _ _ _ => exact { FunctionInstance.Grows.refl inst with }
  | addScope _ _ =>
    dsimp only
    exact inst.addScope_eq _ ▸ { FunctionInstance.Grows.refl inst with }

/-- The place of an instance and the statements that come with it stay as they are. -/
theorem keeps : (change inst).insertionPoint = inst.insertionPoint ∧
    (change inst).serial = inst.serial ∧ (change inst).extras = inst.extras ∧
    (change inst).delayed = inst.delayed := by
  cases adjusts with
  | addScope _ _ =>
    dsimp only
    exact inst.addScope_eq _ ▸ ⟨rfl, rfl, rfl, rfl⟩
  | _ => exact ⟨rfl, rfl, rfl, rfl⟩

end Adjusts

namespace Step

open Valid (identifiers_allocating_self unnamed_allocating)

variable {context : Context} {before after : Session}

theorem extends_ (step : Step context before after) (valid : before.Valid context) :
    Extends before after := by
  have start := Extends.refl before
  cases step with
  | emit allowed => exact start.emitting _ _
  | enter present => exact start.entering _
  | leave => exact start.leaving
  | reachObject constructs isNew declares =>
    exact (start.allocating isNew (valid.homeless _ isNew)).starting isNew
  | declareReached constructs named home allowed canLink =>
    exact ((start.linking _ _).emitting _ _).finishing _
  | @newLazy id name named isNew home current isLazy =>
    exact { start.adding _ _ with
      lazyObjects := by
        intro other object found
        have different : id ≠ other := by
          rintro rfl
          simp [isNew] at found
        simpa [addingLazy, KeyedTable.get?_insert, different] using found
      newLazy := by
        intro other home unknown found
        simp only [lazyBody?, addingLazy, KeyedTable.get?_insert] at found
        split at found
        · obtain rfl := Option.some.inj found
          exact Nat.lt_irrefl _
        · simp [unknown] at found }
  | reachDelayed constructs isDelayed isNew declares home isOpen isBody =>
    have allocated := start.allocating isNew (valid.homeless _ isNew)
    exact (((allocated.emitting _ _).delaying _).entering _).starting isNew
  | constructDelayed constructs named sees allowed canLink =>
    exact ((start.linking _ _).emitting _ _).finishing _
  | reachAlias isObject unknown owned isNew declares hasOwner ownerNamed =>
    have allocated := start.allocating isNew (valid.homeless _ isNew)
    unfold reachingAlias
    split
    · exact ((allocated.changing fun inst => .addAlias inst _ _).starting isNew).deferring _ _
    · exact allocated.changing fun inst => .addAlias inst _ _
  | finishAlias isObject owned complete => exact start.finishing _
  | defer isWaiting canWait => exact start.deferring _ _
  | reachFunction isFunction isNew declares =>
    exact start.reachingFunction _ isNew isNew (valid.homeless _ isNew) (valid.notInstance _ isNew)
  | use id => exact start.changing fun inst => .noting inst _ _
  | adjust adjusts => exact start.changing adjusts.grows
  | attachDelayed delayed =>
    exact { start.changing fun inst => FunctionInstance.Grows.attachFlag inst _ _ with }
  | place isFunction isInstance home isClosed isFirst isBound isMethod isAttached =>
    exact (start.placing _).finishing _
  | meet key isNew isScope declared constant =>
    exact start.binding fun found isFound => by simp [isNew] at isFound
  | bake isMet undecided refers noValue declares =>
    exact start.binding fun found isFound => by simp_all
  | share key isNew isScope declared modified simple =>
    exact { start.binding fun found isFound => by simp_all with
      sharedCaptures := Nat.le_succ _ }
  | keepInSlot key isNew isScope declared modified notSimple =>
    exact { start.binding fun found isFound => by simp_all with }
  -- Locks, open functions and slots are free to change.
  | _ => exact { start with }

theorem valid (step : Step context before after) (valid : before.Valid context) :
    after.Valid context := by
  have extends_ := step.extends_ valid
  have start := Extends.refl before
  cases step with
  | emit allowed => exact valid.emitting _ _
  | enter present => exact valid.entering present
  | leave =>
    exact valid.of_extends extends_ {
      tree := valid.tree.of_arena_eq rfl
      entered := fun _ member => .inl (mem_of_mem_tail member) }
  | reachObject constructs isNew declares =>
    have isBuilt := constructs.isBuilt
    exact (valid.allocating isBuilt isNew declares).starting valid
      (start.allocating isNew (valid.homeless _ isNew)) isNew
      ⟨_, identifiers_allocating_self before _⟩ rfl rfl
  | declareReached constructs named home allowed canLink =>
    exact valid.completing _ named ⟨_, home, .inr (Bodies.Tree.isWithin_self _ _)⟩ canLink
  | @newLazy id name named isNew home current isLazy =>
    have added := Bodies.get?_newBody before.bodies before.bodies.arena.next
      (.lazyInitializer id) Bodies.global
    simp only [if_true] at added
    refine valid.of_extends extends_ {
      tree := valid.tree.newBody (by simp) valid.tree.has_global
        (by simp [valid.tree.kind_global, BodyKind.declaresValues])
      lazyObjects := fun other object found => ?_ }
    simp only [addingLazy, KeyedTable.get?_insert] at found
    split at found
    · rename_i same
      subst same
      cases found
      refine .inr ⟨⟨name, named⟩, _, rfl, Arena.lt_size_of_get? added, ?_⟩
      simp [addingLazy, Session.adding, Bodies.kind, added, BodyKind.declaresValues]
    · exact .inl found
  | @reachDelayed id function object body constructs isDelayed isNew declares home isOpen isBody =>
    have allocated := start.allocating isNew (valid.homeless _ isNew)
    have declared := (valid.allocating constructs.isBuilt isNew declares).emitting
      before.bodies.current (.declare .var before.names.generate.1 none)
    have delayed := declared.delaying (AtDeclarations.emitting declares valid.has_current _ _)
      (allocated.declaredIn function _ home)
    have inside := delayed.entering (delayed.delayedBodies function body isBody).1
    refine inside.starting valid (((allocated.emitting _ _).delaying _).entering _) isNew
      ⟨before.names.generate.1, ?_⟩ (deferred_delaying _ _) (locks_delaying _ _)
    simpa [Session.entering, declaringDelayed, Session.emitting] using
      identifiers_allocating_self before id
  | constructDelayed constructs named sees allowed canLink =>
    exact valid.completing _ named sees canLink
  | @reachAlias id owner object ownerName isObject unknown owned isNew declares hasOwner
      ownerNamed =>
      have allocated := start.allocating isNew (valid.homeless _ isNew)
      have isBuilt : context.IsBuilt id := .inl ⟨object, isObject, unknown⟩
      have declared : ((before.allocating id).changing owner
          (addAlias before.names.generate.1 ownerName)).Valid context :=
        (valid.allocating isBuilt isNew declares).changing fun inst => .addAlias inst _ _
      unfold reachingAlias
      split
      · rename_i isWaiting
        have started := declared.starting valid
          (allocated.changing fun inst => .addAlias inst before.names.generate.1 ownerName) isNew
          ⟨_, identifiers_allocating_self before id⟩ rfl rfl
        exact started.deferring (mem_insert_iff.mpr (.inr (contains_iff_mem.mp isWaiting)))
          (.prototype owned (identifiers_allocating_self before id) isObject)
      · exact declared
  | finishAlias isObject owned complete => exact valid.finishing _
  | defer isWaiting canWait => exact valid.deferring isWaiting canWait
  | @lock id lock allowed =>
    refine valid.of_extends extends_ { tree := valid.tree, locks := fun other found isFound => ?_ }
    simp only [Session.locking, KeyedTable.get?_insert] at isFound
    split at isFound
    · cases isFound
      exact .inr (extends_.allows valid.tree allowed)
    · exact .inl isFound
  | unlock id =>
    refine valid.of_extends extends_ { tree := valid.tree, locks := fun other found isFound => ?_ }
    simp only [KeyedTable.get?_erase] at isFound
    split at isFound
    · cases isFound
    · exact .inl isFound
  | @reachFunction id function isFunction isNew declares =>
    refine valid.of_extends extends_ {
      tree := valid.tree
      identifiers := valid.identifiers_allocating declares (.inr ⟨function, isFunction⟩)
      unnamed := fun other unnamed => ?_
      started := fun other member => ?_
      awaited := fun other works found =>
        .inl ⟨works, found, fun waits => mem_insert_iff.mpr (.inr waits)⟩ }
    · obtain ⟨different, unnamed, homeless⟩ := unnamed_allocating before id other unnamed
      refine ⟨unnamed, homeless, fun unknown => ?_⟩
      simp [Session.reachingFunction, KeyedTable.get?_insert, Ne.symm different, unknown]
    · rcases mem_insert_iff.mp member with rfl | member
      · exact .inr ⟨_, identifiers_allocating_self before other⟩
      · exact .inl member
  | use | adjust | attachDelayed =>
    refine valid.of_extends extends_
      { tree := valid.tree, unnamed := fun other unnamed => ⟨unnamed, (·), fun unknown => ?_⟩ }
    exact (KeyedTable.get?_modify ..).trans (by simp [unknown])
  | place isFunction isInstance home isClosed isFirst isBound isMethod isAttached =>
    exact (valid.placing _).finishing _
  -- Bindings, their slots and the open functions have no part in validity.
  | _ => exact valid.of_extends extends_ { tree := valid.tree }

end Step

namespace Steps

variable {context : Context} {before after : Session}

theorem invariant {Holds : Session → Prop}
    (kept : ∀ {before after : Session}, Step context before after → before.Valid context →
      Holds before → Holds after)
    (steps : Steps context before after) (valid : before.Valid context) (start : Holds before) :
    Holds after := by
  have both : after.Valid context ∧ Holds after := by
    induction steps with
    | refl => exact ⟨valid, start⟩
    | tail _ step induction => exact ⟨step.valid induction.1, kept step induction.1 induction.2⟩
  exact both.2

theorem valid (steps : Steps context before after) (valid : before.Valid context) :
    after.Valid context :=
  steps.invariant (fun step valid _ => step.valid valid) valid valid

theorem extends_ (steps : Steps context before after) (valid : before.Valid context) :
    Extends before after :=
  steps.invariant (fun step valid extends_ => extends_.trans (step.extends_ valid)) valid
    (Extends.refl before)

end Steps

end Session

end HeapScript
