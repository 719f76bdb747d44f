import HeapScript.Proofs.Assembly.Failures
import HeapScript.Proofs.Session.Accounts

/-!
Lazy objects are declared, numbered and filled one to one.

A lazy object gets its number and its placeholder when it is selected, and a body of its own for the
statements that fill it. The start of the script turns these bodies into the cases of one function.
-/

namespace HeapScript

open List

/-! ## Placeholders -/

theorem Expr.IsReference.createsLazily {expr : Expr} (isReference : expr.IsReference) :
    expr.createsLazily = false := by
  cases isReference with
  | literal | slot => rfl
  | chain chain => cases chain <;> rfl

variable {context : Context} {before after session : Session} {entries : List Entry} {id : ValueId}
  {object : LazyObject}

namespace Session

theorem Serves.isPlaceholder_eq {body : BodyId} {purpose : Purpose} {stmt : Stmt}
    (serves : session.Serves context body purpose stmt) :
    stmt.isPlaceholder = purpose.isPlaceholder := by
  have plain : ∀ {id expr}, session.Refers context body id expr → expr.createsLazily = false :=
    fun refers => refers.isReference.createsLazily
  cases serves with
  | declared _ creates | created _ _ creates => cases creates <;> rfl
  | @lock _ level => cases level <;> rfl
  | property _ refers | sharedInit refers | sharedValue refers | globalAssign refers
  | propertyAssign _ refers => exact plain refers
  | _ => rfl

theorem Heralded.exists_object (heralded : Heralded context session entries) {entry : Entry}
    (member : entry ∈ entries) (isPlaceholder : entry.purpose.isPlaceholder = true) :
    ∃ lazyObject, session.Heralds context entry lazyObject := by
  have listed : entry ∈ entries.filter (·.purpose.isPlaceholder) :=
    mem_filter.mpr ⟨member, isPlaceholder⟩
  obtain ⟨index, rfl⟩ := get_of_mem listed
  exact ⟨_, heralded.get index.2 (heralded.length_eq ▸ index.2)⟩

theorem Heralded.exists_entry (heralded : Heralded context session entries)
    (isLazy : session.lazyObjects.get? id = some object) :
    ∃ entry ∈ entries, session.Heralds context entry (id, object) := by
  obtain ⟨index, isIndex⟩ := get_of_mem (KeyedTable.mem_entries_of_get? isLazy)
  have bound : index.1 < (entries.filter (·.purpose.isPlaceholder)).length :=
    heralded.length_eq.symm ▸ index.2
  have heralds := heralded.get bound index.2
  exact ⟨_, mem_of_mem_filter (get_mem _ ⟨index, bound⟩), isIndex ▸ heralds⟩

end Session

/-- The statements about a lazy object: the placeholder at the top level, and in a body of its own
the link to the prototype, the properties and the lock. -/
def Context.lazyPlaces (context : Context) (id : ValueId) (value : ObjectValue)
    (object : LazyObject) (body : BodyId) : Multiset (BodyId × Purpose) :=
  {(Bodies.global, .declared id (.placeholder object))} +
    (value.prototype.toList.map fun _ => (body, Purpose.link id) : List _) +
    context.filling id body

theorem Context.Accounted.of_placeholder {places : Multiset (BodyId × Purpose)} {home : BodyId}
    (accounted : context.Accounted id places)
    (isPlace : (home, .declared id (.placeholder object)) ∈ places) :
    ∃ value body, context.Constructs id value ∧ object.body = some body ∧
      places = context.lazyPlaces id value object body := by
  obtain ⟨body, arising, arises, rfl⟩ := accounted
  have isArising : (home, .declared id (.placeholder object)) ∈ arising := by
    rcases Multiset.mem_add.mp isPlace with isArising | isFilling
    · exact isArising
    · simp [filling] at isFilling
  cases arises with
  | function _ | owned _ _ => simp at isArising
  | @lazy value lazyObject constructs isBody =>
    obtain ⟨rfl, rfl⟩ : home = Bodies.global ∧ object = lazyObject := by simpa using isArising
    exact ⟨value, body, constructs, isBody, rfl⟩
  | eager _ inherits =>
    rcases Multiset.mem_add.mp isArising with isDeclared | isLink
    · simp only [Multiset.mem_singleton, Prod.mk.injEq, Purpose.declared.injEq, true_and]
        at isDeclared
      exact absurd isDeclared.2.symm (inherits.ne_placeholder object)
    · cases inherits.isLink _ isLink
  | delayed _ inherits =>
    rcases Multiset.mem_add.mp isArising with isCreated | isLink
    · simp at isCreated
    · cases inherits.isLink _ isLink

namespace Session

namespace Accounts

section

variable (accounts : session.Accounts context entries)

include accounts

theorem body_of_isPlaceholder {entry : Entry} (member : entry ∈ entries)
    (isPlaceholder : entry.purpose.isPlaceholder = true) :
    entry.body = Bodies.global := by
  obtain ⟨_, _, _, -, -, rfl⟩ := accounts.heralded.exists_object member isPlaceholder
  rfl

/-- The global body holds the placeholders, and no other body does. -/
theorem filter_isPlaceholder (body : BodyId) :
    (session.bodies.stmts body).filter (·.isPlaceholder) =
      if body = Bodies.global then (entries.filter (·.purpose.isPlaceholder)).map Entry.stmt
      else [] := by
  have same : ∀ entry ∈ entries, (entry.stmt.isPlaceholder && decide (entry.body = body)) =
      (entry.purpose.isPlaceholder && decide (body = Bodies.global)) := by
    intro entry member
    rw [(accounts.records entry member).serves.isPlaceholder_eq]
    cases isPlaceholder : entry.purpose.isPlaceholder with
    | false => rfl
    | true => simp [accounts.body_of_isPlaceholder member isPlaceholder, eq_comm]
  rw [accounts.stmts, filter_map, filter_filter]
  simp only [Function.comp_apply, filter_congr same]
  split <;> simp [*]

theorem places_lazy (isLazy : session.lazyObjects.get? id = some object) :
    ∃ value body, context.Constructs id value ∧ object.body = some body ∧
      placesOf id entries = context.lazyPlaces id value object body := by
  obtain ⟨_, member, _, name, -, named, rfl⟩ := accounts.heralded.exists_entry isLazy
  have isPlace : (Bodies.global, .declared id (.placeholder object)) ∈ placesOf id entries :=
    Multiset.mem_coe.mpr
      (mem_map.mpr ⟨_, mem_filter.mpr ⟨member, decide_eq_true rfl⟩, rfl⟩)
  exact (accounts.accounted id name named).of_placeholder isPlace

/-- The body of a lazy object holds the statements about the object, and no others. -/
theorem filter_body_lazy (housed : Housed context session) (tree : session.bodies.Tree)
    {body : BodyId} (isLazy : session.lazyObjects.get? id = some object)
    (isBody : object.body = some body) :
    entries.filter (·.body = body) =
      entries.filter fun entry =>
        entry.purpose.subject = .value id && !entry.purpose.isPlaceholder := by
  have kind := housed.kind_of_lazyBody (KeyedTable.mem_entries_of_get? isLazy) isBody
  obtain ⟨value, _, -, sameBody, places⟩ := accounts.places_lazy isLazy
  obtain rfl := Option.some.inj (sameBody.symm.trans isBody)
  refine filter_congr fun entry member => Bool.eq_iff_iff.mpr ?_
  simp only [decide_eq_true_eq, Bool.and_eq_true, Bool.not_eq_true']
  constructor
  · intro within
    refine ⟨(accounts.records entry member).about id (within ▸ kind),
      Bool.eq_false_iff.mpr fun isPlaceholder => ?_⟩
    rw [← within, accounts.body_of_isPlaceholder member isPlaceholder, tree.kind_global] at kind
    cases kind
  · rintro ⟨isSubject, isPlain⟩
    have isPlace : entry.place ∈ placesOf id entries := Multiset.mem_coe.mpr
      (mem_map_of_mem (mem_filter.mpr ⟨member, decide_eq_true isSubject⟩))
    simp only [places, Context.lazyPlaces, Context.filling, Multiset.mem_add,
      Multiset.mem_singleton, Multiset.mem_coe, mem_map] at isPlace
    rcases isPlace with (isDeclared | ⟨_, _, isLink⟩) | ⟨_, _, isProperty⟩ | ⟨_, _, isLock⟩
    · have isPurpose : entry.purpose = _ := congrArg Prod.snd isDeclared
      rw [isPurpose] at isPlain
      cases isPlain
    · exact (congrArg Prod.fst isLink).symm
    · exact (congrArg Prod.fst isProperty).symm
    · exact (congrArg Prod.fst isLock).symm

end

end Accounts

/-! ## Numbers -/

theorem Step.lazyObjects_prefix (step : Step context before after) :
    before.lazyObjects.entries <+: after.lazyObjects.entries := by
  cases step.body_cases with
  | same _ lazyObjects _ | addDelayed _ _ lazyObjects _ _ => rw [lazyObjects]
  | addLazy isNew _ _ same =>
    subst same
    rw [addingLazy, KeyedTable.entries_insert_of_new _ isNew]
    exact prefix_append _ _

theorem Moves.lazyObjects_prefix (moves : Moves context before after)
    (valid : before.Valid context) :
    before.lazyObjects.entries <+: after.lazyObjects.entries := by
  let Holds := fun session : Session => before.lazyObjects.entries <+: session.lazyObjects.entries
  have step : ∀ {middle later}, Step context middle later → middle.Valid context → Holds middle →
      Holds later := fun step _ kept => kept.trans step.lazyObjects_prefix
  exact (moves.invariant step (fun _ _ kept => kept) valid (prefix_refl _)).2

end Session

/-! ## Scripts -/

/-- The lazy objects of a session have their placeholders and their cases in a script. -/
structure Script.MatchesLazyObjects (script : Script) (settings : Settings) (context : Context)
    (session : Session) (entries : List Entry) : Prop where
  size : script.report.lazyObjects = session.lazyObjects.size
  distinct : session.lazyObjects.keys.Nodup
  numbered : session.lazyObjects.values.map (·.number) = List.range' 1 script.report.lazyObjects
  /-- Numbers are given in the order in which the objects are selected, and never change. -/
  inOrder : ∀ earlier, Session.Reached context earlier → Session.Moves context earlier session →
    earlier.lazyObjects.entries <+: session.lazyObjects.entries
  /-- Only objects at the top level are lazy, and none that the surroundings know. -/
  selected : ∀ id object, session.lazyObjects.get? id = some object →
    context.IsLazy id ∧ session.declaredIn.get? id = some Bodies.global
  /-- Each object is declared by one placeholder, under its own name. -/
  placeholders : List.Forall₂ (fun stmt lazyObject => ∃ lazySettings name,
      settings.lazyObjects = some lazySettings ∧
      session.identifiers.get? lazyObject.1 = some name ∧
      stmt = .var name (.methodCall (.path lazySettings.runtime) "createLazyObject"
        [.nat lazyObject.2.number]))
    (script.body.filter (·.isPlaceholder)) session.lazyObjects.entries
  noOthers : ∀ body ≠ Bodies.global, ∀ stmt ∈ session.bodies.stmts body, stmt.isPlaceholder = false
  /-- All other statements about an object fill it, and have a body of their own. -/
  recorded : ∀ id object, session.lazyObjects.get? id = some object →
    ∃ body, object.body = some body ∧
      entries.filter (·.body = body) =
        entries.filter fun entry =>
          entry.purpose.subject = .value id && !entry.purpose.isPlaceholder
  filled : ∀ id object, session.lazyObjects.get? id = some object →
    ∃ value body, context.Constructs id value ∧ object.body = some body ∧
      placesOf id entries = context.lazyPlaces id value object body
  /-- If there are lazy objects, the prelude ends with the function that fills them, and hands it
  over. -/
  initializer : ∃ start, (∀ stmt ∈ start, stmt.isDefinition = true) ∧
    (script.report.lazyObjects = 0 → script.prelude = start) ∧
    (0 < script.report.lazyObjects → ∃ lazySettings cases,
      settings.lazyObjects = some lazySettings ∧
      script.prelude = start ++ [
        .var "__lazyObjectInitializer" (.function {
          params := [.plain Session.lazyParam, .plain "id"]
          body := [.switch (.var "id") cases (some [.throwMessage "Unknown lazy id"])] }),
        .expr (.methodCall (.path lazySettings.runtime) "setLazyObjectInitializer"
          [.var "__lazyObjectInitializer"])] ∧
      cases.map (·.test) = (List.range' 1 script.report.lazyObjects).map Expr.nat ∧
      List.Forall₂ (fun object item => ∃ body, object.body = some body ∧
          item.body = session.bodies.stmts body ++ [.breakLoop])
        session.lazyObjects.values cases)

/-- Lazy objects, their placeholders and their cases match one to one. Every statement that is
written has a purpose. Lazy objects are numbered from one in the order of their selection. The
global body declares each of them once, with its number, under its name, and nothing else creates a
lazy object. The case with its number holds what else is written about it. Without lazy objects
there is no function that fills them. -/
theorem materialize_matchesLazyObjects {graph : HeapGraph} {settings : Settings} {script : Script}
    (isScript : materialize graph settings = .ok script) :
    ∃ context written entries, Context.prepare graph settings = .ok context ∧
      writeHeap context = .ok written ∧
      (∀ body, written.session.bodies.stmts body =
        (entries.filter (·.body = body)).map Entry.stmt) ∧
      (∀ entry ∈ entries, written.session.Serves context entry.body entry.purpose entry.stmt) ∧
      script.MatchesLazyObjects settings context written.session entries := by
  obtain ⟨context, written, start, lazyStmts, prepared, isWritten, isLazy, spliced, areDefinitions,
    isPrelude, size⟩ := exists_parts isScript
  obtain ⟨-, rfl, -⟩ := Context.prepare_eq_ok prepared
  obtain ⟨entries, accounts⟩ := exists_accounts isWritten
  obtain ⟨rfl, complete⟩ := writeHeap_eq_ok isWritten
  have housed := complete.kept.housed
  have numbered := housed.numbered
  rw [← size] at numbered
  refine ⟨_, written, entries, prepared, isWritten, accounts.stmts,
    fun entry member => (accounts.records entry member).serves, ?_⟩
  constructor
  case size => exact size
  case distinct => exact housed.distinctLazy
  case numbered => exact numbered
  case inOrder =>
    intro earlier reached moves
    exact moves.lazyObjects_prefix (reached.invariant (fun _ _ _ => trivial)
      (fun _ _ _ => trivial) (Session.valid_initial _) trivial).1
  case selected => exact housed.selected
  case placeholders =>
    rw [spliced.filter_eq fun _ => Stmt.not_isPlaceholder, accounts.filter_isPlaceholder,
      if_pos rfl, List.forall₂_map_left_iff]
    refine accounts.heralded.imp fun entry lazyObject heralds => ?_
    obtain ⟨lazySettings, name, isSettings, named, rfl⟩ := heralds
    exact ⟨lazySettings, name, isSettings, named, rfl⟩
  case noOthers =>
    intro body notGlobal stmt member
    have none := accounts.filter_isPlaceholder body
    rw [if_neg notGlobal] at none
    exact Bool.eq_false_iff.mpr (List.filter_eq_nil_iff.mp none stmt member)
  case recorded =>
    intro id object isLazy
    obtain ⟨value, body, -, isBody, -⟩ := accounts.places_lazy isLazy
    exact ⟨body, isBody, accounts.filter_body_lazy housed complete.idle.valid.tree isLazy isBody⟩
  case filled => exact fun id object => accounts.places_lazy
  case initializer =>
    refine ⟨start, areDefinitions, fun none => ?_, fun some => ?_⟩
    · rw [size] at none
      rcases lazyPrelude_cases isLazy with ⟨rfl, -⟩ | ⟨_, _, -, filled, -, -⟩
      · rw [isPrelude, List.append_nil]
      · exact absurd (length_eq_zero_iff.mp none) filled
    · rw [size] at some
      rcases lazyPrelude_cases isLazy with ⟨-, noSettings | noObjects⟩ |
        ⟨lazySettings, cases, isSettings, -, areCases, rfl⟩
      · rcases housed.allowed with none | allowed
        · simp [none, KeyedTable.size] at some
        · simp [noSettings] at allowed
      · simp [KeyedTable.size, noObjects] at some
      · refine ⟨lazySettings, cases, isSettings, isPrelude, ?_, ?_⟩
        · rw [← numbered, KeyedTable.values, List.map_map, List.map_map]
          refine (List.forall₂_eq_eq_eq ▸ List.forall₂_map_left_iff.mpr
            (List.forall₂_map_right_iff.mpr (areCases.flip.imp fun item entry isCase => ?_)))
          obtain ⟨body, -, rfl⟩ := lazyCase_eq_ok.mp isCase
          rfl
        · refine List.forall₂_map_left_iff.mpr (areCases.imp fun entry item isCase => ?_)
          obtain ⟨body, isBody, rfl⟩ := lazyCase_eq_ok.mp isCase
          exact ⟨body, isBody, rfl⟩

/-- Two lazy objects, one the prototype of the other, and one that the surroundings know. -/
def lazyHeirs : HeapGraph where
  values := .ofList [
    .object {
      isLazy := true
      prototype := some ⟨1⟩
      properties := [{ key := "log", value := ⟨2⟩ }] },
    .object { isLazy := true, properties := [{ key := "heir", value := ⟨0⟩ }] },
    .object { isLazy := true, knownPath := some "console" }]
  effects := [.globalAssign "it" ⟨0⟩]

set_option maxRecDepth 20000 in
theorem lazyHeirs_matchesLazyObjects : ∃ script, ∃ cases : List SwitchCase,
    materialize lazyHeirs { lazyObjects := some {} } = .ok script ∧ script.report.lazyObjects = 2 ∧
    (script.body.filter (·.isPlaceholder)).length = 2 ∧
    (∃ start, script.prelude = start ++ [
      .var "__lazyObjectInitializer" (.function {
        params := [.plain "obj", .plain "id"]
        body := [.switch (.var "id") cases (some [.throwMessage "Unknown lazy id"])] }),
      .expr (.methodCall (.path "__lazyObjectsRuntime") "setLazyObjectInitializer"
        [.var "__lazyObjectInitializer"])]) ∧
    cases.map (·.test) = [.nat 1, .nat 2] := by
  obtain ⟨script, isScript, check⟩ : ∃ script,
      materialize lazyHeirs { lazyObjects := some {} } = .ok script ∧
        (script.report.lazyObjects == 2) = true := exists_ok (by decide +kernel)
  have isTwo : script.report.lazyObjects = 2 := beq_iff_eq.mp check
  obtain ⟨context, written, entries, -, -, -, -, found⟩ := materialize_matchesLazyObjects isScript
  obtain ⟨start, -, -, some⟩ := found.initializer
  obtain ⟨_, cases, isSettings, isPrelude, tests, -⟩ := some (by simp [isTwo])
  obtain rfl := Option.some.inj isSettings
  have count := found.placeholders.length_eq.trans found.size.symm
  rw [isTwo] at tests count
  exact ⟨script, cases, isScript, isTwo, count, ⟨start, isPrelude⟩, tests⟩

end HeapScript
