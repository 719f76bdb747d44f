import HeapScript.Output.Bodies

/-!
The tree of bodies.

Every body but the global one lies in a body that is older and declares values, so bodies of other
kinds have no bodies inside them. Bodies keep their kinds and their places in the tree when further
bodies and statements are added, and with them everything that is read off the tree.
-/

namespace HeapScript

open List

namespace Arena

variable {kind : EntityKind} {α : Type}

theorem get?_isSome_iff {arena : Arena kind α} {handle : Handle kind} :
    (arena.get? handle).isSome ↔ handle.index < arena.size := by
  simp [get?, size]

theorem lt_size_of_get? {arena : Arena kind α} {handle : Handle kind} {item : α}
    (found : arena.get? handle = some item) : handle.index < arena.size :=
  get?_isSome_iff.mp (by simp [found])

theorem exists_get? {arena : Arena kind α} {handle : Handle kind}
    (present : handle.index < arena.size) : ∃ item, arena.get? handle = some item :=
  Option.isSome_iff_exists.mp (get?_isSome_iff.mpr present)

theorem mem_toList_of_get? {arena : Arena kind α} {handle : Handle kind} {item : α}
    (found : arena.get? handle = some item) : item ∈ arena.toList :=
  Array.mem_toList_iff.mpr (Array.mem_of_getElem? found)

theorem get?_push (arena : Arena kind α) (item : α) (handle : Handle kind) :
    (arena.push item).get? handle =
      if handle = arena.next then some item else arena.get? handle := by
  obtain ⟨index⟩ := handle
  simp [push, get?, next, size, Array.getElem?_push]

end Arena

namespace Bodies

variable {bodies later : Bodies} {id other : BodyId}

/-! ## Single changes -/

def Has (bodies : Bodies) (id : BodyId) : Prop := id.index < bodies.arena.size

section Emit

variable (bodies id other) (stmt : Stmt)

@[simp] theorem size_emitInto : (bodies.emitInto id stmt).arena.size = bodies.arena.size :=
  Arena.size_modify _ _ _

theorem get?_emitInto :
    (bodies.emitInto id stmt).arena.get? other =
      if id = other then
        (bodies.arena.get? other).map fun body => { body with stmts := body.stmts ++ [stmt] }
      else bodies.arena.get? other :=
  Arena.get?_modify _ _ _ _

@[simp] theorem kind_emitInto : (bodies.emitInto id stmt).kind other = bodies.kind other := by
  simp only [kind, get?_emitInto]
  split
  · rw [Option.map_map]
    rfl
  · rfl

theorem stmts_emitInto (present : bodies.Has id) :
    (bodies.emitInto id stmt).stmts other =
      if id = other then bodies.stmts other ++ [stmt] else bodies.stmts other := by
  by_cases same : id = other
  · subst same
    obtain ⟨body, found⟩ := Arena.exists_get? present
    simp [stmts, get?_emitInto, found]
  · simp [stmts, get?_emitInto, same]

end Emit

@[simp] theorem size_setStmts (bodies : Bodies) (id : BodyId) (stmts : List Stmt) :
    (bodies.setStmts id stmts).arena.size = bodies.arena.size :=
  Arena.size_modify _ _ _

theorem stmts_setStmts_of_ne {bodies : Bodies} {id other : BodyId} (different : id ≠ other)
    (stmts : List Stmt) : (bodies.setStmts id stmts).stmts other = bodies.stmts other := by
  simp [Bodies.stmts, setStmts, Arena.get?_modify, different]

theorem stmts_setStmts {bodies : Bodies} {id : BodyId} (present : bodies.Has id) (other : BodyId)
    (stmts : List Stmt) :
    (bodies.setStmts id stmts).stmts other = if id = other then stmts else bodies.stmts other := by
  by_cases same : id = other
  · subst same
    obtain ⟨body, found⟩ := Arena.exists_get? present
    simp [Bodies.stmts, setStmts, Arena.get?_modify, found]
  · rw [if_neg same, stmts_setStmts_of_ne same]

section New

variable (bodies id) (kind : BodyKind) (parent : BodyId)

theorem get?_newBody :
    (bodies.newBody kind parent).2.arena.get? id =
      if id = bodies.arena.next then some { kind, parent := some parent }
      else bodies.arena.get? id :=
  Arena.get?_push _ _ _

@[simp] theorem size_newBody :
    (bodies.newBody kind parent).2.arena.size = bodies.arena.size + 1 :=
  Arena.size_push _ _

theorem kind_newBody :
    (bodies.newBody kind parent).2.kind id =
      if id = bodies.arena.next then kind else bodies.kind id := by
  simp only [Bodies.kind, get?_newBody]
  split <;> rfl

@[simp] theorem stmts_newBody : (bodies.newBody kind parent).2.stmts id = bodies.stmts id := by
  by_cases isNext : id = bodies.arena.next
  · have missing : bodies.arena.get? id = none := by
      refine Option.not_isSome_iff_eq_none.mp fun present => ?_
      exact absurd (Arena.get?_isSome_iff.mp present) (by simp [isNext, Arena.next])
    simp [stmts, get?_newBody, isNext, missing ▸ congrArg bodies.arena.get? isNext.symm]
  · simp [stmts, get?_newBody, isNext]

end New

/-! ## The tree -/

/-- The global body is the first one, and all others lie in older ones. -/
structure Rooted (bodies : Bodies) : Prop where
  present : bodies.Has global
  isGlobal : bodies.kind global = .global
  atTop : bodies.parent? global = none
  older : ∀ id, bodies.Has id → id ≠ global →
    ∃ parent, bodies.parent? id = some parent ∧ parent.index < id.index

theorem Rooted.of_parent? (rooted : bodies.Rooted) {parent : BodyId}
    (around : bodies.parent? id = some parent) :
    bodies.Has id ∧ bodies.Has parent ∧ parent.index < id.index := by
  obtain ⟨body, found, -⟩ := Option.bind_eq_some_iff.mp around
  have present := Arena.lt_size_of_get? found
  have inner : id ≠ global := by
    rintro rfl
    simp [rooted.atTop] at around
  obtain ⟨parent', around', older⟩ := rooted.older id present inner
  obtain rfl := Option.mem_unique around' around
  exact ⟨present, Nat.lt_trans older present, older⟩

/-- In addition, the bodies around others declare values. -/
structure Tree (bodies : Bodies) : Prop where
  global : ∃ body, bodies.arena.get? global = some body ∧ body.kind = .global ∧ body.parent = none
  inner : ∀ id body, bodies.arena.get? id = some body → id ≠ Bodies.global →
    body.kind ≠ .global ∧ ∃ parent, body.parent = some parent ∧ parent.index < id.index ∧
      (bodies.kind parent).declaresValues = true

namespace Tree

section

variable (tree : bodies.Tree)

include tree

theorem rooted : bodies.Rooted := by
  obtain ⟨body, found, isGlobal, noParent⟩ := tree.global
  refine ⟨Arena.lt_size_of_get? found, by simp [kind, found, isGlobal],
    by simp [parent?, found, noParent], fun id present inner => ?_⟩
  obtain ⟨body, found⟩ := Arena.exists_get? present
  obtain ⟨_, parent, isParent, older, _⟩ := tree.inner id body found inner
  exact ⟨parent, by simp [parent?, found, isParent], older⟩

theorem has_global : bodies.Has Bodies.global := tree.rooted.present

theorem kind_global : bodies.kind Bodies.global = .global := tree.rooted.isGlobal

theorem declares_global : (bodies.kind Bodies.global).declaresValues = true := by
  rw [tree.kind_global]
  rfl

theorem of_parent? {parent : BodyId} (around : bodies.parent? id = some parent) :
    bodies.Has parent ∧ (bodies.kind parent).declaresValues = true := by
  have inner : id ≠ Bodies.global := by
    rintro rfl
    simp [tree.rooted.atTop] at around
  obtain ⟨body, found, isParent⟩ := Option.bind_eq_some_iff.mp around
  obtain ⟨_, parent', isParent', _, declares⟩ := tree.inner id body found inner
  obtain rfl := Option.mem_unique isParent' isParent
  exact ⟨(tree.rooted.of_parent? around).2.1, declares⟩

theorem eq_global (present : bodies.Has id) (isGlobal : bodies.kind id = .global) :
    id = Bodies.global := by
  obtain ⟨body, found⟩ := Arena.exists_get? present
  by_cases inner : id = Bodies.global
  · exact inner
  · have notGlobal := (tree.inner id body found inner).1
    simp [kind, found, notGlobal] at isGlobal

end

theorem initial : Bodies.initial.Tree where
  global := ⟨_, rfl, rfl, rfl⟩
  inner := by
    rintro ⟨index⟩ body found inner
    have bound := Arena.lt_size_of_get? found
    simp [Bodies.initial, Arena.size, Arena.ofList] at bound
    simp [Bodies.global, bound] at inner

end Tree

/-! ## Growing bodies -/

/-- Bodies and statements may have been added. -/
structure Grows (bodies later : Bodies) : Prop where
  kept : ∀ id body, bodies.arena.get? id = some body →
    ∃ body', later.arena.get? id = some body' ∧ body'.kind = body.kind ∧
      body'.parent = body.parent ∧ body.stmts <+: body'.stmts

namespace Grows

theorem refl (bodies : Bodies) : bodies.Grows bodies :=
  ⟨fun _ body found => ⟨body, found, rfl, rfl, prefix_refl _⟩⟩

theorem trans {last : Bodies} (first : bodies.Grows later) (second : later.Grows last) :
    bodies.Grows last := by
  refine ⟨fun id body found => ?_⟩
  obtain ⟨middle, foundMiddle, kind, parent, stmts⟩ := first.kept id body found
  obtain ⟨body', found', kind', parent', stmts'⟩ := second.kept id middle foundMiddle
  exact ⟨body', found', kind'.trans kind, parent'.trans parent, stmts.trans stmts'⟩

section

variable (grows : bodies.Grows later)

include grows

theorem emitInto (target : BodyId) (stmt : Stmt) : bodies.Grows (later.emitInto target stmt) := by
  refine grows.trans ⟨fun id body found => ?_⟩
  by_cases same : target = id
  · exact ⟨{ body with stmts := body.stmts ++ [stmt] }, by simp [get?_emitInto, same, found], rfl,
      rfl, prefix_append _ _⟩
  · exact ⟨body, by simp [get?_emitInto, same, found], rfl, rfl, prefix_refl _⟩

theorem newBody (kind : BodyKind) (parent : BodyId) :
    bodies.Grows (later.newBody kind parent).2 := by
  refine grows.trans ⟨fun id body found => ⟨body, ?_, rfl, rfl, prefix_refl _⟩⟩
  have old : id ≠ later.arena.next := by
    rintro rfl
    exact Nat.lt_irrefl _ (Arena.lt_size_of_get? found)
  simp [get?_newBody, old, found]

theorem of_arena_eq {last : Bodies} (same : last.arena = later.arena) : bodies.Grows last :=
  ⟨fun id body found => by simpa [same] using grows.kept id body found⟩

theorem has (present : bodies.Has id) : later.Has id := by
  obtain ⟨body, found⟩ := Arena.exists_get? present
  obtain ⟨_, found', _⟩ := grows.kept id body found
  exact Arena.lt_size_of_get? found'

theorem kind_eq (present : bodies.Has id) : later.kind id = bodies.kind id := by
  obtain ⟨body, found⟩ := Arena.exists_get? present
  obtain ⟨_, found', kind, _⟩ := grows.kept id body found
  simp [Bodies.kind, found, found', kind]

theorem parent?_eq (present : bodies.Has id) : later.parent? id = bodies.parent? id := by
  obtain ⟨body, found⟩ := Arena.exists_get? present
  obtain ⟨_, found', _, parent, _⟩ := grows.kept id body found
  simp [parent?, found, found', parent]

theorem stmts_prefix (id : BodyId) : bodies.stmts id <+: later.stmts id := by
  cases found : bodies.arena.get? id with
  | none => simp [stmts, found]
  | some body =>
    obtain ⟨_, found', _, _, isPrefix⟩ := grows.kept id body found
    simpa [stmts, found, found'] using isPrefix

end

end Grows

namespace Tree

theorem emitInto (tree : bodies.Tree) (target : BodyId) (stmt : Stmt) :
    (bodies.emitInto target stmt).Tree := by
  have grows := (Grows.refl bodies).emitInto target stmt
  constructor
  · obtain ⟨body, found, kind, parent⟩ := tree.global
    obtain ⟨body', found', kind', parent', _⟩ := grows.kept _ body found
    exact ⟨body', found', kind'.trans kind, parent'.trans parent⟩
  · intro id body' found' inner
    have present : bodies.Has id := by
      simpa [Has] using Arena.lt_size_of_get? found'
    obtain ⟨body, found⟩ := Arena.exists_get? present
    obtain ⟨_, same, kind, parent, _⟩ := grows.kept id body found
    obtain rfl : body' = _ := by simpa [found'] using same
    obtain ⟨notGlobal, around, isAround, older, declares⟩ := tree.inner id body found inner
    refine ⟨by rwa [kind], around, by rw [parent, isAround], older, ?_⟩
    rwa [grows.kind_eq (Nat.lt_trans older present)]

theorem newBody (tree : bodies.Tree) {kind : BodyKind} {parent : BodyId}
    (notGlobal : kind ≠ .global) (present : bodies.Has parent)
    (declares : (bodies.kind parent).declaresValues = true) :
    (bodies.newBody kind parent).2.Tree := by
  have grows := (Grows.refl bodies).newBody kind parent
  constructor
  · obtain ⟨body, found, isGlobal, noParent⟩ := tree.global
    obtain ⟨body', found', kind', parent', _⟩ := grows.kept _ body found
    exact ⟨body', found', kind'.trans isGlobal, parent'.trans noParent⟩
  · intro id body found inner
    rw [get?_newBody] at found
    split at found
    · rename_i isNew
      cases found
      refine ⟨notGlobal, parent, rfl, ?_, ?_⟩
      · rw [isNew]
        exact present
      · rwa [grows.kind_eq present]
    · obtain ⟨notGlobal', around, isAround, older, declares'⟩ := tree.inner id body found inner
      refine ⟨notGlobal', around, isAround, older, ?_⟩
      rwa [grows.kind_eq (Nat.lt_trans older (Arena.lt_size_of_get? found))]

theorem of_arena_eq (tree : bodies.Tree) (same : later.arena = bodies.arena) : later.Tree := by
  have kinds : later.kind = bodies.kind := by
    funext id
    simp [kind, same]
  exact ⟨by simpa [same] using tree.global, by simpa [same, kinds] using tree.inner⟩

end Tree

/-! ## Lines -/

/-- The line of a body is known once it is long enough to reach the global body, and stays. -/
theorem lineFrom_eq (rooted : bodies.Rooted) (grows : bodies.Grows later) (fuel fuel' : Nat)
    (id : BodyId) (present : bodies.Has id) (enough : id.index ≤ fuel)
    (enough' : id.index ≤ fuel') : later.lineFrom fuel' id = bodies.lineFrom fuel id := by
  induction fuel generalizing fuel' id with
  | zero =>
    obtain rfl : id = Bodies.global := by
      obtain ⟨index⟩ := id
      simpa [Bodies.global] using enough
    have noParent : later.parent? Bodies.global = none := by
      rw [grows.parent?_eq present, rooted.atTop]
    cases fuel' <;> simp [lineFrom, noParent]
  | succ fuel induction =>
    cases around : bodies.parent? id with
    | none =>
      have around' : later.parent? id = none := by rw [grows.parent?_eq present, around]
      cases fuel' <;> simp [lineFrom, around, around']
    | some parent =>
      obtain ⟨_, present', older⟩ := rooted.of_parent? around
      have around' : later.parent? id = some parent := by
        rw [grows.parent?_eq present, around]
      cases fuel' with
      | zero => omega
      | succ fuel' =>
        simp only [lineFrom, around, around']
        rw [induction fuel' parent present' (by omega) (by omega)]

theorem Rooted.line_eq (rooted : bodies.Rooted) (id : BodyId) :
    bodies.line id = id :: ((bodies.parent? id).map bodies.line).getD [] := by
  obtain ⟨fuel, size⟩ := Nat.exists_eq_add_one.mpr (Nat.zero_lt_of_lt rooted.present)
  rw [line, size, lineFrom]
  cases around : bodies.parent? id with
  | none => rfl
  | some parent =>
    obtain ⟨present, present', older⟩ := rooted.of_parent? around
    have enough : parent.index ≤ fuel := by
      simp only [Has, size] at present
      omega
    exact congrArg (id :: ·)
      (lineFrom_eq rooted (.refl _) _ _ parent present' (Nat.le_of_lt present') enough)

namespace Grows

theorem line_eq (grows : bodies.Grows later) (tree : bodies.Tree) (present : bodies.Has id) :
    later.line id = bodies.line id :=
  lineFrom_eq tree.rooted grows _ _ id present (Nat.le_of_lt present)
    (Nat.le_of_lt (grows.has present))

theorem isWithin_eq (grows : bodies.Grows later) (tree : bodies.Tree) (present : bodies.Has id)
    (ancestor : BodyId) : later.isWithin id ancestor = bodies.isWithin id ancestor := by
  simp [isWithin, grows.line_eq tree present]

end Grows

namespace Tree

section

variable (tree : bodies.Tree)

include tree

/-- The line of a body goes from the body itself through older ones that declare values. -/
theorem mem_lineFrom_cases (fuel : Nat) (member : other ∈ bodies.lineFrom fuel id) :
    other = id ∨ bodies.Has other ∧ (bodies.kind other).declaresValues = true := by
  induction fuel generalizing id with
  | zero => exact .inl (by simpa [lineFrom] using member)
  | succ fuel induction =>
    rw [lineFrom, mem_cons] at member
    refine member.imp_right fun member => ?_
    cases around : bodies.parent? id with
    | none => simp [around] at member
    | some parent =>
      simp only [around] at member
      rcases induction member with rfl | outer
      · exact tree.of_parent? around
      · exact outer

theorem isWithin_cases (within : bodies.isWithin id other = true) :
    other = id ∨ bodies.Has other ∧ (bodies.kind other).declaresValues = true :=
  tree.mem_lineFrom_cases _ (by simpa [isWithin, line] using within)

theorem eq_of_isWithin (within : bodies.isWithin id other = true)
    (plain : (bodies.kind other).declaresValues = false) :
    id = other := by
  rcases tree.isWithin_cases within with rfl | ⟨-, declares⟩
  · rfl
  · simp [plain] at declares

theorem not_isWithin (declares : (bodies.kind id).declaresValues = true) (other : BodyId)
    (plain : (bodies.kind other).declaresValues = false) :
    bodies.isWithin id other = false := by
  refine Bool.eq_false_iff.mpr fun within => ?_
  rw [tree.eq_of_isWithin within plain] at declares
  simp [plain] at declares

theorem not_isWithin_of_not_has (present : bodies.Has id) (missing : ¬bodies.Has other) :
    bodies.isWithin id other = false := by
  refine Bool.eq_false_iff.mpr fun within => ?_
  rcases tree.isWithin_cases within with rfl | ⟨present, -⟩ <;> exact missing present

end

theorem isWithin_self (bodies : Bodies) (id : BodyId) : bodies.isWithin id id = true := by
  unfold isWithin line
  cases bodies.arena.size <;> simp [lineFrom]

theorem isWithin_of_parent? {parent : BodyId} (present : bodies.Has id)
    (around : bodies.parent? id = some parent) : bodies.isWithin id parent = true := by
  obtain ⟨fuel, size⟩ := Nat.exists_eq_add_one.mpr (Nat.zero_lt_of_lt present)
  unfold isWithin line
  rw [size]
  cases fuel <;> simp [lineFrom, around]

section

variable (tree : bodies.Tree) (present : bodies.Has id)

include tree present

theorem declarationBodyOf_cases :
    (bodies.kind id).declaresValues = true ∧ bodies.declarationBodyOf id = id ∨
      (bodies.kind id).declaresValues = false ∧
        bodies.parent? id = some (bodies.declarationBodyOf id) := by
  have line := tree.rooted.line_eq
  cases declares : (bodies.kind id).declaresValues with
  | true => exact .inl ⟨rfl, by simp [declarationBodyOf, line id, declares]⟩
  | false =>
    refine .inr ⟨rfl, ?_⟩
    have inner : id ≠ Bodies.global := by
      rintro rfl
      simp [tree.kind_global, BodyKind.declaresValues] at declares
    obtain ⟨parent, around, -⟩ := tree.rooted.older id present inner
    have declares' := (tree.of_parent? around).2
    simp [declarationBodyOf, line id, line parent, declares, around, declares']

theorem has_declarationBodyOf : bodies.Has (bodies.declarationBodyOf id) := by
  rcases tree.declarationBodyOf_cases present with ⟨_, same⟩ | ⟨_, around⟩
  · rwa [same]
  · exact (tree.of_parent? around).1

theorem declaresValues_declarationBodyOf :
    (bodies.kind (bodies.declarationBodyOf id)).declaresValues = true := by
  rcases tree.declarationBodyOf_cases present with ⟨declares, same⟩ | ⟨_, around⟩
  · rwa [same]
  · exact (tree.of_parent? around).2

theorem declarationBodyOf_eq_self (declares : (bodies.kind id).declaresValues = true) :
    bodies.declarationBodyOf id = id := by
  rcases tree.declarationBodyOf_cases present with ⟨_, same⟩ | ⟨plain, _⟩
  · exact same
  · simp [declares] at plain

theorem declarationBodyOf_eq_parent {parent : BodyId}
    (plain : (bodies.kind id).declaresValues = false) (around : bodies.parent? id = some parent) :
    bodies.declarationBodyOf id = parent := by
  rcases tree.declarationBodyOf_cases present with ⟨declares, _⟩ | ⟨_, around'⟩
  · simp [plain] at declares
  · exact Option.some.inj (around'.symm.trans around)

end

end Tree

theorem Grows.declarationBodyOf_eq (grows : bodies.Grows later) (tree : bodies.Tree)
    (tree' : later.Tree) (present : bodies.Has id) :
    later.declarationBodyOf id = bodies.declarationBodyOf id := by
  have kind := grows.kind_eq present
  have parent := grows.parent?_eq present
  rcases tree.declarationBodyOf_cases present with ⟨declares, same⟩ | ⟨plain, around⟩
  · rcases tree'.declarationBodyOf_cases (grows.has present) with ⟨_, same'⟩ | ⟨plain', _⟩
    · rw [same, same']
    · simp [kind, declares] at plain'
  · rcases tree'.declarationBodyOf_cases (grows.has present) with ⟨declares', _⟩ | ⟨_, around'⟩
    · simp [kind, plain] at declares'
    · rw [parent, around] at around'
      exact (Option.some.inj around').symm

end Bodies

end HeapScript
