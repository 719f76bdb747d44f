import HeapScript.Proofs.Assembly.Completion
import HeapScript.Proofs.Session.Accounts
import Mathlib.Algebra.Order.Group.Nat

/-!
No property of a value is lost, and none is set twice.

While values are written each property of a value gets one statement, at once or when the value of
the property is complete, and all of them stand in one body. The statements of a body stay together
in the script and keep their order.
-/

namespace HeapScript

open List

/-! ## Statements that stay together -/

open Classical in
/-- Counts the blocks in which the given statements stand in their order. -/
noncomputable def Weighing.ofOrder (stmts : List Stmt) (isSome : stmts ≠ []) : Weighing Nat where
  name _ := 0
  stmt _ := 0
  block block := if stmts.Sublist block then 1 else 0
  block_nil := if_neg fun inside => isSome (sublist_nil.mp inside)
  block_insert start inserted rest := by
    have grows : (start ++ rest).Sublist (start ++ inserted ++ rest) :=
      (sublist_append_left start inserted).append_right rest
    rw [map_const', sum_replicate, nsmul_zero, add_zero]
    split
    · rename_i inside
      rw [if_pos (inside.trans grows)]
    · exact Nat.zero_le _

theorem Weighing.exists_block {stmts : List Stmt} (isSome : stmts ≠ []) {blocks : List (List Stmt)}
    (weight : 0 < (Weighing.ofOrder stmts isSome).blocks blocks) :
    ∃ block ∈ blocks, stmts.Sublist block := by
  induction blocks with
  | nil => cases weight
  | cons block blocks induction =>
    by_cases inside : stmts.Sublist block
    · exact ⟨block, mem_cons_self, inside⟩
    · have outside : (Weighing.ofOrder stmts isSome).block block = 0 := if_neg inside
      rw [Weighing.blocks_cons, outside, zero_add] at weight
      obtain ⟨other, member, inside⟩ := induction weight
      exact ⟨other, mem_cons_of_mem _ member, inside⟩

section

variable {graph : HeapGraph} {settings : Settings} {context : Context} {written : Written}
  {script : Script}

theorem Written.Complete.weighable_ofOrder {stmts : List Stmt} (complete : written.Complete)
    (facts : written.context.facts = written.context.graph.codeFacts) (isSome : stmts ≠ []) :
    written.Weighable (Weighing.ofOrder stmts isSome) where
  complete := complete
  facts := facts
  quiet _ _ := le_refl _
  defines _ _ _ _ _ _ := le_refl _
  classes := .inl fun _ inst _ => by simp [Weighing.definition, Weighing.ofOrder]

theorem Weighing.block_le_blocks (weighing : Weighing Nat) {block : List Stmt}
    {blocks : List (List Stmt)} (member : block ∈ blocks) :
    weighing.block block ≤ weighing.blocks blocks :=
  single_le_sum (fun _ _ => Nat.zero_le _) _ (mem_map_of_mem member)

theorem mem_blocksOfMembers {definition : FunctionDef} {member : ClassMember}
    {members : List ClassMember} (isMember : member ∈ members)
    (isFunction : member.function = { definition with name := none }) :
    definition.body ∈ blocksOfMembers members := by
  obtain ⟨before, after, rfl⟩ := append_of_mem isMember
  obtain ⟨_, _, _, _⟩ := member
  obtain rfl := isFunction
  simp [blocksOfMembers, FunctionDef.blocks]

namespace Assembly

theorem DefinedBy.mem_blocks {definition : FunctionDef} {stmt : Stmt}
    (defines : DefinedBy definition stmt) : definition.body ∈ stmt.blocks := by
  cases defines with
  | declared name =>
    cases definition
    simp [Stmt.var, Stmt.blocks, Expr.blocks, FunctionDef.blocks]
  | @classMember name classDef member isMember isFunction =>
    have inside := mem_blocksOfMembers isMember isFunction
    obtain ⟨_, superClass, members⟩ := classDef
    cases superClass <;> simp [Stmt.var, Stmt.blocks, Expr.blocks, ClassDef.blocks, inside]

theorem DefinedBy.block_le {definition : FunctionDef} {stmt : Stmt} {stmts : List Stmt}
    (defines : DefinedBy definition stmt) (isStmt : stmt ∈ stmts) (weighing : Weighing Nat) :
    weighing.block definition.body ≤ weighing.loose stmts := by
  obtain ⟨before, after, rfl⟩ := append_of_mem isStmt
  have inside : definition.body ∈ blocksWithin (before ++ stmt :: after) := by
    simp [blocksWithin, defines.mem_blocks]
  exact (weighing.block_le_blocks inside).trans (Nat.le_add_left _ _)

theorem Collects.block_le {assembly : Assembly} {definition : FunctionDef}
    (collects : Collects assembly definition) (weighing : Weighing Nat) (written : Written) :
    weighing.block definition.body ≤ weighing.assembly written assembly := by
  have le_sum : ∀ weights : List Nat, ∀ weight ∈ weights, weight ≤ weights.sum := fun weights =>
    single_le_sum fun _ _ => Nat.zero_le _
  rw [Weighing.assembly]
  cases collects with
  | waiting isWaiting isStmt defines =>
    have own := defines.block_le isStmt weighing
    have listed : _ ≤ weighing.waiting _ := le_sum _ _ (mem_map_of_mem isWaiting)
    simp only at listed
    omega
  | @prelude root stmt isStmt defines =>
    have own := defines.block_le isStmt weighing
    cases root with
    | none => exact own.trans (by simp only [preludeAt]; omega)
    | some root =>
      cases found : assembly.rootPreludes.get? root with
      | none => simp [preludeAt, found] at isStmt
      | some stmts =>
        rw [preludeAt, found, Option.getD_some] at own
        have listed : _ ≤ assembly.rootPreludes.total weighing.loose :=
          le_sum _ _ (mem_map_of_mem (mem_map_of_mem (KeyedTable.mem_entries_of_get? found)))
        simp only at listed
        omega
  | member isClass isMember isFunction =>
    have own := weighing.block_le_blocks (mem_blocksOfMembers isMember isFunction)
    have listed : _ ≤ assembly.classes.total (weighing.classNode written) :=
      le_sum _ _ (mem_map_of_mem (mem_map_of_mem (KeyedTable.mem_entries_of_get? isClass)))
    simp only [Weighing.classNode] at listed
    omega

end Assembly

/-- The statements of a root's function stand in one block of the script, in their order. -/
theorem exists_block_of_root (prepared : Context.prepare graph settings = .ok context)
    (isWritten : writeHeap context = .ok written)
    (isScript : materialize graph settings = .ok script) (distinct : graph.DistinctRoots)
    {earlier later : List RootRecord} {record : RootRecord} {before after : Assembly}
    (isSplit : Assembly.definitionOrder written.roots = earlier ++ record :: later)
    (comesTo : written.ComesTo earlier before)
    (runs : Runs (Assembly.defineRoot written record) before ⟨⟩ after) {definition : FunctionDef}
    (collects : after.Collects definition) :
    ∃ block ∈ blocksOf script.stmts, definition.body.Sublist block := by
  by_cases isSome : definition.body = []
  · exact ⟨script.stmts, mem_cons_self, isSome ▸ nil_sublist _⟩
  let weighing := Weighing.ofOrder _ isSome
  obtain ⟨_, _, lazyStmts, last, bodies, prepared', isWritten', -, finishing, noClasses, isApplied,
    isPrelude, isBody⟩ := materialize_cases isScript
  obtain rfl := Except.ok.inj (prepared.symm.trans prepared')
  obtain rfl := Except.ok.inj (isWritten.symm.trans isWritten')
  obtain ⟨rfl, -, areFacts, -⟩ := Context.prepare_eq_ok prepared
  obtain ⟨rfl, complete⟩ := writeHeap_eq_ok isWritten
  have weighable : written.Weighable weighing := complete.weighable_ofOrder areFacts isSome
  obtain ⟨_, _, _, building⟩ := Assembly.Building.defineUpTo weighable distinct isSplit comesTo
    (.initial weighable)
  obtain ⟨_, _, _, building⟩ := building.defineRoot weighable runs
  -- What is collected now is due from now on, and the rest of the run keeps it.
  rw [isSplit, Written.ComesTo, Assembly.runs_defineUpTo_append] at finishing
  obtain ⟨before', comesTo', rest⟩ := finishing
  obtain rfl := Written.ComesTo.unique comesTo comesTo'
  obtain ⟨after', runs', rest⟩ := Runs.forM_cons.mp rest
  obtain rfl : after = after' := congrArg Prod.snd (Except.ok.inj (runs.symm.trans runs'))
  obtain ⟨_, _, _, finished⟩ := Assembly.Building.defineRoots weighable rest
    ⟨_, _, _, (append_nil later).symm ▸ building.anew⟩
  obtain ⟨covers, carries⟩ := finished.finished
  have kept := carries.applyAll weighable covers noClasses isApplied
  have whole : _ ≤ weighing.closed script.stmts :=
    weighing.closed_append_left script.prelude script.body
  rw [isPrelude, weighing.loose_append _ lazyStmts, isBody] at whole
  have own := collects.block_le weighing written
  have isOne : weighing.block definition.body = 1 := if_pos (List.Sublist.refl _)
  refine Weighing.exists_block isSome (show 0 < weighing.closed script.stmts from ?_)
  omega

end

/-! ## Properties -/

namespace Purpose

/-- The property of the value that the statement sets. -/
def property? (id : ValueId) : Purpose → Option Property
  | .property other found => if other = id then some found else none
  | _ => none

theorem subject_of_property? {id : ValueId} {purpose : Purpose} {found : Property}
    (sets : purpose.property? id = some found) : purpose.subject = .value id := by
  cases purpose <;> simp_all [property?, subject]

end Purpose

def assignmentsOf (id : ValueId) (entries : List Entry) : Multiset (BodyId × Property) :=
  (entries.filterMap fun entry => (entry.purpose.property? id).map (entry.body, ·) : List _)

theorem assignmentsOf_eq (id : ValueId) (entries : List Entry) :
    assignmentsOf id entries = (placesOf id entries).filterMap fun place =>
      (place.2.property? id).map (place.1, ·) := by
  rw [assignmentsOf, placesOf, Multiset.filterMap_coe, filterMap_map, filterMap_filter]
  congr 1
  refine filterMap_congr fun entry _ => ?_
  cases sets : entry.purpose.property? id with
  | none => simp [Entry.place, sets]
  | some property =>
    simp [Entry.place, sets, Purpose.subject_of_property? sets]

namespace Context

variable {context : Context} {id : ValueId} {body : BodyId}

theorem Arises.property?_eq_none {arising : Multiset (BodyId × Purpose)}
    (arises : context.Arises id body arising) : ∀ place ∈ arising, place.2.property? id = none := by
  intro place member
  cases arises with
  | function _ | owned _ _ => simp at member
  | eager _ inherits =>
    rcases Multiset.mem_add.mp member with isDeclared | isLink
    · rw [Multiset.mem_singleton.mp isDeclared]
      rfl
    · rw [inherits.isLink place isLink]
      rfl
  | lazy _ =>
    rcases Multiset.mem_add.mp member with isDeclared | isLink
    · rw [Multiset.mem_singleton.mp isDeclared]
      rfl
    · obtain ⟨_, _, rfl⟩ := mem_map.mp (Multiset.mem_coe.mp isLink)
      rfl
  | delayed _ inherits =>
    rcases Multiset.mem_add.mp member with isCreated | isLink
    · rcases Multiset.mem_add.mp isCreated with isDeclared | isCreated
      · rw [Multiset.mem_singleton.mp isDeclared]
        rfl
      · rw [Multiset.mem_singleton.mp isCreated]
        rfl
    · rw [inherits.isLink place isLink]
      rfl

/-- A complete account sets each property once, all of them in one body, where the lock is too. -/
theorem Accounted.assignments {entries : List Entry}
    (accounted : context.Accounted id (placesOf id entries)) : ∃ body,
      assignmentsOf id entries = ((context.assigned id).map (body, ·) : List (BodyId × Property)) ∧
      (context.integrity? id ≠ none → (body, Purpose.lock id) ∈ placesOf id entries) := by
  obtain ⟨body, arising, arises, isAccount⟩ := accounted
  refine ⟨body, ?_, fun isLocked => ?_⟩
  swap
  · obtain ⟨level, isLevel⟩ := Option.ne_none_iff_exists'.mp isLocked
    simp [isAccount, filling, isLevel]
  let assignment := fun place : BodyId × Purpose => (place.2.property? id).map (place.1, ·)
  have arising_eq : arising.filterMap assignment = 0 := by
    refine Multiset.eq_zero_of_forall_notMem fun pair member => ?_
    obtain ⟨place, isPlace, found⟩ := (Multiset.mem_filterMap _ _).mp member
    simp [assignment, arises.property?_eq_none place isPlace] at found
  have locks_eq : (((context.integrity? id).toList.map fun _ => (body, Purpose.lock id) : List _) :
      Multiset (BodyId × Purpose)).filterMap assignment = 0 := by
    cases context.integrity? id <;> rfl
  rw [assignmentsOf_eq, isAccount, Multiset.filterMap_add, arising_eq, filling,
    Multiset.filterMap_add, locks_eq, zero_add, add_zero, Multiset.filterMap_coe, filterMap_map]
  congr 1
  rw [← filterMap_eq_map]
  refine filterMap_congr fun property _ => ?_
  simp [Purpose.property?]

end Context

/-! ## Scripts -/

end HeapScript
