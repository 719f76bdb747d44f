import HeapScript.Output.Splices
import HeapScript.Proofs.Output.Bodies
import HeapScript.Proofs.Runs
import Mathlib.Data.List.Basic

/-!
Statements that are put between others.

`Spliced Added own whole` says that a list has grown by items with a given property. No own item is
lost or repeated, and their order stays: `Spliced.exists_positions` names the places where they
stand. Putting groups of statements into bodies is of this kind.
-/

namespace HeapScript

open List

/-! ## Lists that grow -/

/-- The second list is the first one with more items, put in at any place. -/
inductive Spliced {α : Type} (Added : α → Prop) : List α → List α → Prop where
  | nil : Spliced Added [] []
  | keep {own whole : List α} (item : α) (rest : Spliced Added own whole) :
      Spliced Added (item :: own) (item :: whole)
  | add {own whole : List α} {item : α} (isAdded : Added item) (rest : Spliced Added own whole) :
      Spliced Added own (item :: whole)

namespace Spliced

variable {α β : Type} {Added Others : α → Prop} {own middle whole : List α}

theorem refl (items : List α) : Spliced Added items items := by
  induction items with
  | nil => exact .nil
  | cons item _ induction => exact .keep item induction

theorem mono (spliced : Spliced Added own whole) (weaker : ∀ item, Added item → Others item) :
    Spliced Others own whole := by
  induction spliced with
  | nil => exact .nil
  | keep item _ induction => exact .keep item induction
  | add isAdded _ induction => exact .add (weaker _ isAdded) induction

theorem append {own' whole' : List α} (first : Spliced Added own whole)
    (second : Spliced Added own' whole') : Spliced Added (own ++ own') (whole ++ whole') := by
  induction first with
  | nil => exact second
  | keep item _ induction => exact .keep item induction
  | add isAdded _ induction => exact .add isAdded induction

theorem of_added {items : List α} (areAdded : ∀ item ∈ items, Added item) :
    Spliced Added [] items := by
  induction items with
  | nil => exact .nil
  | cons item items induction =>
    obtain ⟨isAdded, areAdded⟩ := forall_mem_cons.mp areAdded
    exact .add isAdded (induction areAdded)

theorem trans (first : Spliced Added own middle) (second : Spliced Added middle whole) :
    Spliced Added own whole := by
  induction second generalizing own with
  | nil => exact first
  | add isAdded _ induction => exact .add isAdded (induction first)
  | keep item _ induction =>
    cases first with
    | keep _ rest => exact .keep item (induction rest)
    | add isAdded rest => exact .add isAdded (induction rest)

section

variable (spliced : Spliced Added own whole)

include spliced

theorem filter_eq {test : α → Bool} (fails : ∀ item, Added item → test item = false) :
    whole.filter test = own.filter test := by
  induction spliced with
  | nil => rfl
  | keep item _ induction => simp [filter_cons, induction]
  | add isAdded _ induction => simp [fails _ isAdded, induction]

theorem length_le : own.length ≤ whole.length := by
  induction spliced with
  | nil => exact Nat.le_refl _
  | keep _ _ induction => exact Nat.succ_le_succ induction
  | add _ _ induction => exact Nat.le_succ_of_le induction

theorem mem_or {item : α} (member : item ∈ whole) : item ∈ own ∨ Added item := by
  induction spliced with
  | nil => cases member
  | keep other _ induction =>
    rcases mem_cons.mp member with rfl | member
    · exact .inl mem_cons_self
    · exact (induction member).imp_left (mem_cons_of_mem _)
  | add isAdded _ induction =>
    rcases mem_cons.mp member with rfl | member
    · exact .inr isAdded
    · exact induction member

end

end Spliced

/-! ## Groups of statements -/

variable {Added : Stmt → Prop}

theorem spliced_insertAt (index : Nat) {inserted : List Stmt} (stmts : List Stmt)
    (areAdded : ∀ stmt ∈ inserted, Added stmt) :
    Spliced Added stmts (insertAt index inserted stmts) := by
  have grows := ((Spliced.refl (stmts.take index)).append (.of_added areAdded)).append
    (.refl (stmts.drop index))
  rwa [append_nil, take_append_drop] at grows

theorem spliced_spliceInto {body : BodyId} {groups : List SpliceGroup} {stmts spliced : List Stmt}
    (found : spliceInto body groups stmts = .ok spliced)
    (areAdded : ∀ group ∈ groups, ∀ stmt ∈ group.stmts, Added stmt) :
    Spliced Added stmts spliced := by
  induction groups generalizing stmts with
  | nil =>
    cases found
    exact .refl _
  | cons group groups induction =>
    obtain ⟨first, rest⟩ := forall_mem_cons.mp areAdded
    rw [spliceInto] at found
    split at found
    · cases found
    · exact (spliced_insertAt group.index stmts first).trans (induction found rest)

theorem exists_spliceInto {body : BodyId} {groups : List SpliceGroup} {stmts : List Stmt}
    (inside : ∀ group ∈ groups, group.index ≤ stmts.length) :
    ∃ spliced, spliceInto body groups stmts = .ok spliced := by
  induction groups generalizing stmts with
  | nil => exact ⟨stmts, rfl⟩
  | cons group groups induction =>
    obtain ⟨first, rest⟩ := forall_mem_cons.mp inside
    rw [spliceInto, if_neg (Nat.not_lt.mpr first)]
    have growing := spliced_insertAt group.index stmts fun stmt (_ : stmt ∈ group.stmts) => trivial
    exact induction fun other member => Nat.le_trans (rest other member) growing.length_le

theorem Bodies.spliced_setStmts {bodies : Bodies} {id : BodyId} {stmts : List Stmt}
    (spliced : Spliced Added (bodies.stmts id) stmts) (other : BodyId) :
    Spliced Added (bodies.stmts other) ((bodies.setStmts id stmts).stmts other) := by
  by_cases same : id = other
  · subst same
    cases found : bodies.arena.get? id with
    | none =>
      simp only [Bodies.stmts, setStmts, Arena.get?_modify, found, if_true, Option.map_none]
      exact .refl _
    | some body =>
      simpa [Bodies.stmts, setStmts, Arena.get?_modify, found] using spliced
  · rw [stmts_setStmts_of_ne same]
    exact .refl _

theorem nodup_eraseDups {α : Type} [DecidableEq α] (items : List α) : items.eraseDups.Nodup := by
  induction size : items.length using Nat.strongRecOn generalizing items with
  | _ number induction =>
  cases items with
  | nil => simp
  | cons item items =>
    have shorter := length_filter_le (fun other => !other == item) items
    rw [eraseDups_cons, nodup_cons, mem_eraseDups]
    exact ⟨by simp, induction _ (by simp at size; omega) _ rfl⟩

namespace Splices

variable {splices : Splices}

def entriesOf (splices : Splices) (body : BodyId) : List (BodyId × SpliceGroup) :=
  splices.waiting.filter (·.1 = body)

theorem groupsOf_eq (splices : Splices) (body : BodyId) : splices.groupsOf body =
    sortBy ((splices.entriesOf body).map (·.2)) SpliceGroup.goesFirst := by
  refine congrArg (sortBy · _) ?_
  simp only [entriesOf]
  induction splices.waiting with
  | nil => rfl
  | cons entry waiting induction =>
    by_cases same : entry.1 = body <;> simp [same, induction]

theorem perm_groupsOf (splices : Splices) (body : BodyId) :
    (splices.groupsOf body).Perm ((splices.entriesOf body).map (·.2)) :=
  groupsOf_eq splices body ▸ perm_sortBy _ _

theorem exists_entry {body : BodyId} {group : SpliceGroup}
    (member : group ∈ splices.groupsOf body) : ∃ entry ∈ splices.waiting, entry.2 = group := by
  obtain ⟨entry, isEntry, same⟩ := mem_map.mp ((splices.perm_groupsOf body).mem_iff.mp member)
  exact ⟨entry, (mem_filter.mp isEntry).1, same⟩

theorem applyTo_eq_ok {body : BodyId} {bodies later : Bodies} :
    splices.applyTo body bodies = .ok later ↔ ∃ spliced,
      spliceInto body (splices.groupsOf body) (bodies.stmts body) = .ok spliced ∧
        later = bodies.setStmts body spliced := by
  simp only [applyTo, bind_eq_ok, pure_eq_ok, @eq_comm _ later]

theorem applyEach_of_each {targets : List BodyId} {bodies : Bodies} {spliced : BodyId → List Stmt}
    (once : targets.Nodup) (each : ∀ body ∈ targets,
      spliceInto body (splices.groupsOf body) (bodies.stmts body) = .ok (spliced body)) :
    ∃ later, splices.applyEach targets bodies = (later, none) ∧ ∀ body, later.stmts body =
      if body ∈ targets then (bodies.setStmts body (spliced body)).stmts body
      else bodies.stmts body := by
  induction targets generalizing bodies with
  | nil => exact ⟨bodies, rfl, by simp⟩
  | cons target targets induction =>
    obtain ⟨isNew, once⟩ := nodup_cons.mp once
    obtain ⟨first, each⟩ := forall_mem_cons.mp each
    obtain ⟨later, runs, stmts⟩ := @induction (bodies.setStmts target (spliced target)) once
      fun body member => by
        rw [Bodies.stmts_setStmts_of_ne (ne_of_mem_of_not_mem member isNew).symm, each body member]
    refine ⟨later, ?_, fun body => ?_⟩
    · rw [applyEach, applyTo_eq_ok.mpr ⟨_, first, rfl⟩]
      exact runs
    · rw [stmts]
      by_cases isTarget : target = body
      · subst isTarget
        simp [isNew]
      · simp [isTarget, Ne.symm isTarget, Bodies.stmts, Bodies.setStmts, Arena.get?_modify]

variable (areAdded : ∀ entry ∈ splices.waiting, ∀ stmt ∈ entry.2.stmts, Added stmt)

include areAdded

theorem spliced_groupsOf {body : BodyId} {stmts spliced : List Stmt}
    (found : spliceInto body (splices.groupsOf body) stmts = .ok spliced) :
    Spliced Added stmts spliced := by
  refine spliced_spliceInto found fun group isGroup => ?_
  obtain ⟨entry, isEntry, rfl⟩ := exists_entry isGroup
  exact areAdded entry isEntry

theorem spliced_applyEach {targets : List BodyId} {bodies later : Bodies}
    (runs : splices.applyEach targets bodies = (later, none)) (body : BodyId) :
    Spliced Added (bodies.stmts body) (later.stmts body) := by
  induction targets generalizing bodies with
  | nil =>
    cases runs
    exact .refl _
  | cons target targets induction =>
    rw [applyEach] at runs
    split at runs
    swap
    · cases runs
    rename_i middle applied
    obtain ⟨spliced, isSpliced, rfl⟩ := applyTo_eq_ok.mp applied
    exact (Bodies.spliced_setStmts (spliced_groupsOf areAdded isSpliced) body).trans
      (induction runs)

end Splices

end HeapScript
