import HeapScript.Proofs.Output.Splices
import Mathlib.Data.List.Induction
import Mathlib.Data.List.Nodup
import Mathlib.Data.Prod.Lex

/-!
What splicing gives.

Groups are put into a body from its end to its start. What comes out is told from start to end:
before each statement, and after the last one, stand the groups of that place in ascending order.
When they were added does not matter. Nothing is put into a body that is too short for one of its
groups.
-/

namespace HeapScript

open List

namespace SpliceGroup

variable {group : SpliceGroup} {groups sorted : List SpliceGroup} {start : Nat} {stmts : List Stmt}
  {body : BodyId}

def place (group : SpliceGroup) : Nat ×ₗ Nat := toLex (group.index, group.order)

/-- What groups in their order put before the statement with the given index. -/
def insertedAt (groups : List SpliceGroup) (index : Nat) : List Stmt :=
  (groups.filter (·.index = index)).flatMap (·.stmts)

def interleavingFrom (groups : List SpliceGroup) : Nat → List Stmt → List Stmt
  | index, [] => insertedAt groups index
  | index, stmt :: stmts =>
    insertedAt groups index ++ stmt :: interleavingFrom groups (index + 1) stmts

/-- The statements of a body with its groups between them, in ascending order. -/
def interleaving (groups : List SpliceGroup) (stmts : List Stmt) : List Stmt :=
  interleavingFrom (groups.mergeSort (·.place ≤ ·.place)) 0 stmts

def Fit (groups : List SpliceGroup) (stmts : List Stmt) : Prop :=
  ∀ group ∈ groups, group.index ≤ stmts.length

/-! ## One body -/

theorem interleavingFrom_of_le (last : ∀ group ∈ groups, group.index ≤ start) (stmts : List Stmt) :
    interleavingFrom groups start stmts = insertedAt groups start ++ stmts := by
  induction stmts generalizing start with
  | nil => simp [interleavingFrom]
  | cons stmt stmts induction =>
    have none : groups.filter (·.index = start + 1) = [] := by
      refine filter_eq_nil_iff.mpr fun group member => ?_
      simpa using Nat.ne_of_lt (Nat.lt_succ_of_le (last group member))
    rw [interleavingFrom, induction fun group member => Nat.le_succ_of_le (last group member),
      insertedAt, insertedAt, none]
    rfl

theorem interleaving_nil (stmts : List Stmt) : interleaving [] stmts = stmts := by
  simp [interleaving, interleavingFrom_of_le, insertedAt]

theorem interleavingFrom_insertAt {offset : Nat}
    (last : ∀ other ∈ groups, other.index ≤ group.index)
    (isIndex : group.index = start + offset) (fits : offset ≤ stmts.length) :
    interleavingFrom groups start (insertAt offset group.stmts stmts) =
      interleavingFrom (groups ++ [group]) start stmts := by
  induction offset generalizing start stmts with
  | zero =>
    obtain rfl : group.index = start := isIndex
    rw [interleavingFrom_of_le last, interleavingFrom_of_le (by simpa [or_imp, forall_and])]
    simp [insertAt, insertedAt]
  | succ offset induction =>
    cases stmts with
    | nil => exact absurd fits (by simp)
    | cons stmt stmts =>
      have rest : interleavingFrom groups (start + 1) (insertAt offset group.stmts stmts) = _ :=
        induction (by omega) (Nat.le_of_succ_le_succ fits)
      have same : insertedAt (groups ++ [group]) start = insertedAt groups start := by
        simp [insertedAt, show group.index ≠ start by omega]
      rw [interleavingFrom, same, ← rest]
      rfl

theorem spliceInto_of_fit (descending : groups.Pairwise (·.index ≥ ·.index))
    (fit : Fit groups stmts) :
    spliceInto body groups stmts = .ok (interleavingFrom groups.reverse 0 stmts) := by
  induction groups generalizing stmts with
  | nil => simp [spliceInto, interleavingFrom_of_le, insertedAt]
  | cons group groups induction =>
    obtain ⟨last, descending⟩ := pairwise_cons.mp descending
    obtain ⟨isInside, fit⟩ := forall_mem_cons.mp fit
    have grows : stmts.length ≤ (insertAt group.index group.stmts stmts).length := by
      simp [insertAt]
      omega
    rw [spliceInto, if_neg (Nat.not_lt.mpr isInside),
      induction descending fun other member => (fit other member).trans grows, reverse_cons,
      interleavingFrom_insertAt (by simpa using last) (Nat.zero_add _).symm isInside]

/-- The group with the highest index comes first, so that nothing has been put in when it fails. -/
theorem exists_first_of_not_fit (descending : groups.Pairwise (·.index ≥ ·.index))
    (tooFar : ¬Fit groups stmts) :
    ∃ group rest, groups = group :: rest ∧ stmts.length < group.index := by
  cases groups with
  | nil => exact absurd (fun _ member => absurd member not_mem_nil) tooFar
  | cons group groups =>
    refine ⟨group, groups, rfl, Nat.lt_of_not_le fun fits => tooFar ?_⟩
    exact forall_mem_cons.mpr ⟨fits, fun other member =>
      (rel_of_pairwise_cons descending member).trans fits⟩

theorem mergeSort_eq (perm : sorted.Perm groups) (distinct : (groups.map place).Nodup)
    (ascending : sorted.Pairwise (·.place ≤ ·.place)) :
    groups.mergeSort (·.place ≤ ·.place) = sorted := by
  have isPerm := mergeSort_perm groups (·.place ≤ ·.place)
  have isSorted : (groups.mergeSort (·.place ≤ ·.place)).Pairwise fun left right =>
      decide (left.place ≤ right.place) :=
    pairwise_mergeSort (fun _ _ _ => by simpa using le_trans) (fun _ _ => by simp [le_total]) _
  refine List.Perm.eq_of_pairwise (fun left right isLeft isRight le ge => ?_)
    (isSorted.imp of_decide_eq_true) ascending (isPerm.trans perm.symm)
  exact inj_on_of_nodup_map distinct (isPerm.mem_iff.mp isLeft) (perm.mem_iff.mp isRight)
    (le_antisymm le ge)

end SpliceGroup

/-! ## All bodies -/

namespace Splices

open SpliceGroup

variable {splices : Splices} {bodies : Bodies} {body : BodyId} {targets : List BodyId}
  {additions others : List (BodyId × SpliceGroup)} {groups : BodyId → List SpliceGroup}

theorem descending_groupsOf (splices : Splices) (body : BodyId) :
    (splices.groupsOf body).Pairwise (·.place ≥ ·.place) := by
  have goesFirst_iff : ∀ left right : SpliceGroup,
      left.goesFirst right ↔ left.place ≥ right.place := by
    simp [goesFirst, place, Prod.Lex.toLex_le_toLex]
  refine (pairwise_sortBy ?_ ?_ _).imp (goesFirst_iff _ _).mp
  · intro left middle right
    simpa only [goesFirst_iff] using ge_trans
  · intro left right
    simpa only [Bool.or_eq_true, goesFirst_iff] using le_total _ _

section

variable (areGroups : ∀ body, (splices.groupsOf body).Perm (groups body))
  (distinct : ∀ body, ((groups body).map place).Nodup)

include areGroups

theorem first_of_not_fit (tooFar : ¬Fit (groups body) (bodies.stmts body)) :
    ∃ group rest, splices.groupsOf body = group :: rest ∧
    (bodies.stmts body).length < group.index :=
  exists_first_of_not_fit
    ((splices.descending_groupsOf body).imp fun ge => Prod.Lex.monotone_fst _ _ ge)
    fun fit => tooFar fun group member => fit group ((areGroups body).mem_iff.mpr member)

theorem applyTo_of_not_fit (tooFar : ¬Fit (groups body) (bodies.stmts body)) : ∃ index,
    splices.applyTo body bodies =
      .error (.insertionPastEnd index body (bodies.stmts body).length) := by
  obtain ⟨group, rest, areGroups, past⟩ := first_of_not_fit areGroups tooFar
  exact ⟨group.index, by rw [applyTo, areGroups, spliceInto, if_pos past]; rfl⟩

include distinct

theorem spliceInto_groupsOf (fit : Fit (groups body) (bodies.stmts body)) :
    spliceInto body (splices.groupsOf body) (bodies.stmts body) =
      .ok (interleaving (groups body) (bodies.stmts body)) := by
  have descending := splices.descending_groupsOf body
  have sorted : (groups body).mergeSort (·.place ≤ ·.place) = (splices.groupsOf body).reverse :=
    mergeSort_eq ((reverse_perm _).trans (areGroups body)) (distinct body)
      (pairwise_reverse.mpr descending)
  rw [spliceInto_of_fit (descending.imp fun ge => Prod.Lex.monotone_fst _ _ ge)
    fun group member => fit group ((areGroups body).mem_iff.mp member), ← sorted]
  rfl

theorem applyEach_of_fit (once : targets.Nodup) (present : ∀ body ∈ targets, bodies.Has body)
    (fit : ∀ body ∈ targets, Fit (groups body) (bodies.stmts body)) :
    ∃ later, splices.applyEach targets bodies = (later, none) ∧ ∀ body, later.stmts body =
      if body ∈ targets then interleaving (groups body) (bodies.stmts body)
      else bodies.stmts body := by
  obtain ⟨later, runs, stmts⟩ := applyEach_of_each once fun body member =>
    spliceInto_groupsOf areGroups distinct (fit body member)
  refine ⟨later, runs, fun body => ?_⟩
  rw [stmts]
  split
  · rename_i member
    rw [Bodies.stmts_setStmts (present body member), if_pos rfl]
  · rfl

/-- A body that is too short stays as it is, whether it is reached or not. -/
theorem applyEach_of_not_fit (member : body ∈ targets) (present : ∀ body ∈ targets, bodies.Has body)
    (tooFar : ¬Fit (groups body) (bodies.stmts body)) :
    ∃ later failure, splices.applyEach targets bodies = (later, some failure) ∧
      failure.kind = .internal ∧ later.stmts body = bodies.stmts body := by
  induction targets generalizing bodies with
  | nil => cases member
  | cons target targets induction =>
    obtain ⟨isPresent, present⟩ := forall_mem_cons.mp present
    rw [applyEach]
    by_cases fit : Fit (groups target) (bodies.stmts target)
    · have other : body ≠ target := fun same => tooFar (same ▸ fit)
      have same := (Bodies.stmts_setStmts isPresent body
        (interleaving (groups target) (bodies.stmts target))).trans (if_neg other.symm)
      rw [applyTo_eq_ok.mpr ⟨_, spliceInto_groupsOf areGroups distinct fit, rfl⟩, ← same]
      exact induction ((mem_cons.mp member).resolve_left other)
        (fun body member => by simpa [Bodies.Has] using present body member) (by rwa [same])
    · obtain ⟨index, failed⟩ := applyTo_of_not_fit areGroups fit
      rw [failed]
      exact ⟨_, _, rfl, rfl, rfl⟩

end

/-! ## Additions -/

def addEach (additions : List (BodyId × SpliceGroup)) : Splices :=
  additions.foldl (fun splices addition =>
    splices.add ⟨addition.1, addition.2.index⟩ addition.2.order addition.2.stmts) {}

def groupsFor (additions : List (BodyId × SpliceGroup)) (body : BodyId) : List SpliceGroup :=
  (additions.filter (·.1 = body)).map (·.2)

theorem waiting_addEach (nonempty : ∀ addition ∈ additions, addition.2.stmts ≠ []) :
    (addEach additions).waiting = additions := by
  induction additions using List.reverseRecOn with
  | nil => rfl
  | append_singleton additions addition induction =>
    obtain ⟨nonempty, isNonempty⟩ := forall_mem_append.mp nonempty
    have isNonempty := isNonempty addition mem_cons_self
    rw [addEach, foldl_append]
    change ((addEach additions).add _ _ _).waiting = _
    rw [add, if_neg (by simpa using isNonempty), induction nonempty]

theorem groupsFor_eq_nil (unused : body ∉ additions.map (·.1)) : groupsFor additions body = [] :=
  map_eq_nil_iff.mpr (filter_eq_nil_iff.mpr fun addition member isBody =>
    unused (mem_map.mpr ⟨addition, member, of_decide_eq_true isBody⟩))

/-- Groups that were added in any order are put in as the reference says, if all bodies are long
enough for them. For a body that is not, already the first group fails, so that nothing is put in.
-/
theorem apply_interleaves (reordered : others.Perm additions)
    (nonempty : ∀ addition ∈ additions, addition.2.stmts ≠ [])
    (distinct : ∀ body, ((groupsFor additions body).map place).Nodup)
    (present : ∀ addition ∈ additions, bodies.Has addition.1) :
    ∃ later failure, (addEach others).apply bodies = (later, failure) ∧
      ((∀ body, Fit (groupsFor additions body) (bodies.stmts body)) → failure = none ∧
        ∀ body, later.stmts body = interleaving (groupsFor additions body) (bodies.stmts body)) ∧
      ∀ body, ¬Fit (groupsFor additions body) (bodies.stmts body) →
        (∃ reason, failure = some reason ∧ reason.kind = .internal) ∧
          (∃ first rest, (addEach others).groupsOf body = first :: rest ∧
            (bodies.stmts body).length < first.index) ∧
          later.stmts body = bodies.stmts body := by
  have waiting : (addEach others).waiting = others := waiting_addEach fun addition member =>
    nonempty addition (reordered.mem_iff.mp member)
  have areGroups : ∀ body, ((addEach others).groupsOf body).Perm (groupsFor additions body) := by
    intro body
    refine (perm_groupsOf _ body).trans ?_
    rw [entriesOf, waiting]
    exact (reordered.filter _).map _
  have isTarget : ∀ body, body ∈ (addEach others).bodiesWaiting ↔ body ∈ additions.map (·.1) := by
    intro body
    rw [bodiesWaiting, mem_sortBy, List.mem_eraseDups, waiting, (reordered.map _).mem_iff]
  have isPresent : ∀ body ∈ (addEach others).bodiesWaiting, bodies.Has body := by
    intro body member
    obtain ⟨addition, isAddition, rfl⟩ := List.mem_map.mp ((isTarget body).mp member)
    exact present addition isAddition
  have once : (addEach others).bodiesWaiting.Nodup :=
    (perm_sortBy _ _).nodup_iff.mpr (nodup_eraseDups _)
  unfold Splices.apply
  refine ⟨_, _, Prod.eta _, fun fit => ?_, fun body tooFar => ?_⟩
  · obtain ⟨later, runs, stmts⟩ :=
      applyEach_of_fit areGroups distinct once isPresent fun body _ => fit body
    rw [runs]
    refine ⟨rfl, fun body => (stmts body).trans ?_⟩
    split
    · rfl
    · rename_i outside
      rw [groupsFor_eq_nil ((isTarget body).not.mp outside), interleaving_nil]
  · have member : body ∈ (addEach others).bodiesWaiting := by
      refine (isTarget body).mpr (by_contra fun unused => ?_)
      simp [groupsFor_eq_nil unused, Fit] at tooFar
    obtain ⟨later, failure, runs, internal, same⟩ :=
      applyEach_of_not_fit areGroups distinct member isPresent tooFar
    rw [runs]
    exact ⟨⟨failure, rfl, internal⟩, first_of_not_fit areGroups tooFar, same⟩

/-- Two groups for one place between two statements are added in the wrong order. -/
theorem apply_interleaves_reordered : ∃ later,
    (addEach [(Bodies.global, ⟨1, 1, [.breakLoop]⟩),
      (Bodies.global, ⟨1, 0, [.continueLoop]⟩)]).apply
        (Bodies.initial.setStmts Bodies.global [.expr .thisRef, .expr .undefined]) = (later, none) ∧
    later.stmts Bodies.global = [.expr .thisRef, .continueLoop, .breakLoop, .expr .undefined] := by
  let additions : List (BodyId × SpliceGroup) :=
    [(Bodies.global, ⟨1, 0, [.continueLoop]⟩), (Bodies.global, ⟨1, 1, [.breakLoop]⟩)]
  let bodies := Bodies.initial.setStmts Bodies.global [.expr .thisRef, .expr .undefined]
  have groups : ∀ body, groupsFor additions body =
      if body = Bodies.global then additions.map (·.2) else [] := by
    intro body
    by_cases isGlobal : Bodies.global = body
    · simp [additions, groupsFor, isGlobal]
    · simp [additions, groupsFor, isGlobal, Ne.symm isGlobal]
  have own : bodies.stmts Bodies.global = [.expr .thisRef, .expr .undefined] := rfl
  obtain ⟨later, failure, runs, fit, -⟩ := apply_interleaves (.swap _ _ [])
    (show ∀ addition ∈ additions, addition.2.stmts ≠ [] by simp [additions])
    (fun body => by rw [groups]; split <;> decide)
    (show ∀ addition ∈ additions, bodies.Has addition.1 by
      simp [additions, bodies, Bodies.Has]; decide)
  obtain ⟨rfl, stmts⟩ := fit fun body => by
    rw [groups]
    split
    · rename_i isGlobal
      simp [isGlobal, own, Fit, additions]
    · simp [Fit]
  refine ⟨later, runs, ?_⟩
  rw [stmts, groups, if_pos rfl, own, interleaving, mergeSort_eq (.refl _) (by decide) (by decide)]
  rfl

end Splices

end HeapScript
