import HeapScript.Assembly.Roots
import HeapScript.Proofs.Output.Splices
import Mathlib.Data.List.Permutation

/-!
Splicing in stages.

The body of a root gets its groups when the root is built, and all other bodies get theirs in the
end. A stage takes the groups of one body away and leaves all others as they are, so it does not
matter which bodies have had their stage before the end.
-/

namespace HeapScript

open List Runs

variable {bodies later : Bodies} {body target : BodyId}

@[simp] theorem Bodies.stmts_setStmts_self (bodies : Bodies) (id : BodyId) :
    (bodies.setStmts id (bodies.stmts id)).stmts id = bodies.stmts id := by
  cases found : bodies.arena.get? id <;> simp [stmts, setStmts, Arena.get?_modify, found]

namespace Splices

variable {splices : Splices}

def Fits (splices : Splices) (bodies : Bodies) : Prop :=
  ∀ entry ∈ splices.waiting, entry.2.index ≤ (bodies.stmts entry.1).length

def Fills (splices : Splices) (bodies later : Bodies) : Prop :=
  ∀ body, ∃ spliced, spliceInto body (splices.groupsOf body) (bodies.stmts body) = .ok spliced ∧
    later.stmts body = (bodies.setStmts body spliced).stmts body

theorem Fills.unique {other : Bodies} (fills : splices.Fills bodies later)
    (fillsToo : splices.Fills bodies other) (body : BodyId) :
    later.stmts body = other.stmts body := by
  obtain ⟨spliced, isSpliced, stmts⟩ := fills body
  obtain ⟨_, isSplicedToo, stmtsToo⟩ := fillsToo body
  obtain rfl := Except.ok.inj (isSpliced.symm.trans isSplicedToo)
  exact stmts.trans stmtsToo.symm

theorem Fits.exists_spliced (fits : splices.Fits bodies) (body : BodyId) :
    ∃ spliced, spliceInto body (splices.groupsOf body) (bodies.stmts body) = .ok spliced := by
  refine exists_spliceInto fun group isGroup => ?_
  obtain ⟨entry, isEntry, rfl⟩ := mem_map.mp ((splices.perm_groupsOf body).mem_iff.mp isGroup)
  obtain ⟨isEntry, isBody⟩ := mem_filter.mp isEntry
  exact of_decide_eq_true isBody ▸ fits entry isEntry

theorem Fits.exists_apply (fits : splices.Fits bodies) :
    ∃ later, splices.apply bodies = (later, none) ∧ splices.Fills bodies later := by
  choose spliced each using fits.exists_spliced
  have once : splices.bodiesWaiting.Nodup :=
    (perm_sortBy _ _).nodup_iff.mpr (nodup_eraseDups _)
  obtain ⟨later, runs, stmts⟩ := applyEach_of_each once fun body _ => each body
  refine ⟨later, runs, fun body => ⟨spliced body, each body, ?_⟩⟩
  rw [stmts]
  split
  · rfl
  · rename_i outside
    have unused : splices.entriesOf body = [] := filter_eq_nil_iff.mpr fun entry member isBody =>
      outside (by simpa [bodiesWaiting] using ⟨entry.2, of_decide_eq_true isBody ▸ member⟩)
    have same := each body
    rw [groupsOf_eq, unused] at same
    have unchanged : bodies.stmts body = spliced body := by simpa [spliceInto] using same
    rw [← unchanged, Bodies.stmts_setStmts_self]

theorem entriesOf_without (different : body ≠ target) :
    (splices.without target).entriesOf body = splices.entriesOf body := by
  rw [entriesOf, without, filter_filter]
  refine filter_congr fun entry _ => ?_
  by_cases isBody : entry.1 = body <;> simp [isBody, different]

end Splices

namespace Assembly

variable {before after : Assembly} {result : PUnit}

theorem runs_closeBody : Runs (closeBody target) before result after ↔ ∃ spliced,
    spliceInto target (before.splices.groupsOf target) (before.bodies.stmts target) = .ok spliced ∧
      after = { before with
        bodies := before.bodies.setStmts target spliced
        splices := before.splices.without target
        takenBodies := target :: before.takenBodies } := by
  simp only [closeBody, get_bind, lift_bind, set_iff, Splices.applyTo_eq_ok]
  constructor
  · rintro ⟨_, ⟨spliced, isSpliced, rfl⟩, rfl⟩
    exact ⟨spliced, isSpliced, rfl⟩
  · rintro ⟨spliced, isSpliced, rfl⟩
    exact ⟨_, ⟨spliced, isSpliced, rfl⟩, rfl⟩

/-- A stage leaves all other bodies and their groups as they are. -/
theorem closeBody_frame (runs : Runs (closeBody target) before result after)
    (different : body ≠ target) :
    after.bodies.stmts body = before.bodies.stmts body ∧
      after.splices.entriesOf body = before.splices.entriesOf body := by
  obtain ⟨spliced, -, rfl⟩ := runs_closeBody.mp runs
  exact ⟨Bodies.stmts_setStmts_of_ne different.symm _, Splices.entriesOf_without different⟩

theorem exists_closeBody (fits : before.splices.Fits before.bodies) (target : BodyId) :
    ∃ after, Runs (closeBody target) before ⟨⟩ after ∧ after.splices.Fits after.bodies := by
  obtain ⟨spliced, isSpliced⟩ := fits.exists_spliced target
  refine ⟨_, runs_closeBody.mpr ⟨spliced, isSpliced, rfl⟩, fun entry isEntry => ?_⟩
  obtain ⟨isEntry, different⟩ := mem_filter.mp isEntry
  rw [Bodies.stmts_setStmts_of_ne (Ne.symm (by simpa using different))]
  exact fits entry isEntry

/-- What is put in after a stage is what would have been put in without it. -/
theorem fills_of_closeBody (runs : Runs (closeBody target) before result after)
    (fills : after.splices.Fills after.bodies later) :
    before.splices.Fills before.bodies later := by
  intro body
  obtain ⟨spliced, isSpliced, stmts⟩ := fills body
  by_cases isTarget : body = target
  · obtain ⟨first, isFirst, rfl⟩ := runs_closeBody.mp runs
    have none : (before.splices.without target).entriesOf body = [] := by
      simp [Splices.entriesOf, Splices.without, isTarget]
    rw [Splices.groupsOf_eq, none] at isSpliced
    obtain rfl : _ = spliced := by simpa [spliceInto] using isSpliced
    subst isTarget
    exact ⟨first, isFirst, stmts.trans (Bodies.stmts_setStmts_self _ _)⟩
  · obtain ⟨sameStmts, sameEntries⟩ := closeBody_frame runs isTarget
    rw [Splices.groupsOf_eq, sameEntries, ← Splices.groupsOf_eq, sameStmts] at isSpliced
    refine ⟨spliced, isSpliced, stmts.trans ?_⟩
    obtain ⟨_, -, rfl⟩ := runs_closeBody.mp runs
    simp [Bodies.stmts, Bodies.setStmts, Arena.get?_modify, Ne.symm isTarget]

theorem exists_closeBodies (fits : before.splices.Fits before.bodies) (targets : List BodyId) :
    ∃ after later, Runs (targets.forM closeBody) before ⟨⟩ after ∧
      after.splices.apply after.bodies = (later, none) ∧
      before.splices.Fills before.bodies later := by
  induction targets generalizing before with
  | nil =>
    obtain ⟨later, applied, fills⟩ := fits.exists_apply
    exact ⟨before, later, pure_iff.mpr ⟨rfl, rfl⟩, applied, fills⟩
  | cons target targets induction =>
    obtain ⟨middle, first, fits⟩ := exists_closeBody fits target
    obtain ⟨after, later, rest, applied, fills⟩ := induction fits
    exact ⟨after, later, forM_cons.mpr ⟨middle, first, rest⟩, applied,
      fills_of_closeBody first fills⟩

/-- Stages do not matter. Whatever bodies get their groups before the others, and however often,
all bodies have the same statements in the end. A stage changes no other body and takes none of its
groups. -/
theorem closeBodies_apply (fits : before.splices.Fits before.bodies) (targets : List BodyId) :
    (∃ after staged whole, Runs (targets.forM closeBody) before ⟨⟩ after ∧
      after.splices.apply after.bodies = (staged, none) ∧
      before.splices.apply before.bodies = (whole, none) ∧
      ∀ body, staged.stmts body = whole.stmts body) ∧
    ∀ target after, Runs (closeBody target) before ⟨⟩ after → ∀ body, body ≠ target →
      after.bodies.stmts body = before.bodies.stmts body ∧
        after.splices.entriesOf body = before.splices.entriesOf body := by
  refine ⟨?_, fun _ _ runs _ different => closeBody_frame runs different⟩
  obtain ⟨after, staged, runs, applied, fills⟩ := exists_closeBodies fits targets
  obtain ⟨whole, appliedAtOnce, fillsAtOnce⟩ := fits.exists_apply
  exact ⟨after, staged, whole, runs, applied, appliedAtOnce, fills.unique fillsAtOnce⟩

/-- A root inside the script, with two groups for the end of its body and one for the script. -/
def nestedGroups : Assembly where
  bodies := (Bodies.initial.newBody (.root ⟨0⟩) Bodies.global).2.emitInto ⟨1⟩ .breakLoop
  splices := ⟨[(⟨1⟩, ⟨1, 1, [.continueLoop]⟩), (⟨0⟩, ⟨0, 0, [.breakLoop]⟩),
    (⟨1⟩, ⟨1, 0, [.returnValue none]⟩)]⟩

theorem nestedGroups_closeBodies : ∃ after staged whole,
    Runs ([⟨1⟩, ⟨0⟩, ⟨1⟩].forM closeBody) nestedGroups ⟨⟩ after ∧
    after.splices.apply after.bodies = (staged, none) ∧
    nestedGroups.splices.apply nestedGroups.bodies = (whole, none) ∧
    (∀ body, staged.stmts body = whole.stmts body) ∧
    whole.stmts ⟨1⟩ = [.breakLoop, .returnValue none, .continueLoop] := by
  have fits : nestedGroups.splices.Fits nestedGroups.bodies := by
    unfold Splices.Fits
    decide
  obtain ⟨⟨after, staged, whole, runs, applied, appliedAtOnce, same⟩, -⟩ :=
    closeBodies_apply fits [⟨1⟩, ⟨0⟩, ⟨1⟩]
  refine ⟨after, staged, whole, runs, applied, appliedAtOnce, same, ?_⟩
  obtain rfl : _ = whole := congrArg Prod.fst appliedAtOnce
  rfl

end Assembly

end HeapScript
