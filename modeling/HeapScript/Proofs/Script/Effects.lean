import HeapScript.Proofs.Script.Failures
import HeapScript.Proofs.Session.Accounts

/-!
Effects keep their order.

One statement is built for each effect, and all of them stand in the global body. Other statements
come between them: those that write the values, at once or when they have waited for a value, and
the definitions of functions.
-/

namespace HeapScript

open List

namespace Session.BuildsEffects

variable {context : Context} {before after : Session} {effects : List Effect} {stmts : List Stmt}

theorem runs (builds : BuildsEffects context before effects stmts after) :
    Runs (effects.forM fun effect => do emit (← effectStmt context effect)) before () after := by
  induction builds with
  | nil session => exact Runs.pure_iff.mpr ⟨rfl, rfl⟩
  | cons builds _ induction =>
    exact Runs.forM_cons.mpr ⟨_, Runs.bind_iff.mpr ⟨_, _, builds, runs_emit.mpr rfl⟩, induction⟩

theorem length_eq (builds : BuildsEffects context before effects stmts after) :
    effects.length = stmts.length := by
  induction builds with
  | nil session => rfl
  | cons _ _ induction => exact congrArg (· + 1) induction

end Session.BuildsEffects

end HeapScript
