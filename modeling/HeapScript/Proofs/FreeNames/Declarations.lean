import HeapScript.Proofs.FreeNames.Attributes
import HeapScript.Proofs.Syntax.Blocks

/-!
The declarations in the code of functions: putting references in the place of free names adds none
but that of the temporary of a loop.
-/

namespace HeapScript

open List

/-- No function or class is put in the place of a name or load. -/
structure Replacements.Plain (replacements : Replacements) : Prop where
  names : ∀ entry ∈ replacements.names, entry.2.blocks = []
  modules : ∀ entry ∈ replacements.modules, entry.2.blocks = []

namespace Replacements.Plain

variable {replacements : Replacements} {around : Surroundings} {expr : Expr}

theorem forName? (plain : replacements.Plain) {name : String}
    (isReplacement : replacements.forName? around name = some expr) : expr.blocks = [] := by
  unfold Replacements.forName? at isReplacement
  split at isReplacement
  · obtain ⟨before, after, isList, -⟩ := lookup_eq_some_iff.mp isReplacement
    exact plain.names (name, expr) (by simp [isList])
  · cases isReplacement

theorem forLoad? (plain : replacements.Plain) {callee : Expr} {args : List Expr}
    (isReplacement : replacements.forLoad? around callee args = some expr) : expr.blocks = [] := by
  obtain ⟨module, -, isModule⟩ := Option.bind_eq_some_iff.mp isReplacement
  obtain ⟨before, after, isList, -⟩ := lookup_eq_some_iff.mp isModule
  exact plain.modules (module, expr) (by simp [isList])

end Replacements.Plain

section Replaced

variable {replacements : Replacements} {name : String}

theorem Stmt.declares_replace (around : Surroundings) {stmt : Stmt}
    (declared : name ∈ (stmt.replace replacements around).declares)
    (notTemporary : name ≠ loopTemporary) : name ∈ stmt.declares := by
  cases stmt with
  | declare kind other init => cases init <;> exact declared
  | function definition =>
    cases definition
    exact declared
  | forOf binding isNew iterable body =>
    cases isNew with
    | true => exact declared
    | false =>
      simp only [replace, Replacements.loop] at declared
      split at declared
      · cases declared
      · cases declared
      · exact absurd (by simpa [declares] using declared) notTemporary
  | returnValue value => cases value <;> cases declared
  | switch value cases body => cases body <;> cases declared
  | _ => cases declared

theorem Replacements.Plain.declared_loop (plain : replacements.Plain) {around : Surroundings}
    {binding : String} {iterable : Expr} {body : List Stmt}
    (declared : name ∈ declaredIn (replacements.loop around binding iterable body).blocks) :
    name ∈ declaredIn iterable.blocks ∨ name ∈ declaredIn (body :: blocksWithin body) := by
  unfold Replacements.loop at declared
  split at declared
  · simpa only [Stmt.blocks, declaredIn_append, mem_append] using declared
  · simpa only [Stmt.blocks, declaredIn_append, mem_append] using declared
  · rename_i target _ isTarget
    have noBlocks := plain.forName? isTarget
    simpa only [Stmt.blocks, Expr.blocks, blocksWithin, noBlocks, declaredIn_append,
      declaredIn_cons, flatMap_cons, Stmt.declares, nil_append, append_nil, mem_append]
      using declared

theorem declared_of_replace_steps (plain : replacements.Plain)
    (notTemporary : name ≠ loopTemporary) :
    (TreeMotive.relating .blocks (.replaced .blocks) fun before after =>
      ∀ around, name ∈ declaredIn (after replacements around) →
        name ∈ declaredIn before).Steps := by
  constructor <;> simp only [TreeMotive.relating, TreeAttribute.blocks, TreeAttribute.replaced,
    blocksOf, forall_const]
  case var =>
    intro own around declared
    unfold Expr.replace at declared
    cases isReplacement : replacements.forName? around own with
    | none => simpa [isReplacement] using declared
    | some value => simp [isReplacement, plain.forName? isReplacement] at declared
  case call =>
    intro callee args inCallee inArgs around declared
    unfold Expr.replace at declared
    cases isReplacement : replacements.forLoad? around callee args with
    | some value => simp [isReplacement, plain.forLoad? isReplacement] at declared
    | none =>
      simp only [isReplacement, Option.getD_none, Expr.blocks, declaredIn_append,
        mem_append] at declared ⊢
      exact declared.imp (inCallee around) (inArgs around)
  case forOf =>
    intro binding declares iterable body inIterable inBody around declared
    simp only [Stmt.blocks, declaredIn_append, mem_append]
    cases declares with
    | true =>
      simp only [Stmt.replace, Stmt.blocks, declaredIn_append, mem_append] at declared
      exact declared.imp (inIterable around) (inBody _)
    | false => exact (plain.declared_loop declared).imp (inIterable around) (inBody _)
  case consStmt =>
    intro stmt stmts inStmt inStmts around declared
    have own : name ∈ (stmt.replace replacements around).declares → name ∈ stmt.declares :=
      fun declared => Stmt.declares_replace around declared notTemporary
    have rest := inStmts around
    simp only [replaceStmts, blocksWithin, declaredIn_cons, declaredIn_append, flatMap_cons,
      mem_append] at declared rest ⊢
    exact or_or_or_comm.mp ((or_or_or_comm.mp declared).imp (Or.imp own (inStmt around)) rest)
  all_goals
    grind [Expr.replace, Expr.blocks, replaceExprs, blocksOfExprs, replaceFields, blocksOfFields,
      FunctionDef.replaceNested, FunctionDef.blocks, replaceParams, blocksOfParams,
      ClassDef.replace, ClassDef.blocks, replaceMembers, blocksOfMembers, MemberKey.replace,
      MemberKey.blocks, Stmt.replace, Stmt.blocks, replaceCases, blocksOfCases, replaceStmts,
      blocksWithin]

theorem FunctionDef.declared_of_replace {definition : FunctionDef} (plain : replacements.Plain)
    (notTemporary : name ≠ loopTemporary)
    (declared : name ∈ declaredIn (definition.replace replacements).blocks) :
    name ∈ declaredIn definition.blocks := by
  cases definition
  simp only [FunctionDef.replace, FunctionDef.blocks, declaredIn_append, mem_append]
    at declared ⊢
  have steps := declared_of_replace_steps plain notTemporary
  exact declared.imp (steps.params _ _) (steps.stmts _ _)

end Replaced

end HeapScript
