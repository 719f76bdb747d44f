import HeapScript.Proofs.Output.Bodies
import HeapScript.Proofs.Syntax.Blocks
import HeapScript.Table.Keyed
import Mathlib.Algebra.BigOperators.Group.Finset.Basic
import Mathlib.Algebra.Order.BigOperators.Group.List
import Mathlib.Algebra.Order.PUnit
import Mathlib.Order.CompleteBooleanAlgebra
import Mathlib.Order.CompletePartialOrder
import Mathlib.Tactic.Abel

/-!
Weighing the statements of a script.

A weighing gives each block a weight, which does not fall when statements are put in at any place:
it grows at least by the weights of the statements. What is said of all weighings is said of the
number of declarations of a name, of the number of statements that break a rule, and of the number
of blocks in which given statements stand in their order.
-/

namespace HeapScript

open List

structure Weighing (M : Type) [AddCommMonoid M] [PartialOrder M] where
  name : String → M
  stmt : Stmt → M
  block : List Stmt → M
  block_nil : block [] = 0
  block_insert : ∀ start inserted rest,
    block (start ++ rest) + (inserted.map stmt).sum ≤ block (start ++ inserted ++ rest)

namespace Weighing

def weightless : Weighing PUnit where
  name _ := 0
  stmt _ := 0
  block _ := 0
  block_nil := rfl
  block_insert _ _ _ := le_rfl

variable {M : Type} [AddCommMonoid M] [PartialOrder M] (weighing : Weighing M)

def blocks (blocks : List (List Stmt)) : M := (blocks.map weighing.block).sum

def closed (stmts : List Stmt) : M := weighing.blocks (blocksOf stmts)

def loose (stmts : List Stmt) : M :=
  (stmts.map weighing.stmt).sum + weighing.blocks (blocksWithin stmts)

@[simp] theorem blocks_nil : weighing.blocks [] = 0 := rfl

@[simp] theorem blocks_cons (block : List Stmt) (blocks : List (List Stmt)) :
    weighing.blocks (block :: blocks) = weighing.block block + weighing.blocks blocks :=
  sum_cons

@[simp] theorem blocks_append (blocks others : List (List Stmt)) :
    weighing.blocks (blocks ++ others) = weighing.blocks blocks + weighing.blocks others := by
  simp [Weighing.blocks]

theorem closed_eq (stmts : List Stmt) : weighing.closed stmts =
    weighing.block stmts + weighing.blocks (blocksWithin stmts) :=
  weighing.blocks_cons stmts _

@[simp] theorem closed_nil : weighing.closed [] = 0 := by
  simp [closed_eq, weighing.block_nil, blocksWithin]

@[simp] theorem loose_nil : weighing.loose [] = 0 := by
  simp [loose, blocksWithin]

@[simp] theorem loose_append (stmts others : List Stmt) :
    weighing.loose (stmts ++ others) = weighing.loose stmts + weighing.loose others := by
  simp [loose, add_add_add_comm]

theorem loose_cons (stmt : Stmt) (stmts : List Stmt) :
    weighing.loose (stmt :: stmts) = weighing.loose [stmt] + weighing.loose stmts :=
  weighing.loose_append [stmt] stmts

theorem loose_singleton (stmt : Stmt) :
    weighing.loose [stmt] = weighing.stmt stmt + weighing.blocks stmt.blocks := by
  simp [loose, blocksWithin]

theorem sum_stmt_le_block (stmts : List Stmt) :
    (stmts.map weighing.stmt).sum ≤ weighing.block stmts := by
  simpa [weighing.block_nil] using weighing.block_insert [] stmts []

/-! ## Putting statements in -/

variable [IsOrderedAddMonoid M]

theorem closed_insert (start inserted rest : List Stmt) :
    weighing.closed (start ++ rest) + weighing.loose inserted ≤
      weighing.closed (start ++ inserted ++ rest) := by
  have moved : weighing.closed (start ++ rest) + weighing.loose inserted =
      weighing.block (start ++ rest) + (inserted.map weighing.stmt).sum +
        weighing.blocks (blocksWithin (start ++ inserted ++ rest)) := by
    simp only [closed_eq, loose, blocksWithin_append, blocks_append]
    abel
  rw [moved, closed_eq]
  exact add_le_add_left (weighing.block_insert start inserted rest) _

theorem closed_append_left (stmts others : List Stmt) :
    weighing.loose stmts + weighing.closed others ≤ weighing.closed (stmts ++ others) := by
  simpa [add_comm] using weighing.closed_insert [] stmts others

theorem closed_append_right (stmts others : List Stmt) :
    weighing.closed stmts + weighing.loose others ≤ weighing.closed (stmts ++ others) := by
  simpa using weighing.closed_insert stmts others []

/-! ## Statements without weight -/

theorem blocks_nonneg {blocks : List (List Stmt)}
    (quiet : ∀ block ∈ blocks, ∀ stmt ∈ block, 0 ≤ weighing.stmt stmt) :
    0 ≤ weighing.blocks blocks := by
  refine sum_nonneg fun weight member => ?_
  obtain ⟨block, isBlock, rfl⟩ := mem_map.mp member
  refine (sum_nonneg fun weight member => ?_).trans (weighing.sum_stmt_le_block block)
  obtain ⟨stmt, isStmt, rfl⟩ := mem_map.mp member
  exact quiet block isBlock stmt isStmt

theorem loose_nonneg {stmts : List Stmt}
    (quiet : ∀ block ∈ blocksOf stmts, ∀ stmt ∈ block, 0 ≤ weighing.stmt stmt) :
    0 ≤ weighing.loose stmts := by
  refine add_nonneg (sum_nonneg fun weight member => ?_)
    (weighing.blocks_nonneg fun block isBlock => quiet block (mem_cons_of_mem _ isBlock))
  obtain ⟨stmt, isStmt, rfl⟩ := mem_map.mp member
  exact quiet stmts mem_cons_self stmt isStmt

end Weighing

/-! ## Totals -/

namespace Bodies

variable {M : Type} [AddCommMonoid M] (weight : List Stmt → M)

def total (bodies : Bodies) : M :=
  ∑ index ∈ Finset.range bodies.arena.size, weight (bodies.stmts ⟨index⟩)

theorem exists_total_setStmts {bodies : Bodies} {id : BodyId} (present : bodies.Has id) :
    ∃ others, bodies.total weight = others + weight (bodies.stmts id) ∧
      ∀ stmts, (bodies.setStmts id stmts).total weight = others + weight stmts := by
  have inside : id.index ∈ Finset.range bodies.arena.size := Finset.mem_range.mpr present
  refine ⟨∑ index ∈ (Finset.range bodies.arena.size).erase id.index, weight (bodies.stmts ⟨index⟩),
    (Finset.sum_erase_add _ _ inside).symm, fun stmts => ?_⟩
  rw [total, size_setStmts, ← Finset.sum_erase_add _ _ inside,
    stmts_setStmts present, if_pos rfl]
  congr 1
  refine Finset.sum_congr rfl fun index member => ?_
  rw [stmts_setStmts present, if_neg]
  rintro rfl
  simp at member

end Bodies

namespace KeyedTable

variable {κ α M : Type} [DecidableEq κ] [AddCommMonoid M] (weight : α → M)

def total (table : KeyedTable κ α) : M := (table.values.map weight).sum

omit [DecidableEq κ] in
@[simp] theorem total_empty : ({} : KeyedTable κ α).total weight = 0 := rfl

omit [DecidableEq κ] in
theorem eq_empty_of_keys {table : KeyedTable κ α} (noKeys : table.keys = []) : table = {} :=
  congrArg KeyedTable.mk (map_eq_nil_iff.mp noKeys)

theorem exists_total_insert (table : KeyedTable κ α) (key : κ) :
    ∃ others, table.total weight = others + ((table.get? key).map weight).getD 0 ∧
      ∀ value, (table.insert key value).total weight = others + weight value := by
  obtain ⟨entries⟩ := table
  induction entries with
  | nil => exact ⟨0, by simp [total, values, get?], by simp [total, values, insert, putEntry]⟩
  | cons entry entries induction =>
    obtain ⟨other, old⟩ := entry
    by_cases same : other = key
    · subst same
      refine ⟨(KeyedTable.mk entries).total weight, ?_, fun value => ?_⟩
      · simp [total, values, get?, add_comm]
      · simp [total, values, insert, putEntry, add_comm]
    · obtain ⟨others, isTotal, isInserted⟩ := induction
      refine ⟨weight old + others, ?_, fun value => ?_⟩
      · have rest : (KeyedTable.mk ((other, old) :: entries)).total weight =
            weight old + (KeyedTable.mk entries).total weight := rfl
        rw [rest, isTotal, add_assoc]
        simp [get?, same]
      · have rest : ((KeyedTable.mk ((other, old) :: entries)).insert key value).total weight =
            weight old + ((KeyedTable.mk entries).insert key value).total weight := by
          simp [total, values, insert, putEntry, same]
        rw [rest, isInserted, add_assoc]

theorem keys_erase (table : KeyedTable κ α) (key : κ) :
    (table.erase key).keys = table.keys.filter (· ≠ key) := by
  simp [erase, keys, filter_map, Function.comp_def]

theorem total_erase {table : KeyedTable κ α} (distinct : table.keys.Nodup) (key : κ) :
    table.total weight = (table.erase key).total weight + ((table.get? key).map weight).getD 0 := by
  obtain ⟨entries⟩ := table
  induction entries with
  | nil => simp [total, values, erase, get?]
  | cons entry entries induction =>
    obtain ⟨other, old⟩ := entry
    obtain ⟨isNew, distinct⟩ := nodup_cons.mp distinct
    have whole : (KeyedTable.mk ((other, old) :: entries)).total weight =
        weight old + (KeyedTable.mk entries).total weight := rfl
    by_cases same : other = key
    · subst same
      have untouched : entries.filter (·.1 ≠ other) = entries := by
        refine filter_eq_self.mpr fun entry member => ?_
        have different : entry.1 ≠ other := fun same =>
          isNew (mem_map.mpr ⟨entry, member, same⟩)
        simpa using different
      have isErased : (KeyedTable.mk ((other, old) :: entries)).erase other = ⟨entries⟩ := by
        simp only [erase, filter_cons, ne_eq, not_true_eq_false, decide_false]
        exact congrArg KeyedTable.mk untouched
      rw [whole, isErased, add_comm]
      simp [get?]
    · have isErased : ((KeyedTable.mk ((other, old) :: entries)).erase key).total weight =
          weight old + ((KeyedTable.mk entries).erase key).total weight := by
        simp [total, values, erase, same]
      rw [whole, isErased, induction distinct, add_assoc]
      simp [get?, same]

end KeyedTable

end HeapScript
