/-!
The figures of a run: what was decided how often.
-/

namespace HeapScript

structure Report where
  /-- Code blocks written out for each closure because they are small. -/
  inlinedBlocks : Nat := 0
  clonedBlocks : Nat := 0
  factoryBlocks : Nat := 0
  bindStubs : Nat := 0
  callStubs : Nat := 0
  optimizedRoots : Nat := 0
  lazyObjects : Nat := 0
  capturedScopes : Nat := 0
deriving DecidableEq, Repr, Inhabited

def Report.text (report : Report) : String :=
  s!"{report.inlinedBlocks} inlined, {report.clonedBlocks} cloned, " ++
    s!"{report.factoryBlocks} factories " ++
    s!"({report.bindStubs} bind, {report.callStubs} call stubs), " ++
    s!"{report.optimizedRoots} roots, {report.lazyObjects} lazy objects, " ++
    s!"{report.capturedScopes} scopes"

end HeapScript
