import HeapScript.Output.Bodies
import HeapScript.Table.Sorting

/-!
Groups of statements that are put into the bodies when these are complete.

All groups of a body refer to its statements before any group is put in. Groups at one index stand
in ascending order of their order numbers.
-/

namespace HeapScript

/-- Statements that belong before the statement with the given index. -/
structure SpliceGroup where
  index : Nat
  order : Nat
  stmts : List Stmt

namespace SpliceGroup

/-- Whether the first group is put in no later than the second one: groups are put in from the end
of the body to its start, so that no index changes before it is used. -/
def goesFirst (left right : SpliceGroup) : Bool :=
  right.index < left.index || (right.index == left.index && right.order ≤ left.order)

end SpliceGroup

def insertAt (index : Nat) (inserted stmts : List Stmt) : List Stmt :=
  stmts.take index ++ inserted ++ stmts.drop index

def spliceInto (body : BodyId) : List SpliceGroup → List Stmt → Except Failure (List Stmt)
  | [], stmts => .ok stmts
  | group :: groups, stmts =>
    if stmts.length < group.index then
      .error (.insertionPastEnd group.index body stmts.length)
    else spliceInto body groups (insertAt group.index group.stmts stmts)

structure Splices where
  waiting : List (BodyId × SpliceGroup) := []
deriving Inhabited

namespace Splices

def isEmpty (splices : Splices) : Bool := splices.waiting.isEmpty

def add (splices : Splices) (point : Position) (order : Nat) (stmts : List Stmt) : Splices :=
  if stmts.isEmpty then splices
  else ⟨splices.waiting ++ [(point.body, { index := point.index, order, stmts })]⟩

def groupsOf (splices : Splices) (body : BodyId) : List SpliceGroup :=
  let groups := splices.waiting.filterMap fun (other, group) =>
    if other = body then some group else none
  sortBy groups SpliceGroup.goesFirst

def without (splices : Splices) (body : BodyId) : Splices :=
  ⟨splices.waiting.filter fun (other, _) => other ≠ body⟩

def bodiesWaiting (splices : Splices) : List BodyId :=
  sortBy (splices.waiting.map (·.1)).eraseDups fun left right => left.index ≤ right.index

/-- Puts the groups of one body in. The group with the highest index comes first, so that none is in
when one fails. -/
def applyTo (splices : Splices) (body : BodyId) (bodies : Bodies) : Except Failure Bodies := do
  let stmts ← spliceInto body (splices.groupsOf body) (bodies.stmts body)
  return bodies.setStmts body stmts

def applyEach (splices : Splices) : List BodyId → Bodies → Bodies × Option Failure
  | [], bodies => (bodies, none)
  | body :: rest, bodies =>
    match splices.applyTo body bodies with
    | .ok bodies => splices.applyEach rest bodies
    | .error failure => (bodies, some failure)

/-- Puts all groups in. On a failure the bodies before the one that failed keep their groups. -/
def apply (splices : Splices) (bodies : Bodies) : Bodies × Option Failure :=
  splices.applyEach splices.bodiesWaiting bodies

end Splices

end HeapScript
