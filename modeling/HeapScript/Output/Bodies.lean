import HeapScript.Failure
import HeapScript.Syntax.Basic

/-!
The bodies of the script that is being written, and the cursor.

Bodies are lists of statements that only grow at their ends while values are written. They form a
tree under the global body. The cursor is a stack of entered bodies above the global one.
-/

namespace HeapScript

inductive BodyKind where
  | global
  | root (function : ValueId)
  | lazyInitializer (object : ValueId)
  | delayedInit (function : ValueId)
deriving DecidableEq, Repr, Inhabited

def BodyKind.declaresValues : BodyKind → Bool
  | .global | .root _ => true
  | _ => false

structure Body where
  kind : BodyKind
  parent : Option BodyId
  stmts : List Stmt := []
deriving Inhabited

structure Position where
  body : BodyId
  index : Nat
deriving DecidableEq, Repr

def Position.isNotEarlierThan (later earlier : Position) : Bool :=
  later.body == earlier.body && earlier.index ≤ later.index

structure Bodies where
  arena : Arena .body Body
  entered : List BodyId
deriving Inhabited

namespace Bodies

def global : BodyId := ⟨0⟩

def initial : Bodies :=
  { arena := .ofList [{ kind := .global, parent := none }], entered := [] }

/-! ## The tree -/

def newBody (bodies : Bodies) (kind : BodyKind) (parent : BodyId) : BodyId × Bodies :=
  (bodies.arena.next, { bodies with arena := bodies.arena.push { kind, parent := some parent } })

def kind (bodies : Bodies) (id : BodyId) : BodyKind :=
  ((bodies.arena.get? id).map (·.kind)).getD .global

def parent? (bodies : Bodies) (id : BodyId) : Option BodyId :=
  (bodies.arena.get? id).bind (·.parent)

def lineFrom (bodies : Bodies) : (fuel : Nat) → BodyId → List BodyId
  | 0, id => [id]
  | fuel + 1, id =>
    id :: match bodies.parent? id with
      | some parent => bodies.lineFrom fuel parent
      | none => []

/-- A body and all bodies around it, from the inside out. A line that does not return to a body
has at most as many steps as there are bodies. -/
def line (bodies : Bodies) (id : BodyId) : List BodyId :=
  bodies.lineFrom bodies.arena.size id

def isWithin (bodies : Bodies) (id ancestor : BodyId) : Bool :=
  (bodies.line id).contains ancestor

def declarationBodyOf (bodies : Bodies) (id : BodyId) : BodyId :=
  ((bodies.line id).find? fun body => (bodies.kind body).declaresValues).getD global

/-! ## The cursor -/

def current (bodies : Bodies) : BodyId := bodies.entered.headD global

def depth (bodies : Bodies) : Nat := bodies.entered.length + 1

def enter (bodies : Bodies) (id : BodyId) : Bodies :=
  { bodies with entered := id :: bodies.entered }

/-- Leaves the body that was entered last; the global body cannot be left. -/
def leave (bodies : Bodies) : Except Failure (BodyId × Bodies) :=
  match bodies.entered with
  | [] => .error .cursorUnderflow
  | id :: entered => .ok (id, { bodies with entered })

def currentIsWithin (bodies : Bodies) (ancestor : BodyId) : Bool :=
  bodies.isWithin bodies.current ancestor

def declarationBody (bodies : Bodies) : BodyId :=
  bodies.declarationBodyOf bodies.current

/-! ## Statements -/

def stmts (bodies : Bodies) (id : BodyId) : List Stmt :=
  ((bodies.arena.get? id).map (·.stmts)).getD []

def setStmts (bodies : Bodies) (id : BodyId) (stmts : List Stmt) : Bodies :=
  { bodies with arena := bodies.arena.modify id fun body => { body with stmts } }

def emitInto (bodies : Bodies) (id : BodyId) (stmt : Stmt) : Bodies :=
  { bodies with
    arena := bodies.arena.modify id fun body => { body with stmts := body.stmts ++ [stmt] } }

def emit (bodies : Bodies) (stmt : Stmt) : Bodies :=
  bodies.emitInto bodies.current stmt

def endOf (bodies : Bodies) (id : BodyId) : Position :=
  { body := id, index := (bodies.stmts id).length }

def position (bodies : Bodies) : Position :=
  bodies.endOf bodies.current

def take (bodies : Bodies) (id : BodyId) : List Stmt × Bodies :=
  (bodies.stmts id, bodies.setStmts id [])

end Bodies

end HeapScript
