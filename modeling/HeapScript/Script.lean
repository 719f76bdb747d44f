import HeapScript.Assembly.Roots
import HeapScript.Syntax.Printer

/-!
The script that rebuilds a heap.

`materialize` writes the values of a heap graph, defines its functions and puts the parts together;
`Script.text` prints the result.
-/

namespace HeapScript

def scriptLanguage : String := "javascript"

structure Script where
  directives : List String
  /-- Helpers for captured scopes, factories, optimized roots and the filling of lazy objects. -/
  prelude : List Stmt
  body : List Stmt
  /-- Whether the script is wrapped in a function that is called at once. -/
  wrap : Bool
  report : Report

namespace Script

def stmts (script : Script) : List Stmt := script.prelude ++ script.body

def wrapped (directives : List String) (stmts : List Stmt) : Stmt :=
  .expr (.methodCall (.function { body := stmts, directives }) "call" [.thisRef])

def text (script : Script) : String :=
  if script.wrap then scriptText [] [wrapped script.directives script.stmts]
  else scriptText script.directives script.stmts

end Script

/-! ## Lazy objects -/

def lazyInitializer (cases : List SwitchCase) : FunctionDef :=
  { params := [.plain Session.lazyParam, .plain "id"]
    body := [.switch (.var "id") cases (some [.throwMessage "Unknown lazy id"])] }

def lazyCase (bodies : Bodies) (entry : ValueId × LazyObject) : Except Failure SwitchCase :=
  match entry.2.body with
  | some body => .ok { test := .nat entry.2.number, body := bodies.stmts body ++ [.breakLoop] }
  | none => .error (.noInitializer entry.1)

def lazyRegistration (settings : LazySettings) (cases : List SwitchCase) : List Stmt := [
  .var "__lazyObjectInitializer" (.function (lazyInitializer cases)),
  .expr (.methodCall (.path settings.runtime) "setLazyObjectInitializer"
    [.var "__lazyObjectInitializer"])]

def lazyPrelude (session : Session) (settings : Option LazySettings) :
    Except Failure (List Stmt) := do
  match settings, session.lazyObjects.entries with
  | none, _ | _, [] => return []
  | some settings, entries =>
    return lazyRegistration settings (← entries.mapM (lazyCase session.bodies))

def withoutLazyBodies (session : Session) : Bodies :=
  (session.lazyObjects.values.filterMap (·.body)).foldl
    (fun bodies body => bodies.setStmts body []) session.bodies

/-! ## The whole run -/

def writeHeap (context : Context) : Except Failure Written := do
  let write : SessionM (List RootRecord) := do
    Session.writeEffects context
    Session.writeRoots context
  let (roots, session) ← write.run (Session.initial context)
  return { context, session, roots }

/-- Fails unless every value is complete and the cursor is back at the top level. -/
def checkFinished (session : Session) : Except Failure Unit := do
  unless session.bodies.entered.isEmpty do
    throw (.bodiesLeftOpen session.bodies.entered.length)
  unless session.inProgress.isEmpty && session.deferred.isEmpty do throw .valuesUnfinished

def materialize (graph : HeapGraph) (settings : Settings) : Except Failure Script := do
  let context ← Context.prepare graph settings
  let written ← writeHeap context
  let session := written.session
  let lazyStmts ← lazyPrelude session settings.lazyObjects
  let (prelude, assembly) ← (Assembly.assemble written).run { bodies := withoutLazyBodies session }
  checkFinished session
  return {
    directives := if settings.strict then ["use strict"] else []
    prelude := prelude ++ lazyStmts
    body := assembly.bodies.stmts Bodies.global
    wrap := settings.wrap
    report := { assembly.report with
      lazyObjects := session.lazyObjects.size
      capturedScopes := session.captured.size } }

end HeapScript
