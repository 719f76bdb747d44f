import HeapScript.Table.Handle
import HeapScript.Text.Quoted

/-!
The reasons for which a heap graph is refused or a script cannot be written.
-/

namespace HeapScript

inductive FailureKind where
  | unsupported
  | invalidGraph
  /-- A fact that an earlier step should have established is missing. -/
  | internal
deriving DecidableEq, Repr

/-- The part of a graph that holds a reference. -/
inductive Referrer where
  | value (id : ValueId)
  | scope (id : ScopeId)
  | effect
  | root (function : ValueId)
  | moduleReplacement (name : String)
deriving DecidableEq, Repr

def Referrer.text : Referrer → String
  | .value id => s!"value v{id}"
  | .scope id => s!"scope s{id}"
  | .effect => "effect"
  | .root function => s!"optimized root v{function}"
  | .moduleReplacement name => "module replacement " ++ Text.quoted name

inductive Failure where
  -- Graphs that are not closed
  | missingValue (referrer : Referrer) (id : ValueId)
  | missingScope (referrer : Referrer) (id : ScopeId)
  | missingCode (referrer : Referrer) (id : CodeId)
  | delayTargetNotFunction (object target : ValueId)
  | rootNotFunction (function : ValueId)
  | parentNotRoot (function parent : ValueId)
  -- Graphs that cannot be written
  | patternNotForwarded (function : ValueId)
  | definitionAfterRoot (body : BodyId)
  -- Lookups
  | unknownValue (id : ValueId)
  | unknownCode (id : CodeId)
  | unknownScope (id : ScopeId)
  -- Bodies
  | cursorUnderflow
  | bodiesLeftOpen (count : Nat)
  | insertionPastEnd (index : Nat) (body : BodyId) (size : Nat)
  -- Captured scopes and bindings
  | scopeWithoutSelector (scope : ScopeId)
  | directValueForSlot (scope : ScopeId) (name : String)
  | unknownBinding (scope : ScopeId) (name : String)
  | undeclaredName (scope : ScopeId) (name : String)
  | lostBinding (function : ValueId) (name : String)
  | scopeNotCaptured (scope : ScopeId) (function : ValueId)
  | unresolvedBinding (function : ValueId) (name : String)
  -- Values under construction
  | valuesUnfinished
  | noIdentifier (id : ValueId)
  | escapesRoot (id : ValueId)
  | prototypeNotObject (id : ValueId)
  | nestedTooDeeply (id : ValueId)
  -- Lazy objects
  | noLazyNumber (id : ValueId)
  | noInitializer (id : ValueId)
  -- Functions, classes and roots
  | noFacts (code : CodeId)
  | notInstance (id : ValueId)
  | noInsertionPoint (function : ValueId)
  | classNeverDefined (prototype : ValueId)
  | classWithoutConstructor (prototype : ValueId)
  | rootWithoutBody (function : ValueId)
deriving DecidableEq, Repr

namespace Failure

def kind : Failure → FailureKind
  | missingValue .. | missingScope .. | missingCode .. | delayTargetNotFunction ..
  | rootNotFunction .. | parentNotRoot .. => .invalidGraph
  | patternNotForwarded .. | definitionAfterRoot .. => .unsupported
  | _ => .internal

def detail : Failure → String
  | missingValue referrer id => referrer.text ++ s!" references missing value v{id}"
  | missingScope referrer id => referrer.text ++ s!" references missing scope s{id}"
  | missingCode referrer id => referrer.text ++ s!" references missing code block c{id}"
  | delayTargetNotFunction object target =>
    s!"value v{object} is delayed into v{target}, which is not a function"
  | rootNotFunction function => s!"optimized root v{function} is not a function"
  | parentNotRoot function parent =>
    s!"optimized root v{function} is nested in v{parent}, which is not an optimized root"
  | patternNotForwarded function =>
    s!"destructuring parameter on function v{function} cannot be forwarded"
  | definitionAfterRoot body =>
    s!"definition needed in body {body} after its optimized root was built"
  | unknownValue id => s!"unknown value v{id}"
  | unknownCode id => s!"unknown code block c{id}"
  | unknownScope id => s!"unknown scope s{id}"
  | cursorUnderflow => "emitter stack underflow"
  | bodiesLeftOpen count => s!"emitter left {count} bodies open"
  | insertionPastEnd index body size =>
    s!"insertion point {index} is past the end of body {body} ({size} statements)"
  | scopeWithoutSelector scope => s!"scope s{scope} is not referentialized"
  | directValueForSlot scope name =>
    s!"binding {name} of scope s{scope} is referentialized and cannot take a direct value"
  | unknownBinding scope name => s!"no binding {name} in scope s{scope}"
  | undeclaredName scope name => s!"scope s{scope} does not declare {name}"
  | lostBinding function name => s!"function v{function} lost its binding {name}"
  | scopeNotCaptured scope function => s!"scope s{scope} is not captured by function v{function}"
  | unresolvedBinding function name => s!"binding {name} of function v{function} was never resolved"
  | valuesUnfinished => "values left under construction"
  | noIdentifier id => s!"value v{id} has no identifier"
  | escapesRoot id =>
    s!"value v{id} is declared inside an optimized root and referenced outside it"
  | prototypeNotObject id => s!"prototype alias v{id} is not an object"
  | nestedTooDeeply id => s!"construction of value v{id} is nested too deeply"
  | noLazyNumber id => s!"v{id} has no lazy id"
  | noInitializer id => s!"lazy object v{id} has no initializer body"
  | noFacts code => s!"code block c{code} has no function info"
  | notInstance id => s!"v{id} is not a function instance"
  | noInsertionPoint function => s!"function v{function} has no insertion point"
  | classNeverDefined prototype => s!"class with prototype v{prototype} was never defined"
  | classWithoutConstructor prototype => s!"class with prototype v{prototype} has no constructor"
  | rootWithoutBody function => s!"optimized root v{function} has no body"

def message (failure : Failure) : String :=
  (match failure.kind with
    | .unsupported => "unsupported input: "
    | .invalidGraph => "invalid heap graph: "
    | .internal => "internal invariant violated: ") ++ failure.detail

end Failure

end HeapScript
