import HeapScript.Proofs.Output.CapturedScopes
import HeapScript.Proofs.Session.Growth
import HeapScript.Proofs.Syntax.References

/-!
What the steps of a session do to captured bindings.

A binding that is assigned after its capture is kept in a shared variable or in a slot from the
moment when it is met. Any other binding is replaced by an expression for its value, once the value
has been visited.
-/

namespace HeapScript

/-- The optimized root that keeps the array of a captured scope. -/
def Context.ownerOf (context : Context) (scope : Scope) : ScopeOwner :=
  scope.root.filter fun root => (context.graph.root? root).isSome

namespace Session

variable {id : ValueId} {expr : Expr}

/-- The expression for a value wherever values are declared. -/
inductive Denotes (context : Context) (session : Session) (id : ValueId) : Expr → Prop where
  | primitive {constant : Constant}
      (isPrimitive : context.graph.values.get? id = some (.primitive constant)) :
      Denotes context session id (.literal constant)
  | known {object : ObjectValue} {path : String}
      (isObject : context.graph.values.get? id = some (.object object))
      (isKnown : object.knownPath = some path) : Denotes context session id (.path path)
  | named {name : String} (isBuilt : context.IsBuilt id)
      (named : session.identifiers.get? id = some name) : Denotes context session id (.var name)

variable {context : Context} {before after session : Session}

theorem Denotes.of_extends (denotes : before.Denotes context id expr)
    (extends_ : Extends before after) : after.Denotes context id expr := by
  cases denotes with
  | primitive isPrimitive => exact .primitive isPrimitive
  | known isObject isKnown => exact .known isObject isKnown
  | named isBuilt named => exact .named isBuilt (extends_.identifiers id _ named)

theorem Denotes.unique {other : Expr} (denotes : session.Denotes context id expr)
    (denotes' : session.Denotes context id other) : expr = other := by
  cases denotes with
  | primitive isPrimitive =>
    cases denotes' with
    | primitive isPrimitive' => simp_all
    | known isObject isKnown => simp_all
    | named isBuilt named => simp [Context.IsBuilt, isPrimitive] at isBuilt
  | known isObject isKnown =>
    cases denotes' with
    | primitive isPrimitive => simp_all
    | known isObject' isKnown' => simp_all
    | named isBuilt named => simp [Context.IsBuilt, isObject, isKnown] at isBuilt
  | named isBuilt named =>
    cases denotes' with
    | primitive isPrimitive => simp [Context.IsBuilt, isPrimitive] at isBuilt
    | known isObject isKnown => simp [Context.IsBuilt, isObject, isKnown] at isBuilt
    | named isBuilt' named' => rw [Option.some.inj (named.symm.trans named')]

theorem Denotes.isReference (denotes : session.Denotes context id expr) : expr.IsReference := by
  cases denotes with
  | primitive _ => exact .literal _
  | known _ _ => exact .chain (Expr.isChain_path _)
  | named _ _ => exact .chain (.var _)

theorem Refers.isReference {body : BodyId} (refers : session.Refers context body id expr) :
    expr.IsReference := by
  cases refers with
  | primitive _ => exact .literal _
  | known _ _ => exact .chain (Expr.isChain_path _)
  | named _ _ _ _ | filled _ _ _ _ => exact .chain (.var _)

/-- Where values are declared, a reference is the expression that denotes the value. -/
theorem Refers.denotes (refers : session.Refers context session.bodies.current id expr)
    (valid : session.Valid context) (declares : session.AtDeclarations) :
    session.Denotes context id expr := by
  cases refers with
  | primitive isPrimitive => exact .primitive isPrimitive
  | known isObject isKnown => exact .known isObject isKnown
  | named isBuilt named _ _ => exact .named isBuilt named
  | filled _ _ isLazy inside =>
    simp [valid.outside_lazy declares _ isLazy] at inside

/-! ## Changes of bindings -/

inductive BindingChange (context : Context) (before after : Session) (key : BindingKey) :
    Binding → Prop where
  | meet {scope : Scope} (isScope : context.graph.scopes.get? key.scope = some scope)
      (declared : scope.declares key.name = true) (constant : key ∉ context.modified) :
      BindingChange context before after key
        { key, value := context.graph.boundValue? key.scope key.name }
  | bake {binding : Binding} {expr : Expr} {pending : Bool}
      (isMet : before.bindings.get? key = some binding)
      (undecided : binding.storage = .undecided)
      (denotes : ∀ value, binding.value = some value → before.Denotes context value expr)
      (noValue : binding.value = none → expr = .undefined) :
      BindingChange context before after key { binding with pending, storage := .direct expr }
  | share {scope : Scope} (isScope : context.graph.scopes.get? key.scope = some scope)
      (declared : scope.declares key.name = true) (modified : key ∈ context.modified)
      (simple : context.settings.simpleClosures = true)
      (counted : after.sharedCaptures = before.sharedCaptures + 1) :
      BindingChange context before after key
        { key, value := context.graph.boundValue? key.scope key.name
          storage := .shared (sharedName before.sharedCaptures) }
  | keepInSlot {scope : Scope} (isScope : context.graph.scopes.get? key.scope = some scope)
      (declared : scope.declares key.name = true) (modified : key ∈ context.modified)
      (notSimple : context.settings.simpleClosures = false)
      (captured : ∃ found, after.captured.scopes.get? key.scope = some found) :
      BindingChange context before after key
        { key, value := context.graph.boundValue? key.scope key.name, storage := .slot }

theorem Step.bindings_cases (step : Step context before after) (valid : before.Valid context) :
    after.bindings = before.bindings ∨
      ∃ key later, after.bindings = before.bindings.insert key later ∧
        BindingChange context before after key later := by
  cases step
  case meet scope key isNew isScope declared constant =>
      exact .inr ⟨key, _, rfl, .meet isScope declared constant⟩
  case bake key binding expr isMet undecided refers noValue declares =>
      exact .inr ⟨key, _, rfl, .bake isMet undecided
        (fun value isValue => (refers value isValue).denotes valid declares) noValue⟩
  case share scope key isNew isScope declared modified simple =>
      exact .inr ⟨key, _, rfl, .share isScope declared modified simple rfl⟩
  case keepInSlot scope key isNew isScope declared modified notSimple =>
      exact .inr ⟨key, _, rfl, .keepInSlot isScope declared modified notSimple
        ⟨_, (CapturedScopes.get?_capture _ _ _ _ _).trans (if_pos rfl)⟩⟩
  case declareReached | constructDelayed =>
      cases ‹Option (ValueId × Expr)› <;> exact .inl rfl
  case reachDelayed => exact .inl (bindings_delaying _ _)
  case reachAlias =>
      unfold reachingAlias
      split <;> exact .inl rfl
  all_goals exact .inl rfl

/-! ## Captured scopes -/

inductive CapturedChange (context : Context) (session : Session) : CapturedScopes → Prop where
  | same : CapturedChange context session session.captured
  | capture {id : ScopeId} {scope : Scope} (isScope : context.graph.scopes.get? id = some scope) :
      CapturedChange context session
        (session.captured.capture id (context.ownerOf scope) scope.bindings.size)
  | fill (id : ScopeId) (slot : Nat) {value : Expr} (declares : session.AtDeclarations)
      (isValue : value = .undefined ∨
        ∃ id, session.Refers context session.bodies.current id value) :
      CapturedChange context session { session.captured with
        scopes := session.captured.scopes.modify id fun found =>
          { found with slots := found.slots.insert slot value } }

theorem Step.captured_cases (step : Step context before after) :
    CapturedChange context before after.captured := by
  cases step
  case keepInSlot scope key isNew isScope declared modified notSimple => exact .capture isScope
  case fillSlot key scope slot expr isScope isSlot refers noValue declares =>
      refine .fill key.scope slot declares ?_
      cases isValue : context.graph.boundValue? key.scope key.name with
      | none => exact .inl (noValue isValue)
      | some value => exact .inr ⟨value, refers value isValue⟩
  case declareReached | constructDelayed =>
      cases ‹Option (ValueId × Expr)› <;> exact .same
  case reachDelayed id function object body constructs isDelayed isNew declares home isOpen
      isBody =>
      have same : (before.reachingDelayed id function body).captured = before.captured :=
        captured_delaying _ _
      rw [same]
      exact .same
  case reachAlias =>
      unfold reachingAlias
      split <;> exact .same
  all_goals exact .same

end Session

end HeapScript
