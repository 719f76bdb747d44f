import HeapScript.Proofs.Script.Properties

/-!
How the objects of a script get their prototypes and their locks.

An object that the script constructs gets its prototype once: it is created from the prototype, or
linked to it afterwards. The lock of an object comes after all other statements about it, except for
a link that has waited for the prototype.
-/

namespace HeapScript

open List

/-! ## Prototypes -/

/-- Whether the statement gives the value its prototype. -/
def Purpose.inherits (id : ValueId) : Purpose → Bool
  | .declared other .fromPrototype | .created other .fromPrototype | .link other => other = id
  | _ => false

/-- The prototype of an object that the script constructs. The `prototype` of a function is not
constructed. -/
def Context.linked? (context : Context) (id : ValueId) : Option ValueId :=
  match context.graph.values.get? id, context.prototypeOwners.get? id with
  | some (.object object), none => object.prototype
  | _, _ => none

/-- A statement of a body gives a value its prototype. -/
inductive Session.Inherits (context : Context) (session : Session) (body : BodyId)
    (id prototype : ValueId) : Stmt → Prop where
  | declared {name : String} {expr : Expr} (named : session.identifiers.get? id = some name)
      (refers : session.Refers context body prototype expr) :
      Inherits context session body id prototype
        (.var name (.methodCall (.var "Object") "create" [expr]))
  | created {name : String} {expr : Expr} (named : session.identifiers.get? id = some name)
      (refers : session.Refers context body prototype expr) :
      Inherits context session body id prototype
        (.assign (.var name) (.methodCall (.var "Object") "create" [expr]))
  | linked {target expr : Expr} (refersTarget : session.Refers context body id target)
      (refers : session.Refers context body prototype expr) :
      Inherits context session body id prototype (setPrototypeOf target expr)

variable {context : Context} {id : ValueId} {entries : List Entry}

theorem Session.Serves.inherits {session : Session} {body : BodyId} {purpose : Purpose}
    {stmt : Stmt} {prototype : ValueId} (serves : session.Serves context body purpose stmt)
    (inherits : purpose.inherits id = true) (isLinked : context.linked? id = some prototype) :
    session.Inherits context body id prototype stmt := by
  have same : ∀ {object : ObjectValue} {other : ValueId},
      context.graph.values.get? id = some (.object object) → object.prototype = some other →
      other = prototype := by
    intro object other isObject isPrototype
    unfold Context.linked? at isLinked
    split at isLinked <;> simp_all
  cases serves with
  | declared named creates =>
    cases creates <;> simp only [Purpose.inherits, decide_eq_true_eq, Bool.false_eq_true]
      at inherits
    subst inherits
    obtain rfl := same ‹_› ‹_›
    exact .declared named ‹_›
  | created named refersTarget creates =>
    cases creates <;> simp only [Purpose.inherits, decide_eq_true_eq, Bool.false_eq_true]
      at inherits
    subst inherits
    obtain rfl := same ‹_› ‹_›
    exact .created named ‹_›
  | link isObject isPrototype refersTarget refers =>
    simp only [Purpose.inherits, decide_eq_true_eq] at inherits
    subst inherits
    obtain rfl := same isObject isPrototype
    exact .linked refersTarget refers
  | _ => cases inherits

namespace Context

end Context

/-! ## Scripts -/

end HeapScript
