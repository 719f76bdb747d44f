import HeapScript.Syntax.Basic

/-!
Expressions that refer to values: literals, variables, member paths and slots of arrays.
-/

namespace HeapScript

namespace Expr

/-- Whether two references to values are the same expression, number literals being compared as
numbers. Other expressions do not count as references and are never the same. -/
def sameReference : Expr → Expr → Bool
  | .literal left, .literal right => left.same right
  | .var left, .var right => left == right
  | .member holder field, .member holder' field' => holder.sameReference holder' && field == field'
  | .index collection position, .index collection' position' =>
    collection.sameReference collection' && position.sameReference position'
  | _, _ => false

end Expr

end HeapScript
