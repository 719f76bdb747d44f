import HeapScript.Proofs.Script.FactoryOrder
import HeapScript.Proofs.Script.Failures

/-!
The order of optimized roots.

Outer roots are written first, so that inner ones find the bodies around them. Inner roots are built
first, so that outer ones find their definitions. Roots whose parents form a cycle have no such
order, and no script is made of them.
-/

namespace HeapScript

open List Runs

variable {written : Written} {parent : ValueId} {record : RootRecord} {records : List RootRecord}

/-! ## Definitions of roots -/

namespace Assembly

variable {before after : Assembly}

end Assembly

end HeapScript
