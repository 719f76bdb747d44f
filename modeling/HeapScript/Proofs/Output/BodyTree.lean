import HeapScript.Proofs.Output.Bodies
import Mathlib.Data.List.Induction
import Mathlib.Logic.Relation

/-!
What every sequence of requests keeps: bodies form a tree, and the cursor finds back.

A new body is younger than the body around it, so every line of bodies ends at the global one. What
is read off that line are the bodies around a body and the nearest one that declares values. The
cursor leaves the body that was entered last and has not been left since (`serveAll_keepsTree`).
-/

namespace HeapScript

open List Relation

namespace Bodies

variable {bodies later : Bodies} {id other : BodyId}

/-- What is asked of the bodies of a script. -/
inductive Request where
  | newBody (kind : BodyKind) (parent : BodyId)
  | enter (id : BodyId)
  | leave
  | emit (stmt : Stmt)
  | emitInto (id : BodyId) (stmt : Stmt)
  | take (id : BodyId)

def Request.Fits (bodies : Bodies) : Request → Prop
  | .newBody _ id | .enter id | .emitInto id _ | .take id => bodies.Has id
  | .leave | .emit _ => True

/-- A request to leave the global body is refused and changes nothing. -/
def serve (bodies : Bodies) : Request → Bodies
  | .newBody kind parent => (bodies.newBody kind parent).2
  | .enter id => bodies.enter id
  | .leave =>
    match bodies.leave with
    | .ok (_, later) => later
    | .error _ => bodies
  | .emit stmt => bodies.emit stmt
  | .emitInto id stmt => bodies.emitInto id stmt
  | .take id => (bodies.take id).2

def serveAll (bodies : Bodies) : List Request → Bodies := foldl serve bodies

def AllFit (bodies : Bodies) : List Request → Prop
  | [] => True
  | request :: requests => request.Fits bodies ∧ (bodies.serve request).AllFit requests

/-! ## The tree -/

def LiesIn (bodies : Bodies) (id parent : BodyId) : Prop := bodies.parent? id = some parent

namespace Rooted

theorem initial : Bodies.initial.Rooted where
  present := Nat.zero_lt_one
  isGlobal := rfl
  atTop := rfl
  older := by
    rintro ⟨index⟩ present inner
    obtain rfl : index = 0 := Nat.lt_one_iff.mp present
    exact absurd rfl inner

theorem of_same (rooted : bodies.Rooted) (size : later.arena.size = bodies.arena.size)
    (kinds : later.kind = bodies.kind) (parents : later.parent? = bodies.parent?) :
    later.Rooted := by
  obtain ⟨present, isGlobal, atTop, older⟩ := rooted
  constructor <;> simp only [Has, size, kinds, parents] <;> assumption

/-- A change to the statements of a body leaves the tree as it is. -/
theorem modify (rooted : bodies.Rooted) (id : BodyId) (change : List Stmt → List Stmt) :
    Rooted { bodies with arena := bodies.arena.modify id fun body =>
      { body with stmts := change body.stmts } } := by
  refine rooted.of_same (Arena.size_modify _ _ _) ?_ ?_ <;> funext other <;>
    by_cases same : id = other <;>
    simp [Bodies.kind, parent?, Arena.get?_modify, same, Option.map_map, Function.comp_def,
      Option.bind_map]

theorem newBody (rooted : bodies.Rooted) (kind : BodyKind) {parent : BodyId}
    (present : bodies.Has parent) : (bodies.newBody kind parent).2.Rooted := by
  have grows := (Grows.refl bodies).newBody kind parent
  refine ⟨grows.has rooted.present, (grows.kind_eq rooted.present).trans rooted.isGlobal,
    (grows.parent?_eq rooted.present).trans rooted.atTop, fun id bound inner => ?_⟩
  by_cases old : bodies.Has id
  · rw [grows.parent?_eq old]
    exact rooted.older id old inner
  · have isNew : id = bodies.arena.next := by
      obtain ⟨index⟩ := id
      simp only [Has, size_newBody] at bound old
      simp only [Arena.next, Handle.mk.injEq]
      omega
    exact ⟨parent, by simp [parent?, get?_newBody, isNew], isNew ▸ present⟩

theorem serve (rooted : bodies.Rooted) {request : Request} (fits : request.Fits bodies) :
    (bodies.serve request).Rooted := by
  cases request with
  | newBody kind parent => exact rooted.newBody kind fits
  | enter id => exact rooted.of_same rfl rfl rfl
  | leave =>
    simp only [Bodies.serve, leave]
    cases bodies.entered with
    | nil => exact rooted
    | cons id outer => exact rooted.of_same rfl rfl rfl
  | emit stmt => exact rooted.modify bodies.current (· ++ [stmt])
  | emitInto id stmt => exact rooted.modify id (· ++ [stmt])
  | take id => exact rooted.modify id fun _ => []

theorem serveAll (rooted : bodies.Rooted) {requests : List Request} (fit : bodies.AllFit requests) :
    (bodies.serveAll requests).Rooted := by
  induction requests generalizing bodies with
  | nil => exact rooted
  | cons request requests induction => exact induction (rooted.serve fit.1) fit.2

section

variable (rooted : bodies.Rooted)

include rooted

theorem inwards {motive : BodyId → Prop}
    (step : ∀ id, (∀ parent, bodies.LiesIn id parent → motive parent) → motive id)
    (id : BodyId) : motive id := by
  induction same : id.index using Nat.strongRecOn generalizing id with
  | _ index induction =>
    subst same
    exact step id fun parent around => induction _ (rooted.of_parent? around).2.2 parent rfl

theorem isWithin_iff : bodies.isWithin id other = true ↔ ReflTransGen bodies.LiesIn id other := by
  induction id using rooted.inwards with
  | _ id induction =>
    rw [isWithin, rooted.line_eq, contains_iff_mem, mem_cons, ReflTransGen.cases_head_iff, eq_comm]
    refine or_congr_right ?_
    cases around : bodies.parent? id with
    | none => simp [LiesIn, around]
    | some parent => simpa [LiesIn, around, isWithin] using induction parent around

theorem within_global (present : bodies.Has id) : ReflTransGen bodies.LiesIn id global := by
  induction id using rooted.inwards with
  | _ id induction =>
    by_cases inner : id = Bodies.global
    · exact inner ▸ .refl
    · obtain ⟨parent, around, older⟩ := rooted.older id present inner
      exact .head around (induction parent around (Nat.lt_trans older present))

theorem index_le (within : ReflTransGen bodies.LiesIn id other) : other.index ≤ id.index := by
  induction within with
  | refl => exact Nat.le_refl _
  | tail _ around induction =>
    exact Nat.le_trans (Nat.le_of_lt (rooted.of_parent? around).2.2) induction

theorem declarationBodyOf_nearest (present : bodies.Has id) :
    ReflTransGen bodies.LiesIn id (bodies.declarationBodyOf id) ∧
      (bodies.kind (bodies.declarationBodyOf id)).declaresValues = true ∧
      ∀ other, ReflTransGen bodies.LiesIn id other → (bodies.kind other).declaresValues = true →
        ReflTransGen bodies.LiesIn (bodies.declarationBodyOf id) other := by
  induction id using rooted.inwards with
  | _ id induction =>
    cases declares : (bodies.kind id).declaresValues with
    | true =>
      have same : bodies.declarationBodyOf id = id := by
        simp [declarationBodyOf, rooted.line_eq, declares]
      rw [same]
      exact ⟨.refl, declares, fun other within _ => within⟩
    | false =>
      have inner : id ≠ Bodies.global := by
        rintro rfl
        simp [rooted.isGlobal, BodyKind.declaresValues] at declares
      obtain ⟨parent, around, older⟩ := rooted.older id present inner
      have same : bodies.declarationBodyOf id = bodies.declarationBodyOf parent := by
        simp [declarationBodyOf, rooted.line_eq id, declares, around]
      obtain ⟨within, declares', nearest⟩ := induction parent around (Nat.lt_trans older present)
      rw [same]
      refine ⟨.head around within, declares', fun other isAround isDeclaring => ?_⟩
      rcases ReflTransGen.cases_head isAround with rfl | ⟨next, isNext, outer⟩
      · simp [declares] at isDeclaring
      · obtain rfl := Option.mem_unique around isNext
        exact nearest other outer isDeclaring

end

end Rooted

/-! ## The cursor -/

/-- The bodies that the cursor is in, the innermost one first. The global body is not among the
entered ones, as it is never left; here it stands below them. -/
def stack (bodies : Bodies) : List BodyId := bodies.entered ++ [global]

/-- All bodies that are entered upon these requests are left again, and no others. -/
inductive Balanced : List Request → Prop where
  | nil : Balanced []
  | stay {request : Request} {requests : List Request} (balanced : Balanced requests)
      (stays : ∀ bodies : Bodies, (bodies.serve request).entered = bodies.entered) :
      Balanced (request :: requests)
  | visit (id : BodyId) {inner requests : List Request} (within : Balanced inner)
      (after : Balanced requests) : Balanced (.enter id :: (inner ++ .leave :: requests))

/-- The last of the given bodies was entered first, and none has been left since. -/
inductive Entered : List Request → List BodyId → Prop where
  | none (requests : List Request) : Entered requests []
  | enter (id : BodyId) {before between : List Request}
      (entered : Entered before (initial.serveAll before).entered) (balanced : Balanced between) :
      Entered (before ++ .enter id :: between) (id :: (initial.serveAll before).entered)

theorem Balanced.append {first second : List Request} (balanced : Balanced first)
    (balanced' : Balanced second) : Balanced (first ++ second) := by
  induction balanced with
  | nil => exact balanced'
  | stay _ stays induction => exact .stay induction stays
  | visit id within _ _ induction => simpa using Balanced.visit id within induction

theorem Entered.append {requests more : List Request} {ids : List BodyId}
    (entered : Entered requests ids) (balanced : Balanced more) :
    Entered (requests ++ more) ids := by
  cases entered with
  | none => exact .none _
  | enter id entered between => simpa using Entered.enter id entered (between.append balanced)

theorem entered_serveAll (requests : List Request) :
    Entered requests (initial.serveAll requests).entered := by
  induction requests using List.reverseRecOn with
  | nil => exact .none []
  | append_singleton requests request entered =>
    have last : initial.serveAll (requests ++ [request]) =
        (initial.serveAll requests).serve request := foldl_append ..
    rw [last]
    cases request with
    | enter id => exact .enter id entered .nil
    | leave =>
      simp only [serve, leave]
      generalize ids : (initial.serveAll requests).entered = entered' at entered
      cases entered with
      | none => simpa [ids] using Entered.none _
      | enter id entered balanced => simpa using entered.append (.visit id balanced .nil)
    | _ => exact entered.append (.stay .nil fun _ => rfl)

def IsDeclarationBody (bodies : Bodies) (id outer : BodyId) : Prop :=
  bodies.isWithin id outer = true ∧ (bodies.kind outer).declaresValues = true ∧
    ∀ other, bodies.isWithin id other = true → (bodies.kind other).declaresValues = true →
      bodies.isWithin outer other = true

/-- Bodies form a tree, and the cursor finds back. All bodies but the global one lie in older ones;
to be within a body is to lie in it directly or through others, which orders the bodies under the
global one. Leaving fails only at the global body, and otherwise goes back to where the cursor was
before the last body was entered that has not been left since. -/
theorem serveAll_keepsTree (requests : List Request) (fit : initial.AllFit requests) :
    let bodies := initial.serveAll requests
    (bodies.parent? global = none ∧ ∀ id, bodies.Has id → id ≠ global →
      ∃ parent, bodies.parent? id = some parent ∧ parent.index < id.index) ∧
    (∀ id other, bodies.isWithin id other = true ↔ ReflTransGen bodies.LiesIn id other) ∧
    (∀ id other, bodies.isWithin id other = true → bodies.isWithin other id = true → id = other) ∧
    (∀ id, bodies.Has id →
      bodies.isWithin id global = true ∧
        bodies.IsDeclarationBody id (bodies.declarationBodyOf id)) ∧
    (bodies.stack.getLast? = some global ∧ bodies.stack.head? = some bodies.current ∧
      bodies.stack.length = bodies.depth) ∧
    (bodies.leave = .error .cursorUnderflow ∧ bodies.serve .leave = bodies ↔
      bodies.stack = [global]) ∧
    (bodies.stack ≠ [global] → ∃ before id between, requests = before ++ .enter id :: between ∧
      Balanced between ∧
      bodies.leave = .ok (id, { bodies with entered := (initial.serveAll before).entered })) := by
  intro bodies
  have rooted : bodies.Rooted := Rooted.initial.serveAll fit
  refine ⟨⟨rooted.atTop, rooted.older⟩, fun _ _ => rooted.isWithin_iff, ?_, ?_, ?_, ?_, ?_⟩
  · intro id other within within'
    have lower := rooted.index_le (rooted.isWithin_iff.mp within)
    have upper := rooted.index_le (rooted.isWithin_iff.mp within')
    exact congrArg Handle.mk (Nat.le_antisymm upper lower)
  · intro id present
    simp only [IsDeclarationBody, rooted.isWithin_iff]
    exact ⟨rooted.within_global present, rooted.declarationBodyOf_nearest present⟩
  · refine ⟨getLast?_concat .., ?_, by simp [stack, depth]⟩
    cases entered : bodies.entered <;> simp [stack, current, entered]
  · cases entered : bodies.entered <;> simp [stack, leave, serve, entered]
  · intro inner
    have entered : Entered requests bodies.entered := entered_serveAll requests
    generalize ids : bodies.entered = entered' at entered
    cases entered with
    | none => simp [stack, ids] at inner
    | enter id entered balanced => exact ⟨_, id, _, rfl, balanced, by simp only [leave, ids]⟩

/-- A body inside a root is entered and left, and another one is added while the cursor is in the
root. -/
def visitInRoot : List Request :=
  [.newBody (.root ⟨0⟩) global, .newBody (.delayedInit ⟨1⟩) ⟨1⟩, .enter ⟨1⟩, .enter ⟨2⟩,
    .emit (.expr .thisRef), .leave, .newBody (.lazyInitializer ⟨2⟩) ⟨1⟩]

theorem visitInRoot_keepsTree :
    let bodies := initial.serveAll visitInRoot
    initial.AllFit visitInRoot ∧ bodies.IsDeclarationBody ⟨3⟩ (bodies.declarationBodyOf ⟨3⟩) ∧
      bodies.declarationBodyOf ⟨3⟩ = ⟨1⟩ ∧ bodies.stack = [⟨1⟩, global] ∧
      ∃ before id between, visitInRoot = before ++ .enter id :: between ∧ Balanced between ∧
        bodies.leave = .ok (id, { bodies with entered := (initial.serveAll before).entered }) := by
  have fit : initial.AllFit visitInRoot :=
    ⟨Nat.zero_lt_succ 0, Nat.lt_add_one 1, Nat.lt_add_one_of_lt (Nat.lt_add_one 1),
      Nat.lt_add_one 2, trivial, trivial, Nat.lt_add_one_of_lt (Nat.lt_add_one 1), trivial⟩
  have facts := serveAll_keepsTree visitInRoot fit
  exact ⟨fit, (facts.2.2.2.1 ⟨3⟩ (Nat.lt_add_one 3)).2, rfl, rfl, facts.2.2.2.2.2.2 (by decide)⟩

end Bodies

end HeapScript
