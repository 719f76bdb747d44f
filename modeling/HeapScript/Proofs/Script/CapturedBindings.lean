import HeapScript.Proofs.Assembly.Replacements

/-!
The shapes in which captured bindings are kept.

While values are written a binding may be met and not be decided on yet, since its own value is
written in between and may lead back to it. `Session.Stays` says that each stretch of writing leaves
no other undecided bindings than it has found, so none is left at the end. Each binding is then kept
in the one shape that its assignments and the settings ask for, and every name of every function has
its replacement.
-/

namespace HeapScript

/-- A captured binding is kept in exactly one shape: as its value if it is never assigned again,
else in a shared variable if closures are simple, else in a slot of its scope. -/
structure Binding.Decided (context : Context) (key : BindingKey) (binding : Binding) : Prop where
  direct : (∃ value, binding.storage = .direct value) ↔ key ∉ context.modified
  shared : (∃ name, binding.storage = .shared name) ↔
    key ∈ context.modified ∧ context.settings.simpleClosures = true
  slot : binding.storage = .slot ↔
    key ∈ context.modified ∧ context.settings.simpleClosures = false

/-- When no value is under construction, every binding is decided on. -/
theorem Session.Idle.decides {context : Context} {session : Session} (idle : session.Idle context)
    {key : BindingKey} {binding : Binding} (isMet : session.bindings.get? key = some binding) :
    binding.Decided context key := by
  have stored := (idle.sound.bindings key binding isMet).stored
  cases isStorage : binding.storage with
  | undecided => exact absurd isStorage (idle.decided key binding isMet)
  | slot =>
    rw [isStorage] at stored
    cases stored with
    | slot modified notSimple _ => constructor <;> simp [isStorage, modified, notSimple]
  | shared name =>
    rw [isStorage] at stored
    cases stored with
    | shared _ modified simple _ => constructor <;> simp [isStorage, modified, simple]
  | direct value =>
    rw [isStorage] at stored
    cases stored with
    | direct constant _ _ => constructor <;> simp [isStorage, constant]

/-- What holds of the captured bindings of a heap that has been written. -/
structure Written.ResolvesBindings (written : Written) : Prop where
  decided : ∀ key binding, written.session.bindings.get? key = some binding →
    binding.Decided written.context key
  /-- A function reads the scopes of the slots among its bindings. -/
  met : ∀ id inst name key, written.session.instances.get? id = some inst →
    inst.bindings.get? name = some (some key) →
    ∃ binding, written.session.bindings.get? key = some binding ∧
      (binding.storage = .slot → key.scope ∈ inst.scopes)
  /-- Looking up the replacement of a name succeeds, and gives none for global names only. -/
  replaced : ∀ id inst name, written.session.instances.get? id = some inst →
    ∃ replacement, written.replacementFor inst name = .ok replacement ∧
      (replacement = none ↔ ∀ key, inst.bindings.get? name ≠ some (some key))

/-- Every captured binding ends in exactly one shape, and no function lacks the replacement of a
name. Whatever a run does, a binding that has a shape never gets another one. -/
theorem writeHeap_resolvesBindings {context : Context} {written : Written}
    (isWritten : writeHeap context = .ok written) :
    written.context = context ∧ written.ResolvesBindings ∧
      Session.Reached context written.session ∧ ∀ session, Session.Reached context session →
        (∀ id, Session.Under context session id → ∀ expr after,
          Runs (Session.writeValue context id) session expr after →
            Session.Moves context session after) ∧
        ∀ later, Session.Moves context session later → ∀ key binding,
          session.bindings.get? key = some binding → binding.storage ≠ .undecided →
            later.bindings.get? key = some binding := by
  obtain ⟨rfl, complete⟩ := writeHeap_eq_ok isWritten
  refine ⟨rfl, ⟨fun key binding isMet => complete.idle.decides isMet, ?_, ?_⟩,
    complete.advances.moves, fun session reached =>
      ⟨fun id under expr after => reached.moves_writeValue under, ?_⟩⟩
  · intro id inst name key isInstance isKey
    obtain ⟨_, facts⟩ := complete.facts isInstance
    obtain ⟨binding, isMet, isRead⟩ := facts.met name key isKey
    exact ⟨binding, isMet, fun isSlot => isRead (by simp [isSlot, Storage.isSlot])⟩
  · intro id inst name isInstance
    obtain ⟨replacement, isReplacement, isGlobal⟩ :=
      Written.exists_replacementFor complete isInstance name
    refine ⟨replacement, isReplacement, isGlobal.trans ?_⟩
    simp [Option.eq_none_iff_forall_ne_some, Option.join_eq_some_iff]
  · intro later moves key binding isMet isDecided
    obtain ⟨after, isAfter, -, same⟩ :=
      (moves.extends_ reached.regular.valid).bindings key binding isMet
    rw [isAfter, same isDecided]

/-! ## A function that captures itself -/

/-- A function that assigns a variable of its scope. Another variable of the scope is the function
itself, which is under construction when that variable is captured. -/
def selfCapturingHeap : HeapGraph where
  values := .ofList [
    .function { code := ⟨0⟩, environment := some ⟨0⟩ }, .primitive (.number (.ofNat 1))]
  codeBlocks := .ofList [{
    function := { name := some "f", body := [.assign (.var "last") (.var "self")] } }]
  scopes := .ofList [{ bindings := .ofList [("last", some ⟨1⟩), ("self", some ⟨0⟩)] }]
  effects := [.globalAssign "g" ⟨0⟩]

set_option maxRecDepth 20000 in
theorem selfCapturingHeap_resolvesBindings : ∃ context written,
    Context.prepare selfCapturingHeap {} = .ok context ∧ writeHeap context = .ok written ∧
    (written.session.bindings.get? ⟨⟨0⟩, "last"⟩).any (·.storage.isSlot) = true ∧
    (written.session.bindings.get? ⟨⟨0⟩, "self"⟩).any (·.pending) = true ∧
    written.ResolvesBindings ∧ ∀ later, Session.Moves context written.session later →
      (later.bindings.get? ⟨⟨0⟩, "last"⟩).any (·.storage.isSlot) = true := by
  obtain ⟨written, found, check⟩ : ∃ written,
      Context.prepare selfCapturingHeap {} >>= writeHeap = .ok written ∧
        ((written.session.bindings.get? ⟨⟨0⟩, "last"⟩).any (·.storage.isSlot) &&
          (written.session.bindings.get? ⟨⟨0⟩, "self"⟩).any (·.pending)) = true :=
    exists_ok (by decide +kernel)
  obtain ⟨context, prepared, isWritten⟩ := bind_eq_ok.mp found
  obtain ⟨isSlot, isPending⟩ := Bool.and_eq_true_iff.mp check
  obtain ⟨-, resolves, reached, shapes⟩ := writeHeap_resolvesBindings isWritten
  refine ⟨context, written, prepared, isWritten, isSlot, isPending, resolves, fun later moves => ?_⟩
  obtain ⟨binding, isMet, isKept⟩ := (Option.any_eq_true ..).mp isSlot
  have isDecided : binding.storage ≠ .undecided := fun undecided => by
    simp [undecided, Storage.isSlot] at isKept
  simpa [(shapes _ reached).2 later moves _ binding isMet isDecided] using isKept

end HeapScript
