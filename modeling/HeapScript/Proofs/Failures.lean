import HeapScript.Proofs.Runs

/-!
The reasons for which computations and actions fail.

`ErrorsOnly Expected value` says that a computation has a result or fails for one of the expected
reasons, and `FailsOnly Expected action before` says the same of an action that is run from a state.
Each way of building them has a rule, so the goal for a `do` block falls apart into one goal for
each of its lines, in which all lines before it have succeeded.
-/

namespace HeapScript

open List Runs

variable {σ ε α β : Type} {Expected : ε → Prop} {failure : ε} {value : Except ε α} {items : List α}

/-! ## Computations -/

def ErrorsOnly (Expected : ε → Prop) (value : Except ε α) : Prop :=
  ∀ failure, value = .error failure → Expected failure

namespace ErrorsOnly

theorem mono {Others : ε → Prop} (errors : ErrorsOnly Expected value)
    (weaker : ∀ failure, Expected failure → Others failure) :
    ErrorsOnly Others value :=
  fun failure isFailure => weaker failure (errors failure isFailure)

theorem of_ok {result : α} (isOk : value = .ok result) : ErrorsOnly Expected value := by
  rintro failure rfl
  cases isOk

/-- A computation that fails for no reason has a result. -/
theorem exists_ok (never : ErrorsOnly (fun _ => False) value) : ∃ result, value = .ok result := by
  cases value with
  | ok result => exact ⟨result, rfl⟩
  | error failure => exact (never failure rfl).elim

@[simp] theorem ok (result : α) : ErrorsOnly Expected (.ok result : Except ε α) := of_ok rfl

@[simp] theorem of_pure (result : α) : ErrorsOnly Expected (pure result : Except ε α) := of_ok rfl

@[simp] theorem error_iff :
    ErrorsOnly Expected (.error failure : Except ε α) ↔ Expected failure := by
  simp [ErrorsOnly]

@[simp] theorem throw_iff : ErrorsOnly Expected (throw failure : Except ε α) ↔ Expected failure :=
  error_iff

@[simp] theorem bind_iff {value : Except ε α} {next : α → Except ε β} :
    ErrorsOnly Expected (value >>= next) ↔
      ErrorsOnly Expected value ∧ ∀ first, value = .ok first →
        ErrorsOnly Expected (next first) := by
  cases value <;> simp [bind, Except.bind]

theorem seq {value : Except ε α} {next : Except ε β} (first : ErrorsOnly Expected value)
    (rest : ErrorsOnly Expected next) : ErrorsOnly Expected (value >>= fun _ => next) :=
  bind_iff.mpr ⟨first, fun _ _ => rest⟩

@[simp] theorem map_iff {change : α → β} :
    ErrorsOnly Expected (value.map change) ↔ ErrorsOnly Expected value := by
  cases value <;> simp [Except.map]

@[simp] theorem functor_map_iff {change : α → β} :
    ErrorsOnly Expected (change <$> value) ↔ ErrorsOnly Expected value :=
  map_iff

theorem mapM {action : α → Except ε β} (each : ∀ item ∈ items, ErrorsOnly Expected (action item)) :
    ErrorsOnly Expected (items.mapM action) := by
  induction items with
  | nil => simp
  | cons item items induction =>
    simp only [List.mapM_cons, bind_iff, of_pure, implies_true, and_true]
    exact ⟨each item mem_cons_self, fun _ _ =>
      induction fun other member => each other (mem_cons_of_mem _ member)⟩

theorem forM {action : α → Except ε PUnit}
    (each : ∀ item ∈ items, ErrorsOnly Expected (action item)) :
    ErrorsOnly Expected (items.forM action) := by
  induction items with
  | nil => exact .of_pure _
  | cons item items induction =>
    simp only [forM_eq_forM, List.forM_cons, bind_iff]
    exact ⟨each item mem_cons_self, fun _ _ =>
      induction fun other member => each other (mem_cons_of_mem _ member)⟩

theorem allM {test : α → Except ε Bool} (each : ∀ item ∈ items, ErrorsOnly Expected (test item)) :
    ErrorsOnly Expected (items.allM test) := by
  induction items with
  | nil => exact .of_pure _
  | cons item items induction =>
    rw [List.allM, bind_iff]
    refine ⟨each item mem_cons_self, fun holds _ => ?_⟩
    cases holds with
    | true => exact induction fun other member => each other (mem_cons_of_mem _ member)
    | false => exact .of_pure _

theorem foldlM {action : β → α → Except ε β} {start : β}
    (each : ∀ item ∈ items, ∀ state, ErrorsOnly Expected (action state item)) :
    ErrorsOnly Expected (items.foldlM action start) := by
  induction items generalizing start with
  | nil => exact .of_pure _
  | cons item items induction =>
    rw [foldlM_cons, bind_iff]
    exact ⟨each item mem_cons_self start, fun _ _ =>
      induction fun other member => each other (mem_cons_of_mem _ member)⟩

theorem optionForM {item : Option α} {action : α → Except ε PUnit}
    (each : ∀ value ∈ item, ErrorsOnly Expected (action value)) :
    ErrorsOnly Expected (item.forM action) := by
  cases item with
  | none => exact .of_pure _
  | some value => exact each value rfl

end ErrorsOnly

/-! ## Actions -/

def FailsOnly (Expected : ε → Prop) (action : StateT σ (Except ε) α) (before : σ) : Prop :=
  ErrorsOnly Expected (action.run before)

namespace FailsOnly

variable {before : σ}

theorem mono {Others : ε → Prop} {action : StateT σ (Except ε) α}
    (fails : FailsOnly Expected action before)
    (weaker : ∀ failure, Expected failure → Others failure) : FailsOnly Others action before :=
  ErrorsOnly.mono fails weaker

@[simp] theorem of_pure (result : α) :
    FailsOnly Expected (pure result : StateT σ (Except ε) α) before := by
  rw [FailsOnly, StateT.run_pure]
  exact .of_pure _

@[simp] theorem of_get : FailsOnly Expected (get : StateT σ (Except ε) σ) before :=
  ErrorsOnly.of_pure _

@[simp] theorem of_modify (change : σ → σ) :
    FailsOnly Expected (modify change : StateT σ (Except ε) PUnit) before :=
  ErrorsOnly.of_pure _

@[simp] theorem of_set (state : σ) :
    FailsOnly Expected (set state : StateT σ (Except ε) PUnit) before :=
  ErrorsOnly.of_pure _

@[simp] theorem throw_iff :
    FailsOnly Expected (throw failure : StateT σ (Except ε) α) before ↔ Expected failure :=
  ErrorsOnly.error_iff

@[simp] theorem lift_iff :
    FailsOnly Expected (liftM value : StateT σ (Except ε) α) before ↔
      ErrorsOnly Expected value := by
  cases value <;> simp [FailsOnly, bind, Except.bind]

theorem bind_iff {action : StateT σ (Except ε) α} {next : α → StateT σ (Except ε) β} :
    FailsOnly Expected (action >>= next) before ↔
      FailsOnly Expected action before ∧
        ∀ first middle, Runs action before first middle →
          FailsOnly Expected (next first) middle := by
  rw [FailsOnly, StateT.run_bind, ErrorsOnly.bind_iff]
  simp [FailsOnly, Runs]

theorem bind {action : StateT σ (Except ε) α} {next : α → StateT σ (Except ε) β}
    (fails : FailsOnly Expected action before)
    (rest : ∀ first middle, Runs action before first middle →
      FailsOnly Expected (next first) middle) : FailsOnly Expected (action >>= next) before :=
  bind_iff.mpr ⟨fails, rest⟩

@[simp] theorem map_iff {action : StateT σ (Except ε) α} {change : α → β} :
    FailsOnly Expected (change <$> action) before ↔ FailsOnly Expected action before := by
  rw [← bind_pure_comp, bind_iff]
  simp

@[simp] theorem get_bind {next : σ → StateT σ (Except ε) β} :
    FailsOnly Expected (get >>= next) before ↔ FailsOnly Expected (next before) before := by
  simp [bind_iff]

@[simp] theorem lift_bind {next : α → StateT σ (Except ε) β} :
    FailsOnly Expected (liftM value >>= next) before ↔
      ErrorsOnly Expected value ∧
        ∀ first, value = .ok first → FailsOnly Expected (next first) before := by
  simp [bind_iff]

/-- A loop fails as its rounds do, from states that all rounds keep up. -/
theorem forM {Holds : σ → Prop} {action : α → StateT σ (Except ε) PUnit}
    (each : ∀ item ∈ items, ∀ before, Holds before → FailsOnly Expected (action item) before)
    (kept : ∀ item ∈ items, ∀ before after, Runs (action item) before ⟨⟩ after → Holds before →
      Holds after) (start : Holds before) :
    FailsOnly Expected (items.forM action) before := by
  induction items generalizing before with
  | nil => exact .of_pure _
  | cons item items induction =>
    simp only [forM_eq_forM, List.forM_cons, bind_iff]
    refine ⟨each item mem_cons_self before start, fun _ middle runs => ?_⟩
    exact induction (fun other member => each other (mem_cons_of_mem _ member))
      (fun other member => kept other (mem_cons_of_mem _ member))
      (kept item mem_cons_self before middle runs start)

theorem forM_remaining (Holds : List α → σ → Prop) {items : List α}
    {action : α → StateT σ (Except ε) PUnit}
    (each : ∀ item items before, Holds (item :: items) before →
      FailsOnly Expected (action item) before)
    (kept : ∀ item items before after, Runs (action item) before ⟨⟩ after →
      Holds (item :: items) before → Holds items after)
    (start : Holds items before) : FailsOnly Expected (items.forM action) before := by
  induction items generalizing before with
  | nil => exact .of_pure _
  | cons item items induction =>
    simp only [forM_eq_forM, List.forM_cons, bind_iff]
    exact ⟨each item items before start, fun _ middle runs =>
      induction (kept item items before middle runs start)⟩

theorem mapM {Holds : σ → Prop} {action : α → StateT σ (Except ε) β}
    (each : ∀ item ∈ items, ∀ before, Holds before → FailsOnly Expected (action item) before)
    (kept : ∀ item ∈ items, ∀ before result after, Runs (action item) before result after →
      Holds before → Holds after) (start : Holds before) :
    FailsOnly Expected (items.mapM action) before := by
  induction items generalizing before with
  | nil => simp
  | cons item items induction =>
    simp only [List.mapM_cons, bind_iff, of_pure, implies_true, and_true]
    refine ⟨each item mem_cons_self before start, fun result middle runs => ?_⟩
    exact induction (fun other member => each other (mem_cons_of_mem _ member))
      (fun other member => kept other (mem_cons_of_mem _ member))
      (kept item mem_cons_self before result middle runs start)

end FailsOnly

/-! ## Outcomes of actions -/

/-- From a state the action fails only for expected reasons, and what it leads to is as described.
-/
structure Does (Expected : ε → Prop) (action : StateT σ (Except ε) α) (before : σ)
    (Outcome : α → σ → Prop) : Prop where
  fails : FailsOnly Expected action before
  outcome : ∀ result after, Runs action before result after → Outcome result after

namespace Does

variable {before middle : σ} {action : StateT σ (Except ε) α} {Outcome Others : α → σ → Prop}
  {next : α → StateT σ (Except ε) β} {Later : β → σ → Prop}

theorem imp (does : Does Expected action before Outcome)
    (weaker : ∀ result after, Outcome result after → Others result after) :
    Does Expected action before Others :=
  ⟨does.fails, fun result after runs => weaker result after (does.outcome result after runs)⟩

theorem mono {Wider : ε → Prop} (does : Does Expected action before Outcome)
    (wider : ∀ failure, Expected failure → Wider failure) : Does Wider action before Outcome :=
  ⟨does.fails.mono wider, does.outcome⟩

theorem runs (does : Does Expected action before Outcome) :
    Does Expected action before fun result after =>
      Runs action before result after ∧ Outcome result after :=
  ⟨does.fails, fun result after runs => ⟨runs, does.outcome result after runs⟩⟩

theorem of_runs {result : α} {after : σ} (runs : Runs action before result after)
    (holds : Outcome result after) : Does Expected action before Outcome := by
  refine ⟨.of_ok runs, fun _ _ other => ?_⟩
  cases runs.symm.trans other
  exact holds

theorem done {action : StateT σ (Except ε) PUnit} {Outcome : PUnit → σ → Prop} {after : σ}
    (runs : Runs action before ⟨⟩ after) (holds : Outcome ⟨⟩ after) :
    Does Expected action before Outcome :=
  of_runs runs holds

theorem of_pure {result : α} (holds : Outcome result before) :
    Does Expected (pure result) before Outcome :=
  .of_runs (pure_iff.mpr ⟨rfl, rfl⟩) holds

theorem of_throw (expected : Expected failure) : Does Expected (throw failure) before Outcome :=
  ⟨FailsOnly.throw_iff.mpr expected, fun _ _ runs => absurd runs not_throw⟩

theorem bind (first : Does Expected action before Outcome)
    (rest : ∀ result middle, Outcome result middle → Does Expected (next result) middle Later) :
    Does Expected (action >>= next) before Later := by
  refine ⟨.bind first.fails fun result middle runs =>
    (rest result middle (first.outcome result middle runs)).fails, fun _ _ runs => ?_⟩
  obtain ⟨result, middle, running, runs⟩ := Runs.bind_iff.mp runs
  exact (rest result middle (first.outcome result middle running)).outcome _ _ runs

theorem step {result : α} (runs : Runs action before result middle)
    (rest : Does Expected (next result) middle Later) :
    Does Expected (action >>= next) before Later := by
  refine ⟨.bind (.of_ok runs) fun _ _ other => ?_, fun _ _ other => ?_⟩
  · cases runs.symm.trans other
    exact rest.fails
  · obtain ⟨_, _, running, other⟩ := Runs.bind_iff.mp other
    cases runs.symm.trans running
    exact rest.outcome _ _ other

theorem seq {action : StateT σ (Except ε) PUnit} {next : PUnit → StateT σ (Except ε) β}
    (runs : Runs action before ⟨⟩ middle) (rest : Does Expected (next ⟨⟩) middle Later) :
    Does Expected (action >>= next) before Later :=
  .step runs rest

theorem get_bind {next : σ → StateT σ (Except ε) β}
    (rest : Does Expected (next before) before Later) : Does Expected (get >>= next) before Later :=
  .step (get_iff.mpr ⟨rfl, rfl⟩) rest

theorem lift_bind (errors : ErrorsOnly Expected value)
    (rest : ∀ result, value = .ok result → Does Expected (next result) before Later) :
    Does Expected (liftM value >>= next) before Later := by
  refine .bind ⟨FailsOnly.lift_iff.mpr errors, fun _ _ => Runs.lift_iff.mp⟩ ?_
  rintro result _ ⟨found, rfl⟩
  exact rest result found

theorem map {change : α → β}
    (does : Does Expected action before fun result => Later (change result)) :
    Does Expected (change <$> action) before Later := by
  rw [← bind_pure_comp]
  exact does.bind fun _ _ => .of_pure

theorem forM_cons {item : α} {action : α → StateT σ (Except ε) PUnit} {Between : σ → Prop}
    {Later : PUnit → σ → Prop} (first : Does Expected (action item) before fun _ => Between)
    (rest : ∀ middle, Between middle → Does Expected (items.forM action) middle Later) :
    Does Expected ((item :: items).forM action) before Later :=
  first.bind fun _ => rest

/-- Each action of a loop does its part, which later ones keep. -/
theorem forM_each {action : α → StateT σ (Except ε) PUnit} {Holds : σ → Prop} {Done : α → σ → Prop}
    (does : ∀ item ∈ items, ∀ before, Holds before → Does Expected (action item) before
      fun _ after => Holds after ∧ Done item after ∧ ∀ other, Done other before → Done other after)
    (start : Holds before) :
    Does Expected (items.forM action) before fun _ after =>
      Holds after ∧ ∀ item ∈ items, Done item after where
  fails := .forM (fun item member before holds => (does item member before holds).fails)
    (fun item member before after runs holds =>
      ((does item member before holds).outcome _ after runs).1) start
  outcome _ _ runs := Runs.forM_each (fun item member before after runs holds =>
    (does item member before holds).outcome _ after runs) runs start

end Does

/-! ## Actions that keep a property of the state -/

/-- The action keeps a property of the state, and where the property holds it fails only for
expected reasons. -/
def Maintains (Holds : σ → Prop) (Expected : ε → Prop) (action : StateT σ (Except ε) α) : Prop :=
  ∀ before, Holds before → Does Expected action before fun _ => Holds

namespace Maintains

variable {Holds : σ → Prop}

theorem of_pure (result : α) :
    Maintains Holds Expected (pure result : StateT σ (Except ε) α) :=
  fun _ holds => .of_pure holds

theorem of_modify {change : σ → σ} (kept : ∀ state, Holds state → Holds (change state)) :
    Maintains Holds Expected (modify change : StateT σ (Except ε) PUnit) :=
  fun before holds => .done (modify_iff.mpr rfl) (kept before holds)

theorem bind {action : StateT σ (Except ε) α} {next : α → StateT σ (Except ε) β}
    (first : Maintains Holds Expected action)
    (rest : ∀ result, Maintains Holds Expected (next result)) :
    Maintains Holds Expected (action >>= next) :=
  fun before holds => (first before holds).bind fun result => rest result

theorem get_bind {next : σ → StateT σ (Except ε) β}
    (rest : ∀ state, Maintains Holds Expected (next state)) :
    Maintains Holds Expected (get >>= next) :=
  fun before holds => .get_bind (rest before before holds)

theorem lift_bind {next : α → StateT σ (Except ε) β} (errors : ErrorsOnly Expected value)
    (rest : ∀ result, value = .ok result → Maintains Holds Expected (next result)) :
    Maintains Holds Expected (liftM value >>= next) :=
  fun before holds => .lift_bind errors fun result found => rest result found before holds

theorem mapM_lift_bind {value : α → Except ε β} {γ : Type} {next : List β → StateT σ (Except ε) γ}
    (errors : ∀ item ∈ items, ErrorsOnly Expected (value item))
    (rest : ∀ results, items.mapM value = .ok results → Maintains Holds Expected (next results)) :
    Maintains Holds Expected
      ((items.mapM fun item => (liftM (value item) : StateT σ (Except ε) β)) >>= next) := by
  have fails : ∀ before : σ, FailsOnly Expected
      (items.mapM fun item => (liftM (value item) : StateT σ (Except ε) β)) before := fun before =>
    .mapM (fun item member _ (_ : True) => FailsOnly.lift_iff.mpr (errors item member))
      (fun _ _ _ _ _ _ _ => trivial) trivial
  refine fun before holds => .bind ⟨fails before, fun _ _ => mapM_lift_iff.mp⟩ ?_
  rintro results _ ⟨found, rfl⟩
  exact rest results found _ holds

theorem forM {action : α → StateT σ (Except ε) PUnit}
    (each : ∀ item ∈ items, Maintains Holds Expected (action item)) :
    Maintains Holds Expected (items.forM action) := by
  induction items with
  | nil => exact of_pure _
  | cons item items induction =>
    simp only [forM_eq_forM, List.forM_cons]
    exact bind (each item mem_cons_self) fun _ =>
      induction fun other member => each other (mem_cons_of_mem _ member)

end Maintains

end HeapScript
