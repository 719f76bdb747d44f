import Mathlib.Data.List.Forall2

/-!
Successful runs of actions that keep a state and may fail.

`Runs action before result after` says that the action succeeds. Each way of building actions has a
rule that takes such a fact apart, so a fact about a `do` block falls apart into facts about its
lines.
-/

namespace HeapScript

open List

variable {σ ε α β : Type} {failure : ε} {value : Except ε α} {result : β} {items : List α}
  {results : List β}

def Runs (action : StateT σ (Except ε) α) (before : σ) (result : α) (after : σ) : Prop :=
  action.run before = .ok (result, after)

theorem bind_eq_ok {next : α → Except ε β} :
    value >>= next = .ok result ↔ ∃ first, value = .ok first ∧ next first = .ok result := by
  cases value <;> simp [bind, Except.bind]

theorem pure_eq_ok {value result : α} :
    (pure value : Except ε α) = .ok result ↔ value = result := by
  simp [pure, Except.pure]

theorem throw_ne_ok {result : α} : (throw failure : Except ε α) ≠ .ok result := by
  simp [throw, throwThe, MonadExceptOf.throw]

theorem seq_eq_ok {check : Except ε Unit} {next : Except ε β} :
    (check >>= fun _ => next) = .ok result ↔ check = .ok () ∧ next = .ok result := by
  cases check <;> simp [bind, Except.bind]

theorem unless_throw_eq_ok {test : Bool} :
    (if test then pure () else throw failure : Except ε Unit) = .ok () ↔ test = true := by
  cases test with
  | true => exact iff_of_true rfl rfl
  | false => exact iff_of_false (by simp [throw_ne_ok]) Bool.false_ne_true

theorem forM_eq_ok {check : α → Except ε Unit} :
    items.forM check = .ok () ↔ ∀ item ∈ items, check item = .ok () := by
  induction items with
  | nil => simp [pure, Except.pure]
  | cons item items induction =>
    rw [forM_eq_forM, List.forM_cons, seq_eq_ok, forall_mem_cons, ← induction,
      forM_eq_forM]

theorem optionForM_eq_ok {item : Option α} {check : α → Except ε Unit} :
    item.forM check = .ok () ↔ ∀ value ∈ item, check value = .ok () := by
  cases item <;> simp [Option.forM, pure, Except.pure]

theorem exists_ok {check : α → Bool} (passes : value.toOption.any check = true) :
    ∃ result, value = .ok result ∧ check result = true := by
  cases value with
  | error failure => cases passes
  | ok result => exact ⟨result, rfl, passes⟩

theorem mapM_eq_ok {action : α → Except ε β} :
    items.mapM action = .ok results ↔
      List.Forall₂ (fun item result => action item = .ok result) items results := by
  induction items generalizing results with
  | nil =>
    rw [List.mapM_nil, pure_eq_ok, forall₂_nil_left_iff, eq_comm]
  | cons item items induction =>
    simp only [List.mapM_cons, bind_eq_ok, pure_eq_ok, forall₂_cons_left_iff]
    constructor
    · rintro ⟨first, isFirst, rest, isRest, rfl⟩
      exact ⟨first, rest, isFirst, induction.mp isRest, rfl⟩
    · rintro ⟨first, rest, isFirst, isRest, rfl⟩
      exact ⟨first, isFirst, rest, induction.mpr isRest, rfl⟩

theorem exists_related {Related : α → β → Prop} {others : List β}
    (related : List.Forall₂ Related items others) {item : α} (member : item ∈ items) :
    ∃ other ∈ others, Related item other := by
  induction related with
  | nil => cases member
  | cons first _ induction =>
    rcases mem_cons.mp member with rfl | member
    · exact ⟨_, mem_cons_self, first⟩
    · obtain ⟨other, isOther, same⟩ := induction member
      exact ⟨other, mem_cons_of_mem _ isOther, same⟩

theorem exists_of_mem_mapM {action : α → Except ε β} (found : items.mapM action = .ok results)
    (member : result ∈ results) :
    ∃ item ∈ items, action item = .ok result :=
  exists_related (mapM_eq_ok.mp found).flip member

theorem exists_mem_mapM {action : α → Except ε β} (found : items.mapM action = .ok results)
    {item : α} (member : item ∈ items) :
    ∃ result ∈ results, action item = .ok result :=
  exists_related (mapM_eq_ok.mp found) member

theorem exists_mapM {action : α → Except ε β}
    (succeeds : ∀ item ∈ items, ∃ result, action item = .ok result) :
    ∃ results, items.mapM action = .ok results := by
  induction items with
  | nil => exact ⟨[], mapM_eq_ok.mpr .nil⟩
  | cons item items induction =>
    obtain ⟨result, isResult⟩ := succeeds item mem_cons_self
    obtain ⟨results, areResults⟩ :=
      induction fun other member => succeeds other (mem_cons_of_mem _ member)
    exact ⟨result :: results, mapM_eq_ok.mpr (.cons isResult (mapM_eq_ok.mp areResults))⟩

/-- What holds of the items that are left, and is kept by each round, holds of none in the end. -/
theorem foldlM_remaining (Holds : List α → β → Prop) {action : β → α → Except ε β} {start : β}
    (kept : ∀ item items value next, action value item = .ok next → Holds (item :: items) value →
      Holds items next) (found : items.foldlM action start = .ok result)
    (first : Holds items start) :
    Holds [] result := by
  induction items generalizing start with
  | nil => exact pure_eq_ok.mp found ▸ first
  | cons item items induction =>
    obtain ⟨next, step, rest⟩ := bind_eq_ok.mp found
    exact induction rest (kept item items start next step first)

theorem allM_eq_ok_true {test : α → Except ε Bool} :
    items.allM test = .ok true ↔ ∀ item ∈ items, test item = .ok true := by
  induction items with
  | nil => simp [List.allM, pure, Except.pure]
  | cons item items induction =>
    rw [List.allM, bind_eq_ok, forall_mem_cons]
    constructor
    · rintro ⟨found, isFound, rest⟩
      cases found with
      | true => exact ⟨isFound, induction.mp rest⟩
      | false => simp [pure_eq_ok] at rest
    · rintro ⟨isFound, rest⟩
      exact ⟨true, isFound, induction.mpr rest⟩

namespace Runs

variable {before after : σ} {result : PUnit}

/-! ## States -/

@[simp] theorem pure_iff {value result : α} :
    Runs (pure value : StateT σ (Except ε) α) before result after ↔
      result = value ∧ after = before := by
  rw [Runs, StateT.run_pure]
  simp [pure, Except.pure, eq_comm]

@[simp] theorem get_iff {result : σ} :
    Runs (get : StateT σ (Except ε) σ) before result after ↔ result = before ∧ after = before := by
  simp [Runs, pure, Except.pure, eq_comm]

@[simp] theorem modify_iff {change : σ → σ} :
    Runs (modify change : StateT σ (Except ε) PUnit) before result after ↔
      after = change before := by
  simp [Runs, pure, Except.pure, eq_comm]

@[simp] theorem set_iff {state : σ} :
    Runs (set state : StateT σ (Except ε) PUnit) before result after ↔ after = state := by
  simp [Runs, pure, Except.pure, eq_comm]

@[simp] theorem not_throw {result : α} :
    ¬Runs (throw failure : StateT σ (Except ε) α) before result after := by
  simp [Runs, throw, throwThe, MonadExceptOf.throw, StateT.run, StateT.lift, bind, Except.bind]

@[simp] theorem lift_iff {result : α} :
    Runs (liftM value : StateT σ (Except ε) α) before result after ↔
      value = .ok result ∧ after = before := by
  cases value <;> simp [Runs, pure, Except.pure, bind, Except.bind, eq_comm]

/-! ## Sequences -/

theorem bind_iff {action : StateT σ (Except ε) α} {next : α → StateT σ (Except ε) β} {result : β} :
    Runs (action >>= next) before result after ↔
      ∃ first middle, Runs action before first middle ∧ Runs (next first) middle result after := by
  simp [Runs, bind_eq_ok]

@[simp] theorem map_iff {action : StateT σ (Except ε) α} {change : α → β} {result : β} :
    Runs (change <$> action) before result after ↔
      ∃ first, Runs action before first after ∧ result = change first := by
  rw [← bind_pure_comp, bind_iff]
  simp only [pure_iff]
  constructor
  · rintro ⟨first, _, runs, same, rfl⟩
    exact ⟨first, runs, same⟩
  · rintro ⟨first, runs, same⟩
    exact ⟨first, after, runs, same, rfl⟩

@[simp] theorem get_bind {next : σ → StateT σ (Except ε) β} {result : β} :
    Runs (get >>= next) before result after ↔ Runs (next before) before result after := by
  simp [bind_iff, and_assoc]

@[simp] theorem modify_bind {change : σ → σ} {next : PUnit → StateT σ (Except ε) β} {result : β} :
    Runs (modify change >>= next) before result after ↔
      Runs (next ⟨⟩) (change before) result after := by
  simp only [bind_iff, modify_iff]
  exact ⟨fun ⟨_, _, same, runs⟩ => same ▸ runs, fun runs => ⟨⟨⟩, _, rfl, runs⟩⟩

@[simp] theorem lift_bind {next : α → StateT σ (Except ε) β} {result : β} :
    Runs (liftM value >>= next) before result after ↔
      ∃ first, value = .ok first ∧ Runs (next first) before result after := by
  simp [bind_iff, and_assoc]

/-! ## Loops -/

variable {action : α → StateT σ (Except ε) PUnit}

theorem forM_cons {item : α} :
    Runs ((item :: items).forM action) before result after ↔
      ∃ middle, Runs (action item) before ⟨⟩ middle ∧
        Runs (items.forM action) middle result after := by
  simp only [forM_eq_forM, List.forM_cons, bind_iff]
  exact ⟨fun ⟨_, middle, first, rest⟩ => ⟨middle, first, rest⟩,
    fun ⟨middle, first, rest⟩ => ⟨⟨⟩, middle, first, rest⟩⟩

theorem forM_append {others : List α} :
    Runs ((items ++ others).forM action) before result after ↔
      ∃ middle, Runs (items.forM action) before ⟨⟩ middle ∧
        Runs (others.forM action) middle result after := by
  induction items generalizing before with
  | nil =>
    have nothing : ∀ middle, Runs (([] : List α).forM action) before ⟨⟩ middle ↔ middle = before :=
      fun middle => pure_iff.trans (and_iff_right rfl)
    simp only [nil_append, nothing, exists_eq_left]
  | cons item items induction =>
    simp only [cons_append, forM_cons, induction]
    constructor
    · rintro ⟨first, runs, middle, rest, others⟩
      exact ⟨middle, ⟨first, runs, rest⟩, others⟩
    · rintro ⟨middle, ⟨first, runs, rest⟩, others⟩
      exact ⟨first, runs, middle, rest, others⟩

/-- What each round of a loop keeps, the loop keeps. -/
theorem forM_invariant {Holds : σ → Prop}
    (kept : ∀ item ∈ items, ∀ before after, Runs (action item) before ⟨⟩ after → Holds before →
      Holds after) (runs : Runs (items.forM action) before result after) (start : Holds before) :
    Holds after := by
  induction items generalizing before with
  | nil =>
    simp only [forM_eq_forM, forM_nil, pure_iff] at runs
    exact runs.2 ▸ start
  | cons item items induction =>
    obtain ⟨middle, first, rest⟩ := forM_cons.mp runs
    exact induction (fun other member => kept other (mem_cons_of_mem _ member)) rest
      (kept item mem_cons_self _ _ first start)

/-- What holds of the items that are left, and is kept by each round, holds of none in the end. -/
theorem forM_remaining (Holds : List α → σ → Prop)
    (kept : ∀ item items before after, Runs (action item) before ⟨⟩ after →
      Holds (item :: items) before → Holds items after)
    (runs : Runs (items.forM action) before result after) (start : Holds items before) :
    Holds [] after := by
  induction items generalizing before with
  | nil =>
    simp only [forM_eq_forM, forM_nil, pure_iff] at runs
    exact runs.2 ▸ start
  | cons item items induction =>
    obtain ⟨middle, first, rest⟩ := forM_cons.mp runs
    exact induction rest (kept item items _ _ first start)

/-- Each action of a loop does its part, which later ones keep. -/
theorem forM_each {Holds : σ → Prop} {Done : α → σ → Prop}
    (does : ∀ item ∈ items, ∀ before after, Runs (action item) before ⟨⟩ after → Holds before →
      Holds after ∧ Done item after ∧ ∀ other, Done other before → Done other after)
    (runs : Runs (items.forM action) before result after) (start : Holds before) :
    Holds after ∧ ∀ item ∈ items, Done item after := by
  have all : Holds after ∧ (∀ other, Done other before → Done other after) ∧
      ∀ item ∈ items, Done item after := by
    induction items generalizing before with
    | nil =>
      simp only [forM_eq_forM, forM_nil, pure_iff] at runs
      obtain ⟨_, rfl⟩ := runs
      exact ⟨start, fun _ => id, by simp⟩
    | cons item items induction =>
      obtain ⟨middle, first, rest⟩ := forM_cons.mp runs
      obtain ⟨between, done, keeps⟩ := does item mem_cons_self _ _ first start
      obtain ⟨last, keeps', others⟩ := induction
        (fun other member => does other (mem_cons_of_mem _ member)) rest between
      refine ⟨last, fun other old => keeps' other (keeps other old), fun other member => ?_⟩
      rcases mem_cons.mp member with rfl | member
      · exact keeps' other done
      · exact others other member
  exact ⟨all.1, all.2.2⟩

theorem exists_of_forM (runs : Runs (items.forM action) before result after) {item : α}
    (member : item ∈ items) :
    ∃ before after, Runs (action item) before ⟨⟩ after := by
  induction items generalizing before with
  | nil => cases member
  | cons other items induction =>
    obtain ⟨middle, first, rest⟩ := forM_cons.mp runs
    rcases mem_cons.mp member with rfl | member
    · exact ⟨before, middle, first⟩
    · exact induction rest member

theorem mapM_nil {action : α → StateT σ (Except ε) β} :
    Runs (([] : List α).mapM action) before results after ↔ results = [] ∧ after = before := by
  simp

theorem mapM_cons {item : α} {action : α → StateT σ (Except ε) β} :
    Runs ((item :: items).mapM action) before results after ↔
      ∃ result others middle, Runs (action item) before result middle ∧
        Runs (items.mapM action) middle others after ∧ results = result :: others := by
  simp only [List.mapM_cons, bind_iff, pure_iff]
  constructor
  · rintro ⟨result, middle, first, others, _, rest, rfl, rfl⟩
    exact ⟨result, others, middle, first, rest, rfl⟩
  · rintro ⟨result, others, middle, first, rest, rfl⟩
    exact ⟨result, middle, first, others, after, rest, rfl, rfl⟩

theorem mapM_lift_iff {items : List α} {action : α → Except ε β} {results : List β} :
    Runs (items.mapM fun item => (liftM (action item) : StateT σ
      (Except ε) β)) before results after ↔ items.mapM action = .ok results ∧ after = before := by
  induction items generalizing before results with
  | nil => rw [mapM_nil, List.mapM_nil, pure_eq_ok, eq_comm]
  | cons item items induction =>
    rw [mapM_cons, mapM_eq_ok, forall₂_cons_left_iff]
    simp only [lift_iff, induction, mapM_eq_ok]
    constructor
    · rintro ⟨result, others, middle, ⟨isResult, rfl⟩, ⟨areOthers, rfl⟩, rfl⟩
      exact ⟨⟨result, others, isResult, areOthers, rfl⟩, rfl⟩
    · rintro ⟨⟨result, others, isResult, areOthers, rfl⟩, rfl⟩
      exact ⟨result, others, after, ⟨isResult, rfl⟩, ⟨areOthers, rfl⟩, rfl⟩

end Runs

end HeapScript
