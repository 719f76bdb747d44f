import HeapScript.Output.CapturedScopes
import Mathlib.Data.List.Induction
import Mathlib.Data.List.Nodup
import Mathlib.Data.List.TakeWhile

/-!
The captured scopes of each owner are numbered from zero in the order of their capture.

The counter of an owner agrees with the scopes that are kept, and a scope keeps its owner and its
selector from its first capture on. So the array has room for each scope, the cases of the accessor
have the numbers of the scopes without gaps, and each creates the array that the requests for its
scope have described.
-/

namespace HeapScript

open List

namespace CapturedScopes

variable {captured : CapturedScopes} {scope : ScopeId} {owner : ScopeOwner} {slotCount : Nat}
  {found : CapturedScope}

def entriesOf (captured : CapturedScopes) (owner : ScopeOwner) : List (ScopeId × CapturedScope) :=
  captured.scopes.entries.filter (·.2.owner = owner)

/-- Each scope is captured once, and the selectors of each owner count its scopes from zero, up to
the owner's counter. -/
structure Numbered (captured : CapturedScopes) : Prop where
  distinctScopes : captured.scopes.keys.Nodup
  counted : ∀ owner, captured.count owner = (captured.entriesOf owner).length
  selectors : ∀ owner, (captured.entriesOf owner).map (·.2.selector) =
    List.range (captured.entriesOf owner).length

theorem numbered_empty (suffixes : KeyedTable ValueId Nat) :
    Numbered { rootSuffixes := suffixes } :=
  ⟨nodup_nil, fun _ => rfl, fun _ => rfl⟩

theorem ownedBy_eq (captured : CapturedScopes) (owner : ScopeOwner) :
    captured.ownedBy owner = (captured.entriesOf owner).map (·.2) := by
  simp only [ownedBy, entriesOf, KeyedTable.values, filter_map]
  rfl

theorem owner_eq_ok :
    captured.owner scope = .ok owner ↔
      ∃ found, captured.scopes.get? scope = some found ∧ found.owner = owner := by
  unfold CapturedScopes.owner get
  cases captured.scopes.get? scope <;> simp [Except.map]

theorem selector_eq_ok {selector : Nat} :
    captured.selector scope = .ok selector ↔
      ∃ found, captured.scopes.get? scope = some found ∧ found.selector = selector := by
  unfold CapturedScopes.selector get
  cases captured.scopes.get? scope <;> simp [Except.map]

theorem mem_bootstrap {stmt : Stmt} (member : stmt ∈ captured.bootstrap owner) :
    stmt = .var (captured.arrayName owner) (.call (.var "Array") [.nat (captured.count owner)]) ∨
      stmt = .function (captured.accessor owner) := by
  rcases mem_append.mp member with isArray | isAccessor
  · left
    unfold arrayDeclaration? at isArray
    split at isArray <;> simp_all
  · right
    unfold accessor? at isAccessor
    split at isAccessor <;> simp_all

theorem mem_sortedOf : found ∈ captured.sortedOf owner ↔ found ∈ captured.ownedBy owner :=
  (perm_sortBy _ _).mem_iff

/-! ## Captures -/

theorem capture_of_known (known : captured.scopes.get? scope = some found) (owner : ScopeOwner)
    (slotCount : Nat) : captured.capture scope owner slotCount = captured := by
  simp [capture, KeyedTable.contains_eq_isSome_get?, known]

theorem capture_of_new (isNew : captured.scopes.get? scope = none) :
    captured.capture scope owner slotCount =
      { captured with
        scopes := captured.scopes.insert scope
          { selector := captured.count owner, owner, slotCount }
        counts := captured.counts.insert owner (captured.count owner + 1) } := by
  simp [capture, KeyedTable.contains_eq_isSome_get?, isNew]

theorem get?_capture (captured : CapturedScopes) (scope id : ScopeId) (owner : ScopeOwner)
    (slotCount : Nat) :
    (captured.capture scope owner slotCount).scopes.get? id =
      if scope = id then
        some ((captured.scopes.get? id).getD
          { selector := captured.count owner, owner, slotCount })
      else captured.scopes.get? id := by
  cases known : captured.scopes.get? scope with
  | some found =>
    rw [capture_of_known known]
    by_cases same : scope = id
    · simp [← same, known]
    · simp [same]
  | none =>
    rw [capture_of_new known, KeyedTable.get?_insert]
    by_cases same : scope = id
    · simp [← same, known]
    · simp [same]

/-- To set a slot of a scope that is not captured fails and changes nothing. -/
theorem setSlot_getD (captured : CapturedScopes) (scope : ScopeId) (slot : Nat) (value : Expr) :
    (captured.setSlot scope slot value).toOption.getD captured =
      { captured with
        scopes := captured.scopes.modify scope fun found =>
          { found with slots := found.slots.insert slot value } } := by
  unfold setSlot get
  cases known : captured.scopes.get? scope with
  | some found => rfl
  | none =>
    rw [KeyedTable.modify_of_new known]
    rfl

namespace Numbered

theorem capture (numbered : captured.Numbered) (scope : ScopeId) (owner : ScopeOwner)
    (slotCount : Nat) : (captured.capture scope owner slotCount).Numbered := by
  cases known : captured.scopes.get? scope with
  | some found => rwa [capture_of_known known]
  | none =>
    rw [capture_of_new known]
    refine ⟨KeyedTable.nodup_keys_insert _ _ numbered.distinctScopes, fun other => ?_,
      fun other => ?_⟩
    · have counted := numbered.counted other
      simp only [count, entriesOf, KeyedTable.entries_insert_of_new _ known, filter_append,
        KeyedTable.get?_insert] at counted ⊢
      by_cases same : owner = other <;> simp [same, counted]
    · have counted := numbered.counted other
      have selectors := numbered.selectors other
      simp only [entriesOf, KeyedTable.entries_insert_of_new _ known, filter_append]
        at counted selectors ⊢
      by_cases same : owner = other <;> simp [same, counted, selectors, range_succ]

theorem modify (numbered : captured.Numbered) (scope : ScopeId)
    {change : CapturedScope → CapturedScope}
    (sameOwner : ∀ found, (change found).owner = found.owner)
    (sameSelector : ∀ found, (change found).selector = found.selector) :
    Numbered { captured with scopes := captured.scopes.modify scope change } := by
  have counted := numbered.counted
  have selectors := numbered.selectors
  refine ⟨(captured.scopes.keys_modify scope change).symm ▸ numbered.distinctScopes,
    fun owner => ?_, fun owner => ?_⟩
  · simpa only [count, entriesOf, KeyedTable.modify, filter_map, length_map, Function.comp_def,
      apply_ite Prod.snd, apply_ite CapturedScope.owner, sameOwner, ite_self] using counted owner
  · simpa only [entriesOf, KeyedTable.modify, filter_map, map_map, length_map, Function.comp_def,
      apply_ite Prod.snd, apply_ite CapturedScope.owner, apply_ite CapturedScope.selector,
      sameOwner, sameSelector, ite_self] using selectors owner

theorem distinct (numbered : captured.Numbered) (id other : ScopeId) (found found' : CapturedScope)
    (isFound : captured.scopes.get? id = some found)
    (isFound' : captured.scopes.get? other = some found') (sameOwner : found.owner = found'.owner)
    (sameSelector : found.selector = found'.selector) : id = other := by
  have member : (id, found) ∈ captured.entriesOf found'.owner :=
    mem_filter.mpr ⟨KeyedTable.mem_entries_of_get? isFound, by simpa using sameOwner⟩
  have member' : (other, found') ∈ captured.entriesOf found'.owner :=
    mem_filter.mpr ⟨KeyedTable.mem_entries_of_get? isFound', by simp⟩
  have separated := inj_on_of_nodup_map (numbered.selectors found'.owner ▸ nodup_range)
  exact congrArg Prod.fst (separated member member' sameSelector)

theorem mem_entriesOf (numbered : captured.Numbered) :
    (scope, found) ∈ captured.entriesOf owner ↔
      captured.scopes.get? scope = some found ∧ found.owner = owner := by
  simp only [entriesOf, mem_filter, decide_eq_true_eq]
  exact and_congr_left fun _ =>
    ⟨KeyedTable.get?_eq_some_of_mem numbered.distinctScopes, KeyedTable.mem_entries_of_get?⟩

theorem getElem?_entriesOf (numbered : captured.Numbered) {index : Nat} :
    (captured.entriesOf owner)[index]? = some (scope, found) ↔
      captured.scopes.get? scope = some found ∧ found.owner = owner ∧ found.selector = index := by
  have selector_eq : ∀ {place : Nat} {entry}, (captured.entriesOf owner)[place]? = some entry →
      entry.2.selector = place := by
    intro place entry isEntry
    have selectors := congrArg (·[place]?) (numbered.selectors owner)
    obtain ⟨bound, _⟩ := List.getElem?_eq_some_iff.mp isEntry
    simpa [isEntry, getElem?_range bound] using selectors
  constructor
  · intro isEntry
    obtain ⟨isFound, isOwner⟩ := numbered.mem_entriesOf.mp (mem_of_getElem? isEntry)
    exact ⟨isFound, isOwner, selector_eq isEntry⟩
  · rintro ⟨isFound, isOwner, rfl⟩
    obtain ⟨place, isEntry⟩ :=
      mem_iff_getElem?.mp (numbered.mem_entriesOf.mpr ⟨isFound, isOwner⟩)
    rwa [selector_eq isEntry]

/-- The scopes of an owner are kept in the order of their selectors, so to sort them changes
nothing. -/
theorem sortedOf_eq (numbered : captured.Numbered) (owner : ScopeOwner) :
    captured.sortedOf owner = (captured.entriesOf owner).map (·.2) := by
  have ascending : ((captured.entriesOf owner).map (·.2.selector)).Pairwise (· ≤ ·) := by
    rw [numbered.selectors owner]
    exact pairwise_lt_range.imp Nat.le_of_lt
  rw [sortedOf, ownedBy_eq]
  exact sortBy_of_pairwise (by simpa [pairwise_map] using ascending)

theorem bootstrap_eq (numbered : captured.Numbered) (owner : ScopeOwner) :
    captured.bootstrap owner = if captured.entriesOf owner = [] then [] else [
      .var (captured.arrayName owner) (.call (.var "Array")
        [.nat (captured.entriesOf owner).length]),
      .function (captured.accessor owner)] := by
  cases isEntries : captured.entriesOf owner <;>
    simp [bootstrap, arrayDeclaration?, accessor?, numbered.counted, ownedBy_eq, isEntries]

end Numbered

end CapturedScopes

/-! ## Requests -/

inductive ScopeRequest where
  | capture (scope : ScopeId) (owner : ScopeOwner) (slotCount : Nat)
  | setSlot (scope : ScopeId) (slot : Nat) (value : Expr)

namespace ScopeRequest

def scope : ScopeRequest → ScopeId
  | .capture scope _ _ => scope
  | .setSlot scope _ _ => scope

def apply (captured : CapturedScopes) : ScopeRequest → CapturedScopes
  | .capture scope owner slotCount => captured.capture scope owner slotCount
  | .setSlot scope slot value => (captured.setSlot scope slot value).toOption.getD captured

def capture? (scope : ScopeId) : ScopeRequest → Option (ScopeOwner × Nat)
  | .capture other owner slotCount => if other = scope then some (owner, slotCount) else none
  | .setSlot _ _ _ => none

def value? (scope : ScopeId) (slot : Nat) : ScopeRequest → Option Expr
  | .capture _ _ _ => none
  | .setSlot other index value => if other = scope ∧ index = slot then some value else none

def firstCapture? (requests : List ScopeRequest) (scope : ScopeId) : Option (ScopeOwner × Nat) :=
  requests.findSome? (capture? scope)

def lastValue? (requests : List ScopeRequest) (scope : ScopeId) (slot : Nat) : Option Expr :=
  (requests.dropWhile fun request => (request.capture? scope).isNone).reverse.findSome?
    (value? scope slot)

def slotArray (requests : List ScopeRequest) (scope : ScopeId) : Expr :=
  .array ((List.range ((firstCapture? requests scope).elim 0 (·.2))).map fun slot =>
    (lastValue? requests scope slot).getD .undefined)

variable {captured : CapturedScopes} {request : ScopeRequest} {requests : List ScopeRequest}
  {scope : ScopeId} {found : CapturedScope}

theorem firstCapture?_append (requests : List ScopeRequest) (request : ScopeRequest)
    (scope : ScopeId) :
    firstCapture? (requests ++ [request]) scope =
      (firstCapture? requests scope).or (request.capture? scope) := by
  simp [firstCapture?, findSome?_append]

theorem lastValue?_append (requests : List ScopeRequest) (request : ScopeRequest)
    (scope : ScopeId) (slot : Nat) :
    lastValue? (requests ++ [request]) scope slot =
      if (firstCapture? requests scope).isSome then
        (request.value? scope slot).or (lastValue? requests scope slot)
      else none := by
  have captured_iff : (requests.dropWhile fun request => (request.capture? scope).isNone).isEmpty =
      (firstCapture? requests scope).isNone := by
    rw [Bool.eq_iff_iff]
    simp [firstCapture?, dropWhile_eq_nil_iff]
  simp only [lastValue?, dropWhile_append, captured_iff]
  cases firstCapture? requests scope with
  | some first => simp [findSome?_cons]; cases value? scope slot request <;> rfl
  | none => cases request <;> simp [dropWhile_cons, capture?, value?, apply_ite]

/-- Only a request about a scope changes what is kept of it. -/
theorem get?_apply_of_ne (captured : CapturedScopes) (different : request.scope ≠ scope) :
    (request.apply captured).scopes.get? scope = captured.scopes.get? scope := by
  cases request with
  | capture other owner slotCount =>
    exact (captured.get?_capture other scope owner slotCount).trans (if_neg different)
  | setSlot other slot value =>
    rw [apply, CapturedScopes.setSlot_getD, KeyedTable.get?_modify]
    exact if_neg (Ne.symm different)

theorem exists_get?_apply (isFound : captured.scopes.get? scope = some found)
    (request : ScopeRequest) :
    ∃ later, (request.apply captured).scopes.get? scope = some later ∧
      later.selector = found.selector ∧ later.owner = found.owner := by
  cases request with
  | capture other owner slotCount =>
    exact ⟨found, by simp [apply, CapturedScopes.get?_capture, isFound], rfl, rfl⟩
  | setSlot other slot value =>
    by_cases same : other = scope
    · refine ⟨{ found with slots := found.slots.insert slot value }, ?_, rfl, rfl⟩
      simp [apply, CapturedScopes.setSlot_getD, KeyedTable.get?_modify, same, isFound]
    · have different : (setSlot other slot value).scope ≠ scope := same
      exact ⟨found, (get?_apply_of_ne captured different).trans isFound, rfl, rfl⟩

theorem numbered_apply (numbered : captured.Numbered) (request : ScopeRequest) :
    (request.apply captured).Numbered := by
  cases request with
  | capture scope owner slotCount => exact numbered.capture scope owner slotCount
  | setSlot scope slot value =>
    rw [apply, CapturedScopes.setSlot_getD]
    exact numbered.modify scope (fun _ => rfl) fun _ => rfl

/-- What is kept of a scope is what the requests say about it. -/
structure Describes (requests : List ScopeRequest) (scope : ScopeId)
    (kept : Option CapturedScope) : Prop where
  first : firstCapture? requests scope = kept.map fun found => (found.owner, found.slotCount)
  slots : ∀ found, kept = some found → ∀ slot, found.slots.get? slot =
    lastValue? requests scope slot

theorem describes_apply (describes : Describes requests scope (captured.scopes.get? scope))
    (request : ScopeRequest) :
    Describes (requests ++ [request]) scope ((request.apply captured).scopes.get? scope) := by
  obtain ⟨first, slots⟩ := describes
  constructor
  · rw [firstCapture?_append, first]
    cases request with
    | capture other owner slotCount =>
      simp only [apply, CapturedScopes.get?_capture, capture?]
      cases captured.scopes.get? scope <;> simp [apply_ite]
    | setSlot other slot value =>
      simp only [apply, CapturedScopes.setSlot_getD, KeyedTable.get?_modify, capture?,
        Option.or_none]
      split
      · simp [Function.comp_def]
      · rfl
  · intro found isFound index
    rw [lastValue?_append, first]
    cases request with
    | capture other owner slotCount =>
      simp only [apply, CapturedScopes.get?_capture] at isFound
      cases known : captured.scopes.get? scope with
      | none =>
        -- A scope that is captured now has no slot that is set.
        rw [known] at isFound
        split at isFound <;> cases isFound
        rfl
      | some old =>
        obtain rfl : old = found := by simpa [known] using isFound
        simp [value?, slots old known]
    | setSlot other slot value =>
      simp only [apply, CapturedScopes.setSlot_getD, KeyedTable.get?_modify] at isFound
      split at isFound
      · rename_i same
        subst same
        obtain ⟨old, known, rfl⟩ := Option.map_eq_some_iff.mp isFound
        rw [KeyedTable.get?_insert, slots old known]
        by_cases sameSlot : slot = index <;> simp [value?, known, sameSlot]
      · rename_i different
        simp [value?, isFound, Ne.symm different, slots found isFound]

end ScopeRequest

namespace CapturedScopes

open ScopeRequest

def serve (suffixes : KeyedTable ValueId Nat) (requests : List ScopeRequest) : CapturedScopes :=
  requests.foldl ScopeRequest.apply { rootSuffixes := suffixes }

variable (suffixes : KeyedTable ValueId Nat) (requests : List ScopeRequest)

theorem serve_append (later : List ScopeRequest) :
    serve suffixes (requests ++ later) = later.foldl ScopeRequest.apply (serve suffixes requests) :=
  foldl_append

theorem numbered_serve : (serve suffixes requests).Numbered :=
  foldlRecOn requests _ (numbered_empty suffixes) fun _ numbered request _ =>
    numbered_apply numbered request

theorem describes_serve (scope : ScopeId) :
    Describes requests scope ((serve suffixes requests).scopes.get? scope) := by
  induction requests using List.reverseRecOn with
  | nil => exact ⟨rfl, fun _ isFound => by cases isFound⟩
  | append_singleton requests request induction =>
    rw [serve_append]
    exact describes_apply induction request

theorem exists_get?_serve {scope : ScopeId} {found : CapturedScope}
    (isFound : (serve suffixes requests).scopes.get? scope = some found)
    (later : List ScopeRequest) :
    ∃ found', (serve suffixes (requests ++ later)).scopes.get? scope = some found' ∧
      found'.selector = found.selector ∧ found'.owner = found.owner := by
  rw [serve_append]
  generalize serve suffixes requests = captured at isFound ⊢
  induction later generalizing captured found with
  | nil => exact ⟨found, isFound, rfl, rfl⟩
  | cons request later induction =>
    obtain ⟨next, isNext, sameSelector, sameOwner⟩ := exists_get?_apply isFound request
    rw [← sameSelector, ← sameOwner]
    exact induction _ isNext

/-- The list holds the captured scopes of an owner in the order of their selectors. -/
structure Selects (captured : CapturedScopes) (owner : ScopeOwner) (scopes : List ScopeId) :
    Prop where
  distinct : scopes.Nodup
  owned : ∀ scope, scope ∈ scopes ↔ captured.owner scope = .ok owner
  selected : ∀ scope selector, scopes[selector]? = some scope ↔
    captured.owner scope = .ok owner ∧ captured.selector scope = .ok selector

theorem Numbered.selects {captured : CapturedScopes} (numbered : captured.Numbered)
    (owner : ScopeOwner) : captured.Selects owner ((captured.entriesOf owner).map (·.1)) where
  distinct := numbered.distinctScopes.sublist (filter_sublist.map _)
  owned scope := by simp [owner_eq_ok, numbered.mem_entriesOf]
  selected scope selector := by
    simp only [getElem?_map, Option.map_eq_some_iff, Prod.exists, exists_and_right,
      exists_eq_right, numbered.getElem?_entriesOf, owner_eq_ok, selector_eq_ok]
    grind

/-- The cases of an accessor create the arrays of the owner's scopes in the order of their
selectors. -/
theorem map_accessorCase_sortedOf (owner : ScopeOwner) :
    ((serve suffixes requests).sortedOf owner).map accessorCase =
      (((serve suffixes requests).entriesOf owner).map (·.1)).mapIdx fun selector scope =>
        { test := .nat selector
          body := [.assign (.var "__captured") (ScopeRequest.slotArray requests scope),
            .breakLoop] } := by
  refine ext_getElem? fun index => ?_
  simp only [(numbered_serve suffixes requests).sortedOf_eq, map_map, getElem?_map, getElem?_mapIdx]
  cases isEntry : ((serve suffixes requests).entriesOf owner)[index]? with
  | none => rfl
  | some entry =>
    obtain ⟨scope, found⟩ := entry
    obtain ⟨isFound, _, rfl⟩ := (numbered_serve suffixes requests).getElem?_entriesOf.mp isEntry
    obtain ⟨first, slots⟩ := describes_serve suffixes requests scope
    simp [accessorCase, CapturedScopes.slotArray, ScopeRequest.slotArray, first, isFound,
      slots found isFound]

/-- Selectors count the scopes of an owner from zero, the accessor of the owner has one case for
each of them, and requests about a scope neither renumber it nor touch any other scope. -/
theorem bootstrap_matchesSelectors (owner : ScopeOwner) :
    (∃ scopes : List ScopeId, (serve suffixes requests).Selects owner scopes ∧
      (∀ scope, scope ∈ scopes ↔ (firstCapture? requests scope).map (·.1) = some owner) ∧
      (scopes = [] → (serve suffixes requests).bootstrap owner = []) ∧
      (scopes ≠ [] → (serve suffixes requests).bootstrap owner = [
        .var ((serve suffixes requests).arrayName owner)
          (.call (.var "Array") [.nat scopes.length]),
        .function {
          name := some ((serve suffixes requests).accessorName owner)
          params := [.plain "__selector"]
          body := [
            .declare .var "__captured" none,
            .switch (.var "__selector")
              (scopes.mapIdx fun selector scope =>
                { test := .nat selector
                  body := [.assign (.var "__captured") (ScopeRequest.slotArray requests scope),
                    .breakLoop] })
              (some [.throwMessage "Unknown scope selector"]),
            .assign (.index (.var ((serve suffixes requests).arrayName owner)) (.var "__selector"))
              (.var "__captured"),
            .returnValue (some (.var "__captured"))] }])) ∧
    (∀ later scope selector, (serve suffixes requests).selector scope = .ok selector →
      (serve suffixes (requests ++ later)).selector scope = .ok selector) ∧
    (∀ later scope owner, (serve suffixes requests).owner scope = .ok owner →
      (serve suffixes (requests ++ later)).owner scope = .ok owner) ∧
    ∀ request scope, request.scope ≠ scope →
      (serve suffixes (requests ++ [request])).get scope = (serve suffixes requests).get scope := by
  have numbered := numbered_serve suffixes requests
  refine ⟨⟨((serve suffixes requests).entriesOf owner).map (·.1), numbered.selects owner, ?_, ?_,
    ?_⟩, ?_, ?_, ?_⟩
  · intro scope
    rw [(numbered.selects owner).owned, owner_eq_ok]
    simp [(describes_serve suffixes requests scope).first]
  · intro isEmpty
    rw [numbered.bootstrap_eq, if_pos (map_eq_nil_iff.mp isEmpty)]
  · intro nonempty
    rw [← map_accessorCase_sortedOf, length_map, numbered.bootstrap_eq,
      if_neg (mt map_eq_nil_iff.mpr nonempty)]
    rfl
  · intro later scope selector isSelector
    obtain ⟨found, isFound, rfl⟩ := selector_eq_ok.mp isSelector
    obtain ⟨later, isLater, same, _⟩ := exists_get?_serve suffixes requests isFound later
    exact selector_eq_ok.mpr ⟨later, isLater, same⟩
  · intro later scope owner isOwner
    obtain ⟨found, isFound, rfl⟩ := owner_eq_ok.mp isOwner
    obtain ⟨later, isLater, _, same⟩ := exists_get?_serve suffixes requests isFound later
    exact owner_eq_ok.mpr ⟨later, isLater, same⟩
  · intro request scope different
    rw [serve_append, get, get, foldl_cons, foldl_nil, get?_apply_of_ne _ different]

end CapturedScopes

end HeapScript
