import HeapScript.Proofs.Session.UsedNames

/-!
Variables for captured scopes in what a session writes.

Each function declares the variables for the scopes that it captures, so nothing outside of the
functions may use them. No statement of a session does, nor any expression that it keeps for later,
unless the graph itself has such a name.
-/

namespace HeapScript

open List

/-! ## Scope variables among names -/

/-- The variables for captured scopes among some names are given, or have numbers below a bound. -/
def ScopesBelow (given : String → Prop) (bound : Nat) (names : List String) : Prop :=
  ∀ position, scopeLocalName position ∈ names → given (scopeLocalName position) ∨ position < bound

namespace ScopesBelow

variable {given : String → Prop} {bound : Nat} {names others : List String}

theorem nil : ScopesBelow given bound [] :=
  fun _ member => absurd member not_mem_nil

theorem append_iff : ScopesBelow given bound (names ++ others) ↔
    ScopesBelow given bound names ∧ ScopesBelow given bound others := by
  simp only [ScopesBelow, mem_append, or_imp, forall_and]

theorem mono {given' : String → Prop} {bound' : Nat} (below : ScopesBelow given bound names)
    (gives : ∀ name, given name → given' name) (larger : bound ≤ bound') :
    ScopesBelow given' bound' names :=
  fun position member => (below position member).imp (gives _) (Nat.lt_of_lt_of_le · larger)

theorem exprs_iff {exprs : List Expr} : ScopesBelow given bound (usedNamesOfExprs true exprs) ↔
    ∀ expr ∈ exprs, ScopesBelow given bound (expr.usedNames true) := by
  simp only [ScopesBelow, mem_usedNamesOfExprs]
  grind

theorem stmts_iff {stmts : List Stmt} : ScopesBelow given bound (usedNamesOfStmts true stmts) ↔
    ∀ stmt ∈ stmts, ScopesBelow given bound (stmt.usedNames true) := by
  induction stmts with
  | nil => simp [usedNamesOfStmts, nil]
  | cons stmt stmts induction => simp [usedNamesOfStmts, append_iff, induction]

theorem cases_iff {cases_ : List SwitchCase} :
    ScopesBelow given bound (usedNamesOfCases true cases_) ↔ ∀ item ∈ cases_,
      ScopesBelow given bound (item.test.usedNames true) ∧
        ∀ stmt ∈ item.body, ScopesBelow given bound (stmt.usedNames true) := by
  induction cases_ with
  | nil => simp [usedNamesOfCases, nil]
  | cons item cases_ induction =>
    obtain ⟨test, body⟩ := item
    simp [usedNamesOfCases, append_iff, stmts_iff, induction, and_assoc]

theorem of_letter {name : String} (index : Nat) (letter : Char)
    (isLetter : name.toList[index]? = some letter)
    (different : "__scope_".toList[index]?.any (· != letter) = true) :
    ScopesBelow given bound [name] := by
  intro position member
  obtain ⟨own, isOwn, different⟩ := (Option.any_eq_true ..).mp different
  have ownLetter : (scopeLocalName position).toList[index]? = some own := letter_append _ isOwn
  rw [mem_singleton.mp member, isLetter] at ownLetter
  exact absurd (Option.some.inj ownLetter).symm (bne_iff_ne.mp different)

end ScopesBelow

namespace Session

variable {context : Context} {session : Session} {bound : Nat}

theorem scopesBelow_value (named : Named context session) {given : String → Prop} {id : ValueId}
    {name : String} (isNamed : session.HasName id name) : ScopesBelow given bound [name] := by
  intro position member
  exact absurd (mem_singleton.mp member).symm
    (named.ne_of_line isNamed (letter_append _ (by decide)))

theorem scopesBelow_path {path : String} (isPath : path ∈ context.outsidePaths) :
    ScopesBelow (· ∈ context.outsideNames) bound ((Expr.path path).usedNames true) := by
  intro position member
  rw [(Expr.isChain_path path).usedNames_eq] at member
  exact .inl (mem_outsideNames isPath member)

theorem scopesBelow_sharedName {given : String → Prop} (number : Nat) :
    ScopesBelow given bound [sharedName number] :=
  .of_letter 2 'c' (letter_append _ (by decide)) (by decide)

theorem scopesBelow_object {given : String → Prop} : ScopesBelow given bound ["Object"] :=
  .of_letter 0 'O' (by decide) (by decide)

/-- A name that means something in a body is no variable for a captured scope, unless it is one from
outside. -/
theorem MeansAll.scopesBelow {body : BodyId} {names : List String}
    (meansAll : session.MeansAll context body names) (named : Named context session) :
    ScopesBelow (· ∈ context.outsideNames) bound names := by
  intro position member
  have alone : ∀ {name}, scopeLocalName position = name →
      scopeLocalName position ∈ [name] := fun same => mem_singleton.mpr same
  cases meansAll _ member with
  | outside isOutside => exact .inl isOutside
  | value id isNamed _ => exact scopesBelow_value named isNamed position (alone rfl)
  | filled _ _ _ _ isParam =>
    exact ScopesBelow.of_letter 0 'o' (by decide) (by decide) position (alone isParam)
  | shared number isShared => exact scopesBelow_sharedName number position (alone isShared)

end Session

theorem scopesBelow_of_writeHeap {context : Context} {written : Written}
    (isWritten : writeHeap context = .ok written) {body : BodyId} {stmt : Stmt}
    (member : stmt ∈ written.session.bodies.stmts body) (bound : Nat) :
    ScopesBelow (· ∈ context.outsideNames) bound (stmt.usedNames true) := by
  obtain ⟨rfl, complete⟩ := writeHeap_eq_ok isWritten
  obtain ⟨entries, accounts⟩ := exists_accounts isWritten
  rw [accounts.stmts] at member
  obtain ⟨entry, isEntry, rfl⟩ := mem_map.mp member
  obtain ⟨_, serves⟩ := accounts.records entry (mem_filter.mp isEntry).1
  exact serves.meansAll.scopesBelow complete.kept.named

end HeapScript
