import HeapScript.Proofs.Assembly.Factories
import HeapScript.Proofs.FreeNames.Declarations
import HeapScript.Proofs.Session.Outcome

/-!
What the code of a heap and the helpers of a script declare: never the name of a value.
-/

namespace HeapScript

open List

theorem mem_declaredIn_blocksOf {stmts : List Stmt} {name : String} :
    name ∈ declaredIn (blocksOf stmts) ↔
      ∃ stmt ∈ stmts, name ∈ stmt.declares ∨ name ∈ declaredIn stmt.blocks := by
  have within : name ∈ declaredIn (blocksWithin stmts) ↔
      ∃ stmt ∈ stmts, name ∈ declaredIn stmt.blocks := by
    induction stmts with
    | nil => simp [blocksWithin]
    | cons stmt stmts induction => simp [blocksWithin, induction]
  simp only [blocksOf, declaredIn_cons, mem_append, within, mem_flatMap]
  constructor
  · rintro (⟨stmt, member, declared⟩ | ⟨stmt, member, declared⟩)
    · exact ⟨stmt, member, .inl declared⟩
    · exact ⟨stmt, member, .inr declared⟩
  · rintro ⟨stmt, member, declared | declared⟩
    · exact .inl ⟨stmt, member, declared⟩
    · exact .inr ⟨stmt, member, declared⟩

theorem FunctionDef.blocks_eq (definition : FunctionDef) :
    definition.blocks = blocksOfParams definition.params ++ blocksOf definition.body := by
  cases definition
  rfl

/-! ## Names that no value has -/

/-- The names that a script declares for its own use. -/
inductive IsHelper : String → Prop where
  | factory (number : Nat) : IsHelper s!"$f_{number}"
  | capture (number : Nat) : IsHelper (Session.sharedName number)
  | flag (number : Nat) : IsHelper s!"__init_{number}"
  | scopeArray (captured : CapturedScopes) (owner : ScopeOwner) :
      IsHelper (captured.arrayName owner)
  | accessor (captured : CapturedScopes) (owner : ScopeOwner) :
      IsHelper (captured.accessorName owner)
  | slots : IsHelper "__captured"
  | scope (position : Nat) : IsHelper (scopeLocalName position)
  | selector (position : Nat) : IsHelper (selectorParamName position)
  | initializer : IsHelper "__lazyObjectInitializer"
  | loop : IsHelper loopTemporary

theorem starts_append {start text : String} (rest : String)
    (starts : start.toList <+: text.toList) : start.toList <+: (text ++ rest).toList := by
  rw [String.toList_append]
  exact starts.trans (prefix_append _ _)

theorem IsHelper.starts {name : String} (isHelper : IsHelper name) :
    "__".toList <+: name.toList ∨ "$f_".toList <+: name.toList := by
  cases isHelper with
  | factory => exact .inr (starts_append _ (by decide))
  | slots | initializer | loop => exact .inl (by decide)
  | _ => exact .inl (starts_append _ (by decide))

def HeapGraph.Mentions (graph : HeapGraph) (name : String) : Prop :=
  (∃ code ∈ graph.codeBlocks.toList,
    name ∈ code.function.ownName.toList ++ code.function.names) ∨
  ∃ root ∈ graph.roots, name ∈ namesOfStmts root.body

namespace Written

variable {written : Written} {name : String}

def Foreign (written : Written) (name : String) : Prop :=
  ∀ id, written.session.identifiers.get? id ≠ some name

def Given (written : Written) (name : String) : Prop :=
  written.context.graph.Mentions name ∨ IsHelper name

/-! ## Code and helpers -/

theorem given_code {id : CodeId} {code : CodeBlock} (isCode : written.IsCode id code)
    (declared : name ∈ declaredIn code.function.blocks) : written.Given name :=
  .inl (.inl ⟨code, Arena.mem_toList_of_get? (HeapGraph.codeBlock_eq_ok.mp isCode),
    mem_append_right _ (FunctionDef.mem_names declared)⟩)

theorem given_replace {id : CodeId} {code : CodeBlock} (isCode : written.IsCode id code)
    {replacements : Replacements} (plain : replacements.Plain)
    (declared : name ∈ declaredIn (code.function.replace replacements).blocks) :
    written.Given name := by
  by_cases isTemporary : name = loopTemporary
  · exact .inr (isTemporary ▸ .loop)
  · exact given_code isCode (FunctionDef.declared_of_replace plain isTemporary declared)

theorem given_prologue {inst : FunctionInstance}
    {selector : Nat → ScopeId → Except Failure Expr} {prologue : List Stmt}
    (found : written.scopePrologue inst selector = .ok prologue)
    (plain : ∀ position scope expr, selector position scope = .ok expr → expr.blocks = [])
    (declared : name ∈ declaredIn (blocksOf prologue)) : written.Given name := by
  obtain ⟨stmt, member, declared⟩ := mem_declaredIn_blocksOf.mp declared
  obtain ⟨⟨scope, position⟩, -, isStmt⟩ := exists_of_mem_mapM found member
  obtain ⟨index, isIndex, isStmt⟩ := bind_eq_ok.mp isStmt
  obtain ⟨owner, -, rfl⟩ := initialization_eq_ok.mp isStmt
  have noBlocks : (written.scopeVariable position owner index).blocks = [] := by
    simp [scopeVariable, Stmt.var, Stmt.blocks, Expr.blocks, blocksOfExprs,
      plain position scope index isIndex]
  rw [noBlocks] at declared
  obtain rfl : name = scopeLocalName position := by
    simpa [scopeVariable, Stmt.var, Stmt.declares] using declared
  exact .inr (.scope position)

theorem plain_selectorLiteral {scope : ScopeId} {expr : Expr}
    (found : written.selectorLiteral scope = .ok expr) : expr.blocks = [] := by
  obtain ⟨_, _, rfl⟩ := selectorLiteral_eq_ok.mp found
  rfl

namespace Complete

section

variable (complete : written.Complete)

include complete

theorem foreign_of_helper (isHelper : IsHelper name) : written.Foreign name := by
  intro id named
  rcases isHelper.starts with starts | starts
  · exact complete.kept.named.ne_of_line named (prefix_iff_getElem?.mp starts 1 (by decide)) rfl
  · refine complete.kept.named.ne_of_letter named ?_ rfl
    rw [prefix_iff_getElem?.mp starts 0 (by decide)]
    decide

theorem foreign_of_given (facts : written.context.facts = written.context.graph.codeFacts)
    (given : written.Given name) :
    written.Foreign name := by
  rcases given with (⟨code, isCode, mentioned⟩ | ⟨root, isRoot, mentioned⟩) | isHelper
  · exact fun _ named => complete.kept.named.not_mem_code facts named isCode mentioned
  · exact fun _ named => complete.kept.named.not_mem_root named isRoot mentioned
  · exact complete.foreign_of_helper isHelper

theorem plain_modules {id : ValueId} {inst : FunctionInstance}
    (isInstance : written.session.HasInstance id inst) :
    ∀ entry ∈ inst.modules.entries, entry.2.blocks = [] := by
  obtain ⟨function, facts⟩ := complete.facts isInstance
  exact fun entry member => (facts.modules entry member).blocks

theorem plain_replacementFor {inst : FunctionInstance} {value : Expr}
    (found : written.replacementFor inst name = .ok (some value)) :
    value.blocks = [] := by
  obtain ⟨key, binding, resolves⟩ := resolves_of_replacementFor found
  exact (resolves.isReference complete).blocks

theorem plain_replacementsFor {id : ValueId} {inst : FunctionInstance} {replacements : Replacements}
    (isInstance : written.session.HasInstance id inst)
    (found : written.replacementsFor inst = .ok replacements) :
    replacements.Plain := by
  obtain ⟨names, areNames, same⟩ := bind_eq_ok.mp found
  obtain rfl := pure_eq_ok.mp same
  refine ⟨fun entry member => ?_, complete.plain_modules isInstance⟩
  obtain ⟨name, -, isName⟩ := exists_of_mem_mapM areNames (reduceOption_mem_iff.mp member)
  obtain ⟨replacement, isReplacement, same⟩ := bind_eq_ok.mp isName
  obtain ⟨value, rfl, rfl⟩ := Option.map_eq_some_iff.mp (pure_eq_ok.mp same)
  exact complete.plain_replacementFor isReplacement

theorem given_verbatim {record : RootRecord} (member : record ∈ written.roots)
    (declared : name ∈ declaredIn (blocksOf record.verbatim)) :
    written.Given name := by
  obtain ⟨root, isRoot, -, -, isBody, -⟩ := (complete.records record member).root
  exact .inl (.inr ⟨root, isRoot, mem_names_of_stmts (isBody ▸ declared)⟩)

theorem given_bootstrap {owner : ScopeOwner}
    (declared : name ∈ declaredIn (blocksOf (written.session.captured.bootstrap owner))) :
    written.Given name := by
  have slotArrays : ∀ scope ∈ written.session.captured.ownedBy owner,
      (CapturedScopes.slotArray scope).blocks = [] := by
    intro scope member
    have inside := (mem_filter.mp member).1
    have plain : ∀ slot, ((scope.slots.get? slot).getD .undefined).blocks = [] := by
      intro slot
      cases found : scope.slots.get? slot with
      | none => rfl
      | some value =>
        have isValue : value ∈ scope.slots.values :=
          mem_map.mpr ⟨_, KeyedTable.mem_entries_of_get? found, rfl⟩
        exact (complete.kept.slots scope inside value isValue).blocks
    simp only [CapturedScopes.slotArray, Expr.blocks]
    induction List.range scope.slotCount with
    | nil => rfl
    | cons slot slots induction => simp [blocksOfExprs, plain, induction]
  have cases_ : ∀ scopes, scopes ⊆ written.session.captured.ownedBy owner →
      declaredIn (blocksOfCases (scopes.map CapturedScopes.accessorCase)) = [] := by
    intro scopes inside
    induction scopes with
    | nil => rfl
    | cons scope scopes induction =>
      have rest := induction fun _ member => inside (mem_cons_of_mem _ member)
      simp [blocksOfCases, CapturedScopes.accessorCase, Expr.blocks, Expr.nat, blocksWithin,
        Stmt.blocks, Stmt.declares, slotArrays scope (inside mem_cons_self), rest]
  have noCases := cases_ _ fun _ => CapturedScopes.mem_sortedOf.mp
  have names : name = written.session.captured.arrayName owner ∨
      name = written.session.captured.accessorName owner ∨ name = "__captured" := by
    unfold CapturedScopes.bootstrap CapturedScopes.arrayDeclaration? CapturedScopes.accessor?
      at declared
    split_ifs at declared <;>
      simp [blocksOf, blocksWithin, Stmt.var, Stmt.blocks, Stmt.declares, Expr.blocks, Expr.nat,
        blocksOfExprs, CapturedScopes.accessor, FunctionDef.blocks, blocksOfParams, noCases,
        Stmt.throwMessage, Expr.string] at declared <;> grind
  rcases names with rfl | rfl | rfl
  · exact .inr (.scopeArray _ owner)
  · exact .inr (.accessor _ owner)
  · exact .inr .slots

end

end Complete

end Written

end HeapScript
