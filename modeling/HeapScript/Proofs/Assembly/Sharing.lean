import HeapScript.Proofs.Assembly.Definitions
import HeapScript.Proofs.Session.Naming

/-!
Captured variables that are assigned keep exactly their sharing.

Each modified binding has a place of its own: a variable, or a slot of the array of its scope. The
code of every instance uses this place for every name that is bound to the binding, so two names
share a place if and only if they share a binding.
-/

namespace HeapScript

open List

variable {root : Root}

/-! ## Modified bindings -/

/-- A binding is assigned after it has been captured: its scope says so, a function assigns it, or
an optimized root does at its end. -/
inductive HeapGraph.Modified (graph : HeapGraph) (key : BindingKey) : Prop where
  | recorded {scope : Scope} (isScope : graph.scopes.get? key.scope = some scope)
      (isRecorded : key.name ∈ scope.modified)
  | assigned {id : ValueId} {function : FunctionValue} {code : CodeBlock}
      (isFunction : graph.values.get? id = some (.function function))
      (isCode : graph.codeBlock function.code = .ok code)
      (assigns : key.name ∈ code.function.facts.modified)
      (resolves : graph.bindingKey? function.environment key.name = some key)
  | listed {root : Root} {function : FunctionValue} (isRoot : root ∈ graph.roots)
      (isFunction : graph.values.get? root.function = some (.function function))
      (lists : key.name ∈ root.modifiedBindings.map (·.1))
      (resolves : graph.bindingKey? function.environment key.name = some key)

namespace HeapGraph

variable {graph : HeapGraph} {key : BindingKey} {id : ValueId} {function : FunctionValue}
  {code : CodeBlock} {marked : List BindingKey}

theorem bindingKey?_eq_some {environment : Option ScopeId} {name : String} :
    graph.bindingKey? environment name = some key ↔
      graph.declaringScope? environment name = some key.scope ∧ name = key.name := by
  obtain ⟨scope, own⟩ := key
  simp only [bindingKey?, Option.map_eq_some_iff, BindingKey.mk.injEq]
  constructor
  · rintro ⟨_, isScope, rfl, rfl⟩
    exact ⟨isScope, rfl⟩
  · rintro ⟨isScope, rfl⟩
    exact ⟨scope, isScope, rfl, rfl⟩

theorem declaringScope?_none (graph : HeapGraph) (name : String) :
    graph.declaringScope? none name = none := by
  unfold declaringScope?
  cases graph.scopes.size <;> rfl

theorem mem_modifiedByFunction
    (found : graph.modifiedByFunction graph.codeFacts function = .ok marked)
    (isCode : graph.codeBlock function.code = .ok code)
    (isFree : key.name ∈ code.function.facts.unbound.map (·.1))
    (resolves : graph.bindingKey? function.environment key.name = some key)
    (isModified : (∃ scope, graph.scopes.get? key.scope = some scope ∧ key.name ∈ scope.modified) ∨
      key.name ∈ code.function.facts.modified) : key ∈ marked := by
  obtain ⟨isScope, _⟩ := bindingKey?_eq_some.mp resolves
  cases isEnvironment : function.environment with
  | none =>
    rw [isEnvironment, declaringScope?_none] at isScope
    cases isScope
  | some environment =>
    simp only [modifiedByFunction, isEnvironment, get?_codeFacts isCode, bind_eq_ok,
      pure_eq_ok] at found
    obtain ⟨lists, areLists, rfl⟩ := found
    obtain ⟨entry, isEntry, isName⟩ := mem_map.mp isFree
    obtain ⟨list, isList, found⟩ := exists_mem_mapM areLists isEntry
    simp only [isName, ← isEnvironment, isScope, bind_eq_ok, pure_eq_ok, scope_eq_ok] at found
    obtain ⟨scope, isScope', rfl⟩ := found
    refine mem_flatten.mpr ⟨_, isList, ?_⟩
    rw [if_pos]
    · exact mem_singleton.mpr rfl
    · refine isModified.imp_left ?_
      rintro ⟨scope', isScope'', recorded⟩
      rwa [Option.some.inj (isScope'.symm.trans isScope'')]

theorem mem_modifiedByRoot (found : graph.modifiedByRoot root = .ok marked)
    (isFunction : graph.values.get? root.function = some (.function function))
    (lists : key.name ∈ root.modifiedBindings.map (·.1))
    (resolves : graph.bindingKey? function.environment key.name = some key) : key ∈ marked := by
  simp only [modifiedByRoot, bind_eq_ok, pure_eq_ok, value_eq_ok] at found
  obtain ⟨value, isValue, rfl⟩ := found
  obtain rfl := Option.some.inj (isFunction.symm.trans isValue)
  obtain ⟨entry, isEntry, isName⟩ := mem_map.mp lists
  refine mem_filterMap.mpr ⟨entry, isEntry, ?_⟩
  rw [← isName] at resolves
  exact resolves

theorem subset_modifiedBindings (found : graph.modifiedBindings graph.codeFacts = .ok marked) :
    (∀ entry ∈ graph.functions, ∃ keys,
      graph.modifiedByFunction graph.codeFacts entry.2 = .ok keys ∧ keys ⊆ marked) ∧
    ∀ root ∈ graph.roots, ∃ keys, graph.modifiedByRoot root = .ok keys ∧ keys ⊆ marked := by
  simp only [modifiedBindings, bind_eq_ok, pure_eq_ok] at found
  obtain ⟨byFunctions, areFunctions, byRoots, areRoots, rfl⟩ := found
  constructor
  · intro entry isEntry
    obtain ⟨keys, isList, found⟩ := exists_mem_mapM areFunctions isEntry
    exact ⟨keys, found, fun _ member =>
      mem_append_left _ (mem_flatten.mpr ⟨keys, isList, member⟩)⟩
  · intro root isRoot
    obtain ⟨keys, isList, found⟩ := exists_mem_mapM areRoots isRoot
    exact ⟨keys, found, fun _ member =>
      mem_append_right _ (mem_flatten.mpr ⟨keys, isList, member⟩)⟩

/-! Marked bindings are modified. -/

theorem exists_code_of_codeFacts {id : CodeId} {facts : FunctionFacts}
    (found : graph.codeFacts.get? id = some facts) :
    ∃ code, graph.codeBlock id = .ok code ∧ facts = code.function.facts := by
  simp only [codeFacts, Arena.get?, Arena.ofList, Arena.toList] at found
  obtain ⟨code, isCode, rfl⟩ : ∃ code, graph.codeBlocks.items[id.index]? = some code ∧
      code.function.facts = facts := by simpa using found
  exact ⟨code, codeBlock_eq_ok.mpr isCode, rfl⟩

theorem modified_of_function (isFunction : graph.values.get? id = some (.function function))
    (found : graph.modifiedByFunction graph.codeFacts function = .ok marked)
    (member : key ∈ marked) : graph.Modified key := by
  unfold modifiedByFunction at found
  split at found
  · obtain rfl := pure_eq_ok.mp found
    cases member
  · rename_i environment isEnvironment
    split at found
    · exact absurd found throw_ne_ok
    · rename_i facts areFacts
      obtain ⟨code, isCode, rfl⟩ := exists_code_of_codeFacts areFacts
      simp only [bind_eq_ok, pure_eq_ok] at found
      obtain ⟨lists, areLists, rfl⟩ := found
      obtain ⟨list, isList, isKey⟩ := mem_flatten.mp member
      obtain ⟨⟨name, _⟩, isFree, found⟩ := exists_of_mem_mapM areLists isList
      dsimp only at found
      split at found
      · obtain rfl := pure_eq_ok.mp found
        cases isKey
      · rename_i scopeId isDeclared
        obtain ⟨scope, isScope, found⟩ := bind_eq_ok.mp found
        obtain rfl := pure_eq_ok.mp found
        split at isKey
        · rename_i isModified
          obtain rfl := mem_singleton.mp isKey
          rcases isModified with recorded | assigns
          · exact .recorded (scope_eq_ok.mp isScope) recorded
          · refine .assigned isFunction isCode assigns (bindingKey?_eq_some.mpr ⟨?_, rfl⟩)
            rw [isEnvironment, isDeclared]
        · cases isKey

theorem modified_of_root (isRoot : root ∈ graph.roots)
    (found : graph.modifiedByRoot root = .ok marked) (member : key ∈ marked) :
    graph.Modified key := by
  simp only [modifiedByRoot, bind_eq_ok, pure_eq_ok, value_eq_ok] at found
  obtain ⟨value, isValue, rfl⟩ := found
  obtain ⟨⟨name, listed⟩, isListed, isKey⟩ := mem_filterMap.mp member
  obtain ⟨scope, isScope, rfl⟩ := Option.map_eq_some_iff.mp isKey
  cases value with
  | function function =>
    exact .listed isRoot isValue (mem_map.mpr ⟨_, isListed, rfl⟩)
      (bindingKey?_eq_some.mpr ⟨isScope, rfl⟩)
  | primitive _ | object _ => simp [HeapValue.asFunction?, declaringScope?_none] at isScope

theorem modified_of_mem (found : graph.modifiedBindings graph.codeFacts = .ok marked)
    (member : key ∈ marked) : graph.Modified key := by
  simp only [modifiedBindings, bind_eq_ok, pure_eq_ok] at found
  obtain ⟨byFunctions, areFunctions, byRoots, areRoots, rfl⟩ := found
  rcases mem_append.mp member with member | member
  · obtain ⟨keys, isList, isKey⟩ := mem_flatten.mp member
    obtain ⟨⟨id, function⟩, isFunction, found⟩ := exists_of_mem_mapM areFunctions isList
    exact modified_of_function (get?_of_mem_functions isFunction) found isKey
  · obtain ⟨keys, isList, isKey⟩ := mem_flatten.mp member
    obtain ⟨root, isRoot, found⟩ := exists_of_mem_mapM areRoots isList
    exact modified_of_root isRoot found isKey

end HeapGraph

namespace Context

variable {graph : HeapGraph} {settings : Settings} {context : Context} {key : BindingKey}
  {function : FunctionValue}

theorem mem_modified (prepared : Context.prepare graph settings = .ok context) {id : ValueId}
    {code : CodeBlock} (isFunction : graph.values.get? id = some (.function function))
    (isCode : graph.codeBlock function.code = .ok code)
    (isFree : key.name ∈ code.function.facts.unbound.map (·.1))
    (resolves : graph.bindingKey? function.environment key.name = some key)
    (modified : graph.Modified key) :
    key ∈ context.modified := by
  obtain ⟨_, _, _, areModified⟩ := Context.prepare_eq_ok prepared
  obtain ⟨byFunction, byRoot⟩ := HeapGraph.subset_modifiedBindings areModified
  cases modified with
  | recorded isScope isRecorded =>
    obtain ⟨_, found, inside⟩ := byFunction _ (HeapGraph.mem_functions isFunction)
    exact inside (HeapGraph.mem_modifiedByFunction found isCode isFree resolves
      (.inl ⟨_, isScope, isRecorded⟩))
  | assigned isFunction isCode assigns resolves =>
    obtain ⟨_, found, inside⟩ := byFunction _ (HeapGraph.mem_functions isFunction)
    exact inside (HeapGraph.mem_modifiedByFunction found isCode
      (FunctionDef.mem_unbound_of_modified assigns) resolves (.inr assigns))
  | listed isRoot isFunction lists resolves =>
    obtain ⟨_, found, inside⟩ := byRoot _ isRoot
    exact inside (HeapGraph.mem_modifiedByRoot found isFunction lists resolves)

end Context

/-! ## Places of bindings -/

/-- Where a captured variable is kept. -/
inductive Location where
  | shared (name : String)
  | slot (array : String) (selector slot : Nat)

def initOf? (name : String) : List Stmt → Option Expr
  | [] => none
  | .declare .var other init :: stmts => if other = name then init else initOf? name stmts
  | _ :: stmts => initOf? name stmts

/-- An expression reads and writes a place in code that starts with the given statements. -/
inductive Location.IsUsedBy (prologue : List Stmt) : Location → Expr → Prop where
  | shared (name : String) : IsUsedBy prologue (.shared name) (.var name)
  | slot {localName array accessor : String} {selector slot : Nat}
      (declared : initOf? localName prologue =
        some (.logicalOr (.index (.var array) (.nat selector))
          (.call (.var accessor) [.nat selector]))) :
      IsUsedBy prologue (.slot array selector slot) (.index (.var localName) (.nat slot))

namespace Written

variable {written : Written} {inst : FunctionInstance} {key other : BindingKey}
  {location : Location} {scope : ScopeId}

inductive StoredAt (written : Written) (key : BindingKey) : Location → Prop where
  | shared {binding : Binding} {name : String}
      (isMet : written.session.bindings.get? key = some binding)
      (isShared : binding.storage = .shared name) : StoredAt written key (.shared name)
  | slot {binding : Binding} {scope : Scope} {found : CapturedScope} {slot : Nat}
      (isMet : written.session.bindings.get? key = some binding)
      (isKept : binding.storage = .slot)
      (isScope : written.context.graph.scopes.get? key.scope = some scope)
      (captured : written.session.captured.scopes.get? key.scope = some found)
      (isSlot : scope.slot? key.name = some slot) :
      StoredAt written key
        (.slot (written.session.captured.arrayName found.owner) found.selector slot)

section

variable (complete : written.Complete)

include complete

theorem rootSuffixes_inj {root root' : ValueId} {number : Nat}
    (isNumber : written.session.captured.rootSuffixes.get? root = some number)
    (isNumber' : written.session.captured.rootSuffixes.get? root' = some number) :
    root = root' := by
  rw [complete.idle.sound.rootSuffixes] at isNumber isNumber'
  obtain ⟨⟨first, index⟩, isFirst, same⟩ := mem_map.mp (KeyedTable.mem_of_get?_ofList isNumber)
  obtain ⟨⟨second, index'⟩, isSecond, same'⟩ :=
    mem_map.mp (KeyedTable.mem_of_get?_ofList isNumber')
  cases same
  cases same'
  have same : first = second := Option.some.inj
    ((List.mem_zipIdx_iff_getElem?.mp isFirst).symm.trans
      (List.mem_zipIdx_iff_getElem?.mp isSecond))
  rw [same]

theorem owner_cases {found : CapturedScope}
    (captured : written.session.captured.scopes.get? scope = some found) :
    found.owner = none ∧ written.session.captured.suffix found.owner = "" ∨
      ∃ root number, found.owner = some root ∧
        written.session.captured.rootSuffixes.get? root = some number ∧
        written.session.captured.suffix found.owner = s!"_{number}" := by
  obtain ⟨_, _, isOwner, _⟩ := complete.idle.sound.captured scope found captured
  cases owner : found.owner with
  | none => exact .inl ⟨rfl, rfl⟩
  | some root =>
    have isRoot : (written.context.graph.root? root).isSome := by
      rw [owner, Context.ownerOf] at isOwner
      simpa using (Option.filter_eq_some_iff.mp isOwner.symm).2
    obtain ⟨record, isRecord⟩ := Option.isSome_iff_exists.mp isRoot
    have member := List.mem_of_find?_eq_some isRecord
    have same : record.function = root := by simpa using List.find?_some isRecord
    obtain ⟨number, isNumber⟩ : ∃ number,
        written.session.captured.rootSuffixes.get? root = some number := by
      rw [complete.idle.sound.rootSuffixes]
      refine KeyedTable.exists_get?_ofList ?_
      obtain ⟨index, bound, isIndex⟩ := mem_iff_getElem.mp member
      refine mem_map.mpr ⟨(record.function, index), ?_, same⟩
      exact mem_map.mpr ⟨(record, index), List.mem_zipIdx_iff_getElem?.mpr
        (List.getElem?_eq_some_iff.mpr ⟨bound, isIndex⟩), rfl⟩
    refine .inr ⟨root, number, rfl, isNumber, ?_⟩
    simp only [CapturedScopes.suffix, Option.bind_some, isNumber]

theorem arrayName_inj {scope' : ScopeId} {found found' : CapturedScope}
    (captured : written.session.captured.scopes.get? scope = some found)
    (captured' : written.session.captured.scopes.get? scope' = some found')
    (same : written.session.captured.arrayName found.owner =
      written.session.captured.arrayName found'.owner) :
    found.owner = found'.owner := by
  have suffixes : written.session.captured.suffix found.owner =
      written.session.captured.suffix found'.owner := append_cancel same
  have notEmpty : ∀ number : Nat, s!"_{number}" ≠ "" := by
    intro number isEmpty
    have letter : (s!"_{number}").toList[0]? = some '_' :=
      show ("_" ++ _).toList[0]? = some '_' from letter_append _ (by decide)
    rw [isEmpty] at letter
    cases letter
  rcases owner_cases complete captured with ⟨isOwner, empty⟩ |
    ⟨root, number, isOwner, isNumber, text⟩
  <;> rcases owner_cases complete captured' with
    ⟨isOwner', empty'⟩ | ⟨root', number', isOwner', isNumber', text'⟩
  · rw [isOwner, isOwner']
  · exact absurd (text'.symm.trans (suffixes.symm.trans empty)) (notEmpty number')
  · exact absurd (text.symm.trans (suffixes.trans empty')) (notEmpty number)
  · obtain rfl : number = number' :=
      decimal_inj (by simpa using text.symm.trans (suffixes.trans text'))
    rw [isOwner, isOwner', rootSuffixes_inj complete isNumber isNumber']

/-- Different bindings have different places. -/
theorem StoredAt.inj {location' : Location} (stored : written.StoredAt key location)
    (stored' : written.StoredAt other location') (same : location = location') :
    key = other := by
  have sound := complete.idle.sound
  cases stored with
  | shared isMet isShared =>
    cases stored' with
    | shared isMet' isShared' =>
      obtain rfl := Location.shared.inj same
      exact sound.distinctShared key other _ _ _ isMet isMet' isShared isShared'
    | slot _ _ _ _ _ => cases same
  | slot _ _ isScope captured isSlot =>
    cases stored' with
    | shared _ _ => cases same
    | slot _ _ isScope' captured' isSlot' =>
      obtain ⟨sameArray, sameSelector, rfl⟩ := Location.slot.inj same
      have sameOwner := arrayName_inj complete captured captured' sameArray
      have sameScope := sound.numbered.distinct _ _ _ _ captured captured' sameOwner sameSelector
      rw [sameScope] at isScope
      obtain rfl := Option.some.inj (isScope.symm.trans isScope')
      have sameName := KeyedTable.position?_inj isSlot isSlot'
      obtain ⟨scope, name⟩ := key
      obtain ⟨scope', name'⟩ := other
      simp_all

end

theorem StoredAt.unique {location' : Location} (stored : written.StoredAt key location)
    (stored' : written.StoredAt key location') : location = location' := by
  cases stored with
  | shared isMet isShared =>
    cases stored' with
    | shared isMet' isShared' => simp_all
    | slot isMet' isKept _ _ _ => simp_all
  | slot isMet isKept isScope captured isSlot =>
    cases stored' with
    | shared isMet' isShared => simp_all
    | slot _ _ isScope' captured' isSlot' => simp_all

/-! ## Places in the code of an instance -/

def IsScopeInit (written : Written) (scope : ScopeId) (init : Expr) : Prop :=
  ∃ found, written.session.captured.scopes.get? scope = some found ∧
    init = .logicalOr
      (.index (.var (written.session.captured.arrayName found.owner)) (.nat found.selector))
      (.call (.var (written.session.captured.accessorName found.owner)) [.nat found.selector])

theorem initOf?_of_forall₂ {scopes : List ScopeId} {start : Nat} {stmts : List Stmt}
    (declared : List.Forall₂ (fun entry stmt => ∃ init,
      stmt = .var (scopeLocalName entry.2) init ∧ written.IsScopeInit entry.1 init)
      (scopes.zipIdx start) stmts) {position : Nat} (isScope : scopes[position]? = some scope) :
    ∃ init,
      initOf? (scopeLocalName (start + position)) stmts = some init ∧
        written.IsScopeInit scope init := by
  induction scopes generalizing start stmts position with
  | nil => simp at isScope
  | cons first scopes induction =>
    rw [zipIdx_cons] at declared
    cases declared with
    | cons isFirst rest =>
      obtain ⟨init, rfl, isInit⟩ := isFirst
      cases position with
      | zero =>
        obtain rfl : first = scope := by simpa using isScope
        exact ⟨init, by simp [initOf?, Stmt.var], isInit⟩
      | succ position =>
        have different : scopeLocalName start ≠ scopeLocalName (start + (position + 1)) :=
          fun same => by have := scopeLocalName_inj same; omega
        obtain ⟨init, isDeclared, isInit⟩ := induction rest (by simpa using isScope)
        rw [show start + 1 + position = start + (position + 1) by omega] at isDeclared
        exact ⟨init, by simpa [initOf?, Stmt.var, different] using isDeclared, isInit⟩

theorem initOf?_scopePrologue {prologue : List Stmt}
    (isPrologue : written.scopePrologue inst (fun _ scope => written.selectorLiteral scope) =
      .ok prologue) {position : Nat} (isScope : inst.scopes[position]? = some scope) :
    ∃ init, initOf? (scopeLocalName position) prologue = some init ∧
      written.IsScopeInit scope init := by
  have declared : List.Forall₂ (fun entry stmt => ∃ init,
      stmt = .var (scopeLocalName entry.2) init ∧ written.IsScopeInit entry.1 init)
      inst.scopes.zipIdx prologue := by
    refine (mapM_eq_ok.mp isPrologue).imp fun entry stmt isStmt => ?_
    simp only [bind_eq_ok, initialization_eq_ok, CapturedScopes.owner_eq_ok,
      selectorLiteral_eq_ok] at isStmt
    obtain ⟨_, ⟨found, captured, rfl⟩, _, ⟨found', captured', rfl⟩, rfl⟩ := isStmt
    obtain rfl := Option.some.inj (captured.symm.trans captured')
    exact ⟨_, rfl, found, captured, rfl⟩
  simpa using initOf?_of_forall₂ declared isScope

theorem Reads.isUsedBy (complete : written.Complete) {binding : Binding} {value : Expr}
    {prologue : List Stmt} (reads : written.Reads inst key binding value)
    (isMet : written.session.bindings.get? key = some binding)
    (modified : key ∈ written.context.modified)
    (isPrologue : written.scopePrologue inst (fun _ scope => written.selectorLiteral scope) =
      .ok prologue) :
    ∃ location, written.StoredAt key location ∧ location.IsUsedBy prologue value := by
  cases reads with
  | slot isSlot isPosition isScope hasSlot =>
    obtain ⟨bound, atPosition, _⟩ := List.findIdx?_eq_some_iff_getElem.mp isPosition
    obtain ⟨_, declared, found, captured, rfl⟩ := initOf?_scopePrologue isPrologue
      (List.getElem?_eq_some_iff.mpr ⟨bound, of_decide_eq_true atPosition⟩)
    exact ⟨_, .slot isMet isSlot isScope captured hasSlot, .slot declared⟩
  | shared isShared => exact ⟨_, .shared isMet isShared, .shared _⟩
  | direct isDirect =>
    have stored := (complete.idle.sound.bindings key binding isMet).stored
    rw [isDirect] at stored
    cases stored with
    | direct constant _ _ => exact absurd modified constant

end Written

end HeapScript
