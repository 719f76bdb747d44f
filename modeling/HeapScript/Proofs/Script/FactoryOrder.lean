import HeapScript.Proofs.Script.Properties

/-!
The order of the factories in a script.

Factories are numbered as their code blocks are ordered, by tag and then by position in the graph.
They are all there before the first root is built, so that the start of the script and the start of
each root hold them in this order.
-/

namespace HeapScript

variable {factories : List PlacedFactory} {graph : HeapGraph}

/-- One code block stands before another one: its tag is less, or the tags are the same and it comes
first in the graph. -/
def HeapGraph.ComesBefore (graph : HeapGraph) (left right : CodeId) : Prop :=
  ∃ code other, graph.codeBlock left = .ok code ∧ graph.codeBlock right = .ok other ∧
    (code.orderTag < other.orderTag ∨ code.orderTag = other.orderTag ∧ left.index < right.index)

theorem HeapGraph.ComesBefore.asymm {left right : CodeId} (before : graph.ComesBefore left right) :
    ¬graph.ComesBefore right left := by
  rintro ⟨other, code, isOther, isCode, after⟩
  obtain ⟨code', other', isCode', isOther', before⟩ := before
  obtain rfl := Except.ok.inj (isCode.symm.trans isCode')
  obtain rfl := Except.ok.inj (isOther.symm.trans isOther')
  omega

/-- A factory, with the code block that it is made from and the root at whose start it stands; there
is no such root if it stands at the start of the script. -/
structure PlacedFactory where
  code : CodeId
  placement : Option ValueId
  definition : FunctionDef

/-- The declarations of those factories that stand at the start of a root or of the script. -/
def factoriesAt (factories : List PlacedFactory) (placement : Option ValueId) : List Stmt :=
  (factories.filter (·.placement = placement)).map fun factory => .function factory.definition

theorem factoriesAt_concat (factories : List PlacedFactory) (factory : PlacedFactory)
    (placement : Option ValueId) : factoriesAt (factories ++ [factory]) placement =
      factoriesAt factories placement ++
        if placement = factory.placement then [.function factory.definition] else [] := by
  by_cases same : factory.placement = placement
  · simp [factoriesAt, same]
  · simp [factoriesAt, same, Ne.symm same]

variable {written : Written}

def Written.Makes (written : Written) (number : Nat) (factory : PlacedFactory) : Prop :=
  ∃ code plan first, written.context.graph.codeBlock factory.code = .ok code ∧
    plan.placement = factory.placement ∧
    Assembly.factoryDefinition written code plan s!"$f_{number}" first = .ok factory.definition

namespace Assembly

variable {inst : FunctionInstance} {before after : Assembly} {result : Unit} {built : List ValueId}
  {record : RootRecord}

/-! ## Code blocks -/

theorem ascending_blockGroups {groups : List BlockGroup}
    (areGroups : blockGroups written = .ok groups) :
    groups.Pairwise fun left right => written.context.graph.ComesBefore left.code right.code := by
  obtain ⟨unsorted, areUnsorted, isSorted⟩ := bind_eq_ok.mp areGroups
  obtain rfl := pure_eq_ok.mp isSorted
  have order := perm_sortBy unsorted BlockGroup.comesFirst
  have tagged : ∀ group ∈ unsorted, ∃ code,
      written.context.graph.codeBlock group.code = .ok code ∧ code.orderTag = group.tag := by
    intro group member
    obtain ⟨_, -, isGroup⟩ := exists_of_mem_mapM areUnsorted member
    obtain ⟨code, isCode, same⟩ := bind_eq_ok.mp isGroup
    obtain rfl := pure_eq_ok.mp same
    exact ⟨code, isCode, rfl⟩
  have distinct : (unsorted.map (·.code)).Nodup := by
    have codes := List.forall₂_map_right_iff.mpr ((mapM_eq_ok.mp areUnsorted).imp
      fun code group isGroup => show code = group.code from ?_)
    · rw [List.forall₂_eq_eq_eq] at codes
      exact codes ▸ nodup_eraseDups _
    · obtain ⟨_, -, same⟩ := bind_eq_ok.mp isGroup
      rw [← pure_eq_ok.mp same]
  have sorted : (sortBy unsorted BlockGroup.comesFirst).Pairwise
      fun left right => BlockGroup.comesFirst left right = true :=
    pairwise_sortBy ?_ ?_ unsorted
  · refine (sorted.and (List.pairwise_map.mp ((order.map _).nodup_iff.mpr distinct))).imp_of_mem ?_
    rintro left right isLeft isRight ⟨first, different⟩
    obtain ⟨code, isCode, tag⟩ := tagged left (order.mem_iff.mp isLeft)
    obtain ⟨other, isOther, tag'⟩ := tagged right (order.mem_iff.mp isRight)
    have different : left.code.index ≠ right.code.index := fun same =>
      different (congrArg Handle.mk same)
    simp only [BlockGroup.comesFirst, Bool.or_eq_true, Bool.and_eq_true, decide_eq_true_eq,
      beq_iff_eq] at first
    exact ⟨code, other, isCode, isOther, by omega⟩
  all_goals
    simp only [BlockGroup.comesFirst, Bool.or_eq_true, Bool.and_eq_true, decide_eq_true_eq,
      beq_iff_eq]
    omega

/-! ## Steps that declare no factory -/

/-- The number of factories, and what stands at the start of all bodies. -/
def layout (assembly : Assembly) : Nat × List Stmt × KeyedTable ValueId (List Stmt) :=
  (assembly.factoryCount, assembly.globalPrelude, assembly.rootPreludes)

theorem preludeAt_of_layout (same : after.layout = before.layout) (placement : Option ValueId) :
    after.preludeAt placement = before.preludeAt placement := by
  simp only [layout, Prod.mk.injEq] at same
  exact preludeAt_eq same.2.1 same.2.2 placement

theorem layout_delayedInit {stmts : List Stmt} (runs : Runs (delayedInit inst) before stmts after) :
    after.layout = before.layout := by
  obtain ⟨bodies, rfl⟩ := delayedInit_frame runs
  rfl

theorem layout_addClassMember {method : MethodInstance} {code : CodeBlock}
    {definition : FunctionDef}
    (runs : Runs (addClassMember method code definition) before result after) :
    after.layout = before.layout := by
  obtain rfl := Runs.modify_iff.mp runs
  rfl

theorem layout_defineClone {code : CodeBlock}
    (runs : Runs (defineClone written code inst) before result after) :
    after.layout = before.layout := by
  simp only [defineClone, Runs.lift_bind] at runs
  obtain ⟨_, -, _, -, _, -, runs⟩ := runs
  obtain ⟨_, middle, delaying, runs⟩ := Runs.bind_iff.mp runs
  refine Eq.trans ?_ (layout_delayedInit delaying)
  split at runs
  · rw [runs_splice.mp runs]
    rfl
  · obtain ⟨_, added, adding, runs⟩ := Runs.bind_iff.mp runs
    refine Eq.trans ?_ (layout_addClassMember adding)
    split at runs
    · rw [(Runs.pure_iff.mp runs).2]
    · obtain ⟨_, -, runs⟩ := Runs.lift_bind.mp runs
      rw [runs_splice.mp runs]
      rfl

theorem layout_defineClass {prototype : ValueId}
    (runs : Runs (defineClass written prototype) before result after) :
    after.layout = before.layout := by
  rcases defineClass_cases runs with ⟨-, rfl⟩ | ⟨_, _, _, -, -, -, -, -, rfl⟩ <;> rfl

theorem layout_releaseClass {prototype : ValueId}
    (runs : Runs (releaseClass written prototype) before result after) :
    after.layout = before.layout := by
  obtain ⟨_, _, -, rfl, ⟨-, runs⟩ | ⟨-, rfl⟩⟩ := releaseClass_cases runs
  · exact (layout_defineClass runs).trans rfl
  · rfl

theorem layout_forM {α : Type} {items : List α} {act : α → AssemblyM Unit}
    (kept : ∀ item before after, Runs (act item) before ⟨⟩ after → after.layout = before.layout)
    (runs : Runs (items.forM act) before result after) : after.layout = before.layout := by
  induction items generalizing before with
  | nil => rw [(Runs.pure_iff.mp runs).2]
  | cons item items induction =>
    obtain ⟨middle, first, rest⟩ := Runs.forM_cons.mp runs
    exact (induction rest).trans (kept item _ _ first)

/-! ## Steps that declare factories -/

/-- The factories stand where they are placed, and there is nothing else before the first root. -/
structure Arranges (factories : List PlacedFactory) (assembly : Assembly) : Prop where
  count : assembly.factoryCount = factories.length
  preludes : ∀ placement, assembly.preludeAt placement = factoriesAt factories placement

theorem Arranges.of_layout (arranges : before.Arranges factories)
    (same : after.layout = before.layout) : after.Arranges factories where
  count := (congrArg Prod.fst same).trans arranges.count
  preludes placement := (preludeAt_of_layout same placement).trans (arranges.preludes placement)

theorem Arranges.defineBlock (areFacts : written.context.facts = written.context.graph.codeFacts)
    {id : CodeId} {functions : List ValueId}
    (runs : Runs (Assembly.defineBlock written id functions) before result after)
    (arranges : before.Arranges factories) :
    after.Arranges factories ∨ ∃ factory, factory.code = id ∧
      written.Makes factories.length factory ∧ after.Arranges (factories ++ [factory]) := by
  obtain ⟨code, instances, isCode, -, defined⟩ := defineBlock_cases areFacts runs
  rcases defined with ⟨plan, first, others, rfl, shares, runs⟩ | ⟨-, report, runs⟩
  · obtain ⟨definition, isDefinition, emits, -, preludes⟩ :=
      emits_defineFactory runs (Written.planFacts_of_planFactory shares.2)
    rw [arranges.count] at isDefinition
    refine .inr ⟨⟨id, plan.placement, definition⟩, rfl,
      ⟨code, plan, first, isCode, rfl, isDefinition⟩, ?_, fun placement => ?_⟩
    · rw [emits.counted, arranges.count, List.length_append, List.length_singleton]
    · rw [preludes, arranges.preludes, factoriesAt_concat]
  · have same : after.layout = ({ before with report } : Assembly).layout :=
      layout_forM (fun _ _ _ runs => layout_defineClone runs) runs
    exact .inl (arranges.of_layout same)

theorem Arranges.defineBlocks (areFacts : written.context.facts = written.context.graph.codeFacts)
    {groups : List BlockGroup}
    (runs : Runs (groups.forM fun group => Assembly.defineBlock written group.code group.functions)
      before result after) (arranges : before.Arranges factories) :
    ∃ more, after.Arranges (factories ++ more) ∧
      (more.map (·.code)).Sublist (groups.map (·.code)) ∧
      ∀ index factory, more[index]? = some factory →
        written.Makes (factories.length + index) factory := by
  induction groups generalizing before factories with
  | nil =>
    obtain ⟨_, rfl⟩ := Runs.pure_iff.mp runs
    exact ⟨[], by simpa using arranges, .slnil, by simp⟩
  | cons group groups induction =>
    obtain ⟨middle, first, rest⟩ := Runs.forM_cons.mp runs
    rcases arranges.defineBlock areFacts first with same | ⟨factory, isCode, makes, added⟩
    · obtain ⟨more, arranges, inside, made⟩ := induction rest same
      exact ⟨more, arranges, inside.cons _, made⟩
    · obtain ⟨more, arranges, inside, made⟩ := induction rest added
      refine ⟨factory :: more, by simpa using arranges, ?_, fun index other isOther => ?_⟩
      · simpa [isCode] using inside
      · cases index with
        | zero => simpa [← show factory = other by simpa using isOther] using makes
        | succ index => simpa [Nat.add_assoc, Nat.add_comm 1] using made index other isOther

/-! ## Optimized roots -/

theorem preludeAt_rootBody {body : List Stmt}
    (runs : Runs (rootBody written inst record) before body after) :
    (∃ init rest, body = init ++ written.session.captured.bootstrap (some record.function) ++
        before.preludeAt (some record.function) ++ rest) ∧
      ∀ placement, after.preludeAt placement =
        if placement = some record.function then [] else before.preludeAt placement := by
  obtain ⟨_, _, _, init, -, -, -, delaying, isBody⟩ := rootBody_cases runs
  refine ⟨⟨init, _, by simpa only [List.append_assoc] using isBody⟩, fun placement => ?_⟩
  rw [preludeAt_of_layout (layout_delayedInit delaying)]
  cases placement with
  | none => rfl
  | some root =>
    by_cases same : record.function = root
    · simp [preludeAt, takingRoot, same]
    · simp [preludeAt, takingRoot, KeyedTable.get?_erase, same, Ne.symm same]

/-- A root takes what stands at its start, and is added to the start of its parent if it belongs to
no class. -/
theorem preludeAt_defineRoot (runs : Runs (defineRoot written record) before result after) :
    ∃ inst code body taken, written.instanceOf record.function = .ok inst ∧
      written.context.graph.codeBlock inst.code = .ok code ∧
      Runs (rootBody written inst record) before body taken ∧
      ∀ placement, after.preludeAt placement =
        (if placement = some record.function then [] else before.preludeAt placement) ++
          if inst.method = none ∧ placement = record.parent then
            .var inst.name (.function { code.function with body }) :: inst.extras
          else [] := by
  obtain ⟨inst, code, body, taken, isInstance, isCode, building, placing⟩ := defineRoot_cases runs
  refine ⟨inst, code, body, taken, isInstance, isCode, building, fun placement => ?_⟩
  rw [← (preludeAt_rootBody building).2]
  have counted : taken.countingRoot.preludeAt placement = taken.preludeAt placement :=
    preludeAt_of_layout rfl placement
  rcases placing with ⟨noMethod, adding⟩ |
    ⟨method, added, placed, isMethod, adding, splicing, releasing⟩
  · rw [(preludeAt_addToPrelude adding).1, counted]
    simp only [noMethod, true_and]
  · have entered : placed.layout = added.layout := by
      rcases splicing with ⟨-, rfl⟩ | ⟨-, _, _, -, -, -, splicing⟩
      · rfl
      · rw [runs_splice.mp splicing]
        rfl
    rw [if_neg (by simp [isMethod]), List.append_nil, ← counted,
      preludeAt_of_layout (layout_releaseClass releasing), preludeAt_of_layout entered,
      preludeAt_of_layout (layout_addClassMember adding)]

/-- Factories come first at the start of all bodies, and those of roots that are built are gone. -/
def Leads (factories : List PlacedFactory) (built : List ValueId) (assembly : Assembly) : Prop :=
  ∀ placement, ∃ rest, assembly.preludeAt placement =
    (if placement ∈ built.map some then [] else factoriesAt factories placement) ++ rest ∧
      ∀ definition, .function definition ∉ rest

theorem Leads.defineRoot (complete : written.Complete)
    (runs : Runs (Assembly.defineRoot written record) before result after)
    (leads : before.Leads factories built) : after.Leads factories (record.function :: built) := by
  obtain ⟨inst, code, body, _, isInstance, -, -, preludes⟩ := preludeAt_defineRoot runs
  intro placement
  have noFunctions : ∀ definition, .function definition ∉
      if inst.method = none ∧ placement = record.parent then
        Stmt.var inst.name (.function { code.function with body }) :: inst.extras
      else [] := by
    intro definition
    split
    · rintro (_ | ⟨_, isExtra⟩)
      cases complete.kept.equipped.extras _ inst (Written.instanceOf_eq_ok isInstance) _ isExtra
    · exact List.not_mem_nil
  rw [preludes]
  generalize (if inst.method = none ∧ placement = record.parent then _ else []) = added
    at noFunctions ⊢
  by_cases same : placement = some record.function
  · exact ⟨added, by simp [same], noFunctions⟩
  · obtain ⟨rest, isPrelude, others⟩ := leads placement
    exact ⟨rest ++ added, by simp [same, isPrelude], by simp [others, noFunctions]⟩

theorem Leads.defineRoots (complete : written.Complete) {records : List RootRecord}
    (runs : Runs (records.forM (Assembly.defineRoot written)) before result after)
    (leads : before.Leads factories built) :
    after.Leads factories ((records.map (·.function)).reverse ++ built) := by
  induction records generalizing before built with
  | nil =>
    obtain ⟨_, rfl⟩ := Runs.pure_iff.mp runs
    exact leads
  | cons record records induction =>
    obtain ⟨middle, step, rest⟩ := Runs.forM_cons.mp runs
    simpa using induction rest (leads.defineRoot complete step)

/-- The factories are those of the code blocks, in their order, and lead in all states of a run in
which roots are built. -/
theorem exists_factories (complete : written.Complete)
    (areFacts : written.context.facts = written.context.graph.codeFacts)
    {records : List RootRecord} (comesTo : written.ComesTo records after) :
    ∃ factories,
      (∀ number factory, factories[number]? = some factory → written.Makes number factory) ∧
      factories.Pairwise (fun left right =>
        written.context.graph.ComesBefore left.code right.code) ∧
      ∀ built assembly, written.ComesTo built assembly →
        assembly.Leads factories (built.map (·.function)).reverse := by
  obtain ⟨ready, start, -⟩ :=
    runs_defineUpTo_append.mp (show written.ComesTo ([] ++ records) _ from comesTo)
  obtain ⟨groups, _, blocks, ready', areGroups, defining, -, readying, isReady⟩ :=
    runs_defineUpTo.mp start
  obtain ⟨_, rfl⟩ := Runs.pure_iff.mp isReady
  have none : Arranges [] ({ bodies := withoutLazyBodies written.session } : Assembly) :=
    ⟨rfl, fun placement => by cases placement <;> rfl⟩
  obtain ⟨factories, arranges, inside, made⟩ := none.defineBlocks areFacts defining
  simp only [defineReadyClasses, Runs.get_bind] at readying
  have layout := layout_forM (fun _ _ _ runs => layout_defineClass runs) readying
  have leads : ready.Leads factories [] := fun placement =>
    ⟨[], by simpa using (arranges.of_layout layout).preludes placement, by simp⟩
  have ascending := List.pairwise_map.mpr (ascending_blockGroups areGroups)
  refine ⟨factories, by simpa using made, List.pairwise_map.mp (ascending.sublist inside),
    fun built assembly comesTo => ?_⟩
  obtain ⟨ready', start', rooting⟩ :=
    runs_defineUpTo_append.mp (show written.ComesTo ([] ++ built) _ from comesTo)
  obtain rfl := Written.ComesTo.unique start start'
  simpa using leads.defineRoots complete rooting

end Assembly

/-! ## Scripts -/

/-- When the roots before it are built, the given statements stand at the start of a root. They
become a part of its function, after what the function constructs on its first call and the helpers
for captured scopes. The function stands in the script. -/
def Written.StartsRoot (written : Written) (script : Script) (earlier : List RootRecord)
    (record : RootRecord) (stmts : List Stmt) : Prop :=
  ∃ before after inst body built init rest, written.ComesTo earlier before ∧
    Runs (Assembly.defineRoot written record) before ⟨⟩ after ∧
    before.preludeAt (some record.function) = stmts ∧
    written.instanceOf record.function = .ok inst ∧
    Runs (Assembly.rootBody written inst record) before body built ∧
    body = init ++ written.session.captured.bootstrap (some record.function) ++ stmts ++ rest ∧
    (written.context.graph.DistinctRoots → ∃ block ∈ blocksOf script.stmts, body.Sublist block)

/-- The factories of a script in the order of their numbers, with the places where they stand. -/
structure FactoryLayout (graph : HeapGraph) (settings : Settings) (script : Script)
    (written : Written) (factories : List PlacedFactory) : Prop where
  isWritten : Context.prepare graph settings >>= writeHeap = .ok written
  numbered : ∀ number factory, factories[number]? = some factory →
    written.Makes number factory ∧ factory.definition.name = some s!"$f_{number}"
  ascending : factories.Pairwise fun left right => graph.ComesBefore left.code right.code
  /-- The script starts with its factories, after the helpers for captured scopes. -/
  global : ∃ rest, script.prelude =
    written.session.captured.bootstrap none ++ factoriesAt factories none ++ rest ∧
      ∀ definition, .function definition ∉ rest
  roots : ∀ earlier record later,
    Assembly.definitionOrder written.roots = earlier ++ record :: later →
    ∃ others, written.StartsRoot script earlier record
      ((if record.function ∈ earlier.map (·.function) then []
        else factoriesAt factories (some record.function)) ++ others) ∧
      ∀ definition, .function definition ∉ others

/-- Of two factories the one with the lesser number has the code block that comes before. -/
theorem FactoryLayout.lt_iff {settings : Settings} {script : Script}
    (layout : FactoryLayout graph settings script written factories) {number other : Nat}
    {left right : PlacedFactory} (isLeft : factories[number]? = some left)
    (isRight : factories[other]? = some right) :
    number < other ↔ graph.ComesBefore left.code right.code := by
  obtain ⟨inside, rfl⟩ := List.getElem?_eq_some_iff.mp isLeft
  obtain ⟨inside', rfl⟩ := List.getElem?_eq_some_iff.mp isRight
  have sorted := List.pairwise_iff_getElem.mp layout.ascending
  refine ⟨sorted number other inside inside', fun before => ?_⟩
  rcases Nat.lt_trichotomy number other with less | rfl | greater
  · exact less
  · exact absurd before before.asymm
  · exact absurd (sorted other number inside' inside greater) before.asymm

theorem exists_layout {settings : Settings} {script : Script}
    (isScript : materialize graph settings = .ok script) :
    ∃ written factories, FactoryLayout graph settings script written factories := by
  obtain ⟨context, written, lazyStmts, last, _, prepared, isWritten, isLazy, comesTo, -, -,
    isPrelude, -⟩ := materialize_cases isScript
  obtain ⟨rfl, -, areFacts, -⟩ := Context.prepare_eq_ok prepared
  obtain ⟨rfl, complete⟩ := writeHeap_eq_ok isWritten
  obtain ⟨factories, made, ascending, leads⟩ := Assembly.exists_factories complete areFacts comesTo
  refine ⟨written, factories, bind_eq_ok.mpr ⟨_, prepared, isWritten⟩,
    fun number factory isFactory => ?_, ascending, ?_, fun earlier record later isSplit => ?_⟩
  · have makes := made number factory isFactory
    obtain ⟨_, _, _, -, -, isDefinition⟩ := makes
    obtain ⟨_, -, same⟩ := Assembly.factoryDefinition_eq_ok isDefinition
    exact ⟨made number factory isFactory, by rw [same]⟩
  · obtain ⟨rest, isGlobal, noFunctions⟩ := leads _ _ comesTo none
    have isGlobal : last.globalPrelude = factoriesAt factories none ++ rest := by
      simpa [Assembly.preludeAt] using isGlobal
    refine ⟨rest ++ lazyStmts, by simp [isPrelude, isGlobal], fun definition => ?_⟩
    have noFunction : .function definition ∉ lazyStmts := by
      rcases lazyPrelude_cases isLazy with ⟨rfl, -⟩ | ⟨_, _, -, -, -, rfl⟩ <;>
        simp [lazyRegistration, Stmt.var]
    simp [noFunctions, noFunction]
  · rw [isSplit, Written.ComesTo, Assembly.runs_defineUpTo_append] at comesTo
    obtain ⟨before, comesTo, rest⟩ := comesTo
    obtain ⟨after, runs, -⟩ := Runs.forM_cons.mp rest
    obtain ⟨inst, code, body, built, isInstance, -, building, collects⟩ :=
      Assembly.collects_defineRoot runs
    obtain ⟨⟨init, rest, isBody⟩, -⟩ := Assembly.preludeAt_rootBody building
    obtain ⟨others, starts, noFunctions⟩ := leads earlier before comesTo (some record.function)
    refine ⟨others, ⟨before, after, inst, body, built, init, rest, comesTo, runs, ?_, isInstance,
      building, ?_, fun distinct => ?_⟩, noFunctions⟩
    · simpa using starts
    · rw [isBody, starts]
      simp
    · exact exists_block_of_root prepared isWritten isScript distinct isSplit comesTo runs collects

/-- Factories stand in the order of their code blocks. In two scripts of graphs with the same
code blocks, whatever the effects are, the factories of two code blocks stand in the same order. -/
theorem materialize_ordersFactories {graph : HeapGraph} {settings : Settings} {script : Script}
    (isScript : materialize graph settings = .ok script) :
    ∃ written factories, FactoryLayout graph settings script written factories ∧
      ∀ graph' settings' script' written' factories', graph'.codeBlocks = graph.codeBlocks →
        FactoryLayout graph' settings' script' written' factories' →
        ∀ (number other number' other' : Nat) (left right left' right' : PlacedFactory),
          factories[number]? = some left → factories[other]? = some right →
          factories'[number']? = some left' → factories'[other']? = some right' →
          left'.code = left.code → right'.code = right.code →
          (number < other ↔ number' < other') := by
  obtain ⟨written, factories, layout⟩ := exists_layout isScript
  refine ⟨written, factories, layout, ?_⟩
  intro graph' settings' script' written' factories' same layout' number other number' other' left
    right left' right' isLeft isRight isLeft' isRight' sameLeft sameRight
  rw [layout.lt_iff isLeft isRight, layout'.lt_iff isLeft' isRight', sameLeft, sameRight]
  simp only [HeapGraph.ComesBefore, HeapGraph.codeBlock, same]

/-- Four code blocks with two closures each, of which two are reached from an optimized root only.
-/
def taggedBlocks : HeapGraph where
  values := .ofList [
    .object {}, .object {}, closure ⟨0⟩ ⟨0⟩, closure ⟨0⟩ ⟨1⟩, closure ⟨1⟩ ⟨0⟩, closure ⟨1⟩ ⟨1⟩,
    closure ⟨2⟩ ⟨0⟩, closure ⟨2⟩ ⟨1⟩, closure ⟨3⟩ ⟨0⟩, closure ⟨3⟩ ⟨1⟩, .function { code := ⟨4⟩ }]
  codeBlocks := .ofList [
    code "f" 5, code "g" 3, code "h" 4, code "k" 2, { function := { name := some "root" } }]
  scopes := .ofList [
    { bindings := .ofList [("x", some ⟨0⟩)] }, { bindings := .ofList [("x", some ⟨1⟩)] }]
  effects := [.call ⟨2⟩ [⟨3⟩], .call ⟨4⟩ [⟨5⟩], .call ⟨10⟩ []]
  roots := [{ function := ⟨10⟩, values := [⟨6⟩, ⟨7⟩, ⟨8⟩, ⟨9⟩] }]
where
  closure (code : CodeId) (scope : ScopeId) : HeapValue :=
    .function { code, environment := some scope }
  code (name : String) (tag : Nat) : CodeBlock :=
    { function := { name := some name, body := [.returnValue (some (.var "x"))] }
      span := { first := 0, last := 100 }, tag := some tag }

/-- The script and the function of the root both start with two factories. -/
def taggedPrelude : List String := [
  "function $f_1(x) \x7b\n  return x;\n\x7d\n",
  "function $f_3(x) \x7b\n  return x;\n\x7d\n",
  "var _6 = function root() \x7b\n" ++
    "  function $f_0(x) \x7b\n    return x;\n  \x7d\n" ++
    "  function $f_2(x) \x7b\n    return x;\n  \x7d\n" ++
    "  var _7 = $f_2.bind(null, _1);\n  var _8 = $f_2.bind(null, _3);\n" ++
    "  var _9 = $f_0.bind(null, _1);\n  var _a = $f_0.bind(null, _3);\n\x7d;\n"]

set_option maxRecDepth 20000 in
theorem taggedBlocks_ordersFactories : ∃ script written factories record others,
    materialize taggedBlocks {} = .ok script ∧
    FactoryLayout taggedBlocks {} script written factories ∧ written.roots = [record] ∧
    record.function = ⟨10⟩ ∧
    written.StartsRoot script [] record (factoriesAt factories (some ⟨10⟩) ++ others) ∧
    script.prelude.map (Stmt.text 0) = taggedPrelude := by
  obtain ⟨script, isScript, isText⟩ : ∃ script, materialize taggedBlocks {} = .ok script ∧
      (script.prelude.map (Stmt.text 0) == taggedPrelude) = true :=
    exists_ok (by decide +kernel)
  obtain ⟨written, factories, layout, -⟩ := materialize_ordersFactories isScript
  obtain ⟨context, prepared, isWritten⟩ := bind_eq_ok.mp layout.isWritten
  obtain ⟨isGraph, -⟩ := Context.prepare_eq_ok prepared
  obtain ⟨rfl, complete⟩ := writeHeap_eq_ok isWritten
  obtain ⟨record, isRoots, isFunction⟩ : ∃ record, written.roots = [record] ∧
      record.function = ⟨10⟩ := by
    have functions := complete.allRoots
    rw [isGraph] at functions
    exact List.map_eq_singleton_iff.mp (functions.trans (by decide +kernel))
  obtain ⟨others, starts, -⟩ := layout.roots [] record [] (by rw [isRoots]; rfl)
  rw [isFunction] at starts
  exact ⟨script, written, factories, record, others, isScript, layout, isRoots, isFunction, starts,
    beq_iff_eq.mp isText⟩

end HeapScript
