import HeapScript.Proofs.Script.Declarations

/-!
Where the names in a script come from.

All that a script declares is a value, a helper or a part of the code that was given. The names of
values are none of the code, but a path from outside may start with one, and the code may have names
like those of helpers.
-/

namespace HeapScript

/-- What a script declares has the name of a value or a helper, or stands in the code already. -/
theorem known_of_declared {graph : HeapGraph} {settings : Settings} {context : Context}
    {written : Written} {script : Script}
    (prepared : Context.prepare graph settings = .ok context)
    (isWritten : writeHeap context = .ok written)
    (isScript : materialize graph settings = .ok script) (distinct : graph.DistinctRoots)
    {name : String} (declared : name ∈ declaredIn (blocksOf script.stmts)) :
    (∃ id, written.session.HasName id name) ∨ written.Given name := by
  obtain ⟨rfl, complete⟩ := writeHeap_eq_ok isWritten
  obtain ⟨entries, accounts⟩ := exists_accounts isWritten
  obtain ⟨block, isBlock, declared⟩ := List.mem_flatMap.mp declared
  obtain ⟨stmt, member, declared⟩ := List.mem_flatMap.mp declared
  refine follows_rule (fun stmt => ∀ name ∈ stmt.declares,
    (∃ id, written.session.identifiers.get? id = some name) ∨ written.Given name) prepared isWritten
    isScript distinct accounts (fun _ given name declared =>
      .inr (given name declared)) ?_ ?_ ?_ block isBlock
    stmt member name declared
  · intro id inst stmt isInstance declares _ name declared
    obtain ⟨function, facts⟩ := complete.facts isInstance
    obtain rfl : name = inst.name := by simpa [declares] using declared
    exact .inl ⟨id, facts.named⟩
  · intro id inst isInstance stmt isExtra name declared
    cases complete.kept.equipped.extras id inst isInstance stmt isExtra with
    | flag number =>
      obtain rfl : name = _ := by simpa [Stmt.declares] using declared
      exact .inr (.inr (.flag number))
    | «alias» _ _ named =>
      obtain rfl : name = _ := by simpa [Stmt.declares, Stmt.var] using declared
      exact .inl ⟨_, named⟩
  · rintro ⟨body, purpose, stmt⟩ isEntry name declared
    cases (accounts.records _ isEntry).serves with
    | declared named _ =>
      obtain rfl : name = _ := by simpa [Stmt.declares] using declared
      exact .inl ⟨_, named⟩
    | @sharedVariable number =>
      obtain rfl : name = _ := by simpa [Stmt.declares] using declared
      exact .inr (.inr (.capture number))
    | @sharedInit number _ _ _ =>
      obtain rfl : name = _ := by simpa [Stmt.declares, Stmt.var] using declared
      exact .inr (.inr (.capture number))
    | _ => cases declared

/-- Invented names are apart from those of the input, if no path from outside starts with a name
that is not in the code and looks like that of a value, and no name in the code starts like one of a
helper. -/
theorem materialize_separatesNames {graph : HeapGraph} {settings : Settings} {context : Context}
    {script : Script} (prepared : Context.prepare graph settings = .ok context)
    (isScript : materialize graph settings = .ok script)
    (paths : ∀ path ∈ context.outsidePaths, ∀ name ∈ (Expr.path path).usedNames false,
      graph.Mentions name ∨ ∀ number, name ≠ FreshNames.name { stem := "_" } number)
    (code : ∀ name, graph.Mentions name →
      ¬("__".toList <+: name.toList ∨ "$f_".toList <+: name.toList)) :
    ∃ written, writeHeap context = .ok written ∧
      (∀ id name, written.session.identifiers.get? id = some name →
        ∀ path ∈ context.outsidePaths, name ∉ (Expr.path path).usedNames false) ∧
      (∀ name, IsHelper name → ¬graph.Mentions name) ∧
      (graph.DistinctRoots → ∀ name ∈ declaredIn (blocksOf script.stmts),
        (∃ id, written.session.identifiers.get? id = some name) ∨ graph.Mentions name ∨
          IsHelper name) := by
  obtain ⟨_, prepared', rest⟩ := bind_eq_ok.mp isScript
  obtain rfl := Except.ok.inj (prepared.symm.trans prepared')
  obtain ⟨written, isWritten, -⟩ := bind_eq_ok.mp rest
  obtain ⟨rfl, -, areFacts, -⟩ := Context.prepare_eq_ok prepared
  obtain ⟨rfl, complete⟩ := writeHeap_eq_ok isWritten
  refine ⟨written, isWritten, fun id name named path isPath isHead => ?_,
    fun name isHelper mentioned => code name mentioned isHelper.starts,
    fun distinct name => known_of_declared prepared isWritten isScript distinct⟩
  rcases paths path isPath name isHead with mentioned | notNumbered
  · exact complete.foreign_of_given areFacts (.inl mentioned) id named
  · obtain ⟨number, -, rfl⟩ := complete.kept.named.numbered id name named
    refine notNumbered number ?_
    rw [FreshNames.name, complete.kept.named.stem, FreshNames.name]

/-- Two closures that share a factory, and an object that is found at a path. -/
def closuresBesidePath : HeapGraph where
  values := .ofList [
    .object {}, .object {}, closure ⟨0⟩, closure ⟨1⟩, .object { knownPath := some "Math" }]
  codeBlocks := .ofList [
    { function := { name := some "f", body := [.returnValue (some (.var "x"))] }
      span := { first := 0, last := 100 } }]
  scopes := .ofList [
    { bindings := .ofList [("x", some ⟨0⟩)] }, { bindings := .ofList [("x", some ⟨1⟩)] }]
  effects := [.call ⟨2⟩ [⟨3⟩], .globalAssign "m" ⟨4⟩]
where
  closure (scope : ScopeId) : HeapValue := .function { code := ⟨0⟩, environment := some scope }

theorem closuresBesidePath_mentions {name : String} :
    closuresBesidePath.Mentions name ↔ name ∈ ["f", "x"] := by
  have names : closuresBesidePath.codeBlocks.toList.flatMap
      (fun code => code.function.ownName.toList ++ code.function.names) = ["f", "x"] := by
    decide +kernel
  rw [← names, HeapGraph.Mentions, List.mem_flatMap, show closuresBesidePath.roots = [] from rfl]
  simp

set_option maxRecDepth 20000 in
theorem closuresBesidePath_separatesNames : ∃ context script written,
    Context.prepare closuresBesidePath {} = .ok context ∧
    materialize closuresBesidePath {} = .ok script ∧ writeHeap context = .ok written ∧
    context.outsidePaths = ["Math"] ∧
    (∀ id name, written.session.identifiers.get? id = some name →
      ∀ path ∈ context.outsidePaths, name ∉ (Expr.path path).usedNames false) ∧
    closuresBesidePath.Mentions "f" ∧ (∀ name, IsHelper name → ¬closuresBesidePath.Mentions name) ∧
    "$f_0" ∈ declaredIn (blocksOf script.stmts) ∧ ∀ name ∈ declaredIn (blocksOf script.stmts),
      (∃ id, written.session.identifiers.get? id = some name) ∨ closuresBesidePath.Mentions name ∨
        IsHelper name := by
  obtain ⟨context, prepared, areOutside⟩ : ∃ context,
      Context.prepare closuresBesidePath {} = .ok context ∧
        (context.outsidePaths == ["Math"]) = true := exists_ok (by decide +kernel)
  obtain ⟨script, isScript, declared⟩ : ∃ script, materialize closuresBesidePath {} = .ok script ∧
      (declaredIn (blocksOf script.stmts)).contains "$f_0" = true := exists_ok (by decide +kernel)
  have areOutside := beq_iff_eq.mp areOutside
  obtain ⟨written, isWritten, apart, helpers, known⟩ :=
    materialize_separatesNames prepared isScript (by
    rw [areOutside]
    intro path isPath name isHead
    obtain rfl := List.mem_singleton.mp isPath
    obtain rfl : name = "Math" := by
      have heads : (Expr.path "Math").usedNames false = ["Math"] := by decide +kernel
      simpa [heads] using isHead
    refine .inr fun number same => ?_
    have letter := congrArg (fun name => name.toList[0]?) same
    simp [FreshNames.name] at letter) (by
    simp only [closuresBesidePath_mentions]
    decide)
  exact ⟨context, script, written, prepared, isScript, isWritten, areOutside, apart,
    closuresBesidePath_mentions.mpr (by decide), helpers, by simpa using declared, known .nil⟩

def objectAtPath (path : String) : HeapGraph where
  values := .ofList [.object {}, .object { knownPath := some path }]
  effects := [.globalAssign "a" ⟨0⟩, .globalAssign "b" ⟨1⟩]

/-- The name of a value is what a path from outside stands for. -/
theorem objectAtPath_sharesName : ∃ written,
    (Context.prepare (objectAtPath "_0") {} >>= writeHeap) = .ok written ∧
    (materialize (objectAtPath "_0") {}).toOption.isSome = true ∧
    written.session.identifiers.get? ⟨0⟩ = some "_0" ∧ "_0" ∈ written.context.outsidePaths ∧
    "_0" ∈ (Expr.path "_0").usedNames false := by
  obtain ⟨written, isWritten, check⟩ : ∃ written,
      (Context.prepare (objectAtPath "_0") {} >>= writeHeap) = .ok written ∧
        (written.session.identifiers.get? ⟨0⟩ == some "_0" &&
          written.context.outsidePaths == ["_0"]) = true := exists_ok (by decide +kernel)
  simp only [Bool.and_eq_true, beq_iff_eq] at check
  exact ⟨written, isWritten, by decide +kernel, check.1, by simp [check.2], by
    have heads : (Expr.path "_0").usedNames false = ["_0"] := by decide +kernel
    simp [heads]⟩

end HeapScript
