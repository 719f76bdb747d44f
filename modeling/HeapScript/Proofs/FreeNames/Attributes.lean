import HeapScript.FreeNames.Mentions
import HeapScript.FreeNames.Replacement
import HeapScript.Proofs.Syntax.Induction

/-!
What the walks over code find: the mentions of a tree, and what a tree has after a replacement.
-/

namespace HeapScript

namespace TreeAttribute

universe u

def mentions : TreeAttribute (Surroundings → List Mention) where
  expr writes expr around := expr.mentions around writes
  exprs writes items around := mentionsOfExprs around writes items
  fields writes fields around := mentionsOfFields around writes fields
  function isExpression definition around := definition.nestedMentions around isExpression
  params params around := mentionsOfParams around params
  classDef definition around := definition.mentions around
  members members around := mentionsOfMembers around members
  key key around := key.mentions around
  stmt stmt around := stmt.mentions around
  cases cases around := mentionsOfCases around cases
  stmts stmts around := mentionsOfStmts around stmts

def replaced {α : Type u} (value : TreeAttribute α) :
    TreeAttribute (Replacements → Surroundings → α) where
  expr writes expr names around := value.expr writes (expr.replace names around)
  exprs writes items names around := value.exprs writes (replaceExprs names around items)
  fields writes fields names around := value.fields writes (replaceFields names around fields)
  function isExpression definition names around :=
    value.function isExpression (definition.replaceNested names around isExpression)
  params params names around := value.params (replaceParams names around params)
  classDef definition names around := value.classDef (definition.replace names around)
  members members names around := value.members (replaceMembers names around members)
  key key names around := value.key (key.replace names around)
  stmt stmt names around := value.stmt (stmt.replace names around)
  cases cases names around := value.cases (replaceCases names around cases)
  stmts stmts names around := value.stmts (replaceStmts names around stmts)

def itself : TreeAttribute (Σ sort : Type, sort) where
  expr _ tree := ⟨_, tree⟩
  exprs _ trees := ⟨_, trees⟩
  fields _ trees := ⟨_, trees⟩
  function _ tree := ⟨_, tree⟩
  params trees := ⟨_, trees⟩
  classDef tree := ⟨_, tree⟩
  members trees := ⟨_, trees⟩
  key tree := ⟨_, tree⟩
  stmt tree := ⟨_, tree⟩
  cases trees := ⟨_, trees⟩
  stmts trees := ⟨_, trees⟩

end TreeAttribute

end HeapScript
