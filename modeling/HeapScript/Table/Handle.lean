/-!
Handles: numbered references to the entities of a run, one type for each kind of entity, and the
two tables that they index.

An *arena* only grows, and the handle of an item is its position. A *side table* holds further data
on some of the entities, in the order of their handles.
-/

namespace HeapScript

inductive EntityKind where
  | value | code | scope | body
deriving DecidableEq, Repr

structure Handle (kind : EntityKind) where
  -- A natural number stands for one of 32 bits.
  index : Nat
deriving DecidableEq, Repr, Inhabited

abbrev ValueId := Handle .value

abbrev CodeId := Handle .code

abbrev ScopeId := Handle .scope

/-- A body of the script that is being written. -/
abbrev BodyId := Handle .body

instance : ToString (Handle kind) := ⟨fun handle => toString handle.index⟩

/-! ## Arenas -/

/-- A growing list of items, each with the handle of its position. -/
structure Arena (kind : EntityKind) (α : Type) where
  items : Array α := #[]

namespace Arena

instance : Inhabited (Arena kind α) := ⟨{}⟩

def ofList (items : List α) : Arena kind α := ⟨items.toArray⟩

def size (arena : Arena kind α) : Nat := arena.items.size

def isEmpty (arena : Arena kind α) : Bool := arena.items.isEmpty

def next (arena : Arena kind α) : Handle kind := ⟨arena.size⟩

def push (arena : Arena kind α) (item : α) : Arena kind α := ⟨arena.items.push item⟩

def get? (arena : Arena kind α) (handle : Handle kind) : Option α := arena.items[handle.index]?

def contains (arena : Arena kind α) (handle : Handle kind) : Bool := handle.index < arena.size

/-- Changes the item of a handle; an unknown handle changes nothing. -/
def modify (arena : Arena kind α) (handle : Handle kind) (change : α → α) : Arena kind α :=
  ⟨arena.items.modify handle.index change⟩

def toList (arena : Arena kind α) : List α := arena.items.toList

def handles (arena : Arena kind α) : List (Handle kind) :=
  (List.range arena.size).map (⟨·⟩)

def entries (arena : Arena kind α) : List (Handle kind × α) :=
  arena.handles.zip arena.toList

theorem contains_eq_isSome_get? (arena : Arena kind α) (handle : Handle kind) :
    arena.contains handle = (arena.get? handle).isSome := by
  by_cases present : handle.index < arena.items.size <;> simp [contains, get?, size, present]

@[simp] theorem size_push (arena : Arena kind α) (item : α) :
    (arena.push item).size = arena.size + 1 := by
  simp [push, size]

@[simp] theorem size_modify (arena : Arena kind α) (handle : Handle kind) (change : α → α) :
    (arena.modify handle change).size = arena.size := by
  simp [modify, size]

theorem get?_modify (arena : Arena kind α) (handle other : Handle kind) (change : α → α) :
    (arena.modify handle change).get? other =
      if handle = other then (arena.get? other).map change else arena.get? other := by
  cases handle
  cases other
  simp [modify, get?, Array.getElem?_modify]

end Arena

/-! ## Side tables -/

structure SideTable (kind : EntityKind) (α : Type) where
  entries : List (Handle kind × α) := []

namespace SideTable

instance : Inhabited (SideTable kind α) := ⟨{}⟩

def putEntry (handle : Handle kind) (value : α) : List (Handle kind × α) → List (Handle kind × α)
  | [] => [(handle, value)]
  | (other, old) :: rest =>
    if handle.index < other.index then (handle, value) :: (other, old) :: rest
    else if handle = other then (handle, value) :: rest
    else (other, old) :: putEntry handle value rest

def insert (table : SideTable kind α) (handle : Handle kind) (value : α) : SideTable kind α :=
  ⟨putEntry handle value table.entries⟩

def get? (table : SideTable kind α) (handle : Handle kind) : Option α :=
  table.entries.lookup handle

def contains (table : SideTable kind α) (handle : Handle kind) : Bool :=
  (table.get? handle).isSome

def erase (table : SideTable kind α) (handle : Handle kind) : SideTable kind α :=
  ⟨table.entries.filter fun (other, _) => other ≠ handle⟩

def size (table : SideTable kind α) : Nat := table.entries.length

def isEmpty (table : SideTable kind α) : Bool := table.entries.isEmpty

theorem lookup_entry (handle other : Handle kind) (value : α) (entries : List (Handle kind × α)) :
    ((handle, value) :: entries).lookup other =
      if other = handle then some value else entries.lookup other := by
  by_cases same : other = handle
  · simp [same]
  · simp [List.lookup_cons, beq_eq_false_iff_ne.mpr same, same]

theorem lookup_putEntry (handle other : Handle kind) (value : α)
    (entries : List (Handle kind × α)) :
    (putEntry handle value entries).lookup other =
      if other = handle then some value else entries.lookup other := by
  induction entries with
  | nil => simp [putEntry, lookup_entry]
  | cons entry entries hypothesis =>
    obtain ⟨present, old⟩ := entry
    by_cases before : handle.index < present.index
    · simp [putEntry, lookup_entry, before]
    · by_cases found : handle = present
      · by_cases same : other = present <;> simp [putEntry, lookup_entry, found, same]
      · by_cases same : other = present
        · simp [putEntry, before, found, same, Ne.symm found]
        · simp [putEntry, lookup_entry, before, found, same, hypothesis]

theorem get?_insert (table : SideTable kind α) (handle other : Handle kind) (value : α) :
    (table.insert handle value).get? other =
      if other = handle then some value else table.get? other :=
  lookup_putEntry handle other value table.entries

end SideTable

end HeapScript
