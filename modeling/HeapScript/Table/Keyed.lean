/-!
Tables in insertion order: a key keeps the place of its first insertion.
-/

namespace HeapScript

/-- A finite map whose entries stand in the order in which their keys were first inserted. -/
structure KeyedTable (κ α : Type) where
  entries : List (κ × α) := []
deriving Repr

namespace KeyedTable

variable {κ α : Type} [DecidableEq κ]

instance : Inhabited (KeyedTable κ α) := ⟨{}⟩

def putEntry (key : κ) (value : α) : List (κ × α) → List (κ × α)
  | [] => [(key, value)]
  | (other, old) :: rest =>
    if other = key then (other, value) :: rest else (other, old) :: putEntry key value rest

def insert (table : KeyedTable κ α) (key : κ) (value : α) : KeyedTable κ α :=
  ⟨putEntry key value table.entries⟩

def insertIfNew (table : KeyedTable κ α) (key : κ) (value : α) : KeyedTable κ α :=
  if table.entries.any (·.1 = key) then table else ⟨table.entries ++ [(key, value)]⟩

def get? (table : KeyedTable κ α) (key : κ) : Option α :=
  (table.entries.find? (·.1 = key)).map (·.2)

def contains (table : KeyedTable κ α) (key : κ) : Bool :=
  table.entries.any (·.1 = key)

/-- Changes the value of a key; an unknown key changes nothing. -/
def modify (table : KeyedTable κ α) (key : κ) (change : α → α) : KeyedTable κ α :=
  ⟨table.entries.map fun (other, value) =>
    if other = key then (other, change value) else (other, value)⟩

def erase (table : KeyedTable κ α) (key : κ) : KeyedTable κ α :=
  ⟨table.entries.filter (·.1 ≠ key)⟩

def keys (table : KeyedTable κ α) : List κ :=
  table.entries.map (·.1)

def values (table : KeyedTable κ α) : List α :=
  table.entries.map (·.2)

def size (table : KeyedTable κ α) : Nat := table.entries.length

def isEmpty (table : KeyedTable κ α) : Bool := table.entries.isEmpty

def ofList (pairs : List (κ × α)) : KeyedTable κ α :=
  pairs.foldl (fun table (key, value) => table.insert key value) {}

def position? (table : KeyedTable κ α) (key : κ) : Option Nat :=
  table.entries.findIdx? (·.1 = key)

/-! ## Lookups after changes -/

theorem contains_eq_isSome_get? (table : KeyedTable κ α) (key : κ) :
    table.contains key = (table.get? key).isSome := by
  simp only [contains, get?, Option.isSome_map]
  induction table.entries with
  | nil => rfl
  | cons entry entries hypothesis =>
    by_cases found : entry.1 = key <;> simp_all

@[simp] theorem get?_empty (key : κ) : ({} : KeyedTable κ α).get? key = none := rfl

theorem isEmpty_of_get? {table : KeyedTable κ α} (missing : ∀ key, table.get? key = none) :
    table.isEmpty = true := by
  refine List.isEmpty_iff.mpr (List.eq_nil_iff_forall_not_mem.mpr fun entry member => ?_)
  have absent := missing entry.1
  simp only [get?, Option.map_eq_none_iff, List.find?_eq_none] at absent
  simpa using absent entry member

theorem find?_putEntry (key other : κ) (value : α) (entries : List (κ × α)) :
    ((putEntry key value entries).find? (·.1 = other)).map (·.2) =
      if key = other then some value else (entries.find? (·.1 = other)).map (·.2) := by
  induction entries with
  | nil => by_cases same : key = other <;> simp [putEntry, same]
  | cons entry entries hypothesis =>
    obtain ⟨present, old⟩ := entry
    by_cases found : present = key
    · subst found
      by_cases same : present = other <;> simp [putEntry, same]
    · by_cases same : present = other
      · subst same
        simp [putEntry, found, Ne.symm found]
      · simpa [putEntry, found, same] using hypothesis

theorem get?_insert (table : KeyedTable κ α) (key other : κ) (value : α) :
    (table.insert key value).get? other = if key = other then some value else table.get? other :=
  find?_putEntry key other value table.entries

@[simp] theorem get?_insert_self (table : KeyedTable κ α) (key : κ) (value : α) :
    (table.insert key value).get? key = some value := by
  simp [get?_insert]

theorem putEntry_of_new {key : κ} {entries : List (κ × α)} (value : α)
    (isNew : entries.find? (·.1 = key) = none) :
    putEntry key value entries = entries ++ [(key, value)] := by
  induction entries with
  | nil => rfl
  | cons entry entries hypothesis =>
    by_cases found : entry.1 = key
    · simp [found] at isNew
    · simp only [List.find?_cons, found, decide_false] at isNew
      simp [putEntry, found, hypothesis isNew]

theorem entries_insert_of_new {table : KeyedTable κ α} {key : κ} (value : α)
    (isNew : table.get? key = none) :
    (table.insert key value).entries = table.entries ++ [(key, value)] :=
  putEntry_of_new value (by simpa [get?] using isNew)

theorem putEntry_putEntry (key : κ) (value other : α) (entries : List (κ × α)) :
    putEntry key other (putEntry key value entries) = putEntry key other entries := by
  induction entries with
  | nil => simp [putEntry]
  | cons entry entries hypothesis =>
    by_cases found : entry.1 = key <;> simp [putEntry, found, hypothesis]

@[simp] theorem insert_insert (table : KeyedTable κ α) (key : κ) (value other : α) :
    (table.insert key value).insert key other = table.insert key other := by
  simp [insert, putEntry_putEntry]

theorem get?_modify (table : KeyedTable κ α) (key other : κ) (change : α → α) :
    (table.modify key change).get? other =
      if other = key then (table.get? other).map change else table.get? other := by
  obtain ⟨entries⟩ := table
  simp only [modify, get?]
  induction entries with
  | nil => simp
  | cons entry entries hypothesis =>
    obtain ⟨present, old⟩ := entry
    by_cases found : present = key
    · subst found
      by_cases same : present = other
      · simp [same]
      · simpa [same, Ne.symm same] using hypothesis
    · by_cases same : present = other
      · subst same
        simp [found]
      · simpa [found, same] using hypothesis

theorem modify_of_new {table : KeyedTable κ α} {key : κ} (isNew : table.get? key = none)
    (change : α → α) : table.modify key change = table := by
  obtain ⟨entries⟩ := table
  simp only [get?, Option.map_eq_none_iff, List.find?_eq_none, decide_eq_true_eq] at isNew
  simp only [modify, mk.injEq]
  exact (List.map_congr_left fun entry member => if_neg (isNew entry member)).trans
    (List.map_id _)

theorem modify_insert_of_new {table : KeyedTable κ α} {key : κ} (isNew : table.get? key = none)
    (value : α) (change : α → α) :
    (table.insert key value).modify key change = table.insert key (change value) := by
  have unchanged := congrArg entries (modify_of_new isNew change)
  have later := entries_insert_of_new (change value) isNew
  simp only [modify] at unchanged ⊢
  rw [mk.injEq, entries_insert_of_new value isNew] at *
  simp [unchanged, later]

theorem get?_insertIfNew (table : KeyedTable κ α) (key other : κ) (value : α) :
    (table.insertIfNew key value).get? other =
      if key = other then some ((table.get? key).getD value) else table.get? other := by
  have known := table.contains_eq_isSome_get? key
  simp only [contains] at known
  unfold insertIfNew
  split
  · rename_i present
    by_cases same : key = other
    · subst same
      obtain ⟨old, found⟩ := Option.isSome_iff_exists.mp (known.symm.trans present)
      simp [found]
    · simp [same]
  · rename_i missing
    have missing : table.get? key = none := by
      rw [← Option.not_isSome_iff_eq_none, ← known]
      exact missing
    by_cases same : key = other
    · subst same
      simp only [get?, Option.map_eq_none_iff] at missing
      simp [get?, missing]
    · simp [get?, same]

@[simp] theorem get?_erase_self (table : KeyedTable κ α) (key : κ) :
    (table.erase key).get? key = none := by
  simp [erase, get?]

theorem get?_erase (table : KeyedTable κ α) (key other : κ) :
    (table.erase key).get? other = if key = other then none else table.get? other := by
  by_cases same : key = other
  · subst same
    simp
  · simp only [erase, get?, List.find?_filter, same, if_false]
    congr 2
    funext entry
    by_cases found : entry.1 = other
    · simp [found, Ne.symm same]
    · simp [found]

/-! ## Keys -/

theorem keys_modify (table : KeyedTable κ α) (key : κ) (change : α → α) :
    (table.modify key change).keys = table.keys := by
  simp only [modify, keys, List.map_map]
  congr 1
  funext entry
  simp only [Function.comp_apply]
  split <;> rfl

theorem mem_keys_iff {table : KeyedTable κ α} {key : κ} :
    key ∈ table.keys ↔ (table.get? key).isSome := by
  rw [← contains_eq_isSome_get?]
  simp [keys, contains]

theorem mem_putEntry {key : κ} {value : α} {entries : List (κ × α)} {entry : κ × α}
    (member : entry ∈ putEntry key value entries) : entry = (key, value) ∨ entry ∈ entries := by
  induction entries with
  | nil => exact .inl (by simpa [putEntry] using member)
  | cons first entries hypothesis =>
    obtain ⟨other, old⟩ := first
    unfold putEntry at member
    split at member
    · rename_i same
      subst same
      rcases List.mem_cons.mp member with rfl | member
      · exact .inl rfl
      · exact .inr (List.mem_cons_of_mem _ member)
    · rcases List.mem_cons.mp member with rfl | member
      · exact .inr List.mem_cons_self
      · exact (hypothesis member).imp_right (List.mem_cons_of_mem _)

theorem nodup_putEntry {key : κ} {value : α} {entries : List (κ × α)}
    (distinct : (entries.map (·.1)).Nodup) : ((putEntry key value entries).map (·.1)).Nodup := by
  induction entries with
  | nil => simp [putEntry]
  | cons first entries hypothesis =>
    obtain ⟨other, old⟩ := first
    simp only [List.map_cons, List.nodup_cons] at distinct
    unfold putEntry
    split
    · simpa using distinct
    · rename_i different
      simp only [List.map_cons, List.nodup_cons]
      refine ⟨fun member => ?_, hypothesis distinct.2⟩
      obtain ⟨entry, isEntry, same⟩ := List.mem_map.mp member
      rcases mem_putEntry isEntry with rfl | old
      · exact different same.symm
      · exact distinct.1 (List.mem_map.mpr ⟨entry, old, same⟩)

theorem nodup_keys_insert {table : KeyedTable κ α} (key : κ) (value : α)
    (distinct : table.keys.Nodup) : (table.insert key value).keys.Nodup :=
  nodup_putEntry distinct

theorem get?_eq_some_of_mem {table : KeyedTable κ α} {key : κ} {value : α}
    (distinct : table.keys.Nodup) (member : (key, value) ∈ table.entries) :
    table.get? key = some value := by
  obtain ⟨entries⟩ := table
  simp only [keys] at distinct
  simp only [get?]
  induction entries with
  | nil => cases member
  | cons first entries hypothesis =>
    simp only [List.map_cons, List.nodup_cons] at distinct
    rcases List.mem_cons.mp member with rfl | member
    · simp
    · have different : first.1 ≠ key := fun same =>
        distinct.1 (List.mem_map.mpr ⟨(key, value), member, same.symm⟩)
      simpa [different] using hypothesis distinct.2 member

theorem mem_entries_of_get? {table : KeyedTable κ α} {key : κ} {value : α}
    (found : table.get? key = some value) : (key, value) ∈ table.entries := by
  simp only [get?, Option.map_eq_some_iff] at found
  obtain ⟨entry, isEntry, rfl⟩ := found
  have same : entry.1 = key := by simpa using List.find?_some isEntry
  exact same ▸ List.mem_of_find?_eq_some isEntry

/-! ## Tables of lists -/

theorem mem_of_get?_ofList {pairs : List (κ × α)} {key : κ} {value : α}
    (found : (ofList pairs).get? key = some value) : (key, value) ∈ pairs := by
  have folded : ∀ table : KeyedTable κ α,
      (pairs.foldl (fun table (key, value) => table.insert key value) table).get? key = some value →
      (key, value) ∈ pairs ∨ table.get? key = some value := by
    clear found
    induction pairs with
    | nil => exact fun table found => .inr found
    | cons pair pairs hypothesis =>
      intro table found
      rcases hypothesis (table.insert pair.1 pair.2) found with member | found
      · exact .inl (List.mem_cons_of_mem _ member)
      · rw [get?_insert] at found
        split at found
        · rename_i same
          exact .inl (by simp [← same, ← Option.some.inj found])
        · exact .inr found
  simpa using folded {} found

theorem exists_get?_ofList {pairs : List (κ × α)} {key : κ} (member : key ∈ pairs.map (·.1)) :
    ∃ value, (ofList pairs).get? key = some value := by
  have folded : ∀ table : KeyedTable κ α, key ∈ pairs.map (·.1) ∨ (table.get? key).isSome →
      ((pairs.foldl (fun table (key, value) => table.insert key value) table).get? key).isSome := by
    clear member
    induction pairs with
    | nil => exact fun table known => known.resolve_left (by simp)
    | cons pair pairs hypothesis =>
      intro table known
      refine hypothesis (table.insert pair.1 pair.2) ?_
      by_cases same : pair.1 = key
      · exact .inr (by simp [← same])
      · simpa [get?_insert, same, Ne.symm same] using known
  exact Option.isSome_iff_exists.mp (folded {} (.inl member))

theorem position?_inj {table : KeyedTable κ α} {key other : κ} {position : Nat}
    (isKey : table.position? key = some position)
    (isOther : table.position? other = some position) : key = other := by
  obtain ⟨bound, isKey, _⟩ := List.findIdx?_eq_some_iff_getElem.mp isKey
  obtain ⟨_, isOther, _⟩ := List.findIdx?_eq_some_iff_getElem.mp isOther
  exact (of_decide_eq_true isKey).symm.trans (of_decide_eq_true isOther)

end KeyedTable

end HeapScript
