/-!
# Tables

A finite map that keeps its keys in the order in which they came. Writing to a key that
is present replaces its value in place.
-/

namespace ScopeLowering

/-- Entries with their keys, in order of arrival. -/
structure Table (α β : Type) where
  entries : List (α × β)
deriving DecidableEq, Repr

namespace Table

variable {α β : Type}

def empty : Table α β := ⟨[]⟩

def keys (table : Table α β) : List α := table.entries.map Prod.fst

def size (table : Table α β) : Nat := table.entries.length

def filter (holds : α → β → Bool) (table : Table α β) : Table α β :=
  ⟨table.entries.filter fun entry => holds entry.1 entry.2⟩

def mapValues {γ : Type} (change : β → γ) (table : Table α β) : Table α γ :=
  ⟨table.entries.map fun entry => (entry.1, change entry.2)⟩

theorem nodup_keys_filter {table : Table α β} (distinct : table.keys.Nodup)
    (holds : α → β → Bool) : (table.filter holds).keys.Nodup :=
  distinct.sublist (List.filter_sublist.map Prod.fst)

@[simp]
theorem keys_mapValues {γ : Type} (table : Table α β) (change : β → γ) :
    (table.mapValues change).keys = table.keys := by
  simp [keys, mapValues]

variable [DecidableEq α]

def find? (key : α) : List (α × β) → Option β
  | [] => none
  | entry :: entries => if entry.1 = key then some entry.2 else find? key entries

/-- Replaces the value of the first entry with a key, or adds an entry at the end. -/
def put (key : α) (value : β) : List (α × β) → List (α × β)
  | [] => [(key, value)]
  | entry :: entries =>
      if entry.1 = key then (key, value) :: entries else entry :: put key value entries

def get? (table : Table α β) (key : α) : Option β := find? key table.entries

def insert (table : Table α β) (key : α) (value : β) : Table α β :=
  ⟨put key value table.entries⟩

def erase (table : Table α β) (key : α) : Table α β := table.filter fun other _ => other ≠ key

def contains (table : Table α β) (key : α) : Bool := (table.get? key).isSome

@[simp]
theorem get?_empty (key : α) : (empty : Table α β).get? key = none := rfl

theorem get?_insert (table : Table α β) (key other : α) (value : β) :
    (table.insert key value).get? other =
      if key = other then some value else table.get? other := by
  obtain ⟨entries⟩ := table
  simp only [get?, insert]
  induction entries with
  | nil => simp [put, find?]
  | cons entry entries ih =>
      by_cases here : entry.1 = key
      · by_cases same : key = other <;> simp_all [put, find?]
      · by_cases same : key = other
        · subst same; simp_all [put, find?]
        · simp only [put, here, if_false, find?, ih, same]

@[simp]
theorem get?_insert_self (table : Table α β) (key : α) (value : β) :
    (table.insert key value).get? key = some value := by
  simp [get?_insert]

theorem get?_erase (table : Table α β) (key other : α) :
    (table.erase key).get? other = if key = other then none else table.get? other := by
  obtain ⟨entries⟩ := table
  simp only [get?, erase, filter]
  induction entries with
  | nil => simp [find?]
  | cons entry entries ih =>
      by_cases here : entry.1 = key
      · by_cases same : key = other <;> simp_all [find?]
      · by_cases same : key = other
        · subst same; simp_all [find?]
        · simp_all [find?]

theorem get?_mapValues {γ : Type} (table : Table α β) (change : β → γ) (key : α) :
    (table.mapValues change).get? key = (table.get? key).map change := by
  obtain ⟨entries⟩ := table
  simp only [get?, mapValues]
  induction entries with
  | nil => rfl
  | cons entry entries ih =>
      by_cases here : entry.1 = key
      · simp [find?, here]
      · simp [find?, here, ih]

theorem mem_of_get? {table : Table α β} {key : α} {value : β}
    (found : table.get? key = some value) : (key, value) ∈ table.entries := by
  obtain ⟨entries⟩ := table
  simp only [get?] at found
  induction entries with
  | nil => simp [find?] at found
  | cons entry entries ih =>
      by_cases here : entry.1 = key
      · obtain rfl : entry.2 = value := by simpa [find?, here] using found
        subst here
        exact List.mem_cons_self
      · exact List.mem_cons_of_mem _ (ih (by simpa [find?, here] using found))

theorem get?_eq_none_iff {table : Table α β} {key : α} :
    table.get? key = none ↔ key ∉ table.keys := by
  obtain ⟨entries⟩ := table
  simp only [get?, keys]
  induction entries with
  | nil => simp [find?]
  | cons entry entries ih =>
      by_cases here : entry.1 = key
      · simp [find?, here]
      · simp [find?, here, ih, Ne.symm here]

/-- An insertion adds one entry and may take the place of another one. -/
theorem mem_insert {table : Table α β} {key : α} {value : β} {entry : α × β}
    (member : entry ∈ (table.insert key value).entries) :
    entry = (key, value) ∨ entry ∈ table.entries := by
  obtain ⟨entries⟩ := table
  simp only [insert] at member ⊢
  induction entries with
  | nil => exact .inl (List.mem_singleton.mp member)
  | cons first entries ih =>
      rw [put] at member
      split at member
      · exact (List.mem_cons.mp member).imp_right (List.mem_cons_of_mem _)
      · rcases List.mem_cons.mp member with same | member
        · exact .inr (same ▸ List.mem_cons_self)
        · exact (ih member).imp_right (List.mem_cons_of_mem _)

theorem keys_insert (table : Table α β) (key : α) (value : β) :
    (table.insert key value).keys =
      if key ∈ table.keys then table.keys else table.keys ++ [key] := by
  obtain ⟨entries⟩ := table
  simp only [insert, keys]
  induction entries with
  | nil => simp [put]
  | cons entry entries ih =>
      by_cases here : entry.1 = key
      · simp [put, here]
      · by_cases inside : key ∈ entries.map Prod.fst
        · simp [put, here, ih, inside]
        · simp [put, here, ih, inside, Ne.symm here]

theorem nodup_keys_insert {table : Table α β} (distinct : table.keys.Nodup) (key : α)
    (value : β) : (table.insert key value).keys.Nodup := by
  rw [keys_insert]
  split
  · exact distinct
  · rename_i fresh
    rw [List.nodup_append]
    refine ⟨distinct, by simp, ?_⟩
    rintro first member second last rfl
    exact fresh (List.mem_singleton.mp last ▸ member)

/-- Where the keys of a table are different, each entry is the one that is found. -/
theorem get?_of_mem {table : Table α β} (distinct : table.keys.Nodup) {key : α} {value : β}
    (member : (key, value) ∈ table.entries) : table.get? key = some value := by
  obtain ⟨entries⟩ := table
  simp only [get?, keys] at distinct member ⊢
  induction entries with
  | nil => cases member
  | cons entry entries ih =>
      obtain ⟨fresh, distinct⟩ := List.nodup_cons.mp distinct
      rcases List.mem_cons.mp member with rfl | member
      · simp [find?]
      · have differs : entry.1 ≠ key := fun same => fresh (same ▸ List.mem_map_of_mem member)
        simpa [find?, differs] using ih distinct member

/-- Tables with the same different keys in the same order are the same if their values are. -/
theorem eq_of_get?_eq {first second : Table α β} (distinct : first.keys.Nodup)
    (keys : first.keys = second.keys) (values : ∀ key, first.get? key = second.get? key) :
    first = second := by
  have lengths : first.entries.length = second.entries.length := by
    simpa [Table.keys] using congrArg List.length keys
  suffices same : first.entries = second.entries by
    cases first
    cases second
    exact congrArg Table.mk same
  apply List.ext_getElem lengths
  intro index one two
  have named : first.entries[index].1 = second.entries[index].1 := by
    have here : first.keys[index]? = second.keys[index]? := by rw [keys]
    simpa [Table.keys, one, two] using here
  have found : first.get? first.entries[index].1 = some first.entries[index].2 :=
    get?_of_mem distinct (List.getElem_mem one)
  have other : second.get? second.entries[index].1 = some second.entries[index].2 :=
    get?_of_mem (keys ▸ distinct) (List.getElem_mem two)
  rw [values, named, other] at found
  exact Prod.ext named (Option.some.inj found).symm

theorem get?_filter {table : Table α β} (distinct : table.keys.Nodup) (holds : α → β → Bool)
    (key : α) : (table.filter holds).get? key = (table.get? key).filter (holds key) := by
  cases found : table.get? key with
  | none =>
      rw [get?_eq_none_iff] at found
      refine get?_eq_none_iff.mpr fun member => found ?_
      exact (List.filter_sublist.map Prod.fst).subset member
  | some value =>
      have member := mem_of_get? found
      by_cases kept : holds key value = true
      · rw [Option.filter_some_pos kept]
        exact get?_of_mem (nodup_keys_filter distinct holds)
          (List.mem_filter.mpr ⟨member, kept⟩)
      · rw [Option.filter_some_neg (Bool.not_eq_true _ ▸ kept), get?_eq_none_iff]
        intro inside
        obtain ⟨⟨other, entry⟩, filtered, rfl⟩ := List.mem_map.mp inside
        obtain ⟨present, holdsThere⟩ := List.mem_filter.mp filtered
        obtain rfl : value = entry :=
          Option.some.inj (found.symm.trans (get?_of_mem distinct present))
        exact kept holdsThere

/-- A filter keeps the value of a key if it satisfies the condition. -/
theorem get?_filter_of_holds {table : Table α β} {holds : α → β → Bool} {key : α} {value : β}
    (found : table.get? key = some value) (kept : holds key value = true) :
    (table.filter holds).get? key = some value := by
  obtain ⟨entries⟩ := table
  simp only [get?, filter] at found ⊢
  induction entries with
  | nil => simp [find?] at found
  | cons entry entries ih =>
      by_cases here : entry.1 = key
      · obtain rfl : entry.2 = value := by simpa [find?, here] using found
        subst here
        simp [find?, kept]
      · have rest : find? key entries = some value := by simpa [find?, here] using found
        rw [List.filter_cons]
        split
        · simpa [find?, here] using ih rest
        · exact ih rest

end Table

end ScopeLowering
