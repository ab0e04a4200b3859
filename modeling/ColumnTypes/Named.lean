namespace ColumnTypes

/-!
# Lists searched by name

Capabilities, kinds and the declarations of both are told apart by their names.
In a list of either, a name leads to the first entry that has it.
-/

namespace Named

/-- The first entry of the name. -/
def find? {α : Type} (name : α → String) (xs : List α) (n : String) : Option α :=
  xs.find? fun x => name x == n

/-- The entries of other names. -/
def without {α : Type} (name : α → String) (xs : List α) (n : String) : List α :=
  xs.filter fun x => name x != n

variable {α : Type} {name : α → String} {xs : List α} {n : String} {x : α}

theorem mem_of_find? (h : find? name xs n = some x) : x ∈ xs :=
  List.mem_of_find?_eq_some h

theorem name_of_find? (h : find? name xs n = some x) : name x = n := by
  simpa using List.find?_some h

theorem find?_eq_none_iff : find? name xs n = none ↔ n ∉ xs.map name := by
  simp [find?]

theorem without_subset (name : α → String) (xs : List α) (n : String) :
    without name xs n ⊆ xs :=
  List.filter_sublist.subset

theorem notMem_names_without (name : α → String) (xs : List α) (n : String) :
    n ∉ (without name xs n).map name := by
  simp [without]

theorem eq_or_mem_names_without {m : String} (h : m ∈ xs.map name) (n : String) :
    m = n ∨ m ∈ (without name xs n).map name := by
  obtain ⟨x, hx, rfl⟩ := List.mem_map.mp h
  by_cases hname : name x = n
  · exact Or.inl hname
  · exact Or.inr (List.mem_map_of_mem (List.mem_filter.mpr ⟨hx, by simpa using hname⟩))

theorem length_without_lt (h : find? name xs n = some x) :
    (without name xs n).length < xs.length :=
  List.length_filter_lt_length_iff_exists.mpr
    ⟨x, mem_of_find? h, by simpa using name_of_find? h⟩

theorem find?_without (xs : List α) (m n : String) :
    find? name (without name xs m) n = if n = m then none else find? name xs n := by
  rw [find?, without, List.find?_filter]
  split
  · rename_i heq
    simp [heq]
  · rename_i hne
    congr 1
    funext x
    by_cases hx : name x = n <;> simp [hx, hne]

end Named

end ColumnTypes
