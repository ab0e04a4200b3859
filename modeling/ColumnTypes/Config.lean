namespace ColumnTypes

/-!
# Configuration trees

A flat tree of named leaves, kept in the order of the keys' code points. Two
trees with the same leaves under the same keys are equal.
-/

inductive Leaf where
  /-- Marks a text that is absent. -/
  | null
  | flag (b : Bool)
  | text (s : String)
  | texts (ss : List String)
deriving DecidableEq, Inhabited

def Leaf.sort : Leaf → String
  | null => "null"
  | flag _ => "bool"
  | text _ => "string"
  | texts _ => "string array"

inductive Config.Error where
  | missingKey (key : String)
  | wrongType (key expected found : String)
  /-- The text is not a JSON object of leaves. -/
  | malformed
deriving DecidableEq, Inhabited

def Config.Error.message : Config.Error → String
  | missingKey key => s!"missing key '{key}'"
  | wrongType key expected found => s!"key '{key}' holds {found}, expected {expected}"
  | malformed => "JSON error: "

abbrev Entry := String × Leaf

namespace Entry

def Sorted (es : List Entry) : Prop := es.Pairwise fun a b => a.1 < b.1

def put (key : String) (leaf : Leaf) : List Entry → List Entry
  | [] => [(key, leaf)]
  | e :: es =>
      if key < e.1 then (key, leaf) :: e :: es
      else if key = e.1 then (key, leaf) :: es
      else e :: put key leaf es

theorem fst_mem_put {key : String} {leaf : Leaf} {es : List Entry} {e : Entry}
    (h : e ∈ put key leaf es) : e.1 = key ∨ e ∈ es := by
  induction es with
  | nil =>
      simp only [put, List.mem_singleton] at h
      exact Or.inl (by rw [h])
  | cons d es ih =>
      rw [put] at h
      split at h
      · rcases List.mem_cons.mp h with rfl | h
        · exact Or.inl rfl
        · exact Or.inr h
      · split at h
        · rcases List.mem_cons.mp h with rfl | h
          · exact Or.inl rfl
          · exact Or.inr (List.mem_cons_of_mem _ h)
        · rcases List.mem_cons.mp h with rfl | h
          · exact Or.inr List.mem_cons_self
          · exact (ih h).imp id (List.mem_cons_of_mem _)

theorem lt_of_not_lt_of_ne {s t : String} (h : ¬s < t) (hne : s ≠ t) : t < s := by
  by_cases hts : t < s
  · exact hts
  · exact absurd (String.le_antisymm (String.not_lt.mp hts) (String.not_lt.mp h)) hne

theorem sorted_put {es : List Entry} (hs : Sorted es) (key : String) (leaf : Leaf) :
    Sorted (put key leaf es) := by
  induction es with
  | nil => simp [put, Sorted]
  | cons d es ih =>
      obtain ⟨hd, hes⟩ := List.pairwise_cons.mp hs
      rw [put]
      split
      · rename_i hlt
        refine List.pairwise_cons.mpr ⟨fun e he => ?_, hs⟩
        rcases List.mem_cons.mp he with rfl | he
        · exact hlt
        · exact String.lt_trans hlt (hd e he)
      · split
        · rename_i heq
          exact List.pairwise_cons.mpr ⟨fun e he => heq ▸ hd e he, hes⟩
        · rename_i hnlt hne
          refine List.pairwise_cons.mpr ⟨fun e he => ?_, ih hes⟩
          rcases fst_mem_put he with h | h
          · exact h ▸ lt_of_not_lt_of_ne hnlt hne
          · exact hd e h

theorem lookup_put (key : String) (leaf : Leaf) (es : List Entry) :
    (put key leaf es).lookup key = some leaf := by
  induction es with
  | nil => simp [put]
  | cons d es ih =>
      rw [put]
      split
      · simp
      · split
        · simp
        · rename_i hne
          rw [List.lookup_cons, beq_false_of_ne hne]
          exact ih

theorem lookup_put_of_ne {key other : String} (hne : other ≠ key) (leaf : Leaf)
    (es : List Entry) : (put key leaf es).lookup other = es.lookup other := by
  have hbeq : (other == key) = false := beq_false_of_ne hne
  induction es with
  | nil => simp [put, List.lookup_cons, hbeq]
  | cons d es ih =>
      rw [put]
      split
      · rw [List.lookup_cons, hbeq]
      · split
        · rename_i heq
          rw [List.lookup_cons, List.lookup_cons, ← heq, hbeq]
        · rw [List.lookup_cons, List.lookup_cons, ih]

end Entry

structure Config where
  entries : List Entry
  sorted : Entry.Sorted entries

namespace Config

def empty : Config := ⟨[], List.Pairwise.nil⟩

instance : Inhabited Config := ⟨empty⟩

theorem ext_entries {t u : Config} (h : t.entries = u.entries) : t = u := by
  cases t
  cases u
  cases h
  rfl

instance : DecidableEq Config := fun t u =>
  if h : t.entries = u.entries then isTrue (ext_entries h)
  else isFalse fun e => h (congrArg entries e)

def put (t : Config) (key : String) (leaf : Leaf) : Config :=
  ⟨Entry.put key leaf t.entries, Entry.sorted_put t.sorted key leaf⟩

/-- Entries are put one after the other, so that the last one of a key counts. -/
def ofEntries (es : List Entry) : Config := es.foldl (fun t e => t.put e.1 e.2) empty

def leaf? (t : Config) (key : String) : Option Leaf := t.entries.lookup key

@[simp] theorem leaf?_put (t : Config) (key : String) (leaf : Leaf) :
    (t.put key leaf).leaf? key = some leaf := Entry.lookup_put key leaf t.entries

theorem leaf?_put_of_ne (t : Config) {key other : String} (h : other ≠ key) (leaf : Leaf) :
    (t.put key leaf).leaf? other = t.leaf? other := Entry.lookup_put_of_ne h leaf t.entries

def size (t : Config) : Nat := t.entries.length

def keys (t : Config) : List String := t.entries.map Prod.fst

def contains (t : Config) (key : String) : Bool := (t.leaf? key).isSome

def putText (t : Config) (key : String) (value : Option String) : Config :=
  t.put key (match value with | none => .null | some s => .text s)

def putFlag (t : Config) (key : String) (b : Bool) : Config := t.put key (.flag b)

def putTexts (t : Config) (key : String) (ss : List String) : Config :=
  t.put key (.texts ss)

def getLeaf (t : Config) (key : String) : Except Config.Error Leaf :=
  match t.leaf? key with
  | some leaf => .ok leaf
  | none => .error (.missingKey key)

def getText (t : Config) (key : String) : Except Config.Error (Option String) := do
  match ← t.getLeaf key with
  | .null => pure none
  | .text s => pure (some s)
  | other => throw (.wrongType key "string" other.sort)

def getFlag (t : Config) (key : String) : Except Config.Error Bool := do
  match ← t.getLeaf key with
  | .flag b => pure b
  | other => throw (.wrongType key "bool" other.sort)

def getTexts (t : Config) (key : String) : Except Config.Error (List String) := do
  match ← t.getLeaf key with
  | .texts ss => pure ss
  | other => throw (.wrongType key "string array" other.sort)

end Config

end ColumnTypes
