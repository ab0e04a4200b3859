import ColumnTypes.Config
import Mathlib.Data.List.Perm.Basic
import Mathlib.Data.List.Sort

namespace ColumnTypes

/-!
# Trees as finite maps

A tree is determined by the leaf under each key. Typed access to a leaf is one
operation with three views of leaves, and fails for two reasons only.
-/

/-! ## Leaves by key -/

namespace Entry

theorem Sorted.nodup_keys {es : List Entry} (hs : Sorted es) : (es.map Prod.fst).Nodup := by
  rw [List.Nodup, List.pairwise_map]
  apply hs.imp
  intro d e hlt heq
  exact String.lt_irrefl d.1 (heq ▸ hlt)

theorem key_mem {es : List Entry} {key : String} {leaf : Leaf} (h : (key, leaf) ∈ es) :
    key ∈ es.map Prod.fst :=
  List.mem_map_of_mem h

theorem lookup_cons_eq (first key : String) (leaf : Leaf) (es : List Entry) :
    ((first, leaf) :: es).lookup key = if key = first then some leaf else es.lookup key := by
  by_cases hkey : key = first <;> simp [List.lookup_cons, hkey, beq_false_of_ne]

theorem lookup_eq_some_iff {es : List Entry} (hes : (es.map Prod.fst).Nodup) {key : String}
    {leaf : Leaf} : es.lookup key = some leaf ↔ (key, leaf) ∈ es := by
  induction es with
  | nil => simp
  | cons e es ih =>
      obtain ⟨first, found⟩ := e
      obtain ⟨hfirst, hes⟩ := List.nodup_cons.mp hes
      rw [lookup_cons_eq]
      split
      · rename_i hkey
        have hnot : (first, leaf) ∉ es := fun hmem => hfirst (key_mem hmem)
        simp [hkey, hnot, eq_comm]
      · rename_i hkey
        simp [hkey, ih hes]

theorem lookup_filter (keys : List String) (key : String) (es : List Entry) :
    (es.filter fun e => e.1 ∈ keys).lookup key = if key ∈ keys then es.lookup key else none := by
  induction es with
  | nil => simp
  | cons e es ih =>
      obtain ⟨first, found⟩ := e
      by_cases hfirst : first ∈ keys
      · rw [List.filter_cons_of_pos (by simpa using hfirst), lookup_cons_eq, lookup_cons_eq, ih]
        by_cases hkey : key = first <;> simp [hkey, hfirst]
      · rw [List.filter_cons_of_neg (by simpa using hfirst), lookup_cons_eq, ih]
        by_cases hkey : key = first <;> simp [hkey, hfirst]

end Entry

namespace Config

theorem leaf?_eq_some_iff {t : Config} {key : String} {leaf : Leaf} :
    t.leaf? key = some leaf ↔ (key, leaf) ∈ t.entries :=
  Entry.lookup_eq_some_iff t.sorted.nodup_keys

theorem ext_leaf? {t u : Config} (h : ∀ key, t.leaf? key = u.leaf? key) : t = u := by
  have hmem : ∀ e, e ∈ t.entries ↔ e ∈ u.entries := by
    rintro ⟨key, leaf⟩
    rw [← leaf?_eq_some_iff, ← leaf?_eq_some_iff, h]
  have hperm := (List.perm_ext_iff_of_nodup (t.sorted.nodup_keys.of_map _)
    (u.sorted.nodup_keys.of_map _)).mpr hmem
  refine ext_entries (hperm.eq_of_pairwise ?_ t.sorted u.sorted)
  exact fun a b _ _ hab hba => absurd hba (String.lt_asymm hab)

theorem leaf?_put_eq (t : Config) (key other : String) (leaf : Leaf) :
    (t.put key leaf).leaf? other = if other = key then some leaf else t.leaf? other := by
  split
  · subst_vars
    exact leaf?_put t _ leaf
  · exact leaf?_put_of_ne t ‹_› leaf

/-- The tree with no other keys than the given ones. -/
def only (t : Config) (keys : List String) : Config :=
  ⟨t.entries.filter fun e => e.1 ∈ keys, t.sorted.filter _⟩

theorem leaf?_only (t : Config) (keys : List String) (key : String) :
    (t.only keys).leaf? key = if key ∈ keys then t.leaf? key else none :=
  Entry.lookup_filter keys key t.entries

end Config

/-! ## Entries put into a tree -/

namespace Config

def putAll (tree : Config) (es : List Entry) : Config := es.foldl (fun t e => t.put e.1 e.2) tree

/-- Entries with different keys are all kept, before what stood in the tree. -/
theorem leaf?_putAll (tree : Config) {es : List Entry} (hes : (es.map Prod.fst).Nodup)
    (key : String) : (tree.putAll es).leaf? key = (es.lookup key).or (tree.leaf? key) := by
  induction es generalizing tree with
  | nil => rfl
  | cons e es ih =>
      obtain ⟨first, leaf⟩ := e
      obtain ⟨hfirst, hes⟩ := List.nodup_cons.mp hes
      have htail := ih (tree.put first leaf) hes
      rw [putAll, List.foldl_cons, ← putAll, htail, leaf?_put_eq, Entry.lookup_cons_eq]
      split
      · rename_i hkey
        have hnone : es.lookup key = none := by
          rw [Option.eq_none_iff_forall_ne_some]
          intro found hfound
          exact hfirst (hkey ▸ Entry.key_mem ((Entry.lookup_eq_some_iff hes).mp hfound))
        simp [hnone]
      · rfl

/-- The entries stand in the tree. -/
def Holds (tree : Config) (es : List Entry) : Prop := ∀ e ∈ es, tree.leaf? e.1 = some e.2

theorem Holds.lookup_eq {tree : Config} {es : List Entry} (h : tree.Holds es) (key : String) :
    es.lookup key = if key ∈ es.map Prod.fst then tree.leaf? key else none := by
  induction es with
  | nil => rfl
  | cons e es ih =>
      obtain ⟨first, leaf⟩ := e
      obtain ⟨hfirst, hes⟩ := List.forall_mem_cons.mp h
      rw [Entry.lookup_cons_eq, ih hes]
      by_cases hkey : key = first
      · simpa [hkey] using hfirst.symm
      · simp only [List.map_cons, List.mem_cons, hkey, false_or, if_false]

theorem holds_putAll (tree : Config) {es : List Entry} (hes : (es.map Prod.fst).Nodup) :
    (tree.putAll es).Holds es := by
  rintro ⟨key, leaf⟩ he
  rw [leaf?_putAll tree hes, (Entry.lookup_eq_some_iff hes).mpr he]
  rfl

/-- What stands in a tree is what is left of it under those keys. -/
theorem Holds.putAll_empty {tree : Config} {es : List Entry} (h : tree.Holds es)
    (hes : (es.map Prod.fst).Nodup) : empty.putAll es = tree.only (es.map Prod.fst) := by
  apply ext_leaf?
  intro key
  rw [leaf?_putAll empty hes, leaf?_only, ← h.lookup_eq]
  exact Option.or_none

theorem ofEntries_entries (t : Config) : ofEntries t.entries = t := by
  apply ext_leaf?
  intro key
  have hput := leaf?_putAll empty t.sorted.nodup_keys key
  exact hput.trans Option.or_none

end Config

/-! ## Typed access -/

/-- A sort of leaves that hold one kind of data, with the name that errors give it. -/
structure LeafForm (α : Type) where
  label : String
  make : α → Leaf
  view : Leaf → Option α
  view_eq_some_iff : ∀ {leaf : Leaf} {a : α}, view leaf = some a ↔ leaf = make a

namespace LeafForm

/-- A text that may be absent. -/
def text : LeafForm (Option String) where
  label := "string"
  make
    | none => .null
    | some s => .text s
  view
    | .null => some none
    | .text s => some (some s)
    | _ => none
  view_eq_some_iff := by rintro (_ | _ | _ | _) (_ | _) <;> simp

def flag : LeafForm Bool where
  label := "bool"
  make := .flag
  view
    | .flag b => some b
    | _ => none
  view_eq_some_iff := by rintro (_ | _ | _ | _) _ <;> simp

def texts : LeafForm (List String) where
  label := "string array"
  make := .texts
  view
    | .texts ss => some ss
    | _ => none
  view_eq_some_iff := by rintro (_ | _ | _ | _) _ <;> simp

end LeafForm

namespace Config

variable {α : Type}

def read (t : Config) (form : LeafForm α) (key : String) : Except Config.Error α :=
  match t.leaf? key with
  | none => .error (.missingKey key)
  | some leaf =>
      match form.view leaf with
      | some a => .ok a
      | none => .error (.wrongType key form.label leaf.sort)

theorem getText_eq (t : Config) (key : String) : t.getText key = t.read .text key := by
  unfold getText getLeaf read
  cases t.leaf? key with
  | none => rfl
  | some leaf => cases leaf <;> rfl

theorem getFlag_eq (t : Config) (key : String) : t.getFlag key = t.read .flag key := by
  unfold getFlag getLeaf read
  cases t.leaf? key with
  | none => rfl
  | some leaf => cases leaf <;> rfl

theorem getTexts_eq (t : Config) (key : String) : t.getTexts key = t.read .texts key := by
  unfold getTexts getLeaf read
  cases t.leaf? key with
  | none => rfl
  | some leaf => cases leaf <;> rfl

/-- Why there is no data of the form under the key. -/
inductive Unreadable (t : Config) (form : LeafForm α) (key : String) : Config.Error → Prop
  | absent (h : t.leaf? key = none) : Unreadable t form key (.missingKey key)
  | mismatch {leaf : Leaf} (h : t.leaf? key = some leaf) (hform : ∀ a, leaf ≠ form.make a) :
      Unreadable t form key (.wrongType key form.label leaf.sort)

variable {t : Config} {form : LeafForm α} {key : String}

theorem read_eq_ok_iff {a : α} : t.read form key = .ok a ↔ t.leaf? key = some (form.make a) := by
  unfold read
  cases hleaf : t.leaf? key with
  | none => simp
  | some leaf =>
      rw [Option.some_inj, ← form.view_eq_some_iff]
      cases hview : form.view leaf <;> simp [hview]

theorem read_eq_error_iff {e : Config.Error} :
    t.read form key = .error e ↔ Unreadable t form key e := by
  unfold read
  constructor
  · intro h
    split at h
    · rename_i hleaf
      obtain rfl := Except.error.inj h
      exact .absent hleaf
    · rename_i leaf hleaf
      split at h
      · cases h
      · rename_i hview
        obtain rfl := Except.error.inj h
        refine .mismatch hleaf fun a ha => ?_
        rw [form.view_eq_some_iff.mpr ha] at hview
        cases hview
  · rintro (hleaf | ⟨hleaf, hform⟩)
    · rw [hleaf]
    · have hview : form.view _ = none :=
        Option.eq_none_iff_forall_ne_some.mpr fun a ha => hform a (form.view_eq_some_iff.mp ha)
      simp only [hleaf, hview]

end Config

end ColumnTypes
