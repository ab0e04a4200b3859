import ColumnTypes.Proofs.Leaves
import ColumnTypes.Proofs.Shape

namespace ColumnTypes

/-!
# Loading descriptors

A descriptor is loaded from the leaves under three keys at most, by a kind that
the catalog knows or by a list of capabilities that it knows. The registry and
what it was asked before have no part in it.
-/

namespace Catalog

open Capability (names)

variable {c : Catalog} {tree : Config} {t : Descriptor}

theorem resolveNames_eq_ok_iff {ns : List String} {cs : List Capability} :
    c.resolveNames ns = .ok cs ↔ List.Forall₂ (fun n cap => c.capability? n = some cap) ns cs := by
  induction ns generalizing cs with
  | nil => simp [resolveNames, eq_comm]
  | cons n ns ih =>
      rw [resolveNames, List.forall₂_cons_left_iff]
      constructor
      · intro h
        split at h
        · cases h
        · rename_i cap hcap
          obtain ⟨rest, hrest, rfl⟩ := Result.ok_of_map h
          exact ⟨cap, rest, hcap, ih.mp hrest, rfl⟩
      · rintro ⟨cap, rest, hcap, hrest, rfl⟩
        rw [hcap, ih.mpr hrest]
        rfl

theorem names_of_resolveNames {ns : List String} {cs : List Capability}
    (h : c.resolveNames ns = .ok cs) : names cs = ns := by
  rw [names, ← List.forall₂_eq_eq_eq, List.forall₂_map_left_iff]
  exact ((resolveNames_eq_ok_iff.mp h).imp fun _ _ => Named.name_of_find?).flip

theorem mem_of_resolveNames {ns : List String} {cs : List Capability}
    (h : c.resolveNames ns = .ok cs) : ∀ cap ∈ cs, cap ∈ c.capabilities := by
  have hresolved := resolveNames_eq_ok_iff.mp h
  clear h
  induction hresolved with
  | nil => nofun
  | cons hcap _ ih => exact List.forall_mem_cons.mpr ⟨Named.mem_of_find? hcap, ih⟩

theorem loadList_eq_ok_iff :
    c.loadList tree = .ok t ↔ ∃ flag, tree.leaf? preferenceKey = some (.flag flag) ∧
      ∃ ns, tree.leaf? capabilitiesKey = some (.texts ns) ∧
        ∃ cs, c.resolveNames ns = .ok cs ∧ Descriptor.ofList flag cs = .ok t := by
  simp only [loadList, Result.bind_eq_ok_iff, Result.mapError_eq_ok_iff, Config.getFlag_eq,
    Config.getTexts_eq, Config.read_eq_ok_iff, LeafForm.flag, LeafForm.texts]

theorem named_eq_ok_iff {name : String} :
    c.named name = .ok t ↔ name = missingKind ∧ t = Descriptor.missing ∨
      name ≠ missingKind ∧ ∃ k, c.kind? name = some k ∧ t = Descriptor.ofKind k := by
  unfold named
  split
  · simp_all [eq_comm]
  · cases c.kind? name <;> simp_all [eq_comm]

theorem loaded_eq (c : Catalog) (tree : Config) :
    c.loaded tree = (tree.read .text kindKey).mapError Descriptor.Error.ofConfig >>= fun
      | some name => c.named name
      | none => c.loadList tree := by
  rw [loaded, Config.getText_eq]
  cases tree.read .text kindKey with
  | error e => rfl
  | ok found => cases found <;> rfl

theorem loaded_eq_ok_iff :
    c.loaded tree = .ok t ↔ tree.leaf? kindKey = some .null ∧ c.loadList tree = .ok t ∨
      ∃ name, tree.leaf? kindKey = some (.text name) ∧ c.named name = .ok t := by
  simp only [loaded_eq, Result.bind_eq_ok_iff, Result.mapError_eq_ok_iff, Config.read_eq_ok_iff,
    Option.exists, LeafForm.text]

/-- What is loaded from a tree by a registry that was asked the calls before. -/
def loadedAfter (c : Catalog) (calls : List Call) (tree : Config) :
    Except Descriptor.Error Descriptor :=
  ((c.load tree).run (c.memoAfter calls)).value.1

theorem loadedAfter_eq (c : Catalog) (calls : List Call) (tree : Config) :
    c.loadedAfter calls tree = c.loaded tree :=
  (load_spec (faithful_memoAfter c calls) tree).1

end Catalog

end ColumnTypes
