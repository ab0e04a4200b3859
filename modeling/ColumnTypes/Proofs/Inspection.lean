import ColumnTypes.Proofs.Encoding
import ColumnTypes.Proofs.Records
import ColumnTypes.Proofs.Reports
import ColumnTypes.Proofs.SavedText
import Mathlib.Data.List.TakeWhile

namespace ColumnTypes

/-!
# What the inspector prints can be loaded

A description of a descriptor depends on the catalog and the descriptor alone,
and the tree that it ends with loads that descriptor. So a printed tree that is
put into a file is described again in the same words.
-/

/-! ## Catalogs of files -/

theorem Catalog.File.built_of_toCatalog {file : Catalog.File} {c : Catalog}
    (h : file.toCatalog.run.value = .ok c) : c.Built := by
  obtain ⟨layer, -, h⟩ := Logged.ok_of_bind h
  have hbase : file.base.Built := by
    unfold base
    split
    · exact Built.builtin
    · exact Built.empty
  exact hbase.layer h

namespace Inspect

theorem built_of_openCatalog {files : FileReader} {path : Option String} {c : Catalog}
    (h : openCatalog files path = .ok c) : c.Built := by
  cases path with
  | none => exact Except.ok.inj h ▸ Catalog.Built.builtin
  | some p =>
      rw [openCatalog] at h
      split at h
      · cases h
      · split at h
        · cases h
        · split at h
          · rename_i c' hc'
            exact Except.ok.inj h ▸ Catalog.File.built_of_toCatalog hc'
          · cases h

theorem openCatalog_congr {files files' : FileReader} {path : Option String}
    (h : ∀ p, path = some p → files' p = files p) :
    openCatalog files' path = openCatalog files path := by
  cases path with
  | none => rfl
  | some p => rw [openCatalog, openCatalog, readText, readText, h p rfl]

theorem readText_of_text {files : FileReader} {path text : String}
    (h : files path = .ok text.toUTF8) : readText files path = .ok text := by
  rw [readText, h]
  simp only [fromUTF8?_toUTF8]

/-! ## Columns -/

theorem dropWhile_ne_eq_nil_iff {c : Char} {cs : List Char} :
    cs.dropWhile (· != c) = [] ↔ c ∉ cs := by
  rw [List.dropWhile_eq_nil_iff]
  constructor
  · intro h hc
    simpa using h c hc
  · intro h d hd
    simpa using ne_of_mem_of_not_mem hd h

theorem splitProperty?_isSome_iff {raw : String} :
    (splitProperty? raw).isSome = true ↔ '=' ∈ raw.toList := by
  rw [← not_iff_not, ← dropWhile_ne_eq_nil_iff]
  unfold splitProperty?
  dsimp only
  cases raw.toList.dropWhile (· != '=') with
  | nil => simp
  | cons c value => simp

theorem exists_columnOf_iff {properties : List String} (column : Column) :
    (∃ column', columnOf column properties = .ok column') ↔
      ∀ raw ∈ properties, '=' ∈ raw.toList := by
  induction properties generalizing column with
  | nil => exact ⟨fun _ => nofun, fun _ => ⟨column, rfl⟩⟩
  | cons raw rest ih =>
      rw [List.forall_mem_cons, ← splitProperty?_isSome_iff, columnOf]
      cases splitProperty? raw with
      | none => simp
      | some kv => simpa using ih (column.put kv.1 kv.2)

end Inspect

/-! ## Descriptors of a catalog -/

namespace Catalog

variable {c : Catalog} {t : Descriptor}

theorem Describes.recognizes (hc : c.WellFormed) (ht : c.Describes t) : c.Recognizes t where
  kind_mem := by
    intro k hk
    refine (Descriptor.Obtainable.eq_ofKind ?_ ?_ ht hk).1
    · rintro _ rfl l hl
      exact hl
    · rintro _ rfl cap hcap
      exact hcap
  capabilities_subset _ := ht.capabilities_subset hc

theorem Describes.loaded_save (hc : c.WellFormed) (ht : c.Describes t) :
    c.loaded (t.save Config.empty) = .ok t :=
  hc.loaded_of_holds_record ht.constructible (ht.recognizes hc) (t.holds_save Config.empty)

end Catalog

namespace Inspect

variable {c : Catalog} {files : FileReader}

open Catalog (Describes)
open Memo (Own)

theorem savedText?_described (header : List String) (c : Catalog) (t : Descriptor) :
    savedText? (lines header ++ described c t) = some ((t.save Config.empty).toJson ++ "\n") := by
  have hfront : header ++ frontLines c t ≠ [] :=
    List.append_ne_nil_of_right_ne_nil _ (List.cons_ne_nil _ _)
  rw [described, ← lines_append, ← List.append_assoc]
  exact savedText?_lines hfront _

/-! ## Answers -/

theorem answer_load (hc : c.WellFormed) {t : Descriptor} (ht : c.Describes t)
    {file content : String} (hfile : files file = .ok content.toUTF8)
    (hcontent : content = (t.save Config.empty).toJson ∨
      content = (t.save Config.empty).toJson ++ "\n") :
    answer files c (.load file) = .ok (described c t) :=
  ((yields_loadReport hc files file).eq_ok_iff (Own.empty c)).mpr
    ⟨content, readText_of_text hfile, _, Config.ofJson_printed hcontent, t, ht.loaded_save hc, rfl⟩

theorem perform_run {path : Option String} (hc : openCatalog files path = .ok c)
    {command : Command} {output : String} (h : answer files c command = .ok output) :
    (Request.run path command).perform files = .success output := by
  simp only [Request.perform, hc, Except.bind, h]

/-! ## Shown and loaded -/

/-- The command asks for the type of a known kind, with properties that have a key and a value, or
for the meet of two known kinds. -/
def Shows (c : Catalog) : Command → Prop
  | .type name properties =>
      (∃ t, c.named name = .ok t) ∧ ∀ raw ∈ properties, '=' ∈ raw.toList
  | .meet a b => (∃ t, c.named a = .ok t) ∧ ∃ u, c.named b = .ok u
  | .list | .load _ => False

/-- Of the commands for a type or a meet, these are the ones that are not refused. -/
theorem shows_iff (hc : c.WellFormed) {command : Command} (hlist : command ≠ .list)
    (hload : ∀ file, command ≠ .load file) :
    Shows c command ↔ ∃ output, answer files c command = .ok output := by
  cases command with
  | list => exact absurd rfl hlist
  | load file => exact absurd rfl (hload file)
  | type name properties =>
      have hanswer (output : String) : answer files c (.type name properties) = .ok output ↔ _ :=
        (yields_typeReport hc name properties).eq_ok_iff (Own.empty c)
      simp only [hanswer, Shows, ← exists_columnOf_iff (Column.named name)]
      constructor
      · rintro ⟨⟨t, ht⟩, column, hcolumn⟩
        exact ⟨_, t, ht, column, hcolumn, rfl⟩
      · rintro ⟨_, t, ht, column, hcolumn, -⟩
        exact ⟨⟨t, ht⟩, column, hcolumn⟩
  | meet a b =>
      have hanswer (output : String) : answer files c (.meet a b) = .ok output ↔ _ :=
        (yields_meetReport hc a b).eq_ok_iff (Own.empty c)
      simp only [hanswer, Shows]
      constructor
      · rintro ⟨⟨t, ht⟩, u, hu⟩
        exact ⟨_, t, ht, u, hu, _, rfl, rfl⟩
      · rintro ⟨_, t, ht, u, hu, -⟩
        exact ⟨⟨t, ht⟩, u, hu⟩

/-- The lines that the command prints before it describes a descriptor. -/
def header : Command → List String
  | .meet a b => [a ++ " ^ " ++ b]
  | _ => []

/-- What is shown is the description of a descriptor that the catalog alone determines. -/
theorem exists_answer_eq (hc : c.WellFormed) (files : FileReader) {command : Command}
    (h : Shows c command) :
    ∃ t, c.Describes t ∧
      answer files c command = .ok (lines (header command) ++ described c t) := by
  cases command with
  | list => exact h.elim
  | load file => exact h.elim
  | type name properties =>
      obtain ⟨⟨t, ht⟩, hproperties⟩ := h
      obtain ⟨column, hcolumn⟩ := (exists_columnOf_iff (Column.named name)).mpr hproperties
      refine ⟨t, (Describes.of_named ht).1,
        ((yields_typeReport hc name properties).eq_ok_iff (Own.empty c)).mpr ?_⟩
      exact ⟨t, ht, column, hcolumn, String.empty_append.symm⟩
  | meet a b =>
      obtain ⟨⟨t, ht⟩, u, hu⟩ := h
      refine ⟨t.merge u, .merge (Describes.of_named ht).1 (Describes.of_named hu).1,
        ((yields_meetReport hc a b).eq_ok_iff (Own.empty c)).mpr ?_⟩
      refine ⟨t, ht, u, hu, _, rfl, ?_⟩
      rw [(Describes.of_named ht).2, (Describes.of_named hu).2]
      rfl

def percentText : String := "[[cell]]\nname = \"Percent\"\nextends = \"Real\"\n"

def percentFiles : FileReader := fun path =>
  if path = "percent.toml" then .ok percentText.toUTF8 else .error .absent

def percentCatalog : Catalog where
  capabilities := Catalog.builtin.capabilities
  kinds := Catalog.builtin.kinds ++
    [⟨⟨"Percent", .catalog, [], none, none⟩, Kind.real.lineage⟩]
  settings := Catalog.builtin.settings

theorem openCatalog_percent :
    openCatalog percentFiles (some "percent.toml") = .ok percentCatalog := by
  have hread : readText percentFiles "percent.toml" = .ok percentText := readText_of_text rfl
  rw [openCatalog, hread]
  decide +kernel

end Inspect

end ColumnTypes
