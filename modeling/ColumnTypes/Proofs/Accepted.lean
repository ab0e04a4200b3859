import ColumnTypes.Proofs.Records

namespace ColumnTypes.Catalog

/-!
# Trees that are loaded

A tree is loaded if it names a kind, or if it names none and lists capabilities
that are known and different. Any other tree is refused for its first fault, and
what is loaded is saved as the part of the tree that it was loaded from.
-/

open Capability (names)
open Descriptor (unbound)

variable {c : Catalog} {tree : Config} {t : Descriptor}

/-! ## Names of capabilities -/

theorem capability?_eq_none_iff {n : String} :
    c.capability? n = none ↔ n ∉ names c.capabilities :=
  Named.find?_eq_none_iff

/-- The first name that is not known is the one that is reported. -/
theorem resolveNames_eq_error_iff {ns : List String} {e : Descriptor.Error} :
    c.resolveNames ns = .error e ↔ ∃ before n after, ns = before ++ n :: after ∧
      (∀ m ∈ before, m ∈ names c.capabilities) ∧ n ∉ names c.capabilities ∧
        e = .unresolvableReference s!"capability '{n}'" := by
  induction ns with
  | nil => simp [resolveNames]
  | cons n ns ih =>
      rw [resolveNames]
      cases hn : c.capability? n with
      | none =>
          have hunknown := capability?_eq_none_iff.mp hn
          constructor
          · rintro ⟨⟩
            exact ⟨[], n, ns, rfl, List.forall_mem_nil _, hunknown, rfl⟩
          · rintro ⟨before, m, after, heq, hbefore, -, rfl⟩
            cases before with
            | nil =>
                obtain ⟨rfl, -⟩ := List.cons.inj heq
                rfl
            | cons x before =>
                obtain ⟨rfl, -⟩ := List.cons.inj heq
                exact absurd (hbefore n List.mem_cons_self) hunknown
      | some cap =>
          have hknown : n ∈ names c.capabilities := by
            by_contra hunknown
            cases hn.symm.trans (capability?_eq_none_iff.mpr hunknown)
          constructor
          · intro h
            obtain ⟨before, m, after, rfl, hbefore, hm, he⟩ := ih.mp (Result.error_of_map h)
            exact ⟨n :: before, m, after, rfl, List.forall_mem_cons.mpr ⟨hknown, hbefore⟩, hm, he⟩
          · rintro ⟨before, m, after, heq, hbefore, hm, he⟩
            cases before with
            | nil =>
                obtain ⟨rfl, -⟩ := List.cons.inj heq
                exact absurd hknown hm
            | cons x before =>
                obtain ⟨rfl, rfl⟩ := List.cons.inj heq
                obtain ⟨-, hbefore⟩ := List.forall_mem_cons.mp hbefore
                rw [ih.mpr ⟨before, m, after, rfl, hbefore, hm, he⟩]
                rfl

theorem exists_resolveNames_iff {ns : List String} :
    (∃ cs, c.resolveNames ns = .ok cs) ↔ ∀ n ∈ ns, n ∈ names c.capabilities := by
  constructor
  · rintro ⟨cs, hcs⟩ n hn
    rw [← names_of_resolveNames hcs] at hn
    exact List.map_subset _ (mem_of_resolveNames hcs) hn
  · intro hns
    cases hcs : c.resolveNames ns with
    | ok cs => exact ⟨cs, rfl⟩
    | error e =>
        obtain ⟨before, n, after, rfl, -, hn, -⟩ := resolveNames_eq_error_iff.mp hcs
        exact absurd (hns n (List.mem_append_right before List.mem_cons_self)) hn

/-! ## Acceptance -/

def NamesKind (c : Catalog) (tree : Config) : Prop :=
  ∃ name, tree.leaf? kindKey = some (.text name) ∧
    (name = missingKind ∨ name ∈ c.kinds.map Kind.name)

def ListsCapabilities (c : Catalog) (tree : Config) : Prop :=
  tree.leaf? kindKey = some .null ∧ ∃ flag ns, tree.leaf? preferenceKey = some (.flag flag) ∧
    tree.leaf? capabilitiesKey = some (.texts ns) ∧ ns.Nodup ∧
      (∀ n ∈ ns, n ∈ names c.capabilities) ∧ ¬(flag = true ∧ ns = [])

theorem kind?_eq_none_iff {name : String} :
    c.kind? name = none ↔ name ∉ c.kinds.map Kind.name :=
  Named.find?_eq_none_iff

theorem exists_named_eq_ok_iff {name : String} :
    (∃ t, c.named name = .ok t) ↔ name = missingKind ∨ name ∈ c.kinds.map Kind.name := by
  rw [← not_not (a := name ∈ _), ← kind?_eq_none_iff]
  unfold named
  split
  · simp [*]
  · cases hk : c.kind? name <;> simp [*]

theorem exists_loadList_eq_ok_iff :
    (∃ t, c.loadList tree = .ok t) ↔ ∃ flag ns, tree.leaf? preferenceKey = some (.flag flag) ∧
      tree.leaf? capabilitiesKey = some (.texts ns) ∧ ns.Nodup ∧
        (∀ n ∈ ns, n ∈ names c.capabilities) ∧ ¬(flag = true ∧ ns = []) := by
  constructor
  · rintro ⟨t, h⟩
    obtain ⟨flag, hflag, ns, hns, cs, hcs, h⟩ := loadList_eq_ok_iff.mp h
    obtain ⟨-, hnodup, hfilled⟩ := Descriptor.ofList_eq_ok_iff.mp h
    have hknown := exists_resolveNames_iff.mp ⟨cs, hcs⟩
    obtain rfl := names_of_resolveNames hcs
    exact ⟨flag, names cs, hflag, hns, hnodup, hknown, by simpa [names] using hfilled⟩
  · rintro ⟨flag, ns, hflag, hns, hnodup, hknown, hfilled⟩
    obtain ⟨cs, hcs⟩ := exists_resolveNames_iff.mpr hknown
    obtain rfl := names_of_resolveNames hcs
    have hlist := Descriptor.ofList_eq_ok_iff.mpr
      ⟨rfl, hnodup, show ¬(flag = true ∧ cs = []) by simpa [names] using hfilled⟩
    exact ⟨_, loadList_eq_ok_iff.mpr ⟨flag, hflag, _, hns, cs, hcs, hlist⟩⟩

theorem exists_loaded_eq_ok_iff :
    (∃ t, c.loaded tree = .ok t) ↔ c.NamesKind tree ∨ c.ListsCapabilities tree := by
  have hnamed : c.NamesKind tree ↔
      ∃ t name, tree.leaf? kindKey = some (.text name) ∧ c.named name = .ok t := by
    simp only [NamesKind, ← exists_named_eq_ok_iff]
    exact ⟨fun ⟨name, hkind, t, h⟩ => ⟨t, name, hkind, h⟩,
      fun ⟨t, name, hkind, h⟩ => ⟨name, hkind, t, h⟩⟩
  rw [hnamed, ListsCapabilities, ← exists_loadList_eq_ok_iff, or_comm, ← exists_and_left,
    ← exists_or]
  exact exists_congr fun t => loaded_eq_ok_iff

/-! ## Refusal -/

/-- Why a tree that names no kind is refused, the faults that are looked for first before those
that are looked for later. -/
inductive RefusesList (c : Catalog) (tree : Config) : Descriptor.Error → Prop
  | preference {e : Config.Error} (h : tree.Unreadable .flag preferenceKey e) :
      RefusesList c tree (.invalidArgument e.message)
  | capabilities {flag : Bool} (hflag : tree.leaf? preferenceKey = some (.flag flag))
      {e : Config.Error} (h : tree.Unreadable .texts capabilitiesKey e) :
      RefusesList c tree (.invalidArgument e.message)
  | unknown {flag : Bool} (hflag : tree.leaf? preferenceKey = some (.flag flag))
      {before after : List String} {n : String}
      (hns : tree.leaf? capabilitiesKey = some (.texts (before ++ n :: after)))
      (hbefore : ∀ m ∈ before, m ∈ names c.capabilities) (hn : n ∉ names c.capabilities) :
      RefusesList c tree (.unresolvableReference s!"capability '{n}'")
  | nothingPreferred (hflag : tree.leaf? preferenceKey = some (.flag true))
      (hns : tree.leaf? capabilitiesKey = some (.texts [])) :
      RefusesList c tree
        (.invalidArgument "preferred capability flag set on an empty capability list")
  | repeated {flag : Bool} (hflag : tree.leaf? preferenceKey = some (.flag flag))
      {before after : List String} {n : String}
      (hns : tree.leaf? capabilitiesKey = some (.texts (before ++ n :: after)))
      (hknown : ∀ m ∈ before ++ n :: after, m ∈ names c.capabilities)
      (hbefore : before.Nodup) (hn : n ∈ before) :
      RefusesList c tree (.invalidArgument s!"capability '{n}' listed twice")

inductive Refuses (c : Catalog) (tree : Config) : Descriptor.Error → Prop
  | kind {e : Config.Error} (h : tree.Unreadable .text kindKey e) :
      Refuses c tree (.invalidArgument e.message)
  | unknown {name : String} (h : tree.leaf? kindKey = some (.text name))
      (hmissing : name ≠ missingKind) (hname : name ∉ c.kinds.map Kind.name) :
      Refuses c tree (.unresolvableReference s!"cell kind '{name}'")
  | list {e : Descriptor.Error} (h : tree.leaf? kindKey = some .null)
      (hlist : c.RefusesList tree e) : Refuses c tree e

theorem named_eq_error_iff {name : String} {e : Descriptor.Error} :
    c.named name = .error e ↔ name ≠ missingKind ∧ name ∉ c.kinds.map Kind.name ∧
      e = .unresolvableReference s!"cell kind '{name}'" := by
  rw [← kind?_eq_none_iff]
  unfold named
  split
  · simp [*]
  · cases hk : c.kind? name <;> simp [*, eq_comm]

theorem loadList_eq_error_iff {e : Descriptor.Error} :
    c.loadList tree = .error e ↔ c.RefusesList tree e := by
  simp only [loadList, Result.bind_eq_error_iff, Result.mapError_eq_error_iff,
    Result.mapError_eq_ok_iff, Config.getFlag_eq, Config.getTexts_eq, Config.read_eq_ok_iff,
    Config.read_eq_error_iff, resolveNames_eq_error_iff, Descriptor.ofList_eq_error_iff]
  constructor
  · rintro (⟨e, h, rfl⟩ | ⟨flag, hflag, ⟨e, h, rfl⟩ | ⟨ns, hns,
      ⟨before, n, after, rfl, hbefore, hn, rfl⟩ | ⟨cs, hcs,
        ⟨rfl, rfl, rfl⟩ | ⟨before, cap, after, rfl, hnodup, hcap, rfl⟩⟩⟩⟩)
    · exact .preference h
    · exact .capabilities hflag h
    · exact .unknown hflag hns hbefore hn
    · obtain rfl := names_of_resolveNames hcs
      exact .nothingPreferred hflag hns
    · have hknown := exists_resolveNames_iff.mp ⟨_, hcs⟩
      obtain rfl := names_of_resolveNames hcs
      rw [names, List.map_append, List.map_cons] at hns hknown
      exact .repeated hflag hns hknown hnodup hcap
  · rintro (h | ⟨hflag, h⟩ | ⟨hflag, hns, hbefore, hn⟩ | ⟨hflag, hns⟩ |
      ⟨hflag, hns, hknown, hbefore, hn⟩)
    · exact Or.inl ⟨_, h, rfl⟩
    · exact Or.inr ⟨_, hflag, Or.inl ⟨_, h, rfl⟩⟩
    · exact Or.inr ⟨_, hflag, Or.inr ⟨_, hns, Or.inl ⟨_, _, _, rfl, hbefore, hn, rfl⟩⟩⟩
    · exact Or.inr ⟨_, hflag, Or.inr ⟨_, hns, Or.inr ⟨[], rfl, Or.inl ⟨rfl, rfl, rfl⟩⟩⟩⟩
    · obtain ⟨cs, hcs⟩ := exists_resolveNames_iff.mpr hknown
      obtain ⟨first, rest, rfl, rfl, hrest⟩ := List.map_eq_append_iff.mp (names_of_resolveNames hcs)
      obtain ⟨cap, last, rfl, rfl, rfl⟩ := List.map_eq_cons_iff.mp hrest
      exact Or.inr ⟨_, hflag, Or.inr ⟨_, hns, Or.inr ⟨_, hcs, Or.inr
        ⟨first, cap, last, rfl, hbefore, hn, rfl⟩⟩⟩⟩

theorem loaded_eq_error_iff {e : Descriptor.Error} :
    c.loaded tree = .error e ↔ c.Refuses tree e := by
  simp only [loaded_eq, Result.bind_eq_error_iff, Result.mapError_eq_error_iff,
    Result.mapError_eq_ok_iff, Config.read_eq_ok_iff, Config.read_eq_error_iff, Option.exists,
    loadList_eq_error_iff, named_eq_error_iff]
  constructor
  · rintro (⟨e, h, rfl⟩ | ⟨hkind, h⟩ | ⟨name, hkind, hmissing, hname, rfl⟩)
    · exact .kind h
    · exact .list hkind h
    · exact .unknown hkind hmissing hname
  · rintro (h | ⟨hkind, hmissing, hname⟩ | ⟨hkind, h⟩)
    · exact Or.inl ⟨_, h, rfl⟩
    · exact Or.inr (Or.inr ⟨_, hkind, hmissing, hname, rfl⟩)
    · exact Or.inr (Or.inl ⟨hkind, h⟩)

/-! ## The part of the tree that was loaded -/

theorem keys_record_of_text (h : tree.Holds t.record) {name : String}
    (hkind : tree.leaf? kindKey = some (.text name)) : t.record.map Prod.fst = [kindKey] := by
  obtain ⟨binding, capabilities, hasPreferred⟩ := t
  cases binding with
  | kind k => rfl
  | missing => rfl
  | none => cases hkind.symm.trans (h _ List.mem_cons_self)

theorem keys_record_of_null (h : tree.Holds t.record) (hkind : tree.leaf? kindKey = some .null) :
    t.record.map Prod.fst = [kindKey, preferenceKey, capabilitiesKey] := by
  obtain ⟨binding, capabilities, hasPreferred⟩ := t
  cases binding with
  | kind k => cases hkind.symm.trans (h _ List.mem_cons_self)
  | missing => cases hkind.symm.trans (h _ List.mem_cons_self)
  | none => rfl

theorem save_empty_of_loaded (h : c.loaded tree = .ok t) :
    t.save Config.empty = tree.only (t.record.map Prod.fst) := by
  rw [Descriptor.save_eq]
  exact (holds_record_of_loaded h).putAll_empty t.nodup_keys_record

/-- Trees are loaded exactly if they are well formed. What is loaded from one is saved as that part
of it which was of use, and each other one is refused for its first fault, unknown names before
repeated ones. -/
theorem load_ok_iff_wellFormed (c : Catalog) (calls : List Call) (tree : Config) :
    ((∃ t, c.loadedAfter calls tree = .ok t) ↔ c.NamesKind tree ∨ c.ListsCapabilities tree) ∧
      (∀ t, c.loadedAfter calls tree = .ok t →
        (c.NamesKind tree → t.save Config.empty = tree.only [kindKey]) ∧
        (c.ListsCapabilities tree →
          t.save Config.empty = tree.only [kindKey, preferenceKey, capabilitiesKey])) ∧
      ∀ e, c.loadedAfter calls tree = .error e ↔ c.Refuses tree e := by
  rw [loadedAfter_eq]
  refine ⟨exists_loaded_eq_ok_iff, fun t h => ?_, fun e => loaded_eq_error_iff⟩
  have hholds := holds_record_of_loaded h
  have hsave := save_empty_of_loaded h
  constructor
  · rintro ⟨name, hkind, -⟩
    rw [hsave, keys_record_of_text hholds hkind]
  · rintro ⟨hkind, -⟩
    rw [hsave, keys_record_of_null hholds hkind]

/-- A tree that lists capabilities of which the first is preferred, and says more. -/
def listingTree (ns : List String) : Config :=
  (((Config.empty.putText kindKey none).putFlag preferenceKey true).putTexts capabilitiesKey
    ns).putText "unit" (some "mm")

/-- Of the two faults of the second tree the later one is reported. -/
theorem load_ok_iff_wellFormed_listing :
    builtin.ListsCapabilities (listingTree ["Numeric", "Comparable"]) ∧
      (∃ t, builtin.loadedAfter [] (listingTree ["Numeric", "Comparable"]) = .ok t ∧
        t.save Config.empty = (listingTree ["Numeric", "Comparable"]).only
          [kindKey, preferenceKey, capabilitiesKey]) ∧
      builtin.loadedAfter [] (listingTree ["Numeric", "Numeric", "Gone", "Lost"]) =
        .error (.unresolvableReference "capability 'Gone'") := by
  have hlists : builtin.ListsCapabilities (listingTree ["Numeric", "Comparable"]) :=
    ⟨by decide, true, ["Numeric", "Comparable"], by decide, by decide, by decide, by decide,
      by decide⟩
  obtain ⟨haccepted, hsaved, -⟩ :=
    load_ok_iff_wellFormed builtin [] (listingTree ["Numeric", "Comparable"])
  obtain ⟨-, -, hrefused⟩ :=
    load_ok_iff_wellFormed builtin [] (listingTree ["Numeric", "Numeric", "Gone", "Lost"])
  obtain ⟨t, ht⟩ := haccepted.mpr (Or.inr hlists)
  refine ⟨hlists, ⟨t, ht, (hsaved t ht).2 hlists⟩, (hrefused _).mpr ?_⟩
  have hflag : (listingTree ["Numeric", "Numeric", "Gone", "Lost"]).leaf? preferenceKey =
      some (.flag true) := by decide
  have hns : (listingTree ["Numeric", "Numeric", "Gone", "Lost"]).leaf? capabilitiesKey =
      some (.texts (["Numeric", "Numeric"] ++ "Gone" :: ["Lost"])) := by decide
  exact .list (by decide) (.unknown hflag hns (by decide) (by decide))

end ColumnTypes.Catalog
