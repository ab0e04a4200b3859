import ColumnTypes.Proofs.WellFormed

namespace ColumnTypes

/-!
# Resolution by lookups

Resolving a name looks at declarations only by their names, and only as long as
the name is not registered. So it may be given more declarations than it needs,
and the registered ones may be left out.
-/

/-! ## Lookups -/

/-- Whatever is found in the one list is found in the other. -/
def FoundIn {δ : Type} (name : δ → String) (ds es : List δ) : Prop :=
  ∀ n d, Named.find? name ds n = some d → Named.find? name es n = some d

/-- Names other than the given ones are looked up in either list alike. -/
def SameBut {δ : Type} (name : δ → String) (ns : List String) (ds es : List δ) : Prop :=
  ∀ n ∉ ns, Named.find? name ds n = Named.find? name es n

section

variable {δ : Type} {name : δ → String}

theorem FoundIn.without {ds es : List δ} (h : FoundIn name ds es) (m : String) :
    FoundIn name (Named.without name ds m) (Named.without name es m) := by
  intro n d hd
  rw [Named.find?_without] at hd ⊢
  split
  · rename_i heq
    rw [if_pos heq] at hd
    cases hd
  · rename_i hne
    rw [if_neg hne] at hd
    exact h n d hd

theorem FoundIn.append (ds es : List δ) : FoundIn name ds (ds ++ es) := by
  intro n d hd
  rw [Named.find?] at hd ⊢
  rw [List.find?_append, hd]
  rfl

theorem SameBut.without {ns : List String} {ds es : List δ} (h : SameBut name ns ds es)
    (m : String) : SameBut name ns (Named.without name ds m) (Named.without name es m) := by
  intro n hn
  rw [Named.find?_without, Named.find?_without, h n hn]

theorem SameBut.mono {ns ms : List String} {ds es : List δ} (h : SameBut name ns ds es)
    (hsub : ns ⊆ ms) : SameBut name ms ds es :=
  fun n hn => h n fun hmem => hn (hsub hmem)

theorem SameBut.append {ns : List String} {ds : List δ} (hds : ds.map name ⊆ ns) (es : List δ) :
    SameBut name ns (ds ++ es) es := by
  intro n hn
  have hnone : Named.find? name ds n = none :=
    Named.find?_eq_none_iff.mpr fun hmem => hn (hds hmem)
  rw [Named.find?] at hnone ⊢
  rw [List.find?_append, hnone]
  rfl

end

theorem contains_congr {known known' : List String} (h : ∀ n, n ∈ known ↔ n ∈ known')
    (n : String) : known.contains n = known'.contains n := by
  simp only [List.contains_eq_mem, h]

/-! ## Capabilities -/

namespace CapabilityDeclaration

open Capability (names)

theorem resolveParents_mono {known known' : List String} (hknown : known ⊆ known')
    {f g : List Capability → String → Except Catalog.Error (Capability × List Capability)}
    (hfg : ∀ registered p r, f registered p = .ok r → g registered p = .ok r) {owner : String}
    {ps : List String} {parents registered : List Capability}
    {r : List Capability × List Capability}
    (h : resolveParents known f owner ps parents registered = .ok r) :
    resolveParents known' g owner ps parents registered = .ok r := by
  induction ps generalizing parents registered with
  | nil => exact h
  | cons p ps ih =>
      rw [resolveParents] at h
      split at h
      · rename_i hp
        split at h
        · cases h
        · rename_i c mid hc
          have hp' : known'.contains p = true := by
            simpa using hknown (by simpa using hp)
          rw [resolveParents, if_pos hp', hfg _ _ _ hc]
          exact ih h
      · cases h

/-! The three ways to look up a name. -/

theorem resolve_of_registered {known : List String} {available : List CapabilityDeclaration}
    {registered : List Capability} {name : String} {c : Capability}
    (h : Capability.named? registered name = some c) :
    resolve known available registered name = .ok (c, registered) := by
  rw [resolve, h]

theorem resolve_of_unavailable {known : List String} {available : List CapabilityDeclaration}
    {registered : List Capability} {name : String}
    (hregistered : Capability.named? registered name = none)
    (havailable : named? available name = none) :
    resolve known available registered name =
      .error (if known.contains name then .capabilityCycle name
        else .invalid s!"unknown capability '{name}'") := by
  rw [resolve, hregistered]
  dsimp only
  split
  · split <;> rfl
  · rename_i d hd
    rw [havailable] at hd
    cases hd

theorem resolve_of_available {known : List String} {available : List CapabilityDeclaration}
    {registered : List Capability} {name : String} {d : CapabilityDeclaration}
    (hregistered : Capability.named? registered name = none)
    (havailable : named? available name = some d) :
    resolve known available registered name =
      (resolveParents known (resolve known (without available name)) d.name d.parents []
        registered).map fun r =>
          (Capability.mk d.name d.bundle r.1, r.2 ++ [Capability.mk d.name d.bundle r.1]) := by
  rw [resolve, hregistered]
  dsimp only
  split
  · rename_i hnone
    rw [havailable] at hnone
    cases hnone
  · rename_i d' hd
    obtain rfl := Option.some.inj (havailable.symm.trans hd)
    cases resolveParents known (resolve known (without available name)) d.name d.parents []
      registered <;> rfl

/-- What can be resolved is resolved alike where more is known and available. -/
theorem resolve_mono {known known' : List String} (hknown : known ⊆ known')
    {available available' : List CapabilityDeclaration}
    (havailable : FoundIn CapabilityDeclaration.name available available')
    {registered : List Capability} {name : String} {r : Capability × List Capability}
    (h : resolve known available registered name = .ok r) :
    resolve known' available' registered name = .ok r := by
  cases hregistered : Capability.named? registered name with
  | some c => rwa [resolve_of_registered hregistered] at h ⊢
  | none =>
      cases hd : named? available name with
      | none =>
          rw [resolve_of_unavailable hregistered hd] at h
          cases h
      | some d =>
          have hlt := Named.length_without_lt hd
          -- the name is open now and available in neither list
          have hnext : FoundIn CapabilityDeclaration.name (without available name)
              (without available' name) := havailable.without name
          rw [resolve_of_available hregistered hd] at h
          rw [resolve_of_available hregistered (havailable name d hd)]
          obtain ⟨ps, hps, rfl⟩ := Result.ok_of_map h
          rw [resolveParents_mono hknown (fun _ _ _ hok => resolve_mono hknown hnext hok) hps]
          rfl
termination_by available.length

theorem resolveAll_mono {known known' : List String} (hknown : known ⊆ known')
    {ds es rest : List CapabilityDeclaration} (hds : FoundIn CapabilityDeclaration.name ds es)
    {registered registered' : List Capability}
    (h : resolveAll known ds rest registered = .ok registered') :
    resolveAll known' es rest registered = .ok registered' := by
  induction rest generalizing registered with
  | nil => exact h
  | cons d rest ih =>
      rw [resolveAll] at h
      split at h
      · cases h
      · rename_i c mid hc
        rw [resolveAll, resolve_mono hknown hds hc]
        exact ih h

theorem resolveParents_congr {known known' : List String} (hknown : ∀ n, n ∈ known ↔ n ∈ known')
    {f g : List Capability → String → Except Catalog.Error (Capability × List Capability)}
    {registered : List Capability}
    (hfg : ∀ mid p, registered ⊆ mid → f mid p = g mid p)
    (hgrown : ∀ {mid p r}, registered ⊆ mid → f mid p = .ok r → mid ⊆ r.2) {owner : String}
    {ps : List String} {parents mid : List Capability} (hmid : registered ⊆ mid) :
    resolveParents known f owner ps parents mid = resolveParents known' g owner ps parents mid := by
  induction ps generalizing parents mid with
  | nil => rfl
  | cons p ps ih =>
      rw [resolveParents, resolveParents, contains_congr hknown, ← hfg mid p hmid]
      cases hc : f mid p with
      | error e => rfl
      | ok r => simp only [ih (List.Subset.trans hmid (hgrown hmid hc))]

/-- Declarations of registered names are not looked at, and of the known names only the set. -/
theorem resolve_congr {known known' : List String} (hknown : ∀ n, n ∈ known ↔ n ∈ known')
    {available available' : List CapabilityDeclaration} {registered : List Capability}
    (havailable : SameBut CapabilityDeclaration.name (names registered) available available')
    (name : String) :
    resolve known available registered name = resolve known' available' registered name := by
  cases hregistered : Capability.named? registered name with
  | some c => rw [resolve_of_registered hregistered, resolve_of_registered hregistered]
  | none =>
      have hsame : named? available name = named? available' name :=
        havailable name (Named.find?_eq_none_iff.mp hregistered)
      cases hd : named? available name with
      | none =>
          rw [resolve_of_unavailable hregistered hd, contains_congr hknown,
            resolve_of_unavailable hregistered (hsame ▸ hd)]
      | some d =>
          have hlt := Named.length_without_lt hd
          have hnext : SameBut CapabilityDeclaration.name (names registered)
              (without available name) (without available' name) := havailable.without name
          rw [resolve_of_available hregistered hd, resolve_of_available hregistered (hsame ▸ hd)]
          -- more may be registered when a parent is resolved, which hides more declarations
          refine congrArg (Except.map _)
            (resolveParents_congr hknown ?_ ?_ (List.Subset.refl registered))
          · intro mid p hmid
            exact resolve_congr hknown (hnext.mono (List.map_subset _ hmid)) p
          · intro mid p r _ hr
            exact (resolve_grown hr).1.kept.subset
termination_by available.length

theorem resolveAll_congr {known known' : List String} (hknown : ∀ n, n ∈ known ↔ n ∈ known')
    {ds es : List CapabilityDeclaration} {registered : List Capability}
    (h : SameBut CapabilityDeclaration.name (names registered) ds es)
    (rest : List CapabilityDeclaration) :
    resolveAll known ds rest registered = resolveAll known' es rest registered := by
  induction rest generalizing registered with
  | nil => rfl
  | cons d rest ih =>
      rw [resolveAll, resolveAll, ← resolve_congr hknown h]
      cases hc : resolve known ds registered d.name with
      | error e => rfl
      | ok r =>
          have hsub := (resolve_grown hc).1.kept.subset
          exact ih (h.mono (List.map_subset _ hsub))

theorem resolveAll_append (known : List String) (ds xs ys : List CapabilityDeclaration)
    (registered : List Capability) :
    resolveAll known ds (xs ++ ys) registered =
      resolveAll known ds xs registered >>= resolveAll known ds ys := by
  induction xs generalizing registered with
  | nil => rfl
  | cons x xs ih =>
      rw [List.cons_append, resolveAll, resolveAll]
      cases resolve known ds registered x.name with
      | error e => rfl
      | ok r => exact ih r.2

end CapabilityDeclaration

/-! ## Kinds -/

namespace KindDeclaration

open Capability (names)

theorem resolvePreferred_value (capabilities : List Capability) (owner : String)
    (preferred : Option String) :
    (resolvePreferred capabilities owner preferred).value =
      preferred.bind (Capability.named? capabilities) := by
  cases preferred with
  | none => rfl
  | some n =>
      rw [resolvePreferred, Option.bind_some]
      cases Capability.named? capabilities n <;> rfl

theorem define_value (capabilities : List Capability) (d : KindDeclaration)
    (parent : Option Kind) :
    (define capabilities d parent).run.value =
      (resolveImplements capabilities d.name d.implements).map fun cs => Kind.extending parent
        ⟨d.name, .catalog, cs, d.preferred.bind (Capability.named? capabilities), d.codec⟩ := by
  rw [define, Logged.value_run_bind, ← resolvePreferred_value capabilities d.name]
  cases hcs : resolveImplements capabilities d.name d.implements <;> rfl

theorem resolveImplements_mono {capabilities capabilities' cs : List Capability}
    (h : FoundIn Capability.name capabilities capabilities') {owner : String} {ns : List String}
    (hcs : resolveImplements capabilities owner ns = .ok cs) :
    resolveImplements capabilities' owner ns = .ok cs := by
  induction ns generalizing cs with
  | nil => exact hcs
  | cons n ns ih =>
      rw [resolveImplements] at hcs
      split at hcs
      · cases hcs
      · rename_i c hc
        obtain ⟨rest, hrest, rfl⟩ := Result.ok_of_map hcs
        have hc' : Capability.named? capabilities' n = some c := h n c hc
        rw [resolveImplements, hc', ih hrest]
        rfl

/-- With more capabilities a kind is defined alike, unless it preferred one that was not known. -/
theorem define_mono {capabilities capabilities' : List Capability}
    (h : FoundIn Capability.name capabilities capabilities') {d : KindDeclaration}
    (hpreferred : ∀ n, d.preferred = some n → n ∈ names capabilities) {parent : Option Kind}
    {k : Kind} (hk : (define capabilities d parent).run.value = .ok k) :
    (define capabilities' d parent).run.value = .ok k := by
  have hsame : d.preferred.bind (Capability.named? capabilities') =
      d.preferred.bind (Capability.named? capabilities) := by
    cases hn : d.preferred with
    | none => rfl
    | some n =>
        cases hc : Capability.named? capabilities n with
        | none => exact absurd (hpreferred n hn) (Named.find?_eq_none_iff.mp hc)
        | some c =>
            have hc' : Capability.named? capabilities' n = some c := h n c hc
            rw [Option.bind_some, Option.bind_some, hc, hc']
  rw [define_value] at hk ⊢
  obtain ⟨cs, hcs, hk⟩ := Result.ok_of_map hk
  rw [resolveImplements_mono h hcs, hsame]
  exact congrArg Except.ok hk

/-! The three ways to look up a name. -/

variable {capabilities : List Capability} {known : List String}
  {available : List KindDeclaration} {registered : List Kind} {name : String}

theorem resolve_of_registered {k : Kind} (h : Kind.named? registered name = some k) :
    (resolve capabilities known available registered name).run.value = .ok (k, registered) := by
  rw [resolve, h]
  rfl

theorem resolve_of_unavailable (hregistered : Kind.named? registered name = none)
    (havailable : named? available name = none) :
    (resolve capabilities known available registered name).run.value =
      .error (if known.contains name then .kindCycle name
        else .invalid s!"unknown cell kind '{name}'") := by
  rw [resolve, hregistered]
  dsimp only
  split
  · split <;> rfl
  · rename_i d hd
    rw [havailable] at hd
    cases hd

theorem resolve_of_root {d : KindDeclaration} (hregistered : Kind.named? registered name = none)
    (havailable : named? available name = some d) (hparent : d.parent = none) :
    (resolve capabilities known available registered name).run.value =
      (define capabilities d none).run.value.map fun k => (k, registered ++ [k]) := by
  rw [resolve, hregistered]
  dsimp only
  split
  · rename_i hnone
    rw [havailable] at hnone
    cases hnone
  · rename_i d' hd
    obtain rfl := Option.some.inj (havailable.symm.trans hd)
    split
    · rw [Logged.value_run_bind]
      cases (define capabilities d none).run.value <;> rfl
    · rename_i p hp
      rw [hparent] at hp
      cases hp

theorem resolve_of_extending {d : KindDeclaration} {p : String}
    (hregistered : Kind.named? registered name = none)
    (havailable : named? available name = some d) (hparent : d.parent = some p) :
    (resolve capabilities known available registered name).run.value =
      if known.contains p then
        (resolve capabilities known (without available name) registered p).run.value >>= fun r =>
          (define capabilities d (some r.1)).run.value.map fun k => (k, r.2 ++ [k])
      else .error (.unknownKind d.name p) := by
  rw [resolve, hregistered]
  dsimp only
  split
  · rename_i hnone
    rw [havailable] at hnone
    cases hnone
  · rename_i d' hd
    obtain rfl := Option.some.inj (havailable.symm.trans hd)
    split
    · rename_i hnone
      rw [hparent] at hnone
      cases hnone
    · rename_i q hq
      obtain rfl := Option.some.inj (hparent.symm.trans hq)
      split
      · rw [Logged.value_run_bind]
        congr 1
        funext r
        rw [Logged.value_run_bind]
        cases (define capabilities d (some r.1)).run.value <;> rfl
      · rfl

/-- What can be resolved is resolved alike where more is known and available, as long as no
preference was dropped. -/
theorem resolve_mono {capabilities' : List Capability} {known' : List String}
    (hcapabilities : FoundIn Capability.name capabilities capabilities') (hknown : known ⊆ known')
    {available available' : List KindDeclaration}
    (havailable : FoundIn KindDeclaration.name available available')
    (hpreferred : ∀ d ∈ available, ∀ p, d.preferred = some p → p ∈ names capabilities)
    {registered : List Kind} {name : String} {r : Kind × List Kind}
    (h : (resolve capabilities known available registered name).run.value = .ok r) :
    (resolve capabilities' known' available' registered name).run.value = .ok r := by
  cases hregistered : Kind.named? registered name with
  | some k => rwa [resolve_of_registered hregistered] at h ⊢
  | none =>
      cases hd : named? available name with
      | none =>
          rw [resolve_of_unavailable hregistered hd] at h
          cases h
      | some d =>
          have hlt := Named.length_without_lt hd
          have hd' : named? available' name = some d := havailable name d hd
          have hdefine : ∀ {parent k}, (define capabilities d parent).run.value = .ok k →
              (define capabilities' d parent).run.value = .ok k :=
            define_mono hcapabilities (hpreferred d (Named.mem_of_find? hd))
          cases hparent : d.parent with
          | none =>
              rw [resolve_of_root hregistered hd hparent] at h
              obtain ⟨k, hk, rfl⟩ := Result.ok_of_map h
              rw [resolve_of_root hregistered hd' hparent, hdefine hk]
              rfl
          | some p =>
              rw [resolve_of_extending hregistered hd hparent] at h
              split at h
              · rename_i hp
                have hp' : known'.contains p = true := by
                  simpa using hknown (by simpa using hp)
                have hnext : FoundIn KindDeclaration.name (without available name)
                    (without available' name) := havailable.without name
                obtain ⟨r, hr, h⟩ := Result.ok_of_bind h
                obtain ⟨k, hk, rfl⟩ := Result.ok_of_map h
                have hr' := resolve_mono hcapabilities hknown hnext
                  (fun e he => hpreferred e (Named.without_subset _ _ name he)) hr
                rw [resolve_of_extending hregistered hd' hparent, if_pos hp', hr']
                exact congrArg (Except.map fun k => (k, r.2 ++ [k])) (hdefine hk)
              · cases h
termination_by available.length

theorem resolveAll_mono {capabilities' : List Capability} {known' : List String}
    (hcapabilities : FoundIn Capability.name capabilities capabilities') (hknown : known ⊆ known')
    {ds es rest : List KindDeclaration} (hds : FoundIn KindDeclaration.name ds es)
    (hpreferred : ∀ d ∈ ds, ∀ p, d.preferred = some p → p ∈ names capabilities)
    {registered registered' : List Kind}
    (h : (resolveAll capabilities known ds rest registered).run.value = .ok registered') :
    (resolveAll capabilities' known' es rest registered).run.value = .ok registered' := by
  induction rest generalizing registered with
  | nil => exact h
  | cons d rest ih =>
      rw [resolveAll] at h
      obtain ⟨r, hr, h⟩ := Logged.ok_of_bind h
      rw [resolveAll, Logged.value_run_bind, resolve_mono hcapabilities hknown hds hpreferred hr]
      exact ih h

/-- Declarations of registered names are not looked at, and of the known names only the set. -/
theorem resolve_congr {known' : List String} (hknown : ∀ n, n ∈ known ↔ n ∈ known')
    {available available' : List KindDeclaration} {registered : List Kind}
    (havailable : SameBut KindDeclaration.name (registered.map Kind.name) available available')
    (name : String) :
    (resolve capabilities known available registered name).run.value =
      (resolve capabilities known' available' registered name).run.value := by
  cases hregistered : Kind.named? registered name with
  | some k => rw [resolve_of_registered hregistered, resolve_of_registered hregistered]
  | none =>
      have hsame : named? available name = named? available' name :=
        havailable name (Named.find?_eq_none_iff.mp hregistered)
      cases hd : named? available name with
      | none =>
          rw [resolve_of_unavailable hregistered hd, contains_congr hknown,
            resolve_of_unavailable hregistered (hsame ▸ hd)]
      | some d =>
          have hlt := Named.length_without_lt hd
          have hd' := hsame ▸ hd
          cases hparent : d.parent with
          | none =>
              rw [resolve_of_root hregistered hd hparent, resolve_of_root hregistered hd' hparent]
          | some p =>
              have hnext : SameBut KindDeclaration.name (registered.map Kind.name)
                  (without available name) (without available' name) := havailable.without name
              rw [resolve_of_extending hregistered hd hparent, contains_congr hknown,
                resolve_of_extending hregistered hd' hparent, resolve_congr hknown hnext]
termination_by available.length

theorem resolveAll_congr {known' : List String} (hknown : ∀ n, n ∈ known ↔ n ∈ known')
    {ds es : List KindDeclaration} {registered : List Kind}
    (h : SameBut KindDeclaration.name (registered.map Kind.name) ds es)
    (rest : List KindDeclaration) :
    (resolveAll capabilities known ds rest registered).run.value =
      (resolveAll capabilities known' es rest registered).run.value := by
  induction rest generalizing registered with
  | nil => rfl
  | cons d rest ih =>
      rw [resolveAll, resolveAll, Logged.value_run_bind, Logged.value_run_bind,
        ← resolve_congr hknown h]
      cases hr : (resolve capabilities known ds registered d.name).run.value with
      | error e => rfl
      | ok r =>
          have hsub := (resolve_grown hr).1.kept.subset
          exact ih (h.mono (List.map_subset _ hsub))

theorem resolveAll_append (ds xs ys : List KindDeclaration) (registered : List Kind) :
    (resolveAll capabilities known ds (xs ++ ys) registered).run.value =
      (resolveAll capabilities known ds xs registered).run.value >>=
        fun mid => (resolveAll capabilities known ds ys mid).run.value := by
  induction xs generalizing registered with
  | nil => rfl
  | cons x xs ih =>
      rw [List.cons_append, resolveAll, resolveAll, Logged.value_run_bind, Logged.value_run_bind]
      cases (resolve capabilities known ds registered x.name).run.value with
      | error e => rfl
      | ok r => exact ih r.2

end KindDeclaration

end ColumnTypes
