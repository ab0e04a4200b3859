import ColumnTypes.Proofs.Metadata
import ColumnTypes.Proofs.Obtainable

namespace ColumnTypes

/-!
# Foreign capabilities

A caller can make a capability under any name, a registered one included, and
bundles are kept by name. So what is asked about such a capability can change
the later answers about the registered one. It cannot exactly if capabilities
of the same names can stand in for registered ones without a trace.
-/

open Capability (names)

namespace Memo

variable {m : Memo} {cs : List Capability}

/-- Where names are unique, no lookup of the list gets in the way of another one. -/
theorem gives_bundleFor (m : Memo) (hcs : (names cs).Nodup) : m.Gives m.bundleFor cs where
  bundleFor_eq _ _ := rfl
  eq_of_name_eq c hc d hd hname := by rw [List.inj_on_of_nodup_map hcs hc hd hname]

/-- A bundle that is kept stays. -/
theorem keeps_bundle? (c d : Capability) (b : Bundle) :
    Query.Keeps (fun m => m.bundle? c = some b) (findBundle d) := by
  intro m hm
  rw [bundle?_findBundle]
  split
  · rename_i hname
    have hd : m.bundle? d = some b := by rwa [bundle?, ← hname]
    rw [bundleFor, hd]
    rfl
  · exact hm

/-- All bundles are looked up for renderers, and kept. -/
theorem bundle?_renderersFor (column : Column) (hcs : (names cs).Nodup) (m : Memo) :
    ∀ c ∈ cs, (renderersFor column cs m).value.2.bundle? c = some (m.bundleFor c) := by
  induction cs generalizing m with
  | nil => nofun
  | cons c cs ih =>
      obtain ⟨hc, hcs⟩ := List.nodup_cons.mp hcs
      have hfirst : (findBundle c m).value.2.bundle? c = some (m.bundleFor c) := by
        rw [bundle?_findBundle, if_pos rfl]
      intro d hd
      rcases List.mem_cons.mp hd with rfl | hd
      · have hrest : ∀ b, Query.Keeps (fun m => m.bundle? d = some b) (renderersFor column cs) :=
          fun b => keeps_renderersFor column fun e _ => keeps_bundle? d e b
        exact hrest _ _ hfirst
      · have hne : d.name ≠ c.name := fun h => hc (h ▸ List.mem_map_of_mem hd)
        have hlater := ih hcs (findBundle c m).value.2 d hd
        rwa [bundleFor, bundle?_findBundle, if_neg hne, ← bundleFor] at hlater

/-- After a call for renderers, capabilities of the same names are given the same bundles. -/
theorem map_bundleFor_renderersFor (column : Column) {ds : List Capability}
    (hds : (names ds).Nodup) (hnames : names cs = names ds) :
    cs.map (renderersFor column ds empty).value.2.bundleFor = ds.map Capability.bundle := by
  refine Capability.map_eq_map_of_names_eq hnames fun c _ d hd hname => ?_
  have hkept := bundle?_renderersFor column hds empty d hd
  rw [bundleFor, bundle?, hname, ← bundle?, hkept]
  rfl

end Memo

namespace Catalog

open Memo (KeptFrom)
open Query (Keeps)

/-! ## Runs -/

/-- The calls with their answers. -/
def transcript (c : Catalog) : Memo → List Call → List (Call × Answer)
  | _, [] => []
  | m, call :: calls =>
      (call, (c.answer call m).value.1) :: c.transcript (c.answer call m).value.2 calls

/-- If certain calls are answered by a rule wherever `P` holds, a run answers them by it. -/
theorem filter_transcript {c : Catalog} {P : Memo → Prop} (asked : Call → Bool)
    (rule : Call → Option Answer) {calls : List Call}
    (hkeeps : ∀ call ∈ calls, Keeps P (c.answer call))
    (hrule : ∀ call ∈ calls, asked call = true → ∀ m, P m →
      rule call = some (c.answer call m).value.1) {m : Memo} (hm : P m) :
    (c.transcript m calls).filter (fun e => asked e.1) =
      (calls.filter asked).filterMap fun call => (rule call).map (Prod.mk call) := by
  induction calls generalizing m with
  | nil => rfl
  | cons call calls ih =>
      obtain ⟨hkeep, hkeeps⟩ := List.forall_mem_cons.mp hkeeps
      obtain ⟨hfirst, hrule⟩ := List.forall_mem_cons.mp hrule
      have hrest := ih hkeeps hrule (hkeep m hm)
      rw [transcript, List.filter_cons, List.filter_cons, hrest]
      cases hasked : asked call with
      | false => rfl
      | true =>
          rw [if_pos rfl, if_pos rfl, List.filterMap_cons, hfirst hasked m hm]
          rfl

/-- The calls in which only registered capabilities are handed over. -/
def ownCalls (c : Catalog) (calls : List Call) : List Call :=
  calls.filter fun call => decide (c.IsOwn call)

/-- What a new registry answers to those of these calls that ask for metadata. -/
def ownMetadata (c : Catalog) (calls : List Call) : List (Call × Answer) :=
  (c.transcript Memo.empty calls).filter fun e => e.1.asksMetadata && decide (c.IsOwn e.1)

/-- The descriptors that are handed over in the call. -/
def Call.descriptors : Call → List Descriptor
  | .order t | .icon t | .renderers t _ => [t]
  | _ => []

/-- The call can be made by a caller that has the given capabilities. -/
structure Call.MadeWith (handles : Capability → Prop) (call : Call) : Prop where
  constructible : ∀ t ∈ call.descriptors, t.Constructible
  handed : ∀ cap ∈ call.handles, handles cap

/-- In any two runs with the same calls on registered capabilities, the metadata of those are the
same, whatever else is asked about the given capabilities. -/
def Isolates (c : Catalog) (handles : Capability → Prop) : Prop :=
  ∀ calls calls' : List Call, (∀ call ∈ calls ++ calls', call.MadeWith handles) →
    c.ownCalls calls = c.ownCalls calls' → c.ownMetadata calls = c.ownMetadata calls'

/-- It makes no difference to the metadata of registered capabilities if given ones of the same
names stand in for them. -/
def Interchangeable (c : Catalog) (handles : Capability → Prop) : Prop :=
  ∀ cs ds : List Capability, cs ⊆ c.capabilities → (names cs).Nodup → (∀ d ∈ ds, handles d) →
    names ds = names cs →
    Metadata.ofBundles (ds.map Capability.bundle) = Metadata.ofBundles (cs.map Capability.bundle)

/-! ## From interchangeable capabilities to isolation -/

variable {c : Catalog} {handles : Capability → Prop}

theorem Call.MadeWith.nodup_names {call : Call} (h : call.MadeWith handles)
    (hasks : call.asksMetadata = true) : (names call.lookups).Nodup := by
  cases call with
  | order t | icon t | renderers t column =>
      exact (h.constructible t List.mem_cons_self).wellShaped.nodup_names
  | describe | describeNamed | codec | load | discover | bundle => cases hasks

/-- A descriptor lists no name twice, so what lookups give before the call decides it. -/
theorem answer?_bundleFor (c : Catalog) {call : Call} (hasks : call.asksMetadata = true)
    (hnodup : (names call.lookups).Nodup) (m : Memo) :
    (Metadata.ofBundles (call.lookups.map m.bundleFor)).answer? call =
      some (c.answer call m).value.1 :=
  (m.gives_bundleFor hnodup).answer c hasks

/-- What lookups give is what some of the given capabilities give, of the same names. -/
theorem exists_handles {m : Memo} (hm : m.KeptFrom handles) {cs : List Capability}
    (hcs : ∀ cap ∈ cs, handles cap) :
    ∃ ds : List Capability, (∀ d ∈ ds, handles d) ∧ names ds = names cs ∧
      ds.map Capability.bundle = cs.map m.bundleFor := by
  choose stand hhandles hname hbundle using hm.exists_bundleFor_eq
  refine ⟨cs.map stand, ?_, ?_, ?_⟩
  · exact List.forall_mem_map.mpr fun cap hcap => hhandles cap (hcs cap hcap)
  · rw [names, names, List.map_map]
    exact List.map_congr_left fun cap _ => hname cap
  · rw [List.map_map]
    exact List.map_congr_left fun cap _ => (hbundle cap).symm

theorem Interchangeable.answer?_bundles (h : c.Interchangeable handles) {call : Call}
    (hmade : call.MadeWith handles) (hasks : call.asksMetadata = true) (hown : c.IsOwn call)
    {m : Memo} (hm : m.KeptFrom handles) :
    (Metadata.ofBundles (call.lookups.map Capability.bundle)).answer? call =
      some (c.answer call m).value.1 := by
  have hlookups := Call.lookups_eq_handles hasks
  have hnodup := hmade.nodup_names hasks
  obtain ⟨ds, hds, hnames, hbundles⟩ := exists_handles hm (hlookups ▸ hmade.handed)
  rw [← h call.lookups ds (hlookups ▸ hown) hnodup hds hnames, hbundles]
  exact answer?_bundleFor c hasks hnodup m

theorem Interchangeable.isolates (hc : c.WellFormed) (hown : ∀ cap ∈ c.capabilities, handles cap)
    (hup : ∀ cap, handles cap → ∀ p ∈ cap.parents, handles p) (h : c.Interchangeable handles) :
    c.Isolates handles := by
  intro calls calls' hmade hcalls
  have hrun : ∀ run : List Call, (∀ call ∈ run, call.MadeWith handles) → c.ownMetadata run =
      ((c.ownCalls run).filter Call.asksMetadata).filterMap fun call =>
        ((Metadata.ofBundles (call.lookups.map Capability.bundle)).answer? call).map
          (Prod.mk call) := by
    intro run hmade
    rw [ownMetadata, ownCalls, List.filter_filter]
    apply filter_transcript (P := KeptFrom handles)
      (fun call => call.asksMetadata && decide (c.IsOwn call))
    · intro call hcall
      exact hc.keeps_keptFrom hown hup (hmade call hcall).handed
    · intro call hcall hasked m hm
      rw [Bool.and_eq_true, decide_eq_true_eq] at hasked
      exact h.answer?_bundles (hmade call hcall) hasked.1 hasked.2 hm
    · exact KeptFrom.empty handles
  rw [hrun calls fun call hcall => hmade call (List.mem_append_left _ hcall),
    hrun calls' fun call hcall => hmade call (List.mem_append_right _ hcall), hcalls]

/-! ## From isolation to interchangeable capabilities -/

theorem Call.madeWith_of_unbound {cs : List Capability} (hnodup : (names cs).Nodup)
    (hcs : ∀ cap ∈ cs, handles cap) (call : Call)
    (hcall : call.descriptors = [Descriptor.unbound cs false]) (hhandles : call.handles = cs) :
    call.MadeWith handles where
  constructible := by
    rw [hcall, List.forall_mem_singleton]
    exact .ofList (fun _ _ => trivial) (Descriptor.ofList_eq_ok_iff.mpr ⟨rfl, hnodup, nofun⟩)
  handed := by rwa [hhandles]

/-- Isolation, for one call for metadata after one call on foreign capabilities. -/
theorem Isolates.answer_eq (h : c.Isolates handles) {call foreign : Call}
    (hmade : call.MadeWith handles) (hforeign : foreign.MadeWith handles)
    (hown : c.IsOwn call) (hother : ¬c.IsOwn foreign) (hasks : call.asksMetadata = true) :
    (c.answer call (c.answer foreign Memo.empty).value.2).value.1 =
      (c.answer call Memo.empty).value.1 := by
  have hcalls : c.ownCalls [foreign, call] = c.ownCalls [call] := by
    rw [ownCalls, ownCalls, List.filter_cons_of_neg]
    exact fun h => hother (of_decide_eq_true h)
  have hboth : ∀ q ∈ [foreign, call] ++ [call], q.MadeWith handles := by
    simpa using ⟨hforeign, hmade⟩
  simpa [ownMetadata, transcript, hown, hother, hasks] using h _ _ hboth hcalls

theorem Isolates.interchangeable (hc : c.WellFormed)
    (hown : ∀ cap ∈ c.capabilities, handles cap) (h : c.Isolates handles) :
    c.Interchangeable handles := by
  intro cs ds hcs hnodup hds hnames
  by_cases hregistered : ds ⊆ c.capabilities
  · rw [hc.hierarchy.eq_of_names_eq hregistered hcs hnames]
  · -- Asking for the renderers of the foreign capabilities keeps the bundles of all of them.
    have hnodup' : (names ds).Nodup := hnames ▸ hnodup
    have hforeign := Call.madeWith_of_unbound hnodup' hds
      (.renderers (.unbound ds false) (Column.named "")) rfl rfl
    have hlater := Memo.map_bundleFor_renderersFor (Column.named "") hnodup' hnames.symm
    have hsame : ∀ call : Call, call.asksMetadata = true →
        call.descriptors = [Descriptor.unbound cs false] → call.handles = cs →
        (Metadata.ofBundles (ds.map Capability.bundle)).answer? call =
          (Metadata.ofBundles (cs.map Capability.bundle)).answer? call := by
      intro call hasks hcall hhandles
      have hmade := Call.madeWith_of_unbound hnodup (fun cap hcap => hown cap (hcs hcap)) call
        hcall hhandles
      have hcallOwn : c.IsOwn call := by
        rw [IsOwn, hhandles]
        exact hcs
      have hanswer := answer?_bundleFor c hasks (hmade.nodup_names hasks)
      rw [Call.lookups_eq_handles hasks, hhandles] at hanswer
      have hfresh : cs.map Capability.bundle = cs.map Memo.empty.bundleFor := rfl
      rw [hfresh, hanswer, ← hlater, hanswer]
      exact congrArg some (h.answer_eq hmade hforeign hcallOwn hregistered hasks)
    apply Metadata.ext_answer? (.unbound cs false)
    · exact hsame _ rfl rfl rfl
    · exact hsame _ rfl rfl rfl
    · exact fun column => hsame _ rfl rfl rfl

/-- Capabilities that have the bundle of the registered one of their name can stand in for it. -/
theorem interchangeable_of_bundle_eq
    (h : ∀ cap ∈ c.capabilities, ∀ d, handles d → d.name = cap.name → d.bundle = cap.bundle) :
    c.Interchangeable handles := by
  intro cs ds hcs _ hds hnames
  rw [Capability.map_eq_map_of_names_eq hnames fun d hd cap hcap => h cap (hcs hcap) d (hds d hd)]

/-- The metadata of registered capabilities cannot be influenced exactly if it makes no difference
to them that others of the same names stand in for registered ones. -/
theorem isolates_iff_interchangeable (hc : c.Built) (hown : ∀ cap ∈ c.capabilities, handles cap)
    (hup : ∀ cap, handles cap → ∀ p ∈ cap.parents, handles p) :
    c.Isolates handles ↔ c.Interchangeable handles :=
  ⟨Isolates.interchangeable hc.wellFormed hown, Interchangeable.isolates hc.wellFormed hown hup⟩

/-! ## Namesakes -/

/-- Has the bundle of the registered capability of its name, and none of its parents. -/
def bareLogical : Capability := .mk "Logical" Capability.logical.declaredBundle []

def price : Capability := .mk "Price" none [.numeric]

theorem isolates_bareLogical_price :
    builtin.Built ∧ bareLogical ∉ builtin.capabilities ∧ price ∉ builtin.capabilities ∧
      (∀ cap ∈ builtin.capabilities, cap ∈ builtin.capabilities ++ [bareLogical, price]) ∧
      (∀ cap ∈ builtin.capabilities ++ [bareLogical, price], ∀ p ∈ cap.parents,
        p ∈ builtin.capabilities ++ [bareLogical, price]) ∧
      builtin.Isolates (· ∈ builtin.capabilities ++ [bareLogical, price]) := by
  have hown : ∀ cap ∈ builtin.capabilities,
      cap ∈ builtin.capabilities ++ [bareLogical, price] := by decide
  have hup : ∀ cap ∈ builtin.capabilities ++ [bareLogical, price], ∀ p ∈ cap.parents,
      p ∈ builtin.capabilities ++ [bareLogical, price] := by decide
  have hbundles : ∀ cap ∈ builtin.capabilities,
      ∀ d ∈ builtin.capabilities ++ [bareLogical, price], d.name = cap.name →
        d.bundle = cap.bundle := by decide
  exact ⟨Built.builtin, by decide, by decide, hown, hup,
    (isolates_iff_interchangeable Built.builtin hown hup).mpr
      (interchangeable_of_bundle_eq hbundles)⟩

/-- Has a bundle of its own under a registered name. -/
def fakeNumeric : Capability := .mk "Numeric" (some ⟨some .text, some "fake", none⟩) []

theorem fakeNumeric_shadows_numeric :
    builtin.Built ∧ fakeNumeric ∉ builtin.capabilities ∧
      builtin.answerAfter [] (.icon (.unbound [.numeric] false)) = .icon "numeric" ∧
      builtin.answerAfter [.icon (.unbound [fakeNumeric] false)]
        (.icon (.unbound [.numeric] false)) = .icon "fake" ∧
      builtin.answerAfter [] (.order (.unbound [.numeric] false)) = .order .numeric ∧
      builtin.answerAfter [.icon (.unbound [fakeNumeric] false)]
        (.order (.unbound [.numeric] false)) = .order .text ∧
      ¬builtin.Isolates (· ∈ builtin.capabilities ++ [fakeNumeric]) := by
  refine ⟨Built.builtin, by decide, rfl, rfl, rfl, rfl, fun h => ?_⟩
  have hmade : ∀ cap ∈ builtin.capabilities ++ [fakeNumeric],
      (Call.icon (.unbound [cap] false)).MadeWith (· ∈ builtin.capabilities ++ [fakeNumeric]) := by
    intro cap hcap
    refine Call.madeWith_of_unbound ?_ (List.forall_mem_singleton.mpr hcap) _ rfl rfl
    exact List.nodup_singleton cap.name
  have hsame := h.answer_eq (hmade .numeric (by decide)) (hmade fakeNumeric (by decide))
    (by decide) (by decide) rfl
  exact absurd (Answer.icon.inj hsame) (by decide)

end Catalog

end ColumnTypes
