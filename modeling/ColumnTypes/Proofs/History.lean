import ColumnTypes.Descriptor.Record
import ColumnTypes.Proofs.WellFormed

namespace ColumnTypes

/-!
# Histories of a registry

A registry answers calls one after the other and keeps descriptors, codecs and
bundles between them. What holds of the memo at the start and is kept by each of
the few things that a call does to it holds after any history. In particular,
what is kept of descriptors and codecs is what would be found anew, so the
descriptors of a registry do not depend on its history.
-/

/-! ## Queries -/

namespace Query

variable {α β : Type}

theorem value_bind (x : Query α) (f : α → Query β) (m : Memo) :
    ((x >>= f) m).value = (f (x m).value.1 (x m).value.2).value := rfl

theorem value_get (m : Memo) : ((get : Query Memo) m).value = (m, m) := rfl

/-- What holds of the memo before the query holds of it afterwards. -/
def Keeps (P : Memo → Prop) (x : Query α) : Prop := ∀ m, P m → P (x m).value.2

variable {P : Memo → Prop}

theorem keeps_pure (a : α) : Keeps P (pure a : Query α) := fun _ h => h

theorem keeps_ofLogged (x : Logged α) : Keeps P (ofLogged x) := fun _ h => h

theorem Keeps.bind {x : Query α} {f : α → Query β} (hx : Keeps P x) (hf : ∀ a, Keeps P (f a)) :
    Keeps P (x >>= f) := by
  intro m hm
  rw [value_bind]
  exact hf (x m).value.1 _ (hx m hm)

theorem Keeps.map {x : Query α} (hx : Keeps P x) (f : α → β) :
    Keeps P (x >>= fun a => pure (f a)) :=
  hx.bind fun a => keeps_pure (f a)

end Query

/-! ## Lookups of bundles -/

section

open Query (Keeps keeps_pure keeps_ofLogged)

variable {P : Memo → Prop} {cs : List Capability}

theorem keeps_warm (hcs : ∀ c ∈ cs, Keeps P (findBundle c)) : Keeps P (warm cs) := by
  induction cs with
  | nil => exact keeps_pure ()
  | cons c cs ih =>
      obtain ⟨hc, hcs⟩ := List.forall_mem_cons.mp hcs
      exact hc.bind fun _ => ih hcs

theorem keeps_firstPart {α : Type} (part : Bundle → Option α)
    (hcs : ∀ c ∈ cs, Keeps P (findBundle c)) : Keeps P (firstPart part cs) := by
  induction cs with
  | nil => exact keeps_pure none
  | cons c cs ih =>
      obtain ⟨hc, hcs⟩ := List.forall_mem_cons.mp hcs
      apply hc.bind
      intro b
      cases part b with
      | some a => exact keeps_pure (some a)
      | none => exact ih hcs

theorem keeps_renderersFor (column : Column) (hcs : ∀ c ∈ cs, Keeps P (findBundle c)) :
    Keeps P (renderersFor column cs) := by
  induction cs with
  | nil => exact keeps_pure []
  | cons c cs ih =>
      obtain ⟨hc, hcs⟩ := List.forall_mem_cons.mp hcs
      refine hc.bind fun b => ?_
      exact Keeps.bind (keeps_ofLogged _) fun _ => (ih hcs).map _

theorem keeps_discoverWarming (warming : Bool) {k : Kind}
    (hk : warming = true → ∀ c ∈ k.discovery.capabilities, Keeps P (findBundle c)) :
    Keeps P (discoverWarming warming k) := by
  unfold discoverWarming
  cases warming with
  | false => exact keeps_ofLogged _
  | true => exact (keeps_warm (hk rfl)).bind fun _ => keeps_ofLogged _

end

theorem discoverWarming_value (warming : Bool) (k : Kind) (m : Memo) :
    (discoverWarming warming k m).value.1 = k.discovery := by
  cases warming <;> rfl

theorem bound_discoverWarming (warming : Bool) (k : Kind) (m : Memo) :
    Descriptor.bound k (discoverWarming warming k m).value.1 = Descriptor.ofKind k := by
  rw [discoverWarming_value]
  rfl

namespace Catalog

open Query (Keeps)

/-! ## Calls -/

inductive Call where
  | describe (k : Kind)
  | describeNamed (name : String)
  | codec (k : Kind)
  | load (tree : Config)
  | order (t : Descriptor)
  | icon (t : Descriptor)
  | renderers (t : Descriptor) (column : Column)
  | discover (k : Kind)
  | bundle (cap : Capability)

inductive Answer where
  | descriptor (t : Except Descriptor.Error Descriptor)
  | codec (found : Option Codec)
  | order (o : ValueOrder)
  | icon (name : String)
  | renderers (rs : Renderers)
  | discovery (d : Discovery)
  | bundle (b : Bundle)

def answer (c : Catalog) : Call → Query Answer
  | .describe k => do return .descriptor (.ok (← c.descriptorOf k))
  | .describeNamed name => do return .descriptor (← (c.descriptorNamed name).run)
  | .codec k => do return .codec (← c.codecOf k)
  | .load tree => do return .descriptor (← (c.load tree).run)
  | .order t => do return .order (← orderOf t)
  | .icon t => do return .icon (← iconOf t)
  | .renderers t column => do return .renderers (← renderersOf t column)
  | .discover k => do return .discovery (← discoverWarming true k)
  | .bundle cap => do return .bundle (← findBundle cap)

/-- What a registry that was asked the calls in order keeps. -/
def memoAfter (c : Catalog) (calls : List Call) : Memo :=
  calls.foldl (fun m call => (c.answer call m).value.2) Memo.empty

/-- The answer to a call from a registry that was asked the calls before. -/
def answerAfter (c : Catalog) (calls : List Call) (call : Call) : Answer :=
  (c.answer call (c.memoAfter calls)).value.1

/-- The capabilities whose bundles are looked up for the call itself. For a registered kind there
may be more, when it is described for the first time. -/
def Call.lookups : Call → List Capability
  | .order t | .icon t | .renderers t _ => t.capabilities
  | .discover k => k.discovery.capabilities
  | .bundle cap => [cap]
  | _ => []

/-! ## Invariants -/

/-- Kept by all that is done to the memo for registered kinds. -/
structure Invariant (c : Catalog) (P : Memo → Prop) : Prop where
  findBundle : ∀ k, c.owns k = true → ∀ cap ∈ k.discovery.capabilities,
    Keeps P (ColumnTypes.findBundle cap)
  keepDescriptor : ∀ k, c.owns k = true → ∀ m, P m →
    P { m with descriptors := (k.name, Descriptor.ofKind k) :: m.descriptors }
  keepCodec : ∀ k, c.owns k = true → ∀ m, P m →
    P { m with codecs := (k.name, (c.declaredCodec k).value) :: m.codecs }

theorem reportOwns_value (c : Catalog) (k : Kind) (m : Memo) :
    (c.reportOwns k m).value = (c.owns k, m) := rfl

namespace Invariant

variable {c : Catalog} {P : Memo → Prop} (hP : c.Invariant P)
include hP

theorem descriptorOf (k : Kind) : Keeps P (c.descriptorOf k) := by
  intro m hm
  unfold Catalog.descriptorOf
  rw [Query.value_bind, reportOwns_value]
  cases howns : c.owns k with
  | false => exact keeps_discoverWarming false (k := k) nofun m hm
  | true =>
      rw [if_pos rfl, Query.value_bind, Query.value_get]
      cases m.descriptors.lookup k.name with
      | some t => exact hm
      | none =>
          have hwarm := keeps_discoverWarming c.settings.warmBundles
            (fun _ => hP.findBundle k howns) m hm
          have hkept := hP.keepDescriptor k howns _ hwarm
          rw [← bound_discoverWarming c.settings.warmBundles k m] at hkept
          exact hkept

theorem codecOf (k : Kind) : Keeps P (c.codecOf k) := by
  intro m hm
  unfold Catalog.codecOf
  rw [Query.value_bind, reportOwns_value]
  cases howns : c.owns k with
  | false => exact hm
  | true =>
      rw [if_pos rfl, Query.value_bind, Query.value_get]
      cases m.codecs.lookup k.name with
      | some found => exact hm
      | none => exact hP.keepCodec k howns m hm

theorem descriptorNamed (name : String) : Keeps P (c.descriptorNamed name).run := by
  intro m hm
  unfold Catalog.descriptorNamed
  split
  · exact hm
  · cases c.kind? name with
    | none => exact hm
    | some k => exact hP.descriptorOf k m hm

theorem load (tree : Config) : Keeps P (c.load tree).run := by
  intro m hm
  unfold Catalog.load
  cases tree.getText kindKey with
  | error e => exact hm
  | ok found =>
      cases found with
      | none => exact hm
      | some name => exact hP.descriptorNamed name m hm

theorem answer {call : Call} (hcall : ∀ cap ∈ call.lookups, Keeps P (ColumnTypes.findBundle cap)) :
    Keeps P (c.answer call) := by
  cases call with
  | describe k => exact (hP.descriptorOf k).map _
  | describeNamed name => exact (hP.descriptorNamed name).map _
  | codec k => exact (hP.codecOf k).map _
  | load tree => exact (hP.load tree).map _
  | order t => exact ((keeps_firstPart _ hcall).map _).map _
  | icon t => exact ((keeps_firstPart _ hcall).map _).map _
  | renderers t column => exact ((keeps_renderersFor column hcall).map _).map _
  | discover k => exact (keeps_discoverWarming true fun _ => hcall).map _
  | bundle cap => exact (hcall cap List.mem_cons_self).map _

end Invariant

/-- What holds at the start and is kept by each call holds after the calls. -/
theorem memoAfter_induction {c : Catalog} {P : Memo → Prop} (hempty : P Memo.empty)
    {calls : List Call} (hcalls : ∀ call ∈ calls, Keeps P (c.answer call)) :
    P (c.memoAfter calls) := by
  unfold memoAfter
  generalize Memo.empty = m at hempty
  induction calls generalizing m with
  | nil => exact hempty
  | cons call calls ih =>
      obtain ⟨hcall, hcalls⟩ := List.forall_mem_cons.mp hcalls
      exact ih hcalls _ (hcall m hempty)

end Catalog

/-! ## What is kept -/

/-- Every entry is the value of a key with `S`, under the name of that key. What the values are
makes no difference. -/
def Kept {κ α : Type} (S : κ → Prop) (name : κ → String) (value : κ → α)
    (es : List (String × α)) : Prop :=
  ∀ e ∈ es, ∃ k, S k ∧ e = (name k, value k)

namespace Kept

variable {κ α : Type} {S : κ → Prop} {name : κ → String} {value : κ → α}
  {es : List (String × α)}

theorem nil : Kept S name value [] := nofun

theorem cons {k : κ} (hk : S k) (h : Kept S name value es) :
    Kept S name value ((name k, value k) :: es) :=
  List.forall_mem_cons.mpr ⟨⟨k, hk, rfl⟩, h⟩

/-- A name leads to the value of a key of that name, which need not be the key it was kept for. -/
theorem of_lookup (h : Kept S name value es) {n : String} {a : α} (ha : es.lookup n = some a) :
    ∃ k, S k ∧ name k = n ∧ value k = a := by
  obtain ⟨before, after, rfl, -⟩ := List.lookup_eq_some_iff.mp ha
  obtain ⟨k, hk, heq⟩ := h _ (List.mem_append_right before List.mem_cons_self)
  obtain ⟨rfl, rfl⟩ := Prod.mk.inj heq
  exact ⟨k, hk, rfl, rfl⟩

end Kept

namespace Memo

/-- Descriptors and codecs are kept for registered kinds, as they are found without the memo. -/
structure Faithful (c : Catalog) (m : Memo) : Prop where
  descriptors : Kept (c.owns · = true) Kind.name Descriptor.ofKind m.descriptors
  codecs : Kept (c.owns · = true) Kind.name (fun k => (c.declaredCodec k).value) m.codecs

namespace Faithful

theorem empty (c : Catalog) : Faithful c Memo.empty := ⟨Kept.nil, Kept.nil⟩

theorem findBundle (c : Catalog) (cap : Capability) :
    Query.Keeps (Faithful c) (findBundle cap) := by
  intro m hm
  rw [ColumnTypes.findBundle]
  split
  · exact hm
  · exact ⟨hm.descriptors, hm.codecs⟩

theorem invariant (c : Catalog) : c.Invariant (Faithful c) where
  findBundle _ _ cap _ := findBundle c cap
  keepDescriptor _ hk _ hm := ⟨hm.descriptors.cons hk, hm.codecs⟩
  keepCodec _ hk _ hm := ⟨hm.descriptors, hm.codecs.cons hk⟩

end Faithful

end Memo

namespace Catalog

open Memo (Faithful)

variable {c : Catalog}

/-- A catalog owns one kind of each name. -/
theorem eq_of_owns {k l : Kind} (hk : c.owns k = true) (hl : c.owns l = true)
    (hname : l.name = k.name) : l = k := by
  rw [owns_iff] at hk hl
  exact Option.some.inj (hl.symm.trans (hname ▸ hk))

/-- Kept or found anew, for a registered kind or any other, the descriptor is the same. -/
theorem descriptorOf_spec {m : Memo} (hm : Faithful c m) (k : Kind) :
    (c.descriptorOf k m).value.1 = Descriptor.ofKind k ∧
      Faithful c (c.descriptorOf k m).value.2 := by
  refine ⟨?_, (Faithful.invariant c).descriptorOf k m hm⟩
  unfold descriptorOf
  rw [Query.value_bind, reportOwns_value]
  cases howns : c.owns k with
  | false => exact bound_discoverWarming false k m
  | true =>
      rw [if_pos rfl, Query.value_bind, Query.value_get]
      cases hkept : m.descriptors.lookup k.name with
      | some t =>
          obtain ⟨l, hl, hname, rfl⟩ := hm.descriptors.of_lookup hkept
          exact congrArg Descriptor.ofKind (eq_of_owns howns hl hname)
      | none => exact bound_discoverWarming c.settings.warmBundles k m

theorem codecOf_spec {m : Memo} (hm : Faithful c m) (k : Kind) :
    (c.codecOf k m).value.1 = (c.declaredCodec k).value ∧
      Faithful c (c.codecOf k m).value.2 := by
  refine ⟨?_, (Faithful.invariant c).codecOf k m hm⟩
  unfold codecOf
  rw [Query.value_bind, reportOwns_value]
  cases howns : c.owns k with
  | false => rfl
  | true =>
      rw [if_pos rfl, Query.value_bind, Query.value_get]
      cases hkept : m.codecs.lookup k.name with
      | some found =>
          obtain ⟨l, hl, hname, rfl⟩ := hm.codecs.of_lookup hkept
          exact congrArg (fun k => (c.declaredCodec k).value) (eq_of_owns howns hl hname)
      | none => rfl

/-- The descriptor of a name, as the catalog alone determines it. -/
def named (c : Catalog) (name : String) : Except Descriptor.Error Descriptor :=
  if name = missingKind then .ok Descriptor.missing
  else
    match c.kind? name with
    | some k => .ok (Descriptor.ofKind k)
    | none => .error (.unresolvableReference s!"cell kind '{name}'")

theorem descriptorNamed_spec {m : Memo} (hm : Faithful c m) (name : String) :
    ((c.descriptorNamed name).run m).value.1 = c.named name ∧
      Faithful c ((c.descriptorNamed name).run m).value.2 := by
  refine ⟨?_, (Faithful.invariant c).descriptorNamed name m hm⟩
  unfold descriptorNamed named
  split
  · rfl
  · cases hk : c.kind? name with
    | none => rfl
    | some k => exact congrArg Except.ok (descriptorOf_spec hm k).1

/-- What is loaded from a tree, as the catalog alone determines it. -/
def loaded (c : Catalog) (tree : Config) : Except Descriptor.Error Descriptor :=
  match tree.getText kindKey with
  | .error e => .error (Descriptor.Error.ofConfig e)
  | .ok (some name) => c.named name
  | .ok none => c.loadList tree

theorem load_spec {m : Memo} (hm : Faithful c m) (tree : Config) :
    ((c.load tree).run m).value.1 = c.loaded tree ∧
      Faithful c ((c.load tree).run m).value.2 := by
  refine ⟨?_, (Faithful.invariant c).load tree m hm⟩
  unfold load loaded
  cases tree.getText kindKey with
  | error e => rfl
  | ok found =>
      cases found with
      | none => rfl
      | some name => exact (descriptorNamed_spec hm name).1

theorem faithful_memoAfter (c : Catalog) (calls : List Call) : Faithful c (c.memoAfter calls) :=
  memoAfter_induction (Faithful.empty c) fun _ _ =>
    (Faithful.invariant c).answer fun cap _ => Faithful.findBundle c cap

end Catalog

end ColumnTypes
