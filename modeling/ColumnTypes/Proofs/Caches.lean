import ColumnTypes.Proofs.Loading
import ColumnTypes.Proofs.Registration

namespace ColumnTypes.Catalog

/-!
# Kept descriptors and codecs

A registry keeps descriptors and codecs under the names of kinds, and any kind
that a caller has made can have a registered name. Nothing is kept for such a
kind, and nothing that is kept is answered for it. This takes nothing of a codec
but the kind that it is for.
-/

variable {c : Catalog}

theorem WellFormed.codecFits_iff (hc : c.WellFormed) {k : Kind} {target : String} :
    c.codecFits k target = true ↔ target = k.name ∨
      ∃ other ∈ c.kinds, other.name = target ∧
        k.name ∈ other.lineage.map KindDefinition.name := by
  rw [codecFits, Bool.or_eq_true, beq_iff_eq, Option.any_eq_true]
  apply or_congr_right
  constructor
  · rintro ⟨other, hother, hk⟩
    obtain ⟨hmem, hname⟩ := hc.kind?_eq_some_iff.mp hother
    exact ⟨other, hmem, hname, by simpa [Kind.descendsFrom, List.mem_map] using hk⟩
  · rintro ⟨other, hmem, hname, hk⟩
    exact ⟨other, hc.kind?_eq_some_iff.mpr ⟨hmem, hname⟩,
      by simpa [Kind.descendsFrom, List.mem_map] using hk⟩

theorem declaredCodec_eq_some_iff {k : Kind} {codec : Codec} :
    (c.declaredCodec k).value = some codec ↔
      k.declaredCodec = some codec ∧ c.codecFits k codec.kind = true := by
  rw [declaredCodec]
  cases k.declaredCodec with
  | none => simp
  | some own =>
      simp only [Option.some.injEq]
      split <;> grind [Logged.value_pure]

theorem answerAfter_describe (c : Catalog) (calls : List Call) (k : Kind) :
    c.answerAfter calls (.describe k) = .descriptor (.ok (Descriptor.ofKind k)) :=
  congrArg (fun t => Answer.descriptor (.ok t))
    (descriptorOf_spec (faithful_memoAfter c calls) k).1

theorem answerAfter_describeNamed (c : Catalog) (calls : List Call) (name : String) :
    c.answerAfter calls (.describeNamed name) = .descriptor (c.named name) :=
  congrArg Answer.descriptor (descriptorNamed_spec (faithful_memoAfter c calls) name).1

theorem answerAfter_codec (c : Catalog) (calls : List Call) (k : Kind) :
    c.answerAfter calls (.codec k) = .codec (c.declaredCodec k).value :=
  congrArg Answer.codec (codecOf_spec (faithful_memoAfter c calls) k).1

/-- Whatever a registry was asked before and whatever kind it is asked about, it answers by the
definition of that very kind, and what it keeps is about registered kinds. -/
theorem answers_by_definition (hc : c.Built) (calls : List Call) :
    (∀ k, c.answerAfter calls (.describe k) =
        .descriptor (.ok (Descriptor.bound k k.discovery))) ∧
      (∀ k, ∃ found, c.answerAfter calls (.codec k) = .codec found ∧
        ∀ codec, found = some codec ↔ k.declaredCodec = some codec ∧
          (codec.kind = k.name ∨ ∃ other ∈ c.kinds, other.name = codec.kind ∧
            k.name ∈ other.lineage.map KindDefinition.name)) ∧
      (∀ e ∈ (c.memoAfter calls).descriptors,
        ∃ k ∈ c.kinds, e = (k.name, Descriptor.bound k k.discovery)) ∧
      ∀ e ∈ (c.memoAfter calls).codecs,
        ∃ k ∈ c.kinds, e = (k.name, (c.declaredCodec k).value) := by
  have hfaithful := faithful_memoAfter c calls
  refine ⟨c.answerAfter_describe calls, fun k => ?_, ?_, ?_⟩
  · refine ⟨_, c.answerAfter_codec calls k, fun codec => ?_⟩
    rw [declaredCodec_eq_some_iff, hc.wellFormed.codecFits_iff]
  · intro e he
    obtain ⟨k, hk, heq⟩ := hfaithful.descriptors e he
    exact ⟨k, Named.mem_of_find? (owns_iff.mp hk), heq⟩
  · intro e he
    obtain ⟨k, hk, heq⟩ := hfaithful.codecs e he
    exact ⟨k, Named.mem_of_find? (owns_iff.mp hk), heq⟩

/-! ## A kind under a registered name -/

def impostor : Kind := ⟨⟨"Whole", .standalone, [.textual], none, some .text⟩, []⟩

def impostorCalls : List Call := [.describe impostor, .codec impostor, .describe .whole,
  .codec .whole]

/-- The codec of the impostor is for texts, and `Text` does not descend from `Whole`. -/
theorem answers_by_definition_impostor :
    builtin.Built ∧ impostor ∉ builtin.kinds ∧ builtin.kind? impostor.name = some .whole ∧
      builtin.answerAfter impostorCalls (.describe impostor) =
        .descriptor (.ok ⟨.kind impostor, [.textual], false⟩) ∧
      builtin.answerAfter impostorCalls (.codec impostor) = .codec none ∧
      builtin.answerAfter impostorCalls (.codec .whole) = .codec (some .whole) ∧
      ∀ e ∈ (builtin.memoAfter impostorCalls).descriptors, e.2.binding ≠ .kind impostor := by
  have hforeign : impostor ∉ builtin.kinds := by decide
  obtain ⟨hdescribe, hcodec, hkept, -⟩ := answers_by_definition Built.builtin impostorCalls
  refine ⟨Built.builtin, hforeign, rfl, hdescribe impostor, ?_, ?_, ?_⟩
  · obtain ⟨found, hfound, hiff⟩ := hcodec impostor
    cases found with
    | none => exact hfound
    | some codec =>
        obtain ⟨hown, hfits⟩ := (hiff codec).mp rfl
        obtain rfl : Codec.text = codec := Option.some.inj hown
        exact absurd hfits (by decide)
  · obtain ⟨found, hfound, hiff⟩ := hcodec .whole
    rw [hfound, (hiff .whole).mpr ⟨rfl, Or.inl rfl⟩]
  · intro e he hbound
    obtain ⟨k, hk, rfl⟩ := hkept e he
    obtain rfl : k = impostor := Binding.kind.inj hbound
    exact hforeign hk

end ColumnTypes.Catalog
