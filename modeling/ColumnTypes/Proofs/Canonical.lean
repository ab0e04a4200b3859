import ColumnTypes.Proofs.Encoding
import ColumnTypes.Proofs.Results
import Mathlib.Data.List.Induction

namespace ColumnTypes

/-!
# Canonical encodings

What a builtin codec accepts is what it writes for the cell that it reads, and so
no two encodings stand for one cell. The exception are flags: every byte except 0
is read as true, while only 1 is written.
-/

/-! ## Words and texts -/

theorem ofBigEndian_lt (bytes : List UInt8) : ofBigEndian bytes < Nat.pow 256 bytes.length := by
  induction bytes using List.reverseRecOn with
  | nil => exact Nat.one_pos
  | append_singleton bytes b ih =>
      have hdigit := b.toNat_lt
      have hpow : Nat.pow 256 (bytes.length + 1) = 256 * Nat.pow 256 bytes.length := Nat.pow_succ'
      rw [ofBigEndian_concat, List.length_append, List.length_singleton, hpow]
      omega

/-- The last digit is split off again by the division that writes it. -/
theorem bigEndian_ofBigEndian (bytes : List UInt8) :
    bigEndian bytes.length (ofBigEndian bytes) = bytes := by
  induction bytes using List.reverseRecOn with
  | nil => rfl
  | append_singleton bytes b ih =>
      have hlt := b.toNat_lt
      have hrest : (256 * ofBigEndian bytes + b.toNat) / 256 = ofBigEndian bytes := by omega
      have hdigit : UInt8.ofNat (256 * ofBigEndian bytes + b.toNat) = b := by
        apply UInt8.toNat.inj
        rw [UInt8.toNat_ofNat']
        omega
      rw [List.length_append, List.length_singleton, ofBigEndian_concat, bigEndian, hrest, hdigit,
        ih]

theorem toUTF8_of_fromUTF8? {bytes : ByteArray} {s : String}
    (h : String.fromUTF8? bytes = some s) : s.toUTF8 = bytes := by
  unfold String.fromUTF8? at h
  split at h
  · obtain rfl := Option.some.inj h
    rfl
  · cases h

namespace Codec

theorem decodeWord_eq_ok_iff {bytes : ByteArray} {w : UInt64} :
    decodeWord bytes = .ok w ↔ encodeWord w = bytes := by
  constructor
  · intro h
    unfold decodeWord at h
    split at h
    · cases h
    · split at h
      · cases h
      · obtain rfl := Except.ok.inj h
        have hlength : bytes.data.toList.length = 8 := by
          rw [Array.length_toList, ByteArray.size_data]
          omega
        have hlt : ofBigEndian bytes.data.toList < UInt64.size := by
          have hlt := ofBigEndian_lt bytes.data.toList
          rwa [hlength] at hlt
        rw [encodeWord, UInt64.toNat_ofNat_of_lt' hlt, ← hlength, bigEndian_ofBigEndian]
        apply ByteArray.ext
        rw [List.data_toByteArray]
  · rintro rfl
    exact decodeWord_encodeWord w

theorem decodeFlag_eq_ok_iff {bytes : ByteArray} {b : Bool} :
    decodeFlag bytes = .ok b ↔
      ∃ byte : UInt8, bytes = [byte].toByteArray ∧ (b = true ↔ byte ≠ 0) := by
  constructor
  · intro h
    unfold decodeFlag at h
    split at h
    · cases h
    · rename_i byte hbytes
      obtain rfl := Except.ok.inj h
      refine ⟨byte, ?_, decide_eq_true_iff⟩
      apply ByteArray.ext
      rw [List.data_toByteArray, ← hbytes]
    · cases h
  · rintro ⟨byte, rfl, hb⟩
    rw [decodeFlag, List.data_toByteArray]
    exact congrArg Except.ok ((Bool.decide_congr hb.symm).trans (Bool.decide_coe b))

/-! ## Accepted encodings -/

/-- Read as a flag, although it is not the byte that is written for one. -/
def Lax (c : Codec) (bytes : ByteArray) : Prop :=
  c = flag ∧ ∃ byte : UInt8, 1 < byte ∧ bytes = [byte].toByteArray

variable {c : Codec} {v : Value} {bytes : ByteArray}

theorem handles_of_encode (hc : c ∈ builtins) (h : c.encode v = .ok bytes) : c.Handles v := by
  by_contra hnot
  cases (encode_of_not_handles hc hnot).symm.trans h

theorem decode_of_encode (hc : c ∈ builtins) (h : c.encode v = .ok bytes) :
    c.decode bytes = .ok v := by
  obtain ⟨written, hwritten, hread⟩ := decode_encode (handles_of_encode hc h)
  obtain rfl := Except.ok.inj (h.symm.trans hwritten)
  exact hread

/-- Of the bytes that are read as true only 1 is written. -/
theorem decode_flag_eq_ok_iff :
    flag.decode bytes = .ok v ↔
      flag.encode v = .ok bytes ∨ flag.Lax bytes ∧ v = .flag true := by
  constructor
  · intro h
    obtain ⟨b, hb, rfl⟩ := Result.ok_of_map h
    obtain ⟨byte, rfl, hbyte⟩ := decodeFlag_eq_ok_iff.mp hb
    by_cases hzero : byte = 0
    · subst hzero
      obtain rfl : b = false := by simpa using hbyte
      exact Or.inl rfl
    · obtain rfl : b = true := hbyte.mpr hzero
      by_cases hone : byte = 1
      · subst hone
        exact Or.inl rfl
      · refine Or.inr ⟨⟨rfl, byte, ?_, rfl⟩, rfl⟩
        have hzero : byte.toNat ≠ 0 := fun h => hzero (UInt8.toNat.inj h)
        have hone : byte.toNat ≠ 1 := fun h => hone (UInt8.toNat.inj h)
        rw [UInt8.lt_iff_toNat_lt]
        change 1 < byte.toNat
        omega
  · rintro (h | ⟨⟨-, byte, hbyte, rfl⟩, rfl⟩)
    · exact decode_of_encode (by decide) h
    · have hzero : byte ≠ 0 := by
        rintro rfl
        exact absurd hbyte (by decide)
      rw [decode, decodeFlag_eq_ok_iff.mpr ⟨byte, rfl, iff_of_true rfl hzero⟩]
      rfl

theorem encode_of_decode (hc : c ∈ builtins) (hflag : c ≠ flag) (h : c.decode bytes = .ok v) :
    c.encode v = .ok bytes := by
  cases c with
  | whole =>
      obtain ⟨w, hw, rfl⟩ := Result.ok_of_map h
      rw [encode, UInt64.toUInt64_toInt64, decodeWord_eq_ok_iff.mp hw]
  | real =>
      obtain ⟨w, hw, rfl⟩ := Result.ok_of_map h
      rw [encode, decodeWord_eq_ok_iff.mp hw]
  | text =>
      rw [decode] at h
      split at h
      · rename_i s hs
        obtain rfl := Except.ok.inj h
        rw [encode, toUTF8_of_fromUTF8? hs]
      · cases h
  | flag => exact absurd rfl hflag
  | transcript k => simp [builtins] at hc

/-- Apart from lax flags, a codec accepts exactly what it writes. -/
theorem decode_eq_ok_iff (hc : c ∈ builtins) :
    c.decode bytes = .ok v ↔ c.encode v = .ok bytes ∨ c.Lax bytes ∧ v = .flag true := by
  by_cases hflag : c = flag
  · subst hflag
    exact decode_flag_eq_ok_iff
  · constructor
    · exact fun h => Or.inl (encode_of_decode hc hflag h)
    · exact fun h => decode_of_encode hc (h.resolve_right fun hlax => hflag hlax.1.1)

theorem not_lax_of_encode (h : c.encode v = .ok bytes) : ¬c.Lax bytes := by
  rintro ⟨rfl, byte, hbyte, rfl⟩
  cases v with
  | flag b =>
      have hone : byte = if b then 1 else 0 := by
        simpa [eq_comm] using List.toByteArray_inj.mp (Except.ok.inj h)
      subst hone
      revert hbyte
      cases b <;> decide
  | _ => cases h

theorem encode_iff_not_lax (hc : c ∈ builtins) (h : c.decode bytes = .ok v) :
    c.encode v = .ok bytes ↔ ¬c.Lax bytes := by
  constructor
  · exact not_lax_of_encode
  · exact fun hlax => ((decode_eq_ok_iff hc).mp h).resolve_right fun h => hlax h.1

theorem eq_flag_true_of_lax (hc : c ∈ builtins) (h : c.decode bytes = .ok v)
    (hlax : c.Lax bytes) : v = .flag true :=
  (((decode_eq_ok_iff hc).mp h).resolve_left fun hencode => not_lax_of_encode hencode hlax).2

theorem handles_of_decode (hc : c ∈ builtins) (h : c.decode bytes = .ok v) : c.Handles v := by
  rcases (decode_eq_ok_iff hc).mp h with hencode | ⟨⟨rfl, -⟩, rfl⟩
  · exact handles_of_encode hc hencode
  · exact .flag true

theorem exists_other_of_flag_true (h : c.Handles (.flag true)) (bytes : ByteArray) :
    ∃ other, c.decode other = .ok (.flag true) ∧ other ≠ bytes := by
  cases h
  by_cases hone : bytes = [1].toByteArray
  · refine ⟨[2].toByteArray, rfl, ?_⟩
    rw [hone, Ne, List.toByteArray_inj]
    decide
  · exact ⟨[1].toByteArray, rfl, Ne.symm hone⟩

/-- What was accepted can be written again, and unless it was a lax flag, the same bytes come out.
So they are the only ones that are not lax for their cell, and the only ones at all for every cell
but a true flag. -/
theorem rewrites_iff_not_lax (hc : c ∈ builtins) (h : c.decode bytes = .ok v) :
    (∃ written, c.write v .empty = (written, .ok ()) ∧ c.decode written = .ok v) ∧
      (c.write v .empty = (bytes, .ok ()) ↔ ¬c.Lax bytes) ∧
      (∀ other, c.decode other = .ok v → ¬c.Lax bytes → ¬c.Lax other → other = bytes) ∧
      ((∃ other, c.decode other = .ok v ∧ other ≠ bytes) ↔ v = .flag true) := by
  have hhandles := handles_of_decode hc h
  obtain ⟨written, hencode, hread⟩ := decode_encode hhandles
  have hwrite : c.write v .empty = (written, .ok ()) := by
    rw [write_of_encode hencode, ByteArray.empty_append]
  have hunique : ∀ {other}, c.decode other = .ok v → ¬c.Lax other → other = written := by
    intro other hother hlax
    have hsame := (encode_iff_not_lax hc hother).mpr hlax
    exact Except.ok.inj (hsame.symm.trans hencode)
  refine ⟨⟨written, hwrite, hread⟩, ?_, ?_, ?_⟩
  · rw [← encode_iff_not_lax hc h, hwrite, hencode]
    simp
  · exact fun other hother hlax hlax' => (hunique hother hlax').trans (hunique h hlax).symm
  · constructor
    · rintro ⟨other, hother, hne⟩
      by_contra hv
      have hstrict : ∀ {bytes}, c.decode bytes = .ok v → ¬c.Lax bytes :=
        fun hbytes hlax => hv (eq_flag_true_of_lax hc hbytes hlax)
      exact hne ((hunique hother (hstrict hother)).trans (hunique h (hstrict h)).symm)
    · rintro rfl
      exact exists_other_of_flag_true hhandles bytes

/-- The least integer, and a flag that is rewritten. -/
theorem rewrites_iff_not_lax_least :
    whole ∈ builtins ∧
      whole.decode [0x80, 0, 0, 0, 0, 0, 0, 0].toByteArray = .ok (.whole Int64.minValue) ∧
      whole.write (.whole Int64.minValue) .empty =
        ([0x80, 0, 0, 0, 0, 0, 0, 0].toByteArray, .ok ()) ∧
      flag ∈ builtins ∧ flag.decode [0xFF].toByteArray = .ok (.flag true) ∧
      flag.write (.flag true) .empty ≠ ([0xFF].toByteArray, .ok ()) := by
  have hwhole : whole ∈ builtins := by decide
  have hflag : flag ∈ builtins := by decide
  have hleast : whole.decode [0x80, 0, 0, 0, 0, 0, 0, 0].toByteArray =
      .ok (.whole Int64.minValue) := rfl
  have htrue : flag.decode [0xFF].toByteArray = .ok (.flag true) := rfl
  have hlax : flag.Lax [0xFF].toByteArray := ⟨rfl, 0xFF, by decide, rfl⟩
  exact ⟨hwhole, hleast, (rewrites_iff_not_lax hwhole hleast).2.1.mpr nofun, hflag, htrue,
    fun hsame => (rewrites_iff_not_lax hflag htrue).2.1.mp hsame hlax⟩

/-- Both bytes are read as true, which is written as 1. -/
theorem flag_reads_one_and_two :
    flag ∈ builtins ∧ flag.decode [2].toByteArray = .ok (.flag true) ∧
      flag.decode [1].toByteArray = .ok (.flag true) ∧
      flag.write (.flag true) .empty = ([1].toByteArray, .ok ()) ∧
      [1].toByteArray ≠ [2].toByteArray := by
  refine ⟨by decide, rfl, rfl, rfl, ?_⟩
  rw [Ne, List.toByteArray_inj]
  decide

end Codec

end ColumnTypes
