import ColumnTypes.Value.Codec
import Mathlib.Data.Nat.ModEq

namespace ColumnTypes

/-!
# Encodings lose nothing

What a codec of a builtin kind writes for a cell of that kind is read back as the
same cell, bit by bit and character by character, and it is appended to whatever
the buffer held. For any other value the codec writes nothing.
-/

/-! ## Words, texts and flags -/

theorem ofBigEndian_bigEndian (width n : Nat) :
    ofBigEndian (bigEndian width n) = n % Nat.pow 256 width := by
  induction width generalizing n with
  | zero => simp [bigEndian, ofBigEndian, Nat.mod_one]
  | succ width ih =>
      have hdigit : (UInt8.ofNat n).toNat = n % 256 := UInt8.toNat_ofNat'
      have hpow : Nat.pow 256 (width + 1) = 256 * Nat.pow 256 width := Nat.pow_succ'
      rw [bigEndian, ofBigEndian_concat, ih, hdigit, hpow, Nat.mod_mul, Nat.add_comm]

theorem fromUTF8?_toUTF8 (s : String) : String.fromUTF8? s.toUTF8 = some s := by
  rw [String.fromUTF8?, String.toUTF8_eq_toByteArray, dif_pos s.isValidUTF8]
  rfl

namespace Codec

/-- Eight digits hold every word. -/
theorem decodeWord_encodeWord (w : UInt64) : decodeWord (encodeWord w) = .ok w := by
  have hword : ofBigEndian (bigEndian 8 w.toNat) = w.toNat := by
    rw [ofBigEndian_bigEndian]
    exact Nat.mod_eq_of_lt w.toNat_lt
  simp [decodeWord, encodeWord, hword]

theorem decodeFlag_byte (b : Bool) : decodeFlag [if b then 1 else 0].toByteArray = .ok b := by
  cases b <;> rfl

/-! ## Cells -/

/-- The codecs of the builtin kinds. -/
def builtins : List Codec := [whole, real, text, flag]

/-- The value is a cell of the kind that the codec is for. Having the name of that kind or its
view is not enough. -/
inductive Handles : Codec → Value → Prop
  | whole (n : Int64) : Handles .whole (.whole n)
  | real (x : Binary64) : Handles .real (.real x)
  | text (s : String) : Handles .text (.text s)
  | flag (b : Bool) : Handles .flag (.flag b)

variable {c : Codec} {v : Value}

theorem decode_encode (h : c.Handles v) :
    ∃ bytes, c.encode v = .ok bytes ∧ c.decode bytes = .ok v := by
  cases h with
  | whole n =>
      refine ⟨_, rfl, ?_⟩
      rw [decode, decodeWord_encodeWord]
      exact congrArg (fun m => Except.ok (Value.whole m)) n.toInt64_toUInt64
  | real x =>
      refine ⟨_, rfl, ?_⟩
      rw [decode, decodeWord_encodeWord]
      rfl
  | text s => exact ⟨_, rfl, by rw [decode, fromUTF8?_toUTF8]⟩
  | flag b =>
      refine ⟨_, rfl, ?_⟩
      rw [decode, decodeFlag_byte]
      rfl

theorem encode_of_not_handles (hc : c ∈ builtins) (h : ¬c.Handles v) :
    c.encode v = .error (.unsupported c.kind v.display) := by
  cases c with
  | whole =>
      cases v with
      | whole n => exact absurd (Handles.whole n) h
      | _ => rfl
  | real =>
      cases v with
      | real x => exact absurd (Handles.real x) h
      | _ => rfl
  | text =>
      cases v with
      | text s => exact absurd (Handles.text s) h
      | _ => rfl
  | flag =>
      cases v with
      | flag b => exact absurd (Handles.flag b) h
      | _ => rfl
  | transcript k => simp [builtins] at hc

/-- Not a number, negative and with a payload. -/
def payloadNan : Binary64 := ⟨0xFFF0000000000001⟩

/-- It has the name of the kind of integers and their view. -/
def wholeImpostor : Value := .foreign ⟨"Whole", "7", some (Binary64.ofInt 7), none, none⟩

end Codec

end ColumnTypes
