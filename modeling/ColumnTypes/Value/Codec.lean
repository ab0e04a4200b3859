import ColumnTypes.Value

namespace ColumnTypes

/-!
# Binary encodings of cells

Each encoding belongs to one kind. Whole and real cells take eight bytes, the most
significant first, texts are UTF-8 and flags take one byte. A transcript codec
keeps only the display text of what it writes and reads everything as missing.

There is a transcript codec for each name of a kind. A registry reads nothing
else off a codec, so to a registry these are all codecs that a caller can make.
-/

inductive Codec.Error where
  | unsupported (expected display : String)
  | truncated (need got : Nat)
  | trailing (expected got : Nat)
  | notUtf8
deriving DecidableEq, Inhabited

def Codec.Error.message : Codec.Error → String
  | unsupported expected display =>
      s!"serializer for '{expected}' cannot handle value '{display}'"
  | truncated need got => s!"truncated input: need {need} bytes, got {got}"
  | trailing expected got =>
      s!"trailing bytes: expected exactly {expected} bytes, got {got}"
  | notUtf8 => "invalid UTF-8 payload"

/-- The last `width` base-256 digits of `n`, the most significant first. -/
def bigEndian : (width : Nat) → (n : Nat) → List UInt8
  | 0, _ => []
  | width + 1, n => bigEndian width (n / 256) ++ [UInt8.ofNat n]

def ofBigEndian (bytes : List UInt8) : Nat :=
  bytes.foldl (fun n b => 256 * n + b.toNat) 0

@[simp] theorem length_bigEndian (width n : Nat) : (bigEndian width n).length = width := by
  induction width generalizing n with
  | zero => rfl
  | succ width ih => simp [bigEndian, ih]

@[simp] theorem ofBigEndian_concat (bytes : List UInt8) (b : UInt8) :
    ofBigEndian (bytes ++ [b]) = 256 * ofBigEndian bytes + b.toNat := by
  simp [ofBigEndian]

inductive Codec where
  | whole
  | real
  | text
  | flag
  | transcript (kind : String)
deriving DecidableEq, Inhabited

namespace Codec

def kind : Codec → String
  | whole => "Whole"
  | real => "Real"
  | text => "Text"
  | flag => "Flag"
  | transcript k => k

def reportName : Codec → String
  | whole => "WholeSerializer"
  | real => "RealSerializer"
  | text => "TextSerializer"
  | flag => "FlagSerializer"
  | transcript _ => "TranscriptSerializer"

def encodeWord (w : UInt64) : ByteArray := (bigEndian 8 w.toNat).toByteArray

def decodeWord (bytes : ByteArray) : Except Codec.Error UInt64 :=
  if 8 < bytes.size then .error (.trailing 8 bytes.size)
  else if bytes.size < 8 then .error (.truncated 8 bytes.size)
  else .ok (UInt64.ofNat (ofBigEndian bytes.data.toList))

def decodeFlag (bytes : ByteArray) : Except Codec.Error Bool :=
  match bytes.data.toList with
  | [] => .error (.truncated 1 0)
  | [b] => .ok (b ≠ 0)
  | _ => .error (.trailing 1 bytes.size)

def encode (c : Codec) (v : Value) : Except Codec.Error ByteArray :=
  match c, v with
  | whole, .whole n => .ok (encodeWord n.toUInt64)
  | real, .real x => .ok (encodeWord x.bits)
  | text, .text s => .ok s.toUTF8
  | flag, .flag b => .ok [if b then 1 else 0].toByteArray
  | transcript _, v => .ok v.display.toUTF8
  | c, v => .error (.unsupported c.kind v.display)

def decode (c : Codec) (bytes : ByteArray) : Except Codec.Error Value :=
  match c with
  | whole => (decodeWord bytes).map fun w => .whole w.toInt64
  | real => (decodeWord bytes).map fun w => .real ⟨w⟩
  | text =>
      match String.fromUTF8? bytes with
      | some s => .ok (.text s)
      | none => .error .notUtf8
  | flag => (decodeFlag bytes).map .flag
  | transcript _ => .ok .missing

/-- Writes behind what the buffer holds. A failed write leaves the buffer alone. -/
def write (c : Codec) (v : Value) (buffer : ByteArray) : ByteArray × Except Codec.Error Unit :=
  match c.encode v with
  | .ok bytes => (buffer ++ bytes, .ok ())
  | .error e => (buffer, .error e)

theorem write_of_encode {c : Codec} {v : Value} {bytes : ByteArray} (h : c.encode v = .ok bytes)
    (buffer : ByteArray) : c.write v buffer = (buffer ++ bytes, .ok ()) := by
  simp [write, h]

theorem write_of_encode_error {c : Codec} {v : Value} {e : Codec.Error}
    (h : c.encode v = .error e) (buffer : ByteArray) :
    c.write v buffer = (buffer, .error e) := by
  simp [write, h]

end Codec

end ColumnTypes
