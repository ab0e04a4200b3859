import ColumnTypes.Config
import ColumnTypes.Text.Hex

namespace ColumnTypes

/-!
# Reading configuration trees

Text is split into tokens and the tokens are read as a JSON object whose values
are leaves. Of entries with one key the last one counts. Surrogate escapes must come in
pairs, and control characters must be escaped.
-/

namespace Json

inductive Token where
  | beginObject
  | endObject
  | beginArray
  | endArray
  | colon
  | comma
  | null
  | flag (b : Bool)
  | text (s : String)
deriving DecidableEq, Inhabited

def unit? (a b c d : Char) : Option Nat := do
  let a ← Text.hexDigit? a
  let b ← Text.hexDigit? b
  let c ← Text.hexDigit? c
  let d ← Text.hexDigit? d
  pure (((a * 16 + b) * 16 + c) * 16 + d)

def isHighSurrogate (n : Nat) : Bool := 0xD800 ≤ n && n < 0xDC00

def isLowSurrogate (n : Nat) : Bool := 0xDC00 ≤ n && n < 0xE000

def pairValue (high low : Nat) : Nat := 0x10000 + (high - 0xD800) * 0x400 + (low - 0xDC00)

def shortEscape? : Char → Option Char
  | '"' => some '"'
  | '\\' => some '\\'
  | '/' => some '/'
  | 'b' => some '\x08'
  | 'f' => some '\x0c'
  | 'n' => some '\n'
  | 'r' => some '\r'
  | 't' => some '\t'
  | _ => none

mutual

def tokens : List Char → Option (List Token)
  | [] => some []
  | ' ' :: cs => tokens cs
  | '\n' :: cs => tokens cs
  | '\r' :: cs => tokens cs
  | '\t' :: cs => tokens cs
  | '\x7b' :: cs => (tokens cs).map (.beginObject :: ·)
  | '\x7d' :: cs => (tokens cs).map (.endObject :: ·)
  | '[' :: cs => (tokens cs).map (.beginArray :: ·)
  | ']' :: cs => (tokens cs).map (.endArray :: ·)
  | ':' :: cs => (tokens cs).map (.colon :: ·)
  | ',' :: cs => (tokens cs).map (.comma :: ·)
  | 'n' :: 'u' :: 'l' :: 'l' :: cs => (tokens cs).map (.null :: ·)
  | 't' :: 'r' :: 'u' :: 'e' :: cs => (tokens cs).map (.flag true :: ·)
  | 'f' :: 'a' :: 'l' :: 's' :: 'e' :: cs => (tokens cs).map (.flag false :: ·)
  | '"' :: cs => textTokens [] cs
  | _ => none

/-- The tokens from within a text, whose characters so far are `acc`, the last one first. -/
def textTokens (acc : List Char) : List Char → Option (List Token)
  | [] => none
  | '"' :: cs => (tokens cs).map (.text (String.ofList acc.reverse) :: ·)
  | '\\' :: 'u' :: a :: b :: c :: d :: cs =>
      match unit? a b c d with
      | none => none
      | some high =>
          if isHighSurrogate high then
            match cs with
            | '\\' :: 'u' :: e :: f :: g :: h :: cs =>
                match unit? e f g h with
                | none => none
                | some low =>
                    if isLowSurrogate low then
                      textTokens (Char.ofNat (pairValue high low) :: acc) cs
                    else none
            | _ => none
          else if isLowSurrogate high then none
          else textTokens (Char.ofNat high :: acc) cs
  | '\\' :: c :: cs =>
      match shortEscape? c with
      | some e => textTokens (e :: acc) cs
      | none => none
  | c :: cs => if c = '\\' ∨ c.toNat < 0x20 then none else textTokens (c :: acc) cs

end

mutual

/-- Entries up to the end of the object, from before a key. -/
def readEntries : List Token → Option (List Entry)
  | .text key :: .colon :: .null :: ts => (readMore ts).map ((key, .null) :: ·)
  | .text key :: .colon :: .flag b :: ts => (readMore ts).map ((key, .flag b) :: ·)
  | .text key :: .colon :: .text s :: ts => (readMore ts).map ((key, .text s) :: ·)
  | .text key :: .colon :: .beginArray :: .endArray :: ts =>
      (readMore ts).map ((key, .texts []) :: ·)
  | .text key :: .colon :: .beginArray :: .text s :: ts => readTexts key [s] ts
  | _ => none

/-- From behind a text of an array, whose texts so far are `acc`, the last one first. -/
def readTexts (key : String) (acc : List String) : List Token → Option (List Entry)
  | .comma :: .text s :: ts => readTexts key (s :: acc) ts
  | .endArray :: ts => (readMore ts).map ((key, .texts acc.reverse) :: ·)
  | _ => none

def readMore : List Token → Option (List Entry)
  | [.endObject] => some []
  | .comma :: ts => readEntries ts
  | _ => none

end

def readObject : List Token → Option (List Entry)
  | [.beginObject, .endObject] => some []
  | .beginObject :: ts => readEntries ts
  | _ => none

end Json

def Config.ofJson (text : String) : Except Config.Error Config :=
  match (Json.tokens text.toList).bind Json.readObject with
  | some es => .ok (ofEntries es)
  | none => .error .malformed

end ColumnTypes
