import ColumnTypes.Text.Hex
import ColumnTypes.Toml.Item

namespace ColumnTypes.Toml

/-!
# Bare words

Numbers, dates, times and truth values are written without marks. A word is all of
the letters, digits and signs that stand together.
-/

def isDigit (c : Char) : Bool := '0' ≤ c && c ≤ '9'

def isLetter (c : Char) : Bool := ('a' ≤ c && c ≤ 'z') || ('A' ≤ c && c ≤ 'Z')

def isBareKeyChar (c : Char) : Bool := isDigit c || isLetter c || c == '_' || c == '-'

def isWordChar (c : Char) : Bool := isBareKeyChar c || c == '+' || c == '.' || c == ':'

/-! ## Numbers -/

def digitBelow? (radix : Nat) (c : Char) : Option Nat :=
  (Text.hexDigit? c).filter (· < radix)

/-- Digits with single underscores between some of them. -/
def grouped? (radix : Nat) : List Char → Option (List Nat)
  | [] => none
  | [c] => (digitBelow? radix c).map fun d => [d]
  | c :: '_' :: cs => (digitBelow? radix c).bind fun d => (grouped? radix cs).map (d :: ·)
  | c :: cs => (digitBelow? radix c).bind fun d => (grouped? radix cs).map (d :: ·)

def digitsValue (radix : Nat) (ds : List Nat) : Nat := ds.foldl (fun n d => radix * n + d) 0

def natural? (radix : Nat) (cs : List Char) : Option Nat :=
  (grouped? radix cs).map (digitsValue radix)

/-- No zero leads other digits. -/
def decimalDigits? (cs : List Char) : Option (List Nat) :=
  match cs with
  | '0' :: _ :: _ => none
  | _ => grouped? 10 cs

def splitSign : List Char → Bool × List Char
  | '-' :: cs => (true, cs)
  | '+' :: cs => (false, cs)
  | cs => (false, cs)

/-- Integers fit into 64 bits with a sign, and stay below this one. -/
def integerLimit : Nat := 0x8000000000000000

/-- Only decimal integers may be negative, and the least one has no positive counterpart. -/
def isInteger (w : List Char) : Bool :=
  match w with
  | '0' :: 'x' :: cs => (natural? 16 cs).any (· < integerLimit)
  | '0' :: 'o' :: cs => (natural? 8 cs).any (· < integerLimit)
  | '0' :: 'b' :: cs => (natural? 2 cs).any (· < integerLimit)
  | _ =>
      let (negative, cs) := splitSign w
      (decimalDigits? cs).any fun ds => digitsValue 10 ds < integerLimit + if negative then 1 else 0

/-- Whether `digits * 10 ^ exponent` is nearer to infinity than to a double precision number. Texts
whose order of magnitude decides are not worked out. -/
def overflows (digits : Nat) (exponent : Int) : Bool :=
  let order : Int := (Nat.toDigits 10 digits).length + exponent
  if digits = 0 ∨ order < 300 then false
  else if 400 < order then true
  else
    0x3FFFFFFFFFFFFF * Nat.pow 2 970 * Nat.pow 10 (-exponent).toNat ≤
      digits * Nat.pow 10 exponent.toNat

def isDigitOrGap (c : Char) : Bool := isDigit c || c == '_'

def fraction? (cs : List Char) : Option (List Nat × List Char) :=
  match cs with
  | '.' :: cs => (grouped? 10 (cs.takeWhile isDigitOrGap)).map (·, cs.dropWhile isDigitOrGap)
  | _ => some ([], cs)

def exponent? (cs : List Char) : Option Int :=
  match cs with
  | [] => some 0
  | c :: cs =>
      if c = 'e' ∨ c = 'E' then
        let (negative, ds) := splitSign cs
        (natural? 10 ds).map fun n => if negative then -(n : Int) else n
      else none

/-- A number with a fraction, an exponent or both. One that overflows is accepted only below
zero. -/
def isFloat (w : List Char) : Bool :=
  let (negative, cs) := splitSign w
  if cs = ['i', 'n', 'f'] ∨ cs = ['n', 'a', 'n'] then true
  else
    let rest := cs.dropWhile isDigitOrGap
    match decimalDigits? (cs.takeWhile isDigitOrGap), fraction? rest with
    | some whole, some (part, tail) =>
        !rest.isEmpty && (exponent? tail).any fun e =>
          negative || !overflows (digitsValue 10 (whole ++ part)) (e - part.length)
    | _, _ => false

/-! ## Dates and times -/

def twoDigits? (a b : Char) : Option Nat := do
  let a ← digitBelow? 10 a
  let b ← digitBelow? 10 b
  pure (10 * a + b)

def isLeap (year : Nat) : Bool := year % 4 == 0 && (year % 100 != 0 || year % 400 == 0)

def daysIn (year month : Nat) : Nat :=
  if month = 2 then (if isLeap year then 29 else 28)
  else if month = 4 ∨ month = 6 ∨ month = 9 ∨ month = 11 then 30
  else 31

def afterDate? (cs : List Char) : Option (List Char) :=
  match cs with
  | a :: b :: c :: d :: '-' :: e :: f :: '-' :: g :: h :: rest => do
      let century ← twoDigits? a b
      let year ← twoDigits? c d
      let month ← twoDigits? e f
      let day ← twoDigits? g h
      let longest := daysIn (100 * century + year) month
      if 1 ≤ month ∧ month ≤ 12 ∧ 1 ≤ day ∧ day ≤ longest then some rest
      else none
  | _ => none

def afterMinutes? (cs : List Char) : Option (List Char) :=
  match cs with
  | a :: b :: ':' :: c :: d :: rest => do
      let hour ← twoDigits? a b
      let minute ← twoDigits? c d
      if hour < 24 ∧ minute < 60 then some rest else none
  | _ => none

/-- The characters behind a time of day. A leap second is possible everywhere. -/
def afterTime? (cs : List Char) : Option (List Char) := do
  match ← afterMinutes? cs with
  | ':' :: a :: b :: rest =>
      let second ← twoDigits? a b
      if 60 < second then none
      else
        match rest with
        | '.' :: c :: cs => if isDigit c then some (cs.dropWhile isDigit) else none
        | _ => some rest
  | _ => none

def isOffset (cs : List Char) : Bool :=
  match cs with
  | [] => true
  | ['Z'] => true
  | ['z'] => true
  | c :: cs => (c == '+' || c == '-') && afterMinutes? cs == some []

def isZonedTime (w : List Char) : Bool := (afterTime? w).any isOffset

def isDate (w : List Char) : Bool := afterDate? w == some []

def isDateTime (w : List Char) : Bool :=
  match afterDate? w with
  | some [] => true
  | some (c :: time) => (c == 'T' || c == 't') && isZonedTime time
  | none => afterTime? w == some []

/-! ## Words -/

def word? (w : List Char) : Option Item :=
  if w = ['t', 'r', 'u', 'e'] then some (.flag true)
  else if w = ['f', 'a', 'l', 's', 'e'] then some (.flag false)
  else if isInteger w || isFloat w then some .number
  else if isDateTime w then some .dateTime
  else none

/-- Reads one word, or a date and a time with one blank between them. -/
def readWord (cs : List Char) : Option (Item × List Char) :=
  let w := cs.takeWhile isWordChar
  let rest := cs.dropWhile isWordChar
  match rest with
  | ' ' :: c :: more =>
      if isDate w && isDigit c then
        if isZonedTime ((c :: more).takeWhile isWordChar) then
          some (.dateTime, (c :: more).dropWhile isWordChar)
        else none
      else (word? w).map (·, rest)
  | _ => (word? w).map (·, rest)

end ColumnTypes.Toml
