import ColumnTypes.Text.Hex

namespace ColumnTypes.Toml

/-!
# Characters and quoted text

Texts stand between quotation marks or apostrophes, on one line or between tripled
marks on several. Every reader gives what it has read and the characters after it.
-/

/-- A line ends in a line feed, which a carriage return may precede. -/
def joinLineEnds : List Char → Option (List Char)
  | [] => some []
  | '\r' :: '\n' :: cs => (joinLineEnds cs).map ('\n' :: ·)
  | c :: cs => if c = '\r' then none else (joinLineEnds cs).map (c :: ·)

def isBlank (c : Char) : Bool := c == ' ' || c == '\t'

def skipBlanks (cs : List Char) : List Char := cs.dropWhile isBlank

def isPlain (c : Char) : Bool := c == '\t' || (0x20 ≤ c.toNat && c.toNat != 0x7F)

/-- The rest of the line, which is empty or a comment. -/
def endLine (cs : List Char) : Option (List Char) :=
  let rest := match skipBlanks cs with
    | '#' :: comment => comment.dropWhile isPlain
    | rest => rest
  match rest with
  | [] => some []
  | '\n' :: rest => some rest
  | _ => none

mutual

def skipFiller : List Char → Option (List Char)
  | [] => some []
  | c :: cs =>
      if isBlank c || c == '\n' then skipFiller cs
      else if c = '#' then skipComment cs
      else some (c :: cs)

def skipComment : List Char → Option (List Char)
  | [] => none
  | c :: cs =>
      if c = '\n' then skipFiller cs
      else if isPlain c then skipComment cs
      else none

end

structure Quoting where
  mark : Char
  escapes : Bool
  multiline : Bool
deriving DecidableEq, Inhabited

def apostrophe : Char := '\x27'

def scalar? (width : Nat) (cs : List Char) : Option Char :=
  let digits := cs.take width
  if digits.length = width then
    (digits.mapM Text.hexDigit?).bind fun ds =>
      let n := ds.foldl (fun n d => 16 * n + d) 0
      if n.isValidChar then some (Char.ofNat n) else none
  else none

/-- What stands behind a backslash: the character meant and how many were used to write it. -/
def escape? : List Char → Option (Char × Nat)
  | 'b' :: _ => some ('\x08', 1)
  | 't' :: _ => some ('\t', 1)
  | 'n' :: _ => some ('\n', 1)
  | 'f' :: _ => some ('\x0c', 1)
  | 'r' :: _ => some ('\r', 1)
  | '"' :: _ => some ('"', 1)
  | '\\' :: _ => some ('\\', 1)
  | 'u' :: cs => (scalar? 4 cs).map (·, 5)
  | 'U' :: cs => (scalar? 8 cs).map (·, 9)
  | _ => none

/-- The number of blanks and line ends that a backslash at the end of a line removes. -/
def continuation? (cs : List Char) : Option Nat :=
  let blanks := (cs.takeWhile isBlank).length
  match cs.drop blanks with
  | '\n' :: rest => some (blanks + 1 + (rest.takeWhile fun c => isBlank c || c == '\n').length)
  | _ => none

/-- The text up to the closing mark, given its characters so far, the last one first. Up to two
marks may stand in front of a tripled closing mark. -/
def readText (q : Quoting) (acc : List Char) (cs : List Char) : Option (String × List Char) :=
  match cs with
  | [] => none
  | c :: cs =>
      if c = q.mark then
        if q.multiline then
          let further := (cs.takeWhile (· == q.mark)).length
          if further < 2 then readText q (List.replicate (further + 1) c ++ acc) (cs.drop further)
          else
            let kept := min (further - 2) 2
            some (String.ofList (List.replicate kept c ++ acc).reverse, cs.drop (kept + 2))
        else some (String.ofList acc.reverse, cs)
      else if c = '\\' ∧ q.escapes then
        match if q.multiline then continuation? cs else none with
        | some n => readText q acc (cs.drop n)
        | none =>
            match escape? cs with
            | some (e, n) => readText q (e :: acc) (cs.drop n)
            | none => none
      else if (c = '\n' ∧ q.multiline) ∨ isPlain c then readText q (c :: acc) cs
      else none
termination_by cs.length
decreasing_by all_goals simp only [List.length_drop, List.length_cons]; omega

/-- A line end right behind a tripled opening mark does not count. -/
def skipLineEnd : List Char → List Char
  | '\n' :: cs => cs
  | cs => cs

def readLineText (mark : Char) (cs : List Char) : Option (String × List Char) :=
  readText ⟨mark, mark == '"', false⟩ [] cs

def readTextValue (mark : Char) (cs : List Char) : Option (String × List Char) :=
  match cs with
  | a :: b :: cs' =>
      if a = mark ∧ b = mark then readText ⟨mark, mark == '"', true⟩ [] (skipLineEnd cs')
      else readLineText mark cs
  | _ => readLineText mark cs

def isMark (c : Char) : Bool := c == '"' || c == apostrophe

end ColumnTypes.Toml
