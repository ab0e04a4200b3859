import ColumnTypes.Config

namespace ColumnTypes

/-!
# Writing configuration trees

A tree is written as a JSON object, one entry a line, indented by two blanks.
Quotes, backslashes and control characters are escaped, and nothing else.
-/

namespace Json

def escapeChar (c : Char) : List Char :=
  if c = '"' then ['\\', '"']
  else if c = '\\' then ['\\', '\\']
  else if c = '\x08' then ['\\', 'b']
  else if c = '\x0c' then ['\\', 'f']
  else if c = '\n' then ['\\', 'n']
  else if c = '\r' then ['\\', 'r']
  else if c = '\t' then ['\\', 't']
  else if c.toNat < 0x20 then
    ['\\', 'u', '0', '0', Nat.digitChar (c.toNat / 16), Nat.digitChar (c.toNat % 16)]
  else [c]

def escape (cs : List Char) : List Char := cs.flatMap escapeChar

theorem escape_cons (c : Char) (cs : List Char) : escape (c :: cs) = escapeChar c ++ escape cs :=
  List.flatMap_cons

def quoted (s : String) : List Char := '"' :: escape s.toList ++ ['"']

/-- The items behind each other, with a comma between two of them and every one on a line of
its own, between brackets. No items are no lines. -/
def block (opening closing : Char) (outer : List Char) (items : List (List Char)) : List Char :=
  match items with
  | [] => [opening, closing]
  | item :: items =>
      opening :: '\n' :: ' ' :: ' ' :: outer ++ item ++
        items.flatMap (fun i => ',' :: '\n' :: ' ' :: ' ' :: outer ++ i) ++
        '\n' :: outer ++ [closing]

def writeLeaf : Leaf → List Char
  | .null => "null".toList
  | .flag b => (if b then "true" else "false").toList
  | .text s => quoted s
  | .texts ss => block '[' ']' [' ', ' '] (ss.map quoted)

def writeEntry (e : Entry) : List Char := quoted e.1 ++ ':' :: ' ' :: writeLeaf e.2

end Json

def Config.toJson (t : Config) : String :=
  String.ofList (Json.block '\x7b' '\x7d' [] (t.entries.map Json.writeEntry))

end ColumnTypes
