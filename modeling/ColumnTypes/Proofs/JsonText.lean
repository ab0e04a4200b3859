import ColumnTypes.Config.Reader
import ColumnTypes.Config.Writer
import ColumnTypes.Proofs.Leaves

namespace ColumnTypes

/-!
# Trees are read back as they were written

The written text is described token by token: a piece of it spells the same
tokens whatever follows. What the pieces spell is read as the entries that they
were written for, and the entries of a tree make the same tree again.
-/

namespace Json

/-! ## Texts -/

/-- The three ways to write a character within a text. -/
inductive EscapeCase (c : Char) : Prop
  | short (e : Char) (hread : shortEscape? e = some c) (heq : escapeChar c = ['\\', e])
  | numbered (hcontrol : c.toNat < 0x20)
      (heq : escapeChar c =
        ['\\', 'u', '0', '0', Nat.digitChar (c.toNat / 16), Nat.digitChar (c.toNat % 16)])
  | plain (hquote : c ≠ '"') (hbackslash : c ≠ '\\') (hshown : ¬c.toNat < 0x20)
      (heq : escapeChar c = [c])

theorem escapeCase (c : Char) : EscapeCase c := by
  obtain rfl | hquote := eq_or_ne c '"'
  · exact .short '"' rfl rfl
  obtain rfl | hbackslash := eq_or_ne c '\\'
  · exact .short '\\' rfl rfl
  obtain rfl | hbell := eq_or_ne c '\x08'
  · exact .short 'b' rfl rfl
  obtain rfl | hfeed := eq_or_ne c '\x0c'
  · exact .short 'f' rfl rfl
  obtain rfl | hline := eq_or_ne c '\n'
  · exact .short 'n' rfl rfl
  obtain rfl | hreturn := eq_or_ne c '\r'
  · exact .short 'r' rfl rfl
  obtain rfl | htab := eq_or_ne c '\t'
  · exact .short 't' rfl rfl
  by_cases hcontrol : c.toNat < 0x20
  · exact .numbered hcontrol (by simp [escapeChar, *])
  · exact .plain hquote hbackslash hcontrol (by simp [escapeChar, *])

theorem unit?_digits {n : Nat} (hn : n < 0x20) :
    unit? '0' '0' (Nat.digitChar (n / 16)) (Nat.digitChar (n % 16)) = some n := by
  have hzero : Text.hexDigit? '0' = some 0 := by decide
  have hhigh := Text.hexDigit?_digitChar ⟨n / 16, by omega⟩
  have hlow := Text.hexDigit?_digitChar ⟨n % 16, by omega⟩
  simp only [unit?, hzero, hhigh, hlow, Option.bind_eq_bind, Option.bind_some, Option.pure_def,
    Option.some.injEq]
  omega

theorem textTokens_escapeChar (acc : List Char) (c : Char) (cs : List Char) :
    textTokens acc (escapeChar c ++ cs) = textTokens (c :: acc) cs := by
  cases escapeCase c with
  | short e hread heq =>
      have hunit : e ≠ 'u' := by
        rintro rfl
        cases hread
      simp [heq, textTokens, hunit, hread]
  | numbered hcontrol heq =>
      have hhigh : isHighSurrogate c.toNat = false := by
        simp only [isHighSurrogate, Bool.and_eq_false_iff, decide_eq_false_iff_not]
        omega
      have hlow : isLowSurrogate c.toNat = false := by
        simp only [isLowSurrogate, Bool.and_eq_false_iff, decide_eq_false_iff_not]
        omega
      simp [heq, textTokens, unit?_digits hcontrol, hhigh, hlow]
  | plain hquote hbackslash hshown heq =>
      simp [heq, textTokens, hbackslash, hshown]

theorem textTokens_escape (acc cs rest : List Char) :
    textTokens acc (escape cs ++ rest) = textTokens (cs.reverse ++ acc) rest := by
  induction cs generalizing acc with
  | nil => rfl
  | cons c cs ih =>
      rw [escape_cons, List.append_assoc, textTokens_escapeChar, ih, List.reverse_cons,
        List.append_assoc]
      rfl

/-! ## Pieces of the text -/

/-- The characters are read as the tokens, whatever follows. -/
def Spells (cs : List Char) (ts : List Token) : Prop :=
  ∀ rest, tokens (cs ++ rest) = (tokens rest).map (ts ++ ·)

namespace Spells

theorem nil : Spells [] [] := fun rest => by simp

theorem append {cs ds : List Char} {ts us : List Token} (hcs : Spells cs ts)
    (hds : Spells ds us) : Spells (cs ++ ds) (ts ++ us) := by
  intro rest
  rw [List.append_assoc, hcs, hds, Option.map_map]
  simp [Function.comp_def]

theorem flatMap {α : Type} {write : α → List Char} {spell : α → List Token} {xs : List α}
    (h : ∀ x ∈ xs, Spells (write x) (spell x)) : Spells (xs.flatMap write) (xs.flatMap spell) := by
  induction xs with
  | nil => exact nil
  | cons x xs ih =>
      obtain ⟨hx, hxs⟩ := List.forall_mem_cons.mp h
      exact hx.append (ih hxs)

theorem quoted (s : String) : Spells (quoted s) [.text s] := by
  intro rest
  simp [Json.quoted, tokens, textTokens_escape, textTokens]

/-- A line end and the blanks that indent the next line spell nothing. -/
theorem line {blanks : List Char} (h : ∀ c ∈ blanks, c = ' ') : Spells ('\n' :: blanks) [] := by
  intro rest
  induction blanks with
  | nil => simp [tokens]
  | cons c blanks ih =>
      obtain ⟨rfl, hblanks⟩ := List.forall_mem_cons.mp h
      simpa [tokens] using ih hblanks

theorem comma : Spells [','] [.comma] := fun rest => by simp [tokens]

end Spells

/-- The tokens of a list between two brackets. -/
def blockTokens {α : Type} (opening closing : Token) (spell : α → List Token) :
    List α → List Token
  | [] => [opening, closing]
  | x :: xs => opening :: spell x ++ xs.flatMap (fun y => .comma :: spell y) ++ [closing]

theorem Spells.block {α : Type} {write : α → List Char} {spell : α → List Token}
    {opening closing : Char} {outer : List Char} {o c : Token} (ho : Spells [opening] [o])
    (hc : Spells [closing] [c]) (houter : ∀ c ∈ outer, c = ' ') {xs : List α}
    (hxs : ∀ x ∈ xs, Spells (write x) (spell x)) :
    Spells (block opening closing outer (xs.map write)) (blockTokens o c spell xs) := by
  cases xs with
  | nil => exact ho.append hc
  | cons x xs =>
      obtain ⟨hx, hxs⟩ := List.forall_mem_cons.mp hxs
      have hitem : Spells ('\n' :: ' ' :: ' ' :: outer) [] :=
        line (List.forall_mem_cons.mpr ⟨rfl, List.forall_mem_cons.mpr ⟨rfl, houter⟩⟩)
      have hfirst := (ho.append hitem).append hx
      have hothers := flatMap fun y hy => (comma.append hitem).append (hxs y hy)
      have hlast := (line houter).append hc
      simpa [Json.block, blockTokens, List.flatMap_map, List.append_assoc] using
        (hfirst.append hothers).append hlast

def leafTokens : Leaf → List Token
  | .null => [.null]
  | .flag b => [.flag b]
  | .text s => [.text s]
  | .texts ss => blockTokens .beginArray .endArray (fun s => [.text s]) ss

def entryTokens (e : Entry) : List Token := .text e.1 :: .colon :: leafTokens e.2

def treeTokens (es : List Entry) : List Token :=
  blockTokens .beginObject .endObject entryTokens es

theorem spells_writeLeaf (leaf : Leaf) : Spells (writeLeaf leaf) (leafTokens leaf) := by
  cases leaf with
  | null => exact fun rest => by simp [writeLeaf, leafTokens, tokens]
  | flag b =>
      cases b with
      | false => exact fun rest => by simp [writeLeaf, leafTokens, tokens]
      | true => exact fun rest => by simp [writeLeaf, leafTokens, tokens]
  | text s => exact Spells.quoted s
  | texts ss =>
      apply Spells.block
      · exact fun rest => by simp [tokens]
      · exact fun rest => by simp [tokens]
      · simp
      · exact fun s _ => Spells.quoted s

theorem spells_writeEntry (e : Entry) : Spells (writeEntry e) (entryTokens e) := by
  have hcolon : Spells [':', ' '] [.colon] := fun rest => by simp [tokens]
  simpa [writeEntry, entryTokens] using
    ((Spells.quoted e.1).append hcolon).append (spells_writeLeaf e.2)

theorem spells_toJson (t : Config) : Spells t.toJson.toList (treeTokens t.entries) := by
  have hspells : Spells (block '\x7b' '\x7d' [] (t.entries.map writeEntry))
      (treeTokens t.entries) := by
    apply Spells.block
    · exact fun rest => by simp [tokens]
    · exact fun rest => by simp [tokens]
    · simp
    · exact fun e _ => spells_writeEntry e
  simpa [Config.toJson] using hspells

theorem tokens_toJson (t : Config) : tokens t.toJson.toList = some (treeTokens t.entries) := by
  simpa [tokens] using spells_toJson t []

/-! ## Reading the tokens -/

theorem readTexts_texts (key : String) (acc ss : List String) (ts : List Token) :
    readTexts key acc (ss.flatMap (fun s => [.comma, .text s]) ++ .endArray :: ts) =
      (readMore ts).map ((key, .texts (acc.reverse ++ ss)) :: ·) := by
  induction ss generalizing acc with
  | nil => simp [readTexts]
  | cons s ss ih => simp [readTexts, ih]

theorem readEntries_entryTokens (e : Entry) (ts : List Token) :
    readEntries (entryTokens e ++ ts) = (readMore ts).map (e :: ·) := by
  obtain ⟨key, leaf⟩ := e
  cases leaf with
  | null => simp [entryTokens, leafTokens, readEntries]
  | flag b => simp [entryTokens, leafTokens, readEntries]
  | text s => simp [entryTokens, leafTokens, readEntries]
  | texts ss =>
      cases ss with
      | nil => simp [entryTokens, leafTokens, blockTokens, readEntries]
      | cons s ss =>
          simp [entryTokens, leafTokens, blockTokens, readEntries, readTexts_texts]

theorem readMore_entries (es : List Entry) :
    readMore (es.flatMap (fun e => .comma :: entryTokens e) ++ [.endObject]) = some es := by
  induction es with
  | nil => simp [readMore]
  | cons e es ih => simp [readMore, readEntries_entryTokens, ih]

theorem readObject_treeTokens (es : List Entry) : readObject (treeTokens es) = some es := by
  cases es with
  | nil => rfl
  | cons e es =>
      have hread := readEntries_entryTokens e
        (es.flatMap (fun e => .comma :: entryTokens e) ++ [.endObject])
      rw [readMore_entries] at hread
      simpa [treeTokens, blockTokens, entryTokens, readObject] using hread

end Json

namespace Config

/-- Whatever its keys and texts hold, a tree that is written is read back as it was. -/
theorem ofJson_toJson (t : Config) : ofJson t.toJson = .ok t := by
  rw [ofJson, Json.tokens_toJson, Option.bind_some, Json.readObject_treeTokens]
  exact congrArg Except.ok (ofEntries_entries t)

example : ((empty.putText "a\\" (some "\"\x01")).putTexts "b" ["é", ""]).toJson =
    "\x7b\n  \"a\\\\\": \"\\\"\\u0001\",\n  \"b\": [\n    \"é\",\n    \"\"\n  ]\n\x7d" := by
  decide

end Config

end ColumnTypes
