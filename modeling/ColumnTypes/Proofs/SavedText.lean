import ColumnTypes.Inspect.Arguments
import ColumnTypes.Inspect.Report
import ColumnTypes.Proofs.JsonText

namespace ColumnTypes

/-!
# The saved tree in a report

A report ends with a line that announces the saved tree and with the tree as
JSON. Names can hold line ends and such lines of their own, but JSON cannot: a
line of it begins with a blank or a bracket. So the tree is what stands behind
the last such line, and it is read back with the line end behind it or without.
-/

namespace Inspect

/-! ## Marks in a text -/

/-- What stands behind the last mark in the text. -/
def behindLast? (mark : List Char) : List Char → Option (List Char)
  | [] => none
  | c :: cs => (behindLast? mark cs).or (Word.behind? mark (c :: cs))

theorem behind?_append (mark rest : List Char) : Word.behind? mark (mark ++ rest) = some rest := by
  induction mark with
  | nil => cases rest <;> rfl
  | cons c mark ih => simpa [Word.behind?] using ih

theorem behindLast?_append {mark text rest : List Char} (h : behindLast? mark text = some rest)
    (before : List Char) : behindLast? mark (before ++ text) = some rest := by
  induction before with
  | nil => exact h
  | cons c before ih =>
      rw [List.cons_append, behindLast?, ih]
      rfl

/-- The line that announces the saved tree, with the end of the line before it. -/
def savedMark : List Char := ['\n', 's', 'a', 'v', 'e', 'd', ':', '\n']

def savedText? (report : String) : Option String :=
  (behindLast? savedMark report.toList).map String.ofList

/-- No mark begins among the characters, whatever text without a mark follows. -/
def Unmarked (cs : List Char) : Prop :=
  ∀ rest, behindLast? savedMark rest = none → behindLast? savedMark (cs ++ rest) = none

namespace Unmarked

theorem nil : Unmarked [] := fun _ h => h

theorem append {cs ds : List Char} (hcs : Unmarked cs) (hds : Unmarked ds) :
    Unmarked (cs ++ ds) := by
  intro rest h
  rw [List.append_assoc]
  exact hcs _ (hds rest h)

theorem flatMap {α : Type} {write : α → List Char} {xs : List α}
    (h : ∀ x ∈ xs, Unmarked (write x)) : Unmarked (xs.flatMap write) := by
  induction xs with
  | nil => exact nil
  | cons x xs ih =>
      obtain ⟨hx, hxs⟩ := List.forall_mem_cons.mp h
      exact hx.append (ih hxs)

theorem of_notMem {cs : List Char} (h : '\n' ∉ cs) : Unmarked cs := by
  intro rest hrest
  induction cs with
  | nil => exact hrest
  | cons c cs ih =>
      rw [List.mem_cons, not_or] at h
      rw [List.cons_append, behindLast?, ih h.2]
      simp [savedMark, Word.behind?, h.1]

/-- A line that does not begin as the mark does. -/
theorem line {c : Char} {cs : List Char} (hc : c ≠ 's') (h : Unmarked (c :: cs)) :
    Unmarked ('\n' :: c :: cs) := by
  intro rest hrest
  rw [List.cons_append, behindLast?, h rest hrest]
  simp [savedMark, Word.behind?, hc.symm]

end Unmarked

end Inspect

/-! ## JSON holds no mark -/

namespace Json

open Inspect (Unmarked)

theorem newline_notMem_escapeChar (c : Char) : '\n' ∉ escapeChar c := by
  have hdigit : ∀ n : Fin 16, '\n' ≠ Nat.digitChar n := by decide
  cases escapeCase c with
  | short e hread heq =>
      have he : '\n' ≠ e := by
        rintro rfl
        cases hread
      simp [heq, he]
  | numbered hcontrol heq =>
      have hhigh := hdigit ⟨c.toNat / 16, by omega⟩
      have hlow := hdigit ⟨c.toNat % 16, by omega⟩
      simp [heq, hhigh, hlow]
  | plain hquote hbackslash hshown heq =>
      have hc : '\n' ≠ c := by
        rintro rfl
        exact hshown (by decide)
      simp [heq, hc]

theorem newline_notMem_quoted (s : String) : '\n' ∉ quoted s := by
  simp [quoted, escape, newline_notMem_escapeChar]

theorem unmarked_block {opening closing : Char} {outer : List Char} {items : List (List Char)}
    (hopening : opening ≠ '\n') (hclosing : closing ≠ '\n') (hstart : closing ≠ 's')
    (houter : ∀ c ∈ outer, c = ' ') (hitems : ∀ item ∈ items, Unmarked item) :
    Unmarked (block opening closing outer items) := by
  have hblank : '\n' ∉ outer := fun h => absurd (houter '\n' h) (by decide)
  cases items with
  | nil => exact Unmarked.of_notMem (by simp [block, hopening.symm, hclosing.symm])
  | cons item items =>
      obtain ⟨hitem, hitems⟩ := List.forall_mem_cons.mp hitems
      have hindent : '\n' ∉ ' ' :: ' ' :: outer := by simp [hblank]
      have hline := Unmarked.line (by decide) (Unmarked.of_notMem hindent)
      have hopen : Unmarked [opening] := Unmarked.of_notMem (by simp [hopening.symm])
      have hcomma : Unmarked [','] := Unmarked.of_notMem (by decide)
      have hfirst := (hopen.append hline).append hitem
      have hothers := Unmarked.flatMap fun i hi => (hcomma.append hline).append (hitems i hi)
      have hlast : Unmarked ('\n' :: (outer ++ [closing])) := by
        cases outer with
        | nil => exact Unmarked.line hstart (Unmarked.of_notMem (by simp [hclosing.symm]))
        | cons c outer =>
            obtain rfl := houter c List.mem_cons_self
            have hclose : '\n' ∉ ' ' :: (outer ++ [closing]) := by
              simpa [hclosing.symm] using hblank
            exact Unmarked.line (by decide) (Unmarked.of_notMem hclose)
      simpa [block, List.append_assoc] using (hfirst.append hothers).append hlast

theorem unmarked_writeLeaf (leaf : Leaf) : Unmarked (writeLeaf leaf) := by
  cases leaf with
  | null => exact Unmarked.of_notMem (by decide)
  | flag b => cases b <;> exact Unmarked.of_notMem (by decide)
  | text s => exact Unmarked.of_notMem (newline_notMem_quoted s)
  | texts ss =>
      apply unmarked_block (by decide) (by decide) (by decide) (by simp)
      exact List.forall_mem_map.mpr fun s _ => Unmarked.of_notMem (newline_notMem_quoted s)

theorem unmarked_writeEntry (e : Entry) : Unmarked (writeEntry e) := by
  have hkey := Unmarked.of_notMem (newline_notMem_quoted e.1)
  have hcolon : Unmarked [':', ' '] := Unmarked.of_notMem (by decide)
  simpa [writeEntry] using (hkey.append hcolon).append (unmarked_writeLeaf e.2)

end Json

/-! ## The tree behind the mark -/

namespace Inspect

theorem lines_append (ls ms : List String) : lines (ls ++ ms) = lines ls ++ lines ms := by
  simp [lines]

theorem toList_lines (ls : List String) :
    (lines ls).toList = ls.flatMap fun l => l.toList ++ ['\n'] := by
  simp [lines, List.flatMap_map]

theorem unmarked_toJson (t : Config) : Unmarked t.toJson.toList := by
  rw [Config.toJson, String.toList_ofList]
  apply Json.unmarked_block (by decide) (by decide) (by decide) (List.forall_mem_nil _)
  exact List.forall_mem_map.mpr fun e _ => Json.unmarked_writeEntry e

theorem exists_toList_toJson (t : Config) : ∃ cs, t.toJson.toList = '\x7b' :: cs := by
  rw [Config.toJson, String.toList_ofList]
  cases t.entries with
  | nil => exact ⟨_, rfl⟩
  | cons e es => exact ⟨_, rfl⟩

theorem behindLast?_savedMark_toJson (t : Config) :
    behindLast? savedMark (savedMark ++ (t.toJson.toList ++ ['\n'])) =
      some (t.toJson.toList ++ ['\n']) := by
  -- the line end that closes the mark does not open another one: a bracket follows it
  have hline : Unmarked ('\n' :: t.toJson.toList) := by
    obtain ⟨cs, hcs⟩ := exists_toList_toJson t
    have htree := unmarked_toJson t
    rw [hcs] at htree ⊢
    exact Unmarked.line (by decide) htree
  have hword : Unmarked ['s', 'a', 'v', 'e', 'd', ':'] := Unmarked.of_notMem (by decide)
  have hnone : behindLast? savedMark (savedMark.tail ++ (t.toJson.toList ++ ['\n'])) = none := by
    simpa [savedMark] using (hword.append hline) ['\n'] (by decide)
  have hmark : savedMark ++ (t.toJson.toList ++ ['\n']) =
      '\n' :: (savedMark.tail ++ (t.toJson.toList ++ ['\n'])) := rfl
  rw [hmark, behindLast?, hnone, ← hmark, behind?_append]
  rfl

/-- Whatever lines stand before it, the tree is found behind the line that announces it. -/
theorem savedText?_lines {front : List String} (hfront : front ≠ []) (t : Config) :
    savedText? (lines (front ++ ["saved:", t.toJson])) = some (t.toJson ++ "\n") := by
  obtain ⟨init, last, rfl⟩ := (List.eq_nil_or_concat' front).resolve_left hfront
  have hsplit : (lines (init ++ [last] ++ ["saved:", t.toJson])).toList =
      ((lines init).toList ++ last.toList) ++ (savedMark ++ (t.toJson.toList ++ ['\n'])) := by
    simp [toList_lines, savedMark]
  rw [savedText?, hsplit, behindLast?_append (behindLast?_savedMark_toJson t)]
  simp [String.ofList_append]

example : savedText? "type: a\nsaved:\nb\nsaved:\n\x7b\x7d\n" = some "\x7b\x7d\n" := by decide

end Inspect

namespace Config

theorem ofJson_of_tokens {t : Config} {text : String}
    (h : Json.tokens text.toList = some (Json.treeTokens t.entries)) : ofJson text = .ok t := by
  rw [ofJson, h, Option.bind_some, Json.readObject_treeTokens]
  exact congrArg Except.ok (ofEntries_entries t)

/-- The tree is read back with the line end behind it or without. -/
theorem ofJson_printed {t : Config} {content : String}
    (h : content = t.toJson ∨ content = t.toJson ++ "\n") : ofJson content = .ok t := by
  apply ofJson_of_tokens
  rcases h with rfl | rfl
  · exact Json.tokens_toJson t
  · simpa [Json.tokens] using Json.spells_toJson t ['\n']

end Config

end ColumnTypes
