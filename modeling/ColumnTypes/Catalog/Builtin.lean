import ColumnTypes.Catalog

namespace ColumnTypes

/-!
# The builtin catalog

Integers, double precision numbers, texts and truth values.
-/

namespace Capability

def comparable : Capability := mk "Comparable" none []

def numeric : Capability :=
  mk "Numeric" (some ⟨some .numeric, some "numeric", some .numeric⟩) []

def textual : Capability := mk "Textual" (some ⟨some .lexical, some "text", some .display⟩) []

def logical : Capability :=
  mk "Logical" (some ⟨some .logical, some "logical", none⟩) [comparable]

end Capability

namespace Kind

/-- A kind that extends no other, with the first capability as its preferred one. -/
def builtin (name : String) (preferred : Capability) (others : List Capability) (codec : Codec) :
    Kind :=
  ⟨⟨name, .catalog, preferred :: others, some preferred, some codec⟩, []⟩

def whole : Kind := builtin "Whole" .numeric [.comparable] .whole

def real : Kind := builtin "Real" .numeric [.comparable] .real

def text : Kind := builtin "Text" .textual [] .text

def flag : Kind := builtin "Flag" .logical [] .flag

end Kind

namespace Catalog

def builtin : Catalog where
  capabilities := [.comparable, .numeric, .textual, .logical]
  kinds := [.whole, .real, .text, .flag]
  settings := Settings.standard

end Catalog

end ColumnTypes
