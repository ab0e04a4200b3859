import ColumnTypes.Catalog.Builtin
import ColumnTypes.Registry

namespace ColumnTypes

/-!
# The shared registry

One catalog is shared by all users of a program. It is settled by its first use: either
it is installed before, or it becomes the builtin one.
-/

structure Shared where
  catalog : Option Catalog
deriving DecidableEq, Inhabited

namespace Shared

def unsettled : Shared := ⟨none⟩

def settled (c : Catalog) : Shared := ⟨some c⟩

def use (s : Shared) : Logged (Catalog × Shared) :=
  match s.catalog with
  | some c => ⟨(c, s), []⟩
  | none => ⟨(Catalog.builtin, settled Catalog.builtin), [.sharedInitialized]⟩

def install (s : Shared) (c : Catalog) : Logged (Except Catalog.Error Catalog × Shared) :=
  match s.catalog with
  | some _ => ⟨(.error .alreadyInstalled, s), []⟩
  | none => ⟨(.ok c, settled c), [.sharedInstalled]⟩

end Shared

end ColumnTypes
