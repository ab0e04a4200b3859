import ColumnTypes.Named
import ColumnTypes.Value.Order
import ColumnTypes.Value.Rendering

namespace ColumnTypes

/-!
# Capabilities

A capability is a view that cells can be read as. It extends other capabilities,
and it may declare a bundle with an order, an icon and a renderer. Capabilities
are told apart by their names.
-/

/-- What a capability declares for the display of columns. Each part may be absent. -/
structure Bundle where
  order : Option ValueOrder
  icon : Option String
  renderer : Option RendererRule
deriving DecidableEq, Inhabited

namespace Bundle

def genericIcon : String := "generic"

/-- Stands in where no bundle is declared. -/
def universal : Bundle := ⟨none, some genericIcon, none⟩

def rendererFor (b : Bundle) (column : Column) : Logged (Option Renderer) :=
  match b.renderer with
  | none => pure none
  | some rule => rule.forColumn column

end Bundle

inductive Capability where
  | mk (name : String) (bundle : Option Bundle) (parents : List Capability)

namespace Capability

instance : Inhabited Capability := ⟨mk "" none []⟩

def name : Capability → String
  | mk name _ _ => name

def declaredBundle : Capability → Option Bundle
  | mk _ bundle _ => bundle

def parents : Capability → List Capability
  | mk _ _ parents => parents

mutual

def decEq : (a b : Capability) → Decidable (a = b)
  | mk n b ps, mk m c qs =>
      if hn : n = m then
        if hb : b = c then
          match decEqList ps qs with
          | isTrue hp => isTrue (by rw [hn, hb, hp])
          | isFalse hp => isFalse fun h => hp (by injection h)
        else isFalse fun h => hb (by injection h)
      else isFalse fun h => hn (by injection h)

def decEqList : (as bs : List Capability) → Decidable (as = bs)
  | [], [] => isTrue rfl
  | [], _ :: _ => isFalse nofun
  | _ :: _, [] => isFalse nofun
  | a :: as, b :: bs =>
      match decEq a b with
      | isTrue h =>
          match decEqList as bs with
          | isTrue hs => isTrue (by rw [h, hs])
          | isFalse hs => isFalse fun e => hs (List.cons.inj e).2
      | isFalse h => isFalse fun e => h (List.cons.inj e).1

end

/-- Shared definitions are equal without a look inside. -/
instance : DecidableEq Capability := fun a b => withPtrEqDecEq a b fun _ => decEq a b

def names (cs : List Capability) : List String := cs.map name

/-- Whether a capability of the same name is in the list. -/
def isListed (c : Capability) (cs : List Capability) : Bool := cs.any fun d => d.name == c.name

theorem isListed_iff {c : Capability} {cs : List Capability} :
    c.isListed cs = true ↔ c.name ∈ names cs := by
  simp [isListed, names]

/-- The first capability of each name. -/
def distinct (cs : List Capability) : List Capability :=
  cs.foldl (fun acc c => if c.isListed acc then acc else acc ++ [c]) []

abbrev named? (cs : List Capability) (name : String) : Option Capability :=
  Named.find? Capability.name cs name

/-! ## The hierarchy -/

mutual

/-- Whether the capability, or one that it extends however far up, has the name. -/
def reaches (target : String) : Capability → Bool
  | mk name _ parents => name == target || anyReaches target parents

def anyReaches (target : String) : List Capability → Bool
  | [] => false
  | c :: cs => reaches target c || anyReaches target cs

end

theorem anyReaches_eq_any (target : String) (cs : List Capability) :
    anyReaches target cs = cs.any (reaches target) := by
  induction cs with
  | nil => simp [anyReaches]
  | cons c cs ih => simp [anyReaches, ih]

/-- Whether values with capability `b` can be read through `a`. -/
def covers (a b : Capability) : Bool := b.reaches a.name

theorem covers_self (a : Capability) : a.covers a = true := by
  cases a
  simp [covers, reaches, name]

mutual

/-- Adds the capability and then, depth first, everything that it extends. A capability whose name
was added before is passed over together with what is above it. -/
def visit : Capability → List Capability → List Capability
  | mk name bundle parents, seen =>
      if (mk name bundle parents).isListed seen then seen
      else visitAll parents (seen ++ [mk name bundle parents])

def visitAll : List Capability → List Capability → List Capability
  | [], seen => seen
  | c :: cs, seen => visitAll cs (visit c seen)

end

/-- All capabilities reached from the list, in the order of their first visit. -/
def closure (cs : List Capability) : List Capability := visitAll cs []

def ancestors (c : Capability) : List Capability := closure c.parents

/-! ## Bundles -/

mutual

/-- The bundle of the first capability that declares one, upwards and depth first. -/
def bundle? : Capability → Option Bundle
  | mk _ (some b) _ => some b
  | mk _ none parents => firstBundle? parents

def firstBundle? : List Capability → Option Bundle
  | [] => none
  | c :: cs =>
      match bundle? c with
      | some b => some b
      | none => firstBundle? cs

end

def bundle (c : Capability) : Bundle := c.bundle?.getD Bundle.universal

end Capability

end ColumnTypes
