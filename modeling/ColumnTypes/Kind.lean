import ColumnTypes.Capability
import ColumnTypes.Value.Codec

namespace ColumnTypes

/-!
# Cell kinds

A kind is its own definition followed by the definitions that it inherits from,
the nearest first. It inherits implemented capabilities and the preference, but
no codec. Kinds are told apart by their names.
-/

/-- Definitions made by a catalog differ from those made by hand, even if they agree in all else. -/
inductive Provenance where
  | catalog
  | standalone
deriving DecidableEq, Inhabited

structure KindDefinition where
  name : String
  provenance : Provenance
  implements : List Capability
  preferred : Option Capability
  codec : Option Codec
deriving DecidableEq, Inhabited

structure Kind where
  own : KindDefinition
  inherited : List KindDefinition
deriving Inhabited

namespace Kind

/-- Shared definitions are equal without a look inside. -/
instance : DecidableEq Kind := fun a b => withPtrEqDecEq a b fun _ =>
  if h : a.own = b.own ∧ a.inherited = b.inherited then
    isTrue (by cases a; cases b; simp_all)
  else isFalse fun e => h (by rw [e]; exact ⟨rfl, rfl⟩)

def name (k : Kind) : String := k.own.name

def implements (k : Kind) : List Capability := k.own.implements

def declaredPreferred (k : Kind) : Option Capability := k.own.preferred

def declaredCodec (k : Kind) : Option Codec := k.own.codec

def lineage (k : Kind) : List KindDefinition := k.own :: k.inherited

def parent? (k : Kind) : Option Kind :=
  match k.inherited with
  | [] => none
  | d :: ds => some ⟨d, ds⟩

/-- A kind made of a definition and the kind that it extends. Capabilities implemented twice
count once. -/
def extending (parent : Option Kind) (own : KindDefinition) : Kind :=
  { own := { own with implements := Capability.distinct own.implements }
    inherited := (parent.map lineage).getD [] }

theorem parent?_extending (parent : Option Kind) (own : KindDefinition) :
    (extending parent own).parent? = parent := by
  cases parent with
  | none => rfl
  | some p => rfl

/-- The preference in effect: the nearest one that is declared. -/
def preferred (k : Kind) : Option Capability := k.lineage.findSome? KindDefinition.preferred

def descendsFrom (k other : Kind) : Bool := k.lineage.any fun d => d.name == other.name

abbrev named? (ks : List Kind) (name : String) : Option Kind := Named.find? Kind.name ks name

end Kind

end ColumnTypes
