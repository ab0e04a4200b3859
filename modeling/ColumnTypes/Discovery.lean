import ColumnTypes.Kind

namespace ColumnTypes

/-!
# Discovery

The capabilities that a kind offers: for each definition of its lineage, nearest
first, what it implements and everything above that, each capability once.
-/

structure Discovery where
  capabilities : List Capability
  preferred : Option Capability
deriving DecidableEq, Inhabited

def Kind.discovery (k : Kind) : Discovery where
  capabilities := Capability.closure (k.lineage.flatMap KindDefinition.implements)
  preferred := k.preferred

namespace Discovery

/-- A kind can prefer a capability that it does not implement. -/
def prefersImplemented (d : Discovery) : Bool :=
  match d.preferred with
  | none => true
  | some p => p.isListed d.capabilities

def unimplemented? (d : Discovery) : Option Capability :=
  d.preferred.filter fun p => !p.isListed d.capabilities

theorem unimplemented?_eq_none_iff (d : Discovery) :
    d.unimplemented? = none ↔ d.prefersImplemented = true := by
  unfold unimplemented? prefersImplemented
  cases d.preferred with
  | none => simp
  | some p => simp

def notices (k : Kind) (d : Discovery) : List Notice :=
  (d.unimplemented?.map fun p => Notice.preferenceUnimplemented k.name p.name).toList ++
    [.discovered k.name (Capability.names d.capabilities) (d.preferred.map Capability.name)]

end Discovery

def Kind.reportDiscovery (k : Kind) : Logged Discovery :=
  ⟨k.discovery, k.discovery.notices k⟩

end ColumnTypes
