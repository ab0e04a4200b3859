import ColumnTypes.Discovery

namespace ColumnTypes

/-!
# Type descriptors

The type of a column. It is bound to one kind, or stands for the missing value,
or is a bare list of capabilities. Where there is a preferred capability, it is
the first of the list.
-/

inductive Binding where
  | kind (k : Kind)
  | missing
  | none
deriving DecidableEq, Inhabited

structure Descriptor where
  binding : Binding
  capabilities : List Capability
  hasPreferred : Bool
deriving DecidableEq, Inhabited

inductive Descriptor.Error where
  | invalidArgument (reason : String)
  | unresolvableReference (what : String)
deriving DecidableEq, Inhabited

def Descriptor.Error.message : Descriptor.Error → String
  | invalidArgument reason => s!"invalid argument: {reason}"
  | unresolvableReference what => s!"unresolvable reference: {what}"

namespace Descriptor

def unbound (capabilities : List Capability) (hasPreferred : Bool) : Descriptor :=
  ⟨.none, capabilities, hasPreferred⟩

/-- No capabilities, and yet readable through every one. -/
def missing : Descriptor := ⟨.missing, [], false⟩

/-- The preferred capability comes first, implemented or not, and the rest as discovered. -/
def bound (k : Kind) (d : Discovery) : Descriptor where
  binding := .kind k
  capabilities :=
    match d.preferred with
    | none => d.capabilities
    | some p => p :: d.capabilities.filter fun c => c.name != p.name
  hasPreferred := d.preferred.isSome

def ofKind (k : Kind) : Descriptor := bound k k.discovery

def kind? (t : Descriptor) : Option Kind :=
  match t.binding with
  | .kind k => some k
  | _ => none

/-- Bound to a kind, the kind of the missing value included. -/
def isBound (t : Descriptor) : Bool :=
  match t.binding with
  | .none => false
  | _ => true

def isMissing (t : Descriptor) : Bool :=
  match t.binding with
  | .missing => true
  | _ => false

def preferred? (t : Descriptor) : Option Capability :=
  if t.hasPreferred then t.capabilities.head? else none

def label (t : Descriptor) : String :=
  match t.binding with
  | .kind k => k.name
  | .missing => missingKind
  | .none => "Non-Native " ++ Notice.listText (Capability.names t.capabilities)

/-- The same capabilities with another one preferred. The result is bound to no kind. -/
def preferring (t : Descriptor) (c : Capability) : Except Descriptor.Error Descriptor :=
  if c.isListed t.capabilities then
    .ok (unbound (c :: t.capabilities.filter fun d => d.name != c.name) true)
  else .error (.invalidArgument s!"invalid preferred capability '{c.name}' for {t.label}")

/-- The first capability that follows another one of its name. -/
def repeated? : List Capability → List Capability → Option Capability
  | _, [] => none
  | earlier, c :: cs => if c.isListed earlier then some c else repeated? (earlier ++ [c]) cs

/-- A descriptor of a given list, whose first capability is the preferred one if the flag is set. -/
def ofList (hasPreferred : Bool) (cs : List Capability) : Except Descriptor.Error Descriptor :=
  if hasPreferred && cs.isEmpty then
    .error (.invalidArgument "preferred capability flag set on an empty capability list")
  else
    match repeated? [] cs with
    | some c => .error (.invalidArgument s!"capability '{c.name}' listed twice")
    | none => .ok (unbound cs hasPreferred)

/-! ## Comparing descriptors -/

def supports (t : Descriptor) (c : Capability) : Bool :=
  t.isMissing || t.capabilities.any c.covers

def generalizes (t u : Descriptor) : Bool := t.capabilities.all u.supports

def preferredName? (t : Descriptor) : Option String := t.preferred?.map Capability.name

def namesWithin (cs ds : List Capability) : Bool := cs.all fun c => c.isListed ds

/-- Same preference and same set of capabilities. The order of the rest and the bound kind do
not count. -/
def agrees (t u : Descriptor) : Bool :=
  t.hasPreferred == u.hasPreferred && t.preferredName? == u.preferredName? &&
    t.capabilities.length == u.capabilities.length &&
    namesWithin t.capabilities u.capabilities && namesWithin u.capabilities t.capabilities

/-- What a hash of descriptors may depend on: the flag and the set of capabilities. -/
def hashAgrees (t u : Descriptor) : Bool :=
  t.hasPreferred == u.hasPreferred &&
    namesWithin t.capabilities u.capabilities && namesWithin u.capabilities t.capabilities

/-! ## The common supertype -/

def bothPrefer (t u : Descriptor) : Bool :=
  match t.preferredName?, u.preferredName? with
  | some p, some q => p == q
  | _, _ => false

/-- The capabilities in both lists, preferring what both prefer. -/
def intersection (t u : Descriptor) : Descriptor :=
  unbound (t.capabilities.filter fun c => c.isListed u.capabilities) (t.bothPrefer u)

/-- Missing gives way to the other side, a strict supertype wins, and otherwise the two lists are
intersected. -/
def merge (t u : Descriptor) : Descriptor :=
  if t.isMissing then u
  else if u.isMissing then t
  else
    match t.generalizes u, u.generalizes t with
    | true, false => t
    | false, true => u
    | true, true => if t.agrees u then t else t.intersection u
    | false, false => t.intersection u

theorem merge_missing_right {t : Descriptor} (h : t.isMissing = false) :
    t.merge missing = t := by
  rw [merge, h, if_neg Bool.false_ne_true]
  rfl

def distinct (ts : List Descriptor) : List Descriptor :=
  ts.foldl (fun acc t => if acc.any t.agrees then acc else acc ++ [t]) []

end Descriptor

end ColumnTypes
