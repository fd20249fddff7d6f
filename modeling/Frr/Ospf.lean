import Frr.LsaInstance
import Mathlib.Data.List.AList

/-! The state of the link state procedures. LSA objects, interfaces, areas and neighbors are named
by numbers, as the daemon names them by their addresses: databases and lists hold such numbers. What
flooding may write is kept apart from what it only reads. -/
namespace Frr.Ospf

open Function

inductive NsmState where
  | dependUpon | deleted | down | attempt | init | twoWay | exStart | exchange | loading | full
  deriving DecidableEq, Inhabited

instance : LinearOrder NsmState :=
  LinearOrder.lift' NsmState.ctorIdx fun a b same => by
    cases a <;> cases b <;> first | rfl | exact absurd same (by decide)

inductive NsmEvent where
  | noEvent | packetReceived | start | twoWayReceived | negotiationDone | exchangeDone
  | badLsReq | loadingDone | adjOk | seqNumberMismatch | oneWayReceived | killNbr
  | inactivityTimer | llDown
  deriving DecidableEq, Inhabited

inductive IsmState where
  | dependUpon | down | loopback | waiting | pointToPoint | drOther | backup | dr
  deriving DecidableEq, Inhabited

/-- `area->external_routing`. -/
inductive ExternalRouting where
  | default | stub | nssa
  deriving DecidableEq, Inhabited

/-- `struct ospf_lsdb`: at most one object for each key. -/
abbrev Table := AList fun _ : LsaKey => Nat

/-- `OSPF_OPTION_O` and `OSPF_OPTION_NP`. -/
def optionO : UInt8 := 0x40
def optionNp : UInt8 := 0x08

/-- `struct ospf_neighbor`. -/
structure Neighbor where
  oi : Nat
  routerId : UInt32
  address : UInt32
  dRouter : UInt32
  bdRouter : UInt32
  options : UInt8
  state : NsmState
  dbSum : Table
  lsReq : Table
  lsReqLast : Option Nat
  lsRxmt : Table

/-- `NBR_IS_DR` and `NBR_IS_BDR`. -/
def Neighbor.isDr (nbr : Neighbor) : Bool := nbr.address = nbr.dRouter

def Neighbor.isBdr (nbr : Neighbor) : Bool := nbr.address = nbr.bdRouter

/-- `struct ospf_interface`. `enabled` is `ospf_if_is_enable`, `operative` is `if_is_operative`. The
number of the last network-LSA is remembered. -/
structure Interface where
  area : Nat
  enabled : Bool
  operative : Bool
  type : IfType
  state : IsmState
  address : UInt32
  nbrSelf : Nat
  fullNbrs : Nat
  networkLsaSelf : Option Nat
  networkLsaSeqnum : Option UInt32

/-- `struct ospf_area`. -/
structure Area where
  backbone : Bool
  externalRouting : ExternalRouting
  oiflist : List Nat
  routerLsaSelf : Option Nat

inductive Db where
  | area (area : Nat)
  | as
  deriving DecidableEq

structure Replacement where
  db : Db
  key : LsaKey
  old : Instance
  new : Instance
  now : Nat
  deriving DecidableEq

/-- What flooding only reads. `replaced` is a ghost: the replacements in databases, the last one
first. -/
structure Core where
  routerId : UInt32
  abr : Bool
  now : Nat
  minLsArrival : Nat
  lsas : Nat → Instance
  next : Nat
  lsdb : Db → Table
  maxageLsa : List Nat
  areas : List Nat
  distinct : areas.Nodup
  area : Nat → Area
  oiflist : List Nat
  interface : Nat → Interface
  replaced : List Replacement

inductive Output where
  | lsAck (nbr lsa : Nat)
  | delayedAck (oi lsa : Nat)
  | lsUpd (nbr lsa : Nat)
  | lsUpdIndirect (oi lsa : Nat)
  | lsReq (nbr : Nat)
  | nsmEvent (nbr : Nat) (event : NsmEvent)
  | flushArea (area lsa : Nat)
  | abrTask
  | opaqueRefresh (lsa : Nat)
  deriving DecidableEq

structure Net where
  nbrs : Nat → List Nat
  neighbor : Nat → Neighbor
  retransmitCounter : Nat → Int
  output : List Output

structure State where
  core : Core
  net : Net

namespace Core

variable (core : Core)

def lookup (db : Db) (key : LsaKey) : Option Nat := (core.lsdb db).lookup key

def stored (db : Db) (key : LsaKey) : Option Instance := (core.lookup db key).map core.lsas

def alloc (lsa : Instance) : Core :=
  {core with lsas := update core.lsas core.next lsa, next := core.next + 1}

def setLsa (r : Nat) (lsa : Instance) : Core :=
  {core with lsas := update core.lsas r lsa}

def setArea (a : Nat) (area : Area) : Core := {core with area := update core.area a area}

def setInterface (i : Nat) (oi : Interface) : Core :=
  {core with interface := update core.interface i oi}

variable {core}

@[simp] theorem setLsa_same (r : Nat) (lsa : Instance) : (core.setLsa r lsa).lsas r = lsa := by
  simp [setLsa]

@[simp] theorem setLsa_other {r other : Nat} (ne : other ≠ r) (lsa : Instance) :
    (core.setLsa r lsa).lsas other = core.lsas other := by
  simp [setLsa,ne]

@[simp] theorem alloc_new (lsa : Instance) : (core.alloc lsa).lsas core.next = lsa := by
  simp [alloc]

@[simp] theorem alloc_other {other : Nat} (ne : other ≠ core.next) (lsa : Instance) :
    (core.alloc lsa).lsas other = core.lsas other := by
  simp [alloc,ne]

end Core

namespace Net

variable (net : Net)

def setNbr (n : Nat) (nbr : Neighbor) : Net :=
  {net with neighbor := update net.neighbor n nbr}

def count (r : Nat) (change : Int) : Net :=
  {net with
    retransmitCounter := update net.retransmitCounter r (net.retransmitCounter r + change)}

def emit (out : Output) : Net := {net with output := net.output ++ [out]}

end Net

end Frr.Ospf
