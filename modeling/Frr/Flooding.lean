import Frr.Ospf

/-! The request and retransmission lists, and flooding out of the interfaces. Nothing here writes to
a database or to an LSA. -/
namespace Frr.Ospf

section

variable (core : Core) (net : Net) (n r : Nat)

/-- `ospf_ls_request_lookup` and `ospf_ls_retransmit_lookup`. -/
def lsRequestLookup : Option Nat := (net.neighbor n).lsReq.lookup (core.lsas r).key

def lsRetransmitLookup : Option Nat := (net.neighbor n).lsRxmt.lookup (core.lsas r).key

/-- `ospf_lsdb_delete`: an object is only taken out if it is the one stored. -/
def lsdbDelete (table : Table) : Table :=
  if table.lookup (core.lsas r).key = some r then table.erase (core.lsas r).key else table

def lsRequestAdd : Net :=
  let nbr := net.neighbor n
  net.setNbr n {nbr with lsReq := nbr.lsReq.insert (core.lsas r).key r}

def lsRequestDelete : Net :=
  let nbr := net.neighbor n
  net.setNbr n
    {nbr with
      lsReqLast := if nbr.lsReqLast = some r then none else nbr.lsReqLast
      lsReq := lsdbDelete core r nbr.lsReq}

def lsRequestDeleteAll : Net :=
  net.setNbr n {net.neighbor n with lsReqLast := none, lsReq := ∅}

def checkNbrLoading : Net :=
  let nbr := net.neighbor n
  if nbr.state = .loading then
    if nbr.lsReq.entries.isEmpty then net.emit (.nsmEvent n .loadingDone)
    else if nbr.lsReqLast = none then net.emit (.lsReq n)
    else net
  else net

/-- The part of `ospf_ls_retransmit_add` that gives way to a more recent instance. -/
def lsRetransmitReplace (old : Option Nat) : Net :=
  match old with
  | none => net
  | some old =>
    let nbr := net.neighbor n
    (net.count old (-1)).setNbr n {nbr with lsRxmt := lsdbDelete core old nbr.lsRxmt}

def lsRetransmitAdd : Net :=
  let old := lsRetransmitLookup core net n r
  if Instance.moreRecentThan core.now (old.map core.lsas) (core.lsas r) < 0 then
    let net := (lsRetransmitReplace core net n old).count r 1
    let nbr := net.neighbor n
    net.setNbr n {nbr with lsRxmt := nbr.lsRxmt.insert (core.lsas r).key r}
  else net

/-- The counter is that of the object handed in, whichever is on the list. -/
def lsRetransmitDelete : Net :=
  if (lsRetransmitLookup core net n r).isSome then
    let net := net.count r (-1)
    let nbr := net.neighbor n
    net.setNbr n {nbr with lsRxmt := lsdbDelete core r nbr.lsRxmt}
  else net

def lsRetransmitClear : Net :=
  let held := (net.neighbor n).lsRxmt.entries.map (·.2)
  let net := held.foldl (fun net r => lsRetransmitDelete core net n r) net
  net.setNbr n {net.neighbor n with lsReqLast := none}

end

section

variable (core : Core) (r : Nat)

/-- One neighbor in the loop of `ospf_ls_retransmit_delete_nbr_if`. -/
def lsRetransmitDeleteNbr (net : Net) (n : Nat) : Net :=
  match lsRetransmitLookup core net n r with
  | none => net
  | some lsr =>
    if (core.lsas lsr).data.lsSeqnum = (core.lsas r).data.lsSeqnum then
      lsRetransmitDelete core net n lsr
    else net

def lsRetransmitDeleteNbrIf (net : Net) (oi : Nat) : Net :=
  if (core.interface oi).enabled then (net.nbrs oi).foldl (lsRetransmitDeleteNbr core r) net
  else net

def lsRetransmitDeleteNbrArea (net : Net) (area : Nat) : Net :=
  (core.area area).oiflist.foldl (lsRetransmitDeleteNbrIf core r) net

def lsRetransmitDeleteNbrAs (net : Net) : Net :=
  core.oiflist.foldl (lsRetransmitDeleteNbrIf core r) net

end

section

variable (core : Core) (inbr : Option Nat) (r : Nat)

/-- What the request list says of a new LSA: a neighbor that is not full is passed over unless the
LSA is more recent than the one it asked for. -/
def examineRequest (net : Net) (n : Nat) : Net × Bool :=
  if (net.neighbor n).state < .full then
    match lsRequestLookup core net n r with
    | none => (net,true)
    | some req =>
      let ret := Instance.moreRecent core.now (core.lsas req) (core.lsas r)
      if 0 < ret then (net,false)
      else (checkNbrLoading (lsRequestDelete core net n req) n,ret ≠ 0)
  else (net,true)

/-- An LSA need not be sent to where it came from or originates. -/
def comesFrom (net : Net) (n : Nat) : Bool :=
  match inbr with
  | some i => (net.neighbor i).routerId = (net.neighbor n).routerId
  | none => (core.lsas r).data.advRouter = (net.neighbor n).routerId

def linkColourLsa : UInt8 := 13

/-- A neighbor in the loop of `ospf_flood_through_interface`; the flag records that an LSA was added
to a list. -/
def floodToNeighbor (acc : Net × Bool) (n : Nat) : Net × Bool :=
  let (net,retx) := acc
  let onbr := net.neighbor n
  let type := (core.lsas r).data.type
  if onbr.state < .exchange then
    (if type = linkColourLsa then lsRetransmitAdd core net n r else net,retx)
  else
    let (net,needed) := examineRequest core r net n
    if ¬ needed then (net,retx)
    else if Lsa.isOpaque type ∧ onbr.options &&& optionO = 0 then (net,retx)
    else if comesFrom core inbr r net n then (net,retx)
    else (lsRetransmitAdd core net n r,true)

/-- The packets that `ospf_flood_through_interface` sends. -/
def sendUpdates (net : Net) (oi : Nat) : Net :=
  let i := core.interface oi
  if i.type = .nbma then
    ((net.nbrs oi).filter fun n => n ≠ i.nbrSelf ∧ .exchange ≤ (net.neighbor n).state).foldl
      (fun net n => net.emit (.lsUpd n r)) net
  else net.emit (.lsUpdIndirect oi r)

def cameIn (net : Net) (oi : Nat) : Bool :=
  inbr.any fun i => (net.neighbor i).oi = oi

/-- `ospf_flood_through_interface`; the flag asks for a delayed acknowledgment. -/
def floodThroughInterface (net : Net) (oi : Nat) : Net × Bool :=
  if (core.interface oi).enabled then
    let (net,retx) := (net.nbrs oi).foldl (floodToNeighbor core inbr r) (net,false)
    if ¬ retx then (net,cameIn inbr net oi)
    else if cameIn inbr net oi ∧
        (inbr.any (fun i => (net.neighbor i).isDr || (net.neighbor i).isBdr) ∨
          (core.interface oi).state = .backup) then (net,true)
    else (sendUpdates core r net oi,false)
  else (net,false)

def floodInterfaces (interfaces : List Nat) (net : Net) : Net × Bool :=
  interfaces.foldl
    (fun acc oi =>
      let (net,ack) := floodThroughInterface core inbr r acc.1 oi
      (net,acc.2 || ack))
    (net,false)

/-- The interfaces `ospf_flood_through_area` does not pass over. -/
def areaInterfaces (area : Nat) : List Nat :=
  (core.area area).oiflist.filter fun oi =>
    ((core.area area).backbone ∨ (core.interface oi).type ≠ .virtualLink) ∧
      ((core.lsas r).data.type ≠ Lsa.opaqueLinkLsa ∨ (core.lsas r).oi = some oi)

def floodThroughArea (area : Nat) (net : Net) : Net × Bool :=
  floodInterfaces core inbr r (areaInterfaces core r area) net

/-- Whether `ospf_flood_through_as` sends an LSA into an area. -/
def takesExternal (area : Nat) : Bool :=
  match (core.area area).externalRouting with
  | .nssa => (core.lsas r).data.type = Lsa.asNssaLsa ∧ (core.lsas r).area = some area
  | .stub => false
  | .default => (core.lsas r).data.type ≠ Lsa.asNssaLsa

/-- The interfaces `ospf_flood_through_as` does not pass over. -/
def asInterfaces : List Nat :=
  (core.areas.filter fun area => takesExternal core r area).flatMap fun area =>
    (core.area area).oiflist.filter fun oi => (core.interface oi).type ≠ .virtualLink

def floodThroughAs (net : Net) : Net × Bool :=
  floodInterfaces core inbr r (asInterfaces core r) net

/-- `ospf_flood_through`. An LSA that is not of the whole autonomous system has an area. -/
def floodThrough (net : Net) : Net × Bool :=
  if (core.lsas r).data.type = Lsa.asExternalLsa ∨ (core.lsas r).data.type = Lsa.opaqueAsLsa then
    floodThroughAs core inbr r net
  else
    match (core.lsas r).area with
    | some area => floodThroughArea core inbr r area net
    | none => (net,false)

def floodDelayedLsaAck (net : Net) (n : Nat) : Net :=
  let inbr := net.neighbor n
  if (core.interface inbr.oi).state = .backup ∧ ¬ inbr.isDr then net
  else net.emit (.delayedAck inbr.oi r)

end

def Neighbor.bare (nbr : Neighbor) : Neighbor :=
  {nbr with dbSum := ∅, lsReq := ∅, lsReqLast := none, lsRxmt := ∅}

structure Net.Alike (net net' : Net) : Prop where
  nbrs : net'.nbrs = net.nbrs
  bare : ∀ n, (net'.neighbor n).bare = (net.neighbor n).bare

namespace Net.Alike

variable {net net' net'' : Net}

theorem refl (net : Net) : Alike net net := ⟨rfl,fun _ => rfl⟩

theorem trans (fst : Alike net net') (snd : Alike net' net'') : Alike net net'' :=
  ⟨snd.nbrs.trans fst.nbrs,fun n => (snd.bare n).trans (fst.bare n)⟩

theorem state (ha : Alike net net') (n : Nat) :
    (net'.neighbor n).state = (net.neighbor n).state := by
  have eq := congrArg Neighbor.state (ha.bare n)
  exact eq

theorem dRouter (ha : Alike net net') (n : Nat) :
    (net'.neighbor n).dRouter = (net.neighbor n).dRouter := by
  have eq := congrArg Neighbor.dRouter (ha.bare n)
  exact eq

theorem emit {out : Output} : Alike net (net.emit out) := ⟨rfl,fun _ => rfl⟩

theorem count {r : Nat} {change : Int} : Alike net (net.count r change) := ⟨rfl,fun _ => rfl⟩

theorem setNbr {n : Nat} {nbr : Neighbor} (bare : nbr.bare = (net.neighbor n).bare) :
    Alike net (net.setNbr n nbr) where
  nbrs := rfl
  bare m := by
    by_cases eq : m = n
    · rw [eq]
      simpa [Net.setNbr] using bare
    · simp [Net.setNbr,Function.update_of_ne eq]

theorem foldl {α : Type} {f : Net → α → Net} (step : ∀ net a, Alike net (f net a))
    (items : List α) (net : Net) : Alike net (items.foldl f net) := by
  induction items generalizing net with
  | nil => exact refl net
  | cons a items ih => exact (step net a).trans (ih (f net a))

theorem foldl_fst {α β : Type} {f : Net × β → α → Net × β}
    (step : ∀ acc a, Alike acc.1 (f acc a).1) (items : List α) (acc : Net × β) :
    Alike acc.1 (items.foldl f acc).1 := by
  induction items generalizing acc with
  | nil => exact refl acc.1
  | cons a items ih => exact (step acc a).trans (ih (f acc a))

variable {core : Core} {inbr : Option Nat} {n r : Nat}

theorem lsRequestDelete : Alike net (lsRequestDelete core net n r) := setNbr rfl

theorem checkNbrLoading : Alike net (checkNbrLoading net n) := by
  simp only [Ospf.checkNbrLoading]
  split
  · split
    · exact emit
    split
    · exact emit
    · exact refl net
  · exact refl net

theorem lsRetransmitReplace {old : Option Nat} :
    Alike net (lsRetransmitReplace core net n old) := by
  cases old with
  | none => exact refl net
  | some old =>
    apply count.trans
    exact setNbr rfl

theorem lsRetransmitAdd : Alike net (lsRetransmitAdd core net n r) := by
  simp only [Ospf.lsRetransmitAdd]
  split
  · apply (lsRetransmitReplace.trans count).trans
    exact setNbr rfl
  · exact refl net

theorem lsRetransmitDelete : Alike net (lsRetransmitDelete core net n r) := by
  simp only [Ospf.lsRetransmitDelete]
  split
  · apply count.trans
    exact setNbr rfl
  · exact refl net

theorem lsRetransmitDeleteNbrIf {oi : Nat} : Alike net (lsRetransmitDeleteNbrIf core r net oi) := by
  simp only [Ospf.lsRetransmitDeleteNbrIf]
  split
  · apply foldl
    intro net n
    simp only [lsRetransmitDeleteNbr]
    split
    · exact refl net
    split
    · exact lsRetransmitDelete
    · exact refl net
  · exact refl net

theorem lsRetransmitDeleteNbrArea {area : Nat} :
    Alike net (lsRetransmitDeleteNbrArea core r net area) :=
  foldl (fun _ _ => lsRetransmitDeleteNbrIf) _ net

theorem lsRetransmitDeleteNbrAs : Alike net (lsRetransmitDeleteNbrAs core r net) :=
  foldl (fun _ _ => lsRetransmitDeleteNbrIf) _ net

theorem examineRequest : Alike net (examineRequest core r net n).1 := by
  simp only [Ospf.examineRequest]
  split
  · split
    · exact refl net
    split
    · exact refl net
    · exact lsRequestDelete.trans checkNbrLoading
  · exact refl net

theorem floodToNeighbor (acc : Net × Bool) : Alike acc.1 (floodToNeighbor core inbr r acc n).1 := by
  simp only [Ospf.floodToNeighbor]
  split
  · split
    · exact lsRetransmitAdd
    · exact refl acc.1
  split
  · exact examineRequest
  split
  · exact examineRequest
  split
  · exact examineRequest
  · exact examineRequest.trans lsRetransmitAdd

theorem sendUpdates {oi : Nat} : Alike net (sendUpdates core r net oi) := by
  simp only [Ospf.sendUpdates]
  split
  · exact foldl (fun _ _ => emit) _ net
  · exact emit

theorem floodThroughInterface {oi : Nat} :
    Alike net (floodThroughInterface core inbr r net oi).1 := by
  simp only [Ospf.floodThroughInterface]
  split
  · have hf := foldl_fst (fun acc n => @floodToNeighbor core inbr n r acc) (net.nbrs oi) (net,false)
    split
    · exact hf
    split
    · exact hf
    · exact hf.trans sendUpdates
  · exact refl net

theorem floodInterfaces {ifs : List Nat} : Alike net (floodInterfaces core inbr r ifs net).1 := by
  simp only [Ospf.floodInterfaces]
  apply @foldl_fst _ _ _ _ ifs (net,false)
  intro acc oi
  exact floodThroughInterface

theorem floodThrough : Alike net (floodThrough core inbr r net).1 := by
  simp only [Ospf.floodThrough]
  split
  · exact floodInterfaces
  split
  · exact floodInterfaces
  · exact refl net

theorem floodDelayedLsaAck : Alike net (floodDelayedLsaAck core r net n) := by
  simp only [Ospf.floodDelayedLsaAck]
  split
  · exact refl net
  · exact emit

end Net.Alike

end Frr.Ospf
