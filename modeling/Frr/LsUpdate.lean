import Frr.LsaOriginate

/-! The reception of Link State Updates: `ospf_ls_upd`, `ospf_flood` with no plugin injected, and
what follows when an own LSA comes back. -/
namespace Frr.Ospf

open Lsa

variable (env : Env)

section

def ownInterface (core : Core) (id : UInt32) : Option Nat :=
  core.oiflist.find? fun oi => (core.interface oi).address = id

def isDrOf (s : State) (oi area : Nat) : Bool :=
  let i := s.core.interface oi
  i.area = area ∧ i.type = .broadcast ∧ i.address = dr s oi

def setSeqnum (core : Core) (r : Nat) (seqnum : UInt32) : Core :=
  let lsa := core.lsas r
  core.setLsa r {lsa with data := {lsa.data with lsSeqnum := seqnum}}

def catchUp (s : State) (own : Option Nat) (r : Nat) : State :=
  match own with
  | some o => ⟨setSeqnum s.core o (s.core.lsas r).data.lsSeqnum,s.net⟩
  | none => s

/-- No LSA that was received is marked as a local translation. -/
def processSelfOriginatedLsa (s : State) (r area : Nat) : State :=
  let lsa := s.core.lsas r
  let type := lsa.data.type
  if type = routerLsa then
    routerLsaUpdateArea env (catchUp s (s.core.area area).routerLsaSelf r) area
  else if type = networkLsa ∨ type = opaqueLinkLsa then
    match ownInterface s.core lsa.data.id with
    | none => s
    | some oi =>
      if ¬ isDrOf s oi area then {s with net := s.net.emit (.flushArea area r)}
      else if type = opaqueLinkLsa then opaqueLsaRefresh env s r
      else networkLsaUpdate env (catchUp s (s.core.interface oi).networkLsaSelf r) oi
  else if type = summaryLsa ∨ type = asbrSummaryLsa then
    {s with net := s.net.emit .abrTask}
  else if type = asExternalLsa ∨ type = asNssaLsa then
    if env.externalInfoCheck lsa.key (lsa.data.word 0) then externalLsaRefresh env s r
    else lsaFlushAs s r
  else if type = opaqueAreaLsa ∨ type = opaqueAsLsa then opaqueLsaRefresh env s r
  else s

end

section

/-- The database instance was installed less than MinLSArrival ago, unless it is the router's own
initial one. -/
def arrivedRecently (core : Core) (current : Nat) : Bool :=
  let lsa := core.lsas current
  ¬ (lsa.self ∧ lsa.data.lsAge = 0 ∧ lsa.data.lsSeqnum = initialSequenceNumber) ∧
    core.now - lsa.tvRecv < core.minLsArrival*1000

def sweepCurrent (core : Core) (net : Net) (n : Nat) (current : Option Nat) : Net :=
  match current with
  | none => net
  | some c =>
    let type := (core.lsas c).data.type
    if type = asExternalLsa ∨ type = opaqueAsLsa then lsRetransmitDeleteNbrAs core c net
    else lsRetransmitDeleteNbrArea core c net (core.interface (net.neighbor n).oi).area

def markReceived (core : Core) (r : Nat) : Core :=
  selfCheck (core.setLsa r {core.lsas r with received := true}) r

/-- `ospf_flood` of a received object. -/
def flood (s : State) (n : Nat) (current : Option Nat) (r : Nat) : State :=
  if current.any fun c => arrivedRecently s.core c then s
  else
    let oi := (s.net.neighbor n).oi
    let (net,ack) := floodThrough s.core (some n) r s.net
    let net := sweepCurrent s.core net n current
    match lsaInstall env ⟨markReceived s.core r,net⟩ (some oi) r with
    | (s,none) => s
    | (s,some new) =>
      let s := if ack then {s with net := floodDelayedLsaAck s.core new s.net n} else s
      if lsaIsSelfOriginated s.core (s.core.lsas new) then
        processSelfOriginatedLsa env s new (s.core.interface oi).area
      else s

end

section

section

variable (s : State) (n : Nat) (lsa : Lsa)

/-- What `ospf_ls_upd_list_lsa` lets pass. -/
def acceptable : Bool :=
  let nbr := s.net.neighbor n
  lsa.checksumValid ∧ minLsa ≤ lsa.type ∧ lsa.type < maxLsa ∧
    if nbr.options &&& optionO ≠ 0 then
      lsa.type ≠ opaqueAsLsa ∨
        (s.core.area (s.core.interface nbr.oi).area).externalRouting = .default
    else ¬ isOpaque lsa.type

/-- The object `ospf_ls_upd_list_lsa` creates for an LSA in a packet. -/
def receivedLsa : Instance :=
  let oi := (s.net.neighbor n).oi
  {Instance.new s.core.now
      {lsa with lsAge := if maxAge < lsa.lsAge.toNat then UInt16.ofNat maxAge
          else lsa.lsAge} with
    area := if lsa.type = asExternalLsa ∨ lsa.type = opaqueAsLsa then none
      else some (s.core.interface oi).area
    oi := if lsa.type = opaqueLinkLsa then some oi else none}

/-- Step (3): LSAs without a place in the area, and router-LSAs whose id is not that of their
router. -/
def misplaced : Bool :=
  let routing := (s.core.area (s.core.interface (s.net.neighbor n).oi).area).externalRouting
  (lsa.type = asExternalLsa ∧ routing ≠ .default) ∨
    (lsa.type = asNssaLsa ∧ routing ≠ .nssa) ∨
    (lsa.type = routerLsa ∧ lsa.id ≠ lsa.advRouter)

end

/-- The database `ospf_lsa_lookup` looks in. -/
def lookupDb (type : UInt8) (area : Nat) : Db :=
  if type = asExternalLsa ∨ type = opaqueAsLsa then .as else .area area

def lsaLookupByHeader (core : Core) (area : Nat) (lsa : Lsa) : Option Nat :=
  core.lookup (lookupDb lsa.type area) lsa.key

section

variable (s : State)

/-- `ospf_check_nbr_status`: no neighbor is in state Exchange or Loading. -/
def checkNbrStatus : Bool :=
  s.core.oiflist.all fun oi => (s.core.interface oi).enabled → (s.net.nbrs oi).all fun n =>
    (s.net.neighbor n).state ≠ .exchange ∧ (s.net.neighbor n).state ≠ .loading

/-- A network-LSA of another router for an address the router has a network-LSA for: its area. -/
def foreignNetwork (core : Core) (lsa : Lsa) : Option Nat :=
  if lsa.type = networkLsa ∧ lsa.advRouter ≠ core.routerId then
    (ownInterface core lsa.id).bind fun oi =>
      (core.interface oi).networkLsaSelf.map fun _ => (core.interface oi).area
  else none

def opaqueSelfOriginatedLsaReceived (n r : Nat) : State :=
  let lsa := s.core.lsas r
  let core := s.core.setLsa r
    {lsa with self := true, data := {lsa.data with lsAge := UInt16.ofNat maxAge}}
  ⟨core,
    if lsa.data.type = opaqueAsLsa then (floodThroughAs core none r s.net).1
    else
      (floodThroughArea core none r (core.interface (s.net.neighbor n).oi).area s.net).1⟩

/-- The end of the loop in `ospf_ls_upd`, for an LSA not more recent than the database copy; the
flag ends the packet. -/
def notMoreRecent (n current r : Nat) (ret : Int) : State × Bool :=
  let nbr := s.net.neighbor n
  if (lsRequestLookup s.core s.net n r).isSome then
    (⟨s.core,s.net.emit (.nsmEvent n .badLsReq)⟩,true)
  else if ret = 0 then
    match lsRetransmitLookup s.core s.net n r with
    | some lsr =>
      let net := lsRetransmitDelete s.core s.net n lsr
      (⟨s.core,if (s.core.interface nbr.oi).state = .backup ∧ nbr.isDr then
        net.emit (.delayedAck nbr.oi r) else net⟩,false)
    | none => (⟨s.core,s.net.emit (.lsAck n r)⟩,false)
  else
    let lsa := s.core.lsas current
    if lsa.isMaxAge s.core.now ∧ lsa.data.lsSeqnum = maxSequenceNumber then (s,false)
    else if s.core.minLsArrival * 1000 ≤ s.core.now-lsa.tvOrig then
      (⟨s.core,s.net.emit (.lsUpd n current)⟩,false)
    else (s,false)

/-- Steps (5) and (6) of the loop in `ospf_ls_upd`. -/
def compareWithCopy (n : Nat) (current : Option Nat) (r : Nat) : State × Bool :=
  let lsa := s.core.lsas r
  match current with
  | none => (flood env s n none r,false)
  | some c =>
    let ret := Instance.moreRecent s.core.now (s.core.lsas c) lsa
    if ret < 0 then
      if lsa.data.lsSeqnum = maxSequenceNumber ∧ ¬ lsa.isMaxAge s.core.now then (s,false)
      else (flood env s n current r,false)
    else notMoreRecent s n c r ret

/-- One turn of the loop in `ospf_ls_upd`, for an object that was just created. -/
def lsUpdTurn (n r : Nat) : State × Bool :=
  let lsa := s.core.lsas r
  let area := (s.core.interface (s.net.neighbor n).oi).area
  let current := lsaLookupByHeader s.core area lsa.data
  let maxAge := lsa.isMaxAge s.core.now
  let ack := s.net.emit (.lsAck n r)
  if misplaced s n lsa.data then (s,false)
  else if maxAge ∧ current = none ∧ checkNbrStatus s then (⟨s.core,ack⟩,false)
  else if isOpaque lsa.data.type ∧ lsa.data.advRouter = s.core.routerId ∧ maxAge then
    (⟨s.core,match current with
      | some c =>
        if (s.core.lsas c).isMaxAge s.core.now then ack
        else opaqueLsaRefreshSchedule env s.core c ack
      | none => ack⟩,false)
  else if isOpaque lsa.data.type ∧ lsa.data.advRouter = s.core.routerId ∧ current = none then
    let s := opaqueSelfOriginatedLsaReceived s n r
    (⟨s.core,s.net.emit (.lsAck n r)⟩,false)
  else
    match foreignNetwork s.core lsa.data with
    | some area => (lsaFlushArea s r area,false)
    | none => compareWithCopy env s n current r

def lsUpdLsa (n : Nat) (lsa : Lsa) : State × Bool :=
  lsUpdTurn env ⟨s.core.alloc (receivedLsa s n lsa),s.net⟩ n s.core.next

end

/-- The loop in `ospf_ls_upd`. -/
def lsUpdLoop (n : Nat) : List Lsa → State → State
  | [], s => s
  | lsa :: rest, s =>
    match lsUpdLsa env s n lsa with
    | (s,true) => s
    | (s,false) => lsUpdLoop n rest s

/-- `ospf_ls_upd` from a neighbor. -/
def lsUpd (s : State) (n : Nat) (packet : List Lsa) : State :=
  let s := {s with net := s.net.emit (.nsmEvent n .packetReceived)}
  if (s.net.neighbor n).state < .exchange then s
  else lsUpdLoop env n (packet.filter fun lsa => acceptable s n lsa) s

end

end Frr.Ospf
