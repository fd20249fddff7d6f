import Frr.LsaInstall

/-! The LSAs the router originates and refreshes. A refreshed one takes the number after that of the
instance it comes from. -/
namespace Frr.Ospf

variable (env : Env)

def installFloodArea (s : State) (oi : Option Nat) (lsa : Instance) (area : Nat) : State :=
  let new := s.core.next
  let s := (lsaInstall env ⟨s.core.alloc lsa,s.net⟩ oi new).1
  {s with net := (floodThroughArea s.core none new area s.net).1}

def installFloodAs (s : State) (lsa : Instance) : State :=
  let new := s.core.next
  let s := (lsaInstall env ⟨s.core.alloc lsa,s.net⟩ none new).1
  {s with net := (floodThroughAs s.core none new s.net).1}

section

/-- `ospf_router_lsa_new`, with the number it gets in the end. -/
def routerLsaNew (core : Core) (area : Nat) (seqnum : UInt32) : Instance :=
  let key := ⟨Lsa.routerLsa,core.routerId,core.routerId⟩
  ownLsa core key seqnum (env.content core key) (some area)

def routerLsaOriginate (s : State) (area : Nat) : State :=
  if s.core.routerId = 0 then s
  else
    installFloodArea env s none (routerLsaNew env s.core area Lsa.initialSequenceNumber) area

def routerLsaRefresh (s : State) (r : Nat) : State :=
  let lsa := s.core.lsas r
  match lsa.area with
  | some area =>
    let net := lsRetransmitDeleteNbrArea s.core r s.net area
    installFloodArea env ⟨s.core,net⟩ none (routerLsaNew env s.core area (lsa.data.lsSeqnum+1))
      area
  | none => s

def routerLsaUpdateArea (s : State) (area : Nat) : State :=
  match (s.core.area area).routerLsaSelf with
  | some r => routerLsaRefresh env s r
  | none => routerLsaOriginate env s area

end

section

/-- `DR(oi)`. -/
def dr (s : State) (oi : Nat) : UInt32 := (s.net.neighbor (s.core.interface oi).nbrSelf).dRouter

/-- `ospf_network_lsa_new`, with the number it gets in the end and keeps. -/
def networkLsaNew (s : State) (oi : Nat) (seqnum : UInt32) : Option (State × Instance) :=
  let i := s.core.interface oi
  if i.fullNbrs = 0 then none
  else
    let key := ⟨Lsa.networkLsa,dr s oi,s.core.routerId⟩
    some (⟨s.core.setInterface oi {i with networkLsaSeqnum := some seqnum},s.net⟩,
      ownLsa s.core key seqnum (env.content s.core key) (some i.area))

def nextNetworkSeqnum (i : Interface) : UInt32 :=
  match i.networkLsaSeqnum with
  | some seqnum => seqnum+1
  | none => Lsa.initialSequenceNumber

def ifLookupByLocalAddr (core : Core) (address : UInt32) : Option Nat :=
  core.oiflist.find? fun oi =>
    (core.interface oi).type ≠ .virtualLink ∧ (core.interface oi).address = address

def networkLsaRefresh (s : State) (r : Nat) : State :=
  let lsa := s.core.lsas r
  match ifLookupByLocalAddr s.core lsa.data.id, lsa.area with
  | some oi, some area =>
    let s := {s with net := lsRetransmitDeleteNbrArea s.core r s.net area}
    match networkLsaNew env s oi (lsa.data.lsSeqnum+1) with
    | some (s,new) => installFloodArea env s (some oi) new area
    | none => s
  | _, _ => s

def networkLsaUpdate (s : State) (oi : Nat) : State :=
  let i := s.core.interface oi
  match i.networkLsaSelf with
  | some r => networkLsaRefresh env s r
  | none =>
    match networkLsaNew env s oi (nextNetworkSeqnum i) with
    | some (s,new) => installFloodArea env s (some oi) new i.area
    | none => s

end

section

def nssaLsaFlush (s : State) (address : UInt32) : State :=
  s.core.areas.foldl
    (fun s a =>
      if (s.core.area a).externalRouting = .nssa then
        match s.core.lookup (.area a) ⟨Lsa.asNssaLsa,address,s.core.routerId⟩ with
        | none => s
        | some r =>
          let s := {s with net := lsRetransmitDeleteNbrArea s.core r s.net a}
          if (s.core.lsas r).isMaxAge s.core.now then s else lsaFlushArea s r a
      else s)
    s

/-- `ospf_external_lsa_flush` for a prefix given by an address and a mask. -/
def externalLsaFlush (s : State) (address mask : UInt32) : State :=
  match externalInfoFindLsa s.core address mask with
  | none => s
  | some r =>
    let lsa := s.core.lsas r
    let s := if lsa.self ∧ ¬ lsa.localXlt then nssaLsaFlush s address else s
    let s := {s with net := lsRetransmitDeleteNbrAs s.core r s.net}
    if (s.core.lsas r).isMaxAge s.core.now then s else lsaFlushAs s r

def getNssaIp (core : Core) (area : Nat) : UInt32 :=
  let nssa := core.oiflist.filter fun oi => (core.interface oi).operative ∧
    (core.area (core.interface oi).area).externalRouting = .nssa
  match nssa.find? fun oi => (core.interface oi).area = area with
  | some oi => (core.interface oi).address
  | none =>
    ((nssa.map fun oi => (core.interface oi).address).find? (· ≠ 0)).getD 0

/-- The copy `ospf_install_flood_nssa` makes for an area, unless a forwarding address is missing. -/
def nssaCopy (core : Core) (lsa : Instance) (area : Nat) : Option Instance :=
  let copy : Instance :=
    {lsa with area := some area, data := {lsa.data with type := Lsa.asNssaLsa}}
  if core.abr then some copy
  else
    let address := if lsa.data.word 2 = 0 then getNssaIp core area else lsa.data.word 2
    if address = 0 then none
    else
      some {copy with
        data := {copy.data with
          options := copy.data.options ||| optionNp
          body := copy.data.body.set 2 address}}

/-- `ospf_install_flood_nssa`: it ends at the first area it finds no address for. -/
def installFloodNssa (lsa : Instance) : List Nat → State → State
  | [], s => s
  | a :: areas, s =>
    if (s.core.area a).externalRouting = .nssa then
      match nssaCopy s.core lsa a with
      | none => s
      | some copy => installFloodNssa lsa areas (installFloodAs env s copy)
    else installFloodNssa lsa areas s

/-- `ospf_external_lsa_refresh` when it is forced. -/
def externalLsaRefresh (s : State) (r : Nat) : State :=
  let lsa := (s.core.lsas r).data
  if env.redistributeCheck lsa.key (lsa.word 0) then
    let key := ⟨Lsa.asExternalLsa,lsa.id,s.core.routerId⟩
    let net := lsRetransmitDeleteNbrAs s.core r s.net
    let new := s.core.next
    let s := installFloodAs env ⟨s.core,net⟩
      (ownLsa s.core key (lsa.lsSeqnum+1) (env.content s.core key) none)
    installFloodNssa env (s.core.lsas new) s.core.areas s
  else externalLsaFlush s lsa.id (lsa.word 0)

end

def opaqueLsaRefresh (s : State) (r : Nat) : State :=
  let lsa := s.core.lsas r
  match env.opaqueRefresher lsa.key with
  | .flush => lsaFlush s r
  | .nothing => s
  | .originate key area content =>
    let new := s.core.next
    let own := ownLsa s.core key (lsa.data.lsSeqnum+1) content area
    match lsaInstall env ⟨s.core.alloc own,s.net⟩ none new with
    | (s,none) => s
    | (s,some _) => {s with net := (floodThrough s.core none new s.net).1}

def opaqueLsaRefreshSchedule (core : Core) (r : Nat) (net : Net) : Net :=
  match env.opaqueInfo (core.lsas r).key with
  | none => net
  | some own =>
    let lsa := core.lsas own
    let net := if lsa.data.type = Lsa.opaqueAsLsa then lsRetransmitDeleteNbrAs core own net
      else
        match lsa.area with
        | some area => lsRetransmitDeleteNbrArea core own net area
        | none => net
    net.emit (.opaqueRefresh own)

end Frr.Ospf
