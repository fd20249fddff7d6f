import Frr.LsUpdateRuns
import Frr.MaxAge

/-! The neighbor state machine: table and actions, what a change of state sets off, and the coming
and going of neighbors. -/
namespace Frr.Ospf

open Function Lsa

section

inductive NsmAction where
  | packetReceived | start | twowayReceived | negotiationDone | exchangeDone | adjOk | killNbr
  deriving DecidableEq

/-- Function and next state; `dependUpon` leaves the state to the function. -/
def nsm : NsmState → NsmEvent → Option NsmAction × NsmState
  | .dependUpon, _ => (none,.dependUpon)
  | .deleted, _ => (none,.deleted)
  | _, .noEvent => (none,.dependUpon)
  | _, .killNbr => (some .killNbr,.deleted)
  | _, .inactivityTimer => (some .killNbr,.deleted)
  | _, .llDown => (some .killNbr,.deleted)
  | .down, .packetReceived => (some .packetReceived,.init)
  | .down, .start => (some .start,.attempt)
  | .down, _ => (none,.down)
  | .attempt, .packetReceived => (some .packetReceived,.init)
  | .attempt, _ => (none,.attempt)
  | .init, .packetReceived => (some .packetReceived,.init)
  | .init, .twoWayReceived => (some .twowayReceived,.dependUpon)
  | .init, _ => (none,.init)
  | .twoWay, .packetReceived => (some .packetReceived,.twoWay)
  | .twoWay, .adjOk => (some .adjOk,.dependUpon)
  | .twoWay, .oneWayReceived => (none,.init)
  | .twoWay, _ => (none,.twoWay)
  | .exStart, .packetReceived => (some .packetReceived,.exStart)
  | .exStart, .negotiationDone => (some .negotiationDone,.exchange)
  | .exStart, .adjOk => (some .adjOk,.dependUpon)
  | .exStart, .oneWayReceived => (none,.init)
  | .exStart, _ => (none,.exStart)
  | .exchange, .packetReceived => (some .packetReceived,.exchange)
  | .exchange, .exchangeDone => (some .exchangeDone,.dependUpon)
  | .loading, .packetReceived => (some .packetReceived,.loading)
  | .loading, .loadingDone => (none,.full)
  | .full, .packetReceived => (some .packetReceived,.full)
  | _, .badLsReq => (none,.exStart)
  | _, .seqNumberMismatch => (none,.exStart)
  | _, .adjOk => (some .adjOk,.dependUpon)
  | _, .oneWayReceived => (none,.init)
  | state, _ => (none,state)

end

section

variable (s : State) (n : Nat)

/-- `BDR(oi)`. -/
def bdr (oi : Nat) : UInt32 := (s.net.neighbor (s.core.interface oi).nbrSelf).bdRouter

def nsmShouldAdj : Bool :=
  let nbr := s.net.neighbor n
  let i := s.core.interface nbr.oi
  i.type = .pointToPoint ∨ i.type = .pointToMultipoint ∨ i.type = .virtualLink ∨
    i.address = dr s nbr.oi ∨ i.address = bdr s nbr.oi ∨
    nbr.address = dr s nbr.oi ∨ nbr.address = bdr s nbr.oi

def dbSummaryAdd (core : Core) (n : Nat) (net : Net) (r : Nat) : Net :=
  let lsa := core.lsas r
  let nbr := net.neighbor n
  if lsa.data.type = opaqueLinkLsa ∧ lsa.oi ≠ some nbr.oi then net
  else if lsa.localXlt then net
  else if lsa.isMaxAge core.now then lsRetransmitAdd core net n r
  else
    net.setNbr n
      {nbr with
        dbSum := nbr.dbSum.insert lsa.key r
        lsReq := nbr.lsReq
        lsReqLast := nbr.lsReqLast}

/-- The LSAs `nsm_negotiation_done` goes through. -/
def summaryLsas : List Nat :=
  let nbr := s.net.neighbor n
  let i := s.core.interface nbr.oi
  let external := i.type ≠ .virtualLink ∧ (s.core.area i.area).externalRouting = .default
  let ofArea := [routerLsa,networkLsa,summaryLsa,asbrSummaryLsa] ++
    (if nbr.options &&& optionO ≠ 0 then [opaqueLinkLsa,opaqueAreaLsa] else []) ++
    (if nbr.options &&& optionNp ≠ 0 then [asNssaLsa] else [])
  let ofAs := (if external then [asExternalLsa] else []) ++
    (if nbr.options &&& optionO ≠ 0 ∧ external then [opaqueAsLsa] else [])
  (ofArea.flatMap fun type => lsdbLoop s.core (.area i.area) type) ++
    ofAs.flatMap fun type => lsdbLoop s.core .as type

def nsmNegotiationDone : State :=
  ⟨s.core,(summaryLsas s n).foldl (dbSummaryAdd s.core n) s.net⟩

/-- Unless its timer runs, a Link State Request is sent, and the last LSA it asks for remembered. -/
def nsmExchangeDone (lsReqLast : Option Nat) : State × NsmState :=
  let nbr := s.net.neighbor n
  if nbr.lsReq.entries.isEmpty then (s,.full)
  else
    let net := s.net.setNbr n
      {nbr with dbSum := nbr.dbSum, lsReq := nbr.lsReq, lsReqLast := lsReqLast}
    (⟨s.core,net.emit (.lsReq n)⟩,.loading)

def nsmAdjOk : NsmState :=
  let state := (s.net.neighbor n).state
  if state = .twoWay ∧ nsmShouldAdj s n then .exStart
  else if .exStart ≤ state ∧ ¬ nsmShouldAdj s n then .twoWay
  else state

def nsmAct (lsReqLast : Option Nat) : NsmAction → State × NsmState
  | .packetReceived => (s,.dependUpon)
  | .start => (s,.dependUpon)
  | .twowayReceived => (s,if nsmShouldAdj s n then .exStart else .twoWay)
  | .negotiationDone => (nsmNegotiationDone s n,.dependUpon)
  | .exchangeDone => nsmExchangeDone s n lsReqLast
  | .adjOk => (s,nsmAdjOk s n)
  | .killNbr => (s,.dependUpon)

/-- The state that `ospf_nsm_event` arrives at. -/
def nsmNext (lsReqLast : Option Nat) (event : NsmEvent) : State × NsmState :=
  match nsm (s.net.neighbor n).state event with
  | (none,next) => (s,next)
  | (some action,next) =>
    let (s,returned) := nsmAct s n lsReqLast action
    (s,if next = .dependUpon then returned else next)

/-- As `nsm_clear_adj` and `ospf_nbr_free` do it. -/
def clearLists (core : Core) (n : Nat) (net : Net) : Net :=
  let net := net.setNbr n
    {net.neighbor n with
      dbSum := ∅
      lsReq := (net.neighbor n).lsReq
      lsReqLast := (net.neighbor n).lsReqLast}
  let net := if (net.neighbor n).lsReq.entries.isEmpty then net else lsRequestDeleteAll net n
  if (net.neighbor n).lsRxmt.entries.isEmpty then net else lsRetransmitClear core net n

def nsmClearAdj (core : Core) (n : Nat) (net : Net) : Net :=
  let net := clearLists core n net
  net.setNbr n
    {net.neighbor n with options := (net.neighbor n).options &&& ~~~ optionO}

end

section

def reconfigured (old config : Interface) : Interface :=
  {config with
    area := old.area
    type := old.type
    nbrSelf := old.nbrSelf
    fullNbrs := old.fullNbrs
    networkLsaSelf := config.networkLsaSelf.bind fun _ => old.networkLsaSelf}

/-- A procedure on objects that exist; it does not change the neighbors themselves. -/
def work (s : State) : Event → State
  | .neighbors _ => s
  | .interface oi config =>
    ⟨s.core.setInterface oi (reconfigured (s.core.interface oi) config),s.net⟩
  | .flush lsa => if lsa < s.core.next then lsaFlush s lsa else s
  | .refreshOpaque env lsa => if lsa < s.core.next then opaqueLsaRefresh env s lsa else s
  | event => step s event

def works (s : State) (events : List Event) : State := events.foldl work s

/-- On the way of a change of state: the DR election of a NeighborChange, the refreshes of external
LSAs, and the modules for opaque LSAs. -/
structure Hooks where
  env : Env
  lsReqLast : Option Nat
  election : List Event
  refresh : List Event
  opaqueChange : List Event

end

/-- The link state, the neighbors, the key of each in the table of its interface, the counters of
the areas, and the transit areas of virtual links. -/
structure Daemon extends State where
  live : List Nat
  nextNbr : Nat
  slot : Nat → UInt32
  fullNbrs : Nat → Nat
  fullVls : Nat → Nat
  vlArea : Nat → Option Nat

abbrev Daemon.put (d : Daemon) (s : State) : Daemon :=
  ⟨s,d.live,d.nextNbr,d.slot,d.fullNbrs,d.fullVls,d.vlArea⟩

section

variable (hooks : Hooks)

/-- An `uint32_t` is decremented. -/
def decrement (x : Nat) : Nat := if x = 0 then 2 ^ 32 - 1 else x - 1

def Daemon.vl (d : Daemon) (oi : Nat) : Option Nat :=
  if (d.core.interface oi).type = .virtualLink then d.vlArea oi else none

def countFull (d : Daemon) (oi : Nat) (up : Bool) : Daemon :=
  let i := d.core.interface oi
  let change := if up then (· + 1) else decrement
  {d with
    core := d.core.setInterface oi {i with fullNbrs := change i.fullNbrs}
    fullNbrs := update d.fullNbrs i.area (change (d.fullNbrs i.area))
    fullVls := (d.vl oi).elim d.fullVls fun a =>
      update d.fullVls a (if up then d.fullVls a + 1 else d.fullVls a - 1)}

def forgetNetworkLsa (s : State) (oi : Nat) : State :=
  ⟨s.core.setInterface oi {s.core.interface oi with networkLsaSelf := none},s.net⟩

def fullLsas (env : Env) (s : State) (oi : Nat) (vl : Option Nat) : State :=
  let s := routerLsaUpdateArea env s (s.core.interface oi).area
  let s := vl.elim s (routerLsaUpdateArea env s)
  let i := s.core.interface oi
  if i.state = .dr then
    match i.networkLsaSelf with
    | some r =>
      if i.fullNbrs = 0 then forgetNetworkLsa (lsaFlushArea s r i.area) oi
      else networkLsaUpdate env s oi
    | none => networkLsaUpdate env s oi
  else s

def neighborChange (s : State) (oi : Nat) (old state : NsmState) : Bool :=
  ((s.core.interface oi).state = .drOther ∨ (s.core.interface oi).state = .backup ∨
    (s.core.interface oi).state = .dr) ∧
  ((old < .twoWay ∧ .twoWay ≤ state) ∨ (.twoWay ≤ old ∧ state < .twoWay))

section

variable (d : Daemon)

/-- A neighbor gets to state Full or leaves it in `nsm_change_state`. -/
def fullChange (oi : Nat) (up : Bool) : Daemon :=
  let d := countFull d oi up
  let d := if up then d.put (works d.toState hooks.refresh) else d
  d.put (fullLsas hooks.env d.toState oi (d.vl oi))

def Daemon.setState (n : Nat) (state : NsmState) : Daemon :=
  d.put ⟨d.core,d.net.setNbr n {d.net.neighbor n with state := state}⟩

def Daemon.elect (oi : Nat) (old state : NsmState) : Daemon :=
  if neighborChange d.toState oi old state then d.put (works d.toState hooks.election) else d

def Daemon.crossFull (oi : Nat) (old state : NsmState) : Daemon :=
  if (old ≠ .full ∧ state = .full) ∨ (old = .full ∧ state ≠ .full) then
    fullChange hooks d oi (state = .full) else d

def Daemon.fallBack (n : Nat) (old state : NsmState) : Daemon :=
  if .exStart < old ∧ state ≤ .exStart then d.put ⟨d.core,nsmClearAdj d.core n d.net⟩ else d

/-- `nsm_change_state`. The Database Description exchange is left out. -/
def nsmChangeState (n : Nat) (state : NsmState) : Daemon :=
  let oi := (d.net.neighbor n).oi
  let old := (d.net.neighbor n).state
  let d := ((d.setState n state).elect hooks oi old state).crossFull hooks oi old state
  (d.put (works d.toState hooks.opaqueChange)).fallBack n old state

end

end

section

def nbrKey (s : State) (n : Nat) : UInt32 :=
  let nbr := s.net.neighbor n
  let type := (s.core.interface nbr.oi).type
  if type = .virtualLink ∨ type = .pointToPoint then nbr.routerId else nbr.address

def nbrOtherKey (s : State) (n : Nat) : UInt32 :=
  let nbr := s.net.neighbor n
  let type := (s.core.interface nbr.oi).type
  if type = .virtualLink ∨ type = .pointToPoint then nbr.address else nbr.routerId

variable (d : Daemon)

def Daemon.inSlot (oi : Nat) (key : UInt32) : Option Nat :=
  (d.net.nbrs oi).find? fun n => d.slot n = key

def Daemon.setNbrs (oi : Nat) (nbrs : List Nat) : Daemon :=
  d.put ⟨d.core,{d.net with nbrs := update d.net.nbrs oi nbrs}⟩

/-- `ospf_nbr_delete` clears the slot of the key, whatever is in it, and the other slot of the
neighbor itself. -/
def Daemon.unlist (n : Nat) : Daemon :=
  let oi := (d.net.neighbor n).oi
  match d.inSlot oi (nbrKey d.toState n) with
  | some m => d.setNbrs oi ((d.net.nbrs oi).erase m)
  | none =>
    if d.inSlot oi (nbrOtherKey d.toState n) = some n then
      d.setNbrs oi ((d.net.nbrs oi).erase n)
    else d

def Daemon.nbrFree (n : Nat) : Daemon :=
  {d with
    toState := ⟨d.core,clearLists d.core n d.net⟩
    live := d.live.erase n}

def Daemon.nbrDelete (n : Nat) : Daemon := (d.unlist n).nbrFree n

/-- `ospf_nbr_new`, for a neighbor that is known by an id and an address. -/
def nbrNew (oi : Nat) (routerId address : UInt32) : Neighbor :=
  { oi := oi, routerId := routerId, address := address, dRouter := 0, bdRouter := 0,
    options := 0, state := .down, dbSum := ∅, lsReq := ∅, lsReqLast := none, lsRxmt := ∅ }

def Daemon.enter (nbr : Neighbor) (key : UInt32) (listed : Bool) : Daemon :=
  let n := d.nextNbr
  let net := d.net.setNbr n nbr
  {d with
    toState := ⟨d.core,
      {net with
        nbrs := if listed then update net.nbrs nbr.oi (net.nbrs nbr.oi ++ [n])
          else net.nbrs}⟩
    live := n :: d.live
    nextNbr := n+1
    slot := update d.slot n key}

/-- `ospf_nbr_get`, for the sender of a Hello packet. -/
def Daemon.nbrGet (oi : Nat) (routerId src : UInt32) : Daemon :=
  let type := (d.core.interface oi).type
  let key := if type = .virtualLink ∨ type = .pointToPoint then routerId else src
  match d.inSlot oi key with
  | some n =>
    let nbr := d.net.neighbor n
    let address := if type = .nbma ∧ nbr.state = .attempt then src else nbr.address
    d.put ⟨d.core,d.net.setNbr n {nbr with routerId := routerId, address := address}⟩
  | none => d.enter (nbrNew oi routerId src) key true

def optionE : UInt8 := 0x02

/-- The pseudo neighbor that `ospf_nbr_add_self` makes. -/
def nbrSelfNew (core : Core) (oi : Nat) (routerId : UInt32) : Neighbor :=
  let i := core.interface oi
  {nbrNew oi routerId i.address with
    state := .twoWay
    options := match (core.area i.area).externalRouting with
      | .default => optionE
      | .stub => 0
      | .nssa => optionNp}

def Core.setSelf (core : Core) (oi n : Nat) : Core :=
  core.setInterface oi {core.interface oi with nbrSelf := n}

/-- `ospf_nbr_add_self`. A pseudo neighbor whose slot is taken is not entered. -/
def Daemon.nbrAddSelf (oi : Nat) (routerId : UInt32) : Daemon :=
  let i := d.core.interface oi
  let key := if i.type = .virtualLink ∨ i.type = .pointToPoint then routerId else i.address
  let e := d.enter (nbrSelfNew d.core oi routerId) key (d.inSlot oi key).isNone
  e.put ⟨e.core.setSelf oi d.nextNbr,e.net⟩

def Daemon.nbrSelfReset (oi : Nat) (routerId : UInt32) : Daemon :=
  (d.nbrDelete (d.core.interface oi).nbrSelf).nbrAddSelf oi routerId

def Daemon.isSelf (n : Nat) : Bool := (d.core.interface (d.net.neighbor n).oi).nbrSelf = n

/-- `ospf_nsm_event`. Events of a freed neighbor have been cancelled; the pseudo neighbor gets
PacketReceived only. A failed assertion ends the daemon: nothing happens. -/
def Daemon.nsmEvent (hooks : Hooks) (n : Nat) (event : NsmEvent) : Daemon :=
  if n ∉ d.live ∨ d.isSelf n ∧ event ≠ .packetReceived then d
  else
    let (s,next) := nsmNext d.toState n hooks.lsReqLast event
    if next = .dependUpon then d
    else
      let d := d.put s
      let d := if next ≠ (d.net.neighbor n).state then nsmChangeState hooks d n next else d
      if (d.net.neighbor n).state = .deleted then d.nbrDelete n else d

def Daemon.nbrNbmaAdd (hooks : Hooks) (oi : Nat) (address : UInt32) : Daemon :=
  let i := d.core.interface oi
  if i.type ≠ .nbma ∨ (d.net.neighbor i.nbrSelf).address = address then d
  else
    match d.inSlot oi address with
    | some _ => d
    | none =>
      let n := d.nextNbr
      (d.enter (nbrNew oi 0 address) address true).nsmEvent hooks n .start

end

section

/-- One turn of the loop in `ospf_ls_ack`. -/
def lsAckTurn (core : Core) (n : Nat) (net : Net) (header : Lsa) : Net :=
  if header.type < minLsa ∨ maxLsa ≤ header.type then net
  else
    match (net.neighbor n).lsRxmt.lookup header.key with
    | none => net
    | some lsr =>
      if Instance.moreRecent core.now (core.lsas lsr) (Instance.new core.now header) = 0 then
        lsRetransmitDelete core net n lsr
      else net

/-- `ospf_ls_ack` from a neighbor. -/
def lsAck (s : State) (n : Nat) (headers : List Lsa) : State :=
  let net := s.net.emit (.nsmEvent n .packetReceived)
  if (net.neighbor n).state < .exchange then ⟨s.core,net⟩
  else ⟨s.core,headers.foldl (lsAckTurn s.core n) net⟩

end

section

/-- Hello and Database Description packets change what is known of a neighbor, and its summary and
request lists. -/
inductive DaemonEvent where
  | work (event : Event)
  | nsm (hooks : Hooks) (n : Nat) (event : NsmEvent)
  | lsAck (n : Nat) (headers : List Lsa)
  | hello (oi : Nat) (routerId src : UInt32)
  | describe (n : Nat) (options : UInt8) (dRouter bdRouter : UInt32)
  | lists (n : Nat) (dbSum lsReq : Table) (lsReqLast : Option Nat)
  | nbma (hooks : Hooks) (oi : Nat) (address : UInt32)
  | selfReset (oi : Nat) (routerId : UInt32)
  | maxageWalker
  | maxageRemover (env : Env) (lsdb : Nat → Option Db) (visit : List Nat)

def Daemon.step (d : Daemon) : DaemonEvent → Daemon
  | .work event => d.put (Ospf.work d.toState event)
  | .nsm hooks n event => d.nsmEvent hooks n event
  | .lsAck n headers => d.put (Ospf.lsAck d.toState n headers)
  | .hello oi routerId src => if oi ∈ d.core.oiflist then d.nbrGet oi routerId src else d
  | .describe n options dRouter bdRouter =>
    d.put ⟨d.core,d.net.setNbr n
      {d.net.neighbor n with options := options, dRouter := dRouter, bdRouter := bdRouter}⟩
  | .lists n dbSum lsReq lsReqLast =>
    d.put ⟨d.core,d.net.setNbr n
      {d.net.neighbor n with dbSum := dbSum, lsReq := lsReq, lsReqLast := lsReqLast}⟩
  | .nbma hooks oi address => if oi ∈ d.core.oiflist then d.nbrNbmaAdd hooks oi address else d
  | .selfReset oi routerId => if oi ∈ d.core.oiflist then d.nbrSelfReset oi routerId else d
  | .maxageWalker => d.put ⟨lsaMaxageWalker d.core,d.net⟩
  | .maxageRemover env lsdb visit =>
    d.put (Ospf.maxageLsaRemover env lsdb visit d.toState)

end

end Frr.Ospf
