import Frr.Nsm

/-! The Database Description exchange of two routers. The channel keeps every packet and hands out
any of them at any time, or never: packets are lost, duplicated and delayed. -/
namespace Frr.DbDesc

open Function
open Ospf (NsmState NsmEvent ExternalRouting optionO optionNp)

/-- The bits of `dd->flags`. -/
structure Flags where
  ms : Bool
  m : Bool
  i : Bool
  deriving DecidableEq

def Flags.all : Flags := ⟨true,true,true⟩

structure Content where
  flags : Flags
  seqnum : UInt32
  headers : List Lsa
  deriving DecidableEq

structure Packet extends Content where
  mtu : Nat
  options : UInt8
  deriving DecidableEq

structure Config where
  routerId : UInt32
  mtu : Nat
  mtuIgnore : Bool
  packetMax : Nat
  virtualLink : Bool
  options : UInt8
  opaqueCapable : Bool
  externalRouting : ExternalRouting

/-- The LSAs of a router, named by numbers that are not used again, and those its databases
hold now. -/
structure Database where
  now : Nat
  lsas : Nat → Instance
  held : List Nat
  discarded : Nat → Bool

def Database.lookup (db : Database) (key : LsaKey) : Option Nat :=
  db.held.find? fun r => (db.lsas r).key = key

inductive Change where
  | clock (now : Nat)
  | hold (held : List Nat)
  | age (lsa : Nat) (age : UInt16)
  | discard (lsa : Nat)

def Database.change (db : Database) : Change → Database
  | .clock now => {db with now := now}
  | .hold held => {db with held := held}
  | .age r age =>
    let lsa := db.lsas r
    {db with
      lsas := update db.lsas r {lsa with data := {lsa.data with lsAge := age}}}
  | .discard r => {db with discarded := update db.discarded r true}

inductive Scheduled where
  | packetReceived
  | seqNumberMismatch
  | exchangeDone
  deriving DecidableEq

def Scheduled.event : Scheduled → NsmEvent
  | .packetReceived => .packetReceived
  | .seqNumberMismatch => .seqNumberMismatch
  | .exchangeDone => .exchangeDone

/-- A neighbor in the exchange. `scheduled` are the events still to be dispatched. The last four
fields are not the daemon's: summary list and sequence number at NegotiationDone, the rounds since,
each with the master's packet and the slave's, and all headers received. -/
structure Peer where
  state : NsmState
  seqnum : UInt32
  flags : Flags
  options : UInt8
  lastRecv : UInt8 × Flags × UInt32
  lastSend : Option Packet
  dbSum : List Nat
  db : Database
  scheduled : List Scheduled
  summary : List Nat
  start : UInt32
  rounds : List (Content × Content)
  received : List Lsa

/-- What decides about an event besides the neighbor: whether to form an adjacency, whether the
request list is empty, whether the last packet is within the dead interval, a random number, and the
LSAs `ospf_db_summary_add` takes, in order. -/
structure Env where
  adjacent : Bool
  requestsEmpty : Bool
  recent : Bool
  random : UInt32
  summary : List Nat

section

variable (c : Config)

def sentOptions : UInt8 := if c.opaqueCapable then c.options ||| optionO else c.options

def header (db : Database) (r : Nat) : Lsa :=
  {(db.lsas r).data with lsAge := UInt16.ofNat ((db.lsas r).lsAge db.now), body := []}

/-- The walk over the summary list in `ospf_make_db_desc`, with the length so far and the table left
because the packet is full: headers, and LSAs that stay. -/
def describe (db : Database) : Nat → Option UInt8 → List Nat → List Lsa × List Nat
  | _, _, [] => ([],[])
  | length, full, r :: rest =>
    let type := (db.lsas r).data.type
    if full = some type then
      let (headers,kept) := describe db length full rest
      (headers,r :: kept)
    else if Lsa.isOpaque type ∧ sentOptions c &&& optionO = 0 then describe db length full rest
    else if db.discarded r then describe db length full rest
    else if c.packetMax < length+20 then
      let (headers,kept) := describe db length (some type) rest
      (headers,r :: kept)
    else
      let (headers,kept) := describe db (length+20) full rest
      (header db r :: headers,kept)

/-- The flags after `ospf_make_db_desc`: the More bit goes with the last LSA. -/
def moreBit (p : Peer) (kept : List Nat) : Flags :=
  if kept = [] ∧ .exchange ≤ p.state then {p.flags with m := false} else p.flags

def makeDbDesc (p : Peer) : Packet :=
  let (headers,kept) := describe c p.db 8 none p.dbSum
  { mtu := if c.virtualLink then 0 else c.mtu
    options := sentOptions c
    flags := moreBit p kept
    seqnum := p.seqnum
    headers := headers }

/-- `ospf_db_desc_send`, for the neighbor. -/
def dbDescSend (p : Peer) : Peer :=
  let kept := (describe c p.db 8 none p.dbSum).2
  {p with flags := moreBit p kept, dbSum := kept, lastSend := some (makeDbDesc c p)}

def dbDescResend (p : Peer) : List Packet := p.lastSend.toList

end

section

variable (c : Config) (env : Env)

section

variable (p : Peer)

/-- `nsm_negotiation_done`. Opaque LSAs are only described to a neighbor that takes them. -/
def nsmNegotiationDone : Peer :=
  let summary := env.summary.filter fun r =>
    ¬ Lsa.isOpaque (p.db.lsas r).data.type ∨ p.options &&& optionO ≠ 0
  {p with
    dbSum := p.dbSum ++ summary
    summary := p.dbSum ++ summary
    start := p.seqnum
    rounds := []}

def nsmAct : Ospf.NsmAction → Peer × NsmState
  | .twowayReceived => (p,if env.adjacent then .exStart else .twoWay)
  | .negotiationDone => (nsmNegotiationDone env p,.dependUpon)
  | .exchangeDone => (p,if env.requestsEmpty then .full else .loading)
  | .adjOk => (p,
    if p.state = .twoWay ∧ env.adjacent then .exStart
    else if .exStart ≤ p.state ∧ ¬ env.adjacent then .twoWay
    else p.state)
  | .packetReceived => (p,.dependUpon)
  | .start => (p,.dependUpon)
  | .killNbr => (p,.dependUpon)

/-- The state that `ospf_nsm_event` arrives at. -/
def nsmNext (event : NsmEvent) : Peer × NsmState :=
  match Ospf.nsm p.state event with
  | (none,next) => (p,next)
  | (some action,next) =>
    let (p,returned) := nsmAct env p action
    (p,if next = .dependUpon then returned else next)

def nsmClearAdj : Peer :=
  {p with dbSum := [], options := p.options &&& ~~~ optionO}

def startExchange : Peer :=
  dbDescSend c {p with
    seqnum := if p.seqnum = 0 then env.random else p.seqnum + 1
    flags := .all}

/-- `nsm_change_state`, with what it sends. -/
def nsmChangeState (state : NsmState) : Peer × List Packet :=
  let q := {p with state := state}
  let q := if .exStart < p.state ∧ state ≤ .exStart then nsmClearAdj q else q
  if state = .exStart then
    let q := startExchange c env q
    (q,q.lastSend.toList)
  else (q,[])

/-- `ospf_nsm_event`. The events of a neighbor that is deleted are cancelled. -/
def nsmEvent (event : NsmEvent) : Peer × List Packet :=
  let (q,next) := nsmNext env p event
  if next = .dependUpon then (p,[])
  else if next = p.state then (q,[])
  else
    let (q,sent) := nsmChangeState c env q next
    if next = .deleted then ({q with scheduled := []},sent) else (q,sent)

end

end

section

variable (c : Config) (neighbor : UInt32) (env : Env)

def schedule (p : Peer) (event : Scheduled) : Peer :=
  {p with scheduled := p.scheduled ++ [event]}

/-- The headers on which `ospf_db_desc_proc` gives up. -/
def refused (p : Peer) (h : Lsa) : Bool :=
  h.type < Lsa.minLsa ∨ Lsa.maxLsa ≤ h.type ∨
    (Lsa.isOpaque h.type ∧ p.options &&& optionO = 0) ∨
    ((h.type = Lsa.asExternalLsa ∨ h.type = Lsa.opaqueAsLsa) ∧ c.externalRouting = .stub)

/-- How the copy in the database compares with a header: `ospf_lsa_more_recent`. -/
def compare (p : Peer) (h : Lsa) : Int :=
  Instance.moreRecentThan p.db.now ((p.db.lookup h.key).map p.db.lsas) (Instance.new p.db.now h)

/-- What the neighbor knows as well or better is not described to it any more. The request list is
left out. -/
def takeHeader (p : Peer) (h : Lsa) : Peer :=
  let p := {p with received := p.received ++ [h]}
  if compare p h = -1 ∨ compare p h = 0 then
    {p with dbSum := p.dbSum.filter fun r => p.db.lookup h.key ≠ some r}
  else p

/-- The loop of `ospf_db_desc_proc`, and whether it came to its end. -/
def takeHeaders (p : Peer) : List Lsa → Peer × Bool
  | [] => (p,true)
  | h :: rest =>
    if refused c p h then (schedule p .seqNumberMismatch,false)
    else takeHeaders (takeHeader p h) rest

section

variable (p : Peer) (dd : Packet)

def saveCurrent : Peer :=
  {p with lastRecv := (dd.options,dd.flags,dd.seqnum)}

/-- The master's part at the end of `ospf_db_desc_proc`. -/
def masterTurn : Peer × List Packet :=
  let p : Peer := {p with
    seqnum := p.seqnum+1
    rounds := p.rounds ++ p.lastSend.toList.map fun last => (last.toContent,dd.toContent)}
  if ¬ dd.flags.m ∧ ¬ p.flags.m then (schedule p .exchangeDone,[])
  else (dbDescSend c p,[makeDbDesc c p])

def slaveTurn : Peer × List Packet :=
  let p : Peer := {p with seqnum := dd.seqnum}
  let reply := makeDbDesc c p
  let p : Peer := {dbDescSend c p with rounds := p.rounds ++ [(dd.toContent,reply.toContent)]}
  if ¬ dd.flags.m ∧ ¬ p.flags.m then (schedule p .exchangeDone,[reply]) else (p,[reply])

def dbDescProc : Peer × List Packet :=
  let (p,finished) := takeHeaders c p dd.headers
  if finished then
    let (p,sent) := if p.flags.ms then masterTurn c p dd else slaveTurn c p dd
    (saveCurrent p dd,sent)
  else (p,[])

def dbDescIsDup : Bool := p.lastRecv = (dd.options,dd.flags,dd.seqnum)

/-- The options of a received packet as `ospf_db_desc` corrects them. -/
def correctOptions : Packet :=
  let options := if c.externalRouting = .nssa ∧ p.options &&& optionNp ≠ 0 then
    dd.options ||| optionNp else dd.options
  {dd with options := if c.opaqueCapable then options else options &&& ~~~ optionO}

def negotiated : Peer × List Packet :=
  let (p,sent) := nsmEvent c env {p with options := dd.options} .negotiationDone
  let (p,more) := dbDescProc c p dd
  (p,sent ++ more)

/-- `ospf_db_desc` in state ExStart. -/
def dbDescExStart : Peer × List Packet :=
  if dd.flags = .all ∧ dd.headers = [] then
    if c.routerId < neighbor then
      negotiated c env
        {p with seqnum := dd.seqnum, flags := {p.flags with ms := false, i := false}} dd
    else (p,[])
  else if ¬ dd.flags.ms ∧ ¬ dd.flags.i ∧ dd.seqnum = p.seqnum ∧ neighbor < c.routerId then
    negotiated c env {p with flags := {p.flags with i := false}} dd
  else (p,[])

/-- `ospf_db_desc` in Init: TwoWayReceived, then the packet if that leads to ExStart. -/
def dbDescInit : Peer × List Packet :=
  let (p,sent) := nsmEvent c env p .twoWayReceived
  if p.state = .exStart then
    let (p,more) := dbDescExStart c neighbor env p dd
    (p,sent ++ more)
  else (p,sent)

end

/-- The sequence number the next packet must have: the master's own, or the one after the
slave's. -/
def expectedSeqnum (p : Peer) : UInt32 := if p.flags.ms then p.seqnum else p.seqnum + 1

/-- `ospf_db_desc` in state Exchange. -/
def dbDescExchange (p : Peer) (dd : Packet) : Peer × List Packet :=
  if dbDescIsDup p dd then (p,if p.flags.ms then [] else dbDescResend p)
  else if dd.flags.ms ≠ p.lastRecv.2.1.ms ∨ dd.flags.i ∨ dd.options ≠ p.options ∨
      dd.seqnum ≠ expectedSeqnum p then
    (schedule p .seqNumberMismatch,[])
  else dbDescProc c p dd

/-- `ospf_db_desc` in the states Loading and Full. -/
def dbDescLater (p : Peer) (dd : Packet) : Peer × List Packet :=
  if dbDescIsDup p dd ∧ p.flags.ms then (p,[])
  else if dbDescIsDup p dd ∧ env.recent then (p,dbDescResend p)
  else (schedule p .seqNumberMismatch,[])

def dbDesc (p : Peer) (received : Packet) : Peer × List Packet :=
  if ¬ c.mtuIgnore ∧ c.mtu < received.mtu then (p,[])
  else
    let dd := correctOptions c p received
    let p := schedule p .packetReceived
    match p.state with
    | .init => dbDescInit c neighbor env p dd
    | .exStart => dbDescExStart c neighbor env p dd
    | .exchange => dbDescExchange c p dd
    | .loading => dbDescLater env p dd
    | .full => dbDescLater env p dd
    | .dependUpon => (p,[])
    | .deleted => (p,[])
    | .down => (p,[])
    | .attempt => (p,[])
    | .twoWay => (p,[])

end

inductive Side where
  | one
  | two
  deriving DecidableEq

def Side.other : Side → Side
  | .one => .two
  | .two => .one

structure System where
  peer : Side → Peer
  sent : Side → List Packet

/-- Events are dispatched before the next packet is read; those by which the exchange moves the
neighbor come from it only. -/
inductive Action where
  | deliver (side : Side) (env : Env) (dd : Packet)
  | dispatch (side : Side) (env : Env)
  | event (side : Side) (env : Env) (event : NsmEvent)
  | timer (side : Side)
  | hello (side : Side) (options : UInt8)
  | database (side : Side) (change : Change)
  | create (side : Side)

/-- `ospf_nbr_new`, with the LSAs the router has. -/
def nbrNew (db : Database) (received : List Lsa) : Peer :=
  { state := .down, seqnum := 0, flags := .all, options := 0, lastRecv := (0,⟨false,false,false⟩,0),
    lastSend := none, dbSum := [], db := db, scheduled := [], summary := [], start := 0,
    rounds := [], received := received }

def dbDescTimer (p : Peer) : List Packet :=
  if p.state = .exStart ∨ p.state = .exchange ∧ p.flags.ms then dbDescResend p else []

def act (config : Side → Config) (s : System) : Action → Side × Peer × List Packet
  | .deliver side env dd =>
    let p := s.peer side
    if dd ∈ s.sent side.other ∧ p.scheduled = [] then
      (side,dbDesc (config side) (config side.other).routerId env p dd)
    else (side,p,[])
  | .dispatch side env =>
    let p := s.peer side
    match p.scheduled with
    | [] => (side,p,[])
    | event :: rest => (side,nsmEvent (config side) env {p with scheduled := rest} event.event)
  | .event side env event =>
    let p := s.peer side
    if event = .negotiationDone ∨ event = .exchangeDone then (side,p,[])
    else (side,nsmEvent (config side) env p event)
  | .timer side => (side,s.peer side,dbDescTimer (s.peer side))
  | .hello side options =>
    (side,{s.peer side with options := (s.peer side).options ||| options},[])
  | .database side change =>
    (side,{s.peer side with db := (s.peer side).db.change change},[])
  | .create side =>
    let p := s.peer side
    (side,if p.state = .deleted then nbrNew p.db p.received else p,[])

def step (config : Side → Config) (s : System) (action : Action) : System :=
  let (side,p,sent) := act config s action
  { peer := update s.peer side p
    sent := update s.sent side (s.sent side ++ sent) }

def initial (db : Side → Database) : System where
  peer := fun side => nbrNew (db side) []
  sent := fun _ => []

end Frr.DbDesc
