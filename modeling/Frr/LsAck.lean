import Frr.Ospf
import Frr.Packet
import Frr.Trace

/-! Link State Acknowledgments: direct ones, for which the neighbors of an interface share a list
and a destination, and delayed ones. Link State Updates: the room for an LSA. -/
namespace Frr.LsAck

open Ospf List Trace

/-- IPv4 asks for an MTU of 68, and a datagram has at most 65535 bytes, so no length here leaves its
16 bits. -/
structure Link where
  type : IfType
  state : IsmState
  mtu : Nat
  cryptographic : Bool
  peerAddr : UInt32
  least : 68 ≤ mtu
  most : mtu ≤ 65535

def Link.authspace (oi : Link) : Nat := if oi.cryptographic then 16 else 0

def Link.packetMax (oi : Link) : Nat := oi.mtu-oi.authspace - (24+20)

inductive Destination where
  | allSpfRouters | allDRouters | host (address : UInt32)
  deriving DecidableEq

structure Packet where
  dst : Destination
  headers : List Nat
  deriving DecidableEq

/-- A designated router and its backup listen to `OSPF_ALLDROUTERS`. -/
def Destination.reaches (nbr : Neighbor) : Destination → Bool
  | .allSpfRouters => true
  | .allDRouters => nbr.isDr || nbr.isBdr
  | .host address => nbr.address = address

section

/-- The loop of `ospf_make_ls_ack`. The space left free is that of two headers. -/
def makeLsAck (max : Nat) : Nat → List Nat → List Nat × List Nat
  | _, [] => ([],[])
  | length, lsa :: ack =>
    if max < length + (24+24) then ([],lsa :: ack)
    else
      let (put,left) := makeLsAck max (length+20) ack
      (lsa :: put,left)

def lsAckSendList (oi : Link) (ack : List Nat) (dst : Destination) : Packet × List Nat :=
  let (put,left) := makeLsAck oi.packetMax 0 ack
  (⟨if oi.type = .pointToPoint then .allSpfRouters else dst,put⟩,left)

/-- The loop around `ospf_ls_ack_send_list`. With more turns than LSAs it sends empty packets for
ever. -/
def drain (oi : Link) (dst : Destination) : Nat → List Nat → Option (List Packet)
  | _, [] => some []
  | 0, _ :: _ => none
  | turns + 1, lsa :: ack =>
    let (packet,left) := lsAckSendList oi (lsa :: ack) dst
    (drain oi dst turns left).map (packet :: ·)

variable {oi : Link} {dst : Destination}

theorem makeLsAck_append (max length : Nat) (ack : List Nat) :
    (makeLsAck max length ack).1 ++ (makeLsAck max length ack).2 = ack := by
  induction ack generalizing length with
  | nil => rfl
  | cons lsa ack ih =>
    unfold makeLsAck
    split
    · rfl
    · exact congrArg (lsa :: ·) (ih _)

/-- A packet has room for a header. -/
def Link.Roomy (oi : Link) : Prop := 92+oi.authspace ≤ oi.mtu

theorem Link.roomy_iff : oi.Roomy ↔ ¬ oi.packetMax < 0 + (24+24) := by
  unfold Roomy packetMax
  omega

theorem drain_some (roomy : oi.Roomy) {turns : Nat} {ack : List Nat} (he : ack.length ≤ turns) :
    ∃ sent, drain oi dst turns ack = some sent ∧ sent.flatMap Packet.headers = ack ∧
      ∀ p ∈ sent, p.dst = if oi.type = .pointToPoint then .allSpfRouters else dst := by
  induction turns generalizing ack with
  | zero =>
    obtain rfl := length_eq_zero_iff.mp (Nat.le_zero.mp he)
    exact ⟨[],rfl,rfl,nofun⟩
  | succ turns ih =>
    cases ack with
    | nil => exact ⟨[],rfl,rfl,nofun⟩
    | cons lsa ack =>
      have all := makeLsAck_append oi.packetMax 20 ack
      have hs : (makeLsAck oi.packetMax 20 ack).2.length ≤ turns := by
        have := congrArg length all
        simp only [length_append,length_cons] at this he
        omega
      obtain ⟨sent,rest,hdrs,dsts⟩ := ih hs
      simp only [drain,lsAckSendList,makeLsAck,if_neg (Link.roomy_iff.mp roomy),zero_add,rest]
      refine ⟨_,rfl,?_,?_⟩
      · simp [flatMap_cons,hdrs,cons_append,all]
      rintro p (_ | ⟨_,mem⟩)
      · rfl
      · exact dsts p mem

theorem drain_none (tight : ¬ oi.Roomy) (turns lsa : Nat) (ack : List Nat) :
    drain oi dst turns (lsa :: ack) = none := by
  rw [Link.roomy_iff,not_not] at tight
  induction turns with
  | zero => rfl
  | succ turns ih => simp [drain,lsAckSendList,makeLsAck,if_pos tight,ih,Option.map_none]

end

section

/-- `received` is a ghost: which neighbor sent what. -/
structure Direct where
  lsAck : List Nat
  dst : UInt32
  sent : List Packet
  received : List (Nat × Nat)

/-- Direct acknowledgments for this interface or another, and the deferred event. -/
inductive Event where
  | output (out : Output)
  | fire

variable (neighbor : Nat → Neighbor) (oi : Nat) (link : Link)

section

variable (s : Direct)

def lsAckSend (n lsa : Nat) : Direct :=
  {s with
    dst := if s.lsAck = [] then (neighbor n).address else s.dst
    lsAck := s.lsAck ++ [lsa]
    received := s.received ++ [(n,lsa)]}

/-- A loop that does not end leaves everything as it is. -/
def lsAckSendEvent : Direct :=
  match drain link (.host s.dst) s.lsAck.length s.lsAck with
  | none => s
  | some sent => {s with lsAck := [], sent := s.sent ++ sent}

def step : Event → Direct
  | .output (.lsAck n lsa) => if (neighbor n).oi = oi then lsAckSend neighbor s n lsa else s
  | .output _ => s
  | .fire => lsAckSendEvent link s

def Direct.Acknowledged (n lsa : Nat) : Prop :=
  ∃ p ∈ s.sent, lsa ∈ p.headers ∧ p.dst.reaches (neighbor n) = true

/-- The deferred event acknowledges everything to the neighbor it came from. -/
def Answered (event : Event) : Prop :=
  event = .fire → ∀ n lsa, (n,lsa) ∈ s.received →
    (step neighbor oi link s event).Acknowledged neighbor n lsa

/-- Those that wait are for the same neighbor, and the MTU leaves room for one. -/
def Proper : Event → Prop
  | .output (.lsAck n _) => (neighbor n).oi = oi →
      link.type = .pointToPoint ∨ s.lsAck = [] ∨ s.dst = (neighbor n).address
  | .output _ => True
  | .fire => link.Roomy

/-- What was received is acknowledged, or waits with the right destination. -/
def Direct.Sound : Prop :=
  ∀ n lsa, (n,lsa) ∈ s.received → s.Acknowledged neighbor n lsa ∨
    lsa ∈ s.lsAck ∧ (link.type = .pointToPoint ∨ s.dst = (neighbor n).address)

end

variable {neighbor oi link} {s : Direct}

theorem Direct.Sound.lsAckSend (hs : s.Sound neighbor link) {n lsa : Nat}
    (hp : link.type = .pointToPoint ∨ s.lsAck = [] ∨ s.dst = (neighbor n).address) :
    (lsAckSend neighbor s n lsa).Sound neighbor link := by
  intro m r mem
  rcases mem_append.mp mem with mem | mem
  · refine (hs m r mem).imp_right fun ⟨hw,dst⟩ => ⟨mem_append_left _ hw,?_⟩
    exact dst.imp_right fun dst => (if_neg (ne_nil_of_mem hw)).trans dst
  obtain ⟨rfl,rfl⟩ := Prod.mk.inj (mem_singleton.mp mem)
  refine .inr ⟨mem_append_right _ (mem_singleton_self _),hp.imp_right fun fst => ?_⟩
  by_cases none : s.lsAck = []
  · exact if_pos none
  · exact (if_neg none).trans (fst.resolve_left none)

theorem Direct.Sound.fire (hs : s.Sound neighbor link) (roomy : link.Roomy) (n lsa : Nat)
    (mem : (n,lsa) ∈ s.received) : (lsAckSendEvent link s).Acknowledged neighbor n lsa := by
  obtain ⟨hse,drained,hdrs,dsts⟩ := @drain_some link (.host s.dst) roomy _ s.lsAck le_rfl
  simp only [lsAckSendEvent,drained]
  rcases hs n lsa mem with ⟨p,old,hh⟩ | ⟨hw,dst⟩
  · exact ⟨p,mem_append_left _ old,hh⟩
  rw [← hdrs] at hw
  obtain ⟨p,new,hi⟩ := mem_flatMap.mp hw
  refine ⟨p,mem_append_right _ new,hi,?_⟩
  rw [dsts p new]
  split
  · rfl
  · next other => exact decide_eq_true (dst.resolve_left other).symm

theorem answered_of_proper (neighbor : Nat → Neighbor) (oi : Nat) (link : Link) (events : List Event)
    (proper : Throughout (step neighbor oi link) (Proper neighbor oi link) events
      ⟨[],0,[],[]⟩) :
    Throughout (step neighbor oi link) (Answered neighbor oi link) events ⟨[],0,[],[]⟩ := by
  refine Throughout.guarantee (I := Direct.Sound neighbor link) (fun s ev hs proper => ?_)
    nofun proper
  cases ev with
  | fire =>
    have all := hs.fire proper
    refine ⟨fun _ => all,fun n lsa mem => .inl (all n lsa ?_)⟩
    revert mem
    simp only [step,lsAckSendEvent]
    split <;> exact id
  | output out =>
    refine ⟨nofun,?_⟩
    cases out with
    | lsAck n lsa =>
      simp only [step]
      split
      · next here => exact hs.lsAckSend (proper here)
      · exact hs
    | _ => exact hs

/-- Neighbors with the addresses 1, 2 and so on. -/
def numbered (n : Nat) : Neighbor :=
  ⟨0,0,UInt32.ofNat n,0,0,0,.full,∅,∅,none,∅⟩

def ethernet (type : IfType) : Link := ⟨type,.drOther,1500,true,0,by decide,by decide⟩

theorem answered_in_turn :
    Throughout (step numbered 0 (ethernet .broadcast)) (Answered numbered 0 (ethernet .broadcast))
      [.output (.lsAck 1 7),.fire,.output (.lsAck 2 8),.fire] ⟨[],0,[],[]⟩ :=
  have roomy : (ethernet .broadcast).Roomy := by
    unfold Link.Roomy
    decide
  answered_of_proper _ _ _ _ ⟨fun _ => .inr (.inl rfl),roomy,fun _ => .inr (.inl rfl),roomy,trivial⟩

/-- What the second neighbor sent is acknowledged to the first. -/
theorem acknowledged_to_another : (run (step numbered 0 (ethernet .broadcast))
      [.output (.lsAck 1 7),.output (.lsAck 2 8),.fire] ⟨[],0,[],[]⟩).sent = [⟨.host 1,[7,8]⟩] ∧
    ¬ Throughout (step numbered 0 (ethernet .broadcast)) (Answered numbered 0 (ethernet .broadcast))
      [.output (.lsAck 1 7),.output (.lsAck 2 8),.fire] ⟨[],0,[],[]⟩ := by
  refine ⟨by decide +kernel,fun ⟨_,_,answered,_⟩ => ?_⟩
  obtain ⟨p,mem,-,hr⟩ := answered rfl 2 8 (by simp [step,lsAckSend,numbered])
  revert p
  decide +kernel

end

section

variable (neighbor : Nat → Neighbor) (nbrSelf : Nat) (link : Link)

def eligible (n : Nat) : Bool := n ≠ nbrSelf ∧ .exchange ≤ (neighbor n).state

/-- The neighbors of a network without broadcast: the first eligible one takes the whole list. -/
def sendSeparately : List Nat → List Nat → Option (List Packet × List Nat)
  | [], ack => some ([],ack)
  | n :: nbrs, ack =>
    if eligible neighbor nbrSelf n then do
      let sent ← drain link (.host (neighbor n).address) ack.length ack
      let (more,left) ← sendSeparately nbrs []
      some (sent ++ more,left)
    else sendSeparately nbrs ack

def delayedDst : Destination :=
  if link.type = .virtualLink then .host link.peerAddr
  else if link.state = .dr ∨ link.state = .backup then .allSpfRouters
  else if link.type = .pointToPoint then .allSpfRouters
  else if link.type = .pointToMultipoint then .allSpfRouters
  else .allDRouters

/-- `ospf_ls_ack_send_delayed`: what is sent, and what remains in the list. -/
def lsAckSendDelayed (nbrs ack : List Nat) : Option (List Packet × List Nat) :=
  if link.type = .nbma then sendSeparately neighbor nbrSelf link nbrs ack
  else (drain link (delayedDst link) ack.length ack).map (·,[])

/-- Everything is acknowledged to every neighbor, and nothing remains. -/
def Delivers (nbrs ack : List Nat) : Prop :=
  ∃ sent, lsAckSendDelayed neighbor nbrSelf link nbrs ack = some (sent,[]) ∧
    ∀ n ∈ nbrs, eligible neighbor nbrSelf n = true → ∀ lsa ∈ ack,
      ∃ p ∈ sent, lsa ∈ p.headers ∧ p.dst.reaches (neighbor n) = true

/-- The eligible neighbors are one, without broadcast; elsewhere they all listen. -/
def Served (nbrs : List Nat) : Prop :=
  if link.type = .nbma then
    ∃ n ∈ nbrs, eligible neighbor nbrSelf n = true ∧
      ∀ m ∈ nbrs, eligible neighbor nbrSelf m = true → (neighbor m).address = (neighbor n).address
  else ∀ m ∈ nbrs, eligible neighbor nbrSelf m = true →
    (delayedDst link).reaches (neighbor m) = true

variable {neighbor nbrSelf link} {nbrs ack : List Nat}

theorem sendSeparately_nil : sendSeparately neighbor nbrSelf link nbrs [] = some ([],[]) := by
  induction nbrs with
  | nil => rfl
  | cons n nbrs ih =>
    unfold sendSeparately
    split
    · simp [drain,ih]
    · exact ih

theorem sendSeparately_eq : sendSeparately neighbor nbrSelf link nbrs ack =
    match nbrs.find? (eligible neighbor nbrSelf) with
    | none => some ([],ack)
    | some n => (drain link (.host (neighbor n).address) ack.length ack).map (·,[]) := by
  induction nbrs with
  | nil => rfl
  | cons n nbrs ih =>
    unfold sendSeparately
    by_cases fst : eligible neighbor nbrSelf n
    · rw [if_pos fst,find?_cons_of_pos fst]
      cases hf : drain link (.host (neighbor n).address) ack.length ack <;>
        simp [hf,sendSeparately_nil]
    rw [if_neg fst,find?_cons_of_neg fst]
    exact ih

theorem point_to_point_dst (ty : link.type = .pointToPoint) : delayedDst link = .allSpfRouters := by
  simp [delayedDst,ty]

theorem drained_iff {dst : Destination} (eq : link.type = .pointToPoint → dst = .allSpfRouters)
    (some : ack ≠ []) :
    (∃ sent, (drain link dst ack.length ack).map (·,([] : List Nat)) = Option.some (sent,[]) ∧
      ∀ n ∈ nbrs, eligible neighbor nbrSelf n → ∀ lsa ∈ ack,
        ∃ p ∈ sent, lsa ∈ p.headers ∧ p.dst.reaches (neighbor n)) ↔
    link.Roomy ∧ ∀ n ∈ nbrs, eligible neighbor nbrSelf n → dst.reaches (neighbor n) := by
  obtain ⟨lsa,ack,rfl⟩ := List.exists_cons_of_ne_nil some
  by_cases roomy : link.Roomy
  · obtain ⟨sent,drained,hdrs,dsts⟩ := @drain_some link dst roomy _ (lsa :: ack) le_rfl
    have dst' (p : Packet) (mem : p ∈ sent) : p.dst = dst := by
      rw [dsts p mem]
      split
      · next type => exact (eq type).symm
      · rfl
    rw [drained,and_iff_right roomy]
    constructor
    · rintro ⟨_,⟨⟩,all⟩ n mem hr
      obtain ⟨p,hi,-,hre⟩ := all n mem hr lsa (.head _)
      rwa [dst' p hi] at hre
    intro all
    refine ⟨sent,rfl,fun n mem hr r hw => ?_⟩
    rw [← hdrs] at hw
    obtain ⟨p,hi,hh⟩ := List.mem_flatMap.mp hw
    exact ⟨p,hi,hh,by rw [dst' p hi]; exact all n mem hr⟩
  · simp [drain_none roomy,roomy]

/-- Exactly when there are none, or the MTU leaves room for one and one destination serves the
neighbors. -/
theorem delivers_iff (neighbor : Nat → Neighbor) (nbrSelf : Nat) (link : Link) (nbrs ack : List Nat) :
    Delivers neighbor nbrSelf link nbrs ack ↔
      ack = [] ∨ link.Roomy ∧ Served neighbor nbrSelf link nbrs := by
  unfold Delivers lsAckSendDelayed Served
  by_cases none : ack = []
  · subst none
    simp [sendSeparately_nil,drain]
  rw [or_iff_right none]
  by_cases nbma : link.type = .nbma
  · simp only [if_pos nbma,sendSeparately_eq]
    cases hf : nbrs.find? (eligible neighbor nbrSelf) with
    | none =>
      have hn := List.find?_eq_none.mp hf
      refine iff_of_false ?_ ?_
      · rintro ⟨_,eq,-⟩
        exact none (congrArg Prod.snd (Option.some.inj eq))
      rintro ⟨-,n,mem,hr,-⟩
      exact hn n mem hr
    | some n =>
      have hr := List.find?_some hf
      have mem := List.mem_of_find?_eq_some hf
      rw [drained_iff (by simp [nbma]) none]
      refine and_congr_right fun _ => ⟨fun all => ⟨n,mem,hr,fun m hi also => ?_⟩,?_⟩
      · exact of_decide_eq_true (all m hi also)
      rintro ⟨k,-,-,all⟩ m hi also
      exact decide_eq_true ((all m hi also).trans (all n mem hr).symm)
  · simp only [if_neg nbma]
    exact drained_iff point_to_point_dst none

/-- The second neighbor of a network without broadcast gets nothing; with no neighbor the list
stays. -/
theorem second_neighbor_unserved :
    lsAckSendDelayed numbered 0 (ethernet .nbma) [1,2] [7] = some ([⟨.host 1,[7]⟩],[]) ∧
    ¬ Delivers numbered 0 (ethernet .nbma) [1,2] [7] ∧
    lsAckSendDelayed numbered 0 (ethernet .nbma) [] [7] = some ([],[7]) := by
  have hs : lsAckSendDelayed numbered 0 (ethernet .nbma) [1,2] [7] = some ([⟨.host 1,[7]⟩],[]) := by
    decide +kernel
  refine ⟨hs,fun ⟨_,eq,all⟩ => ?_,by decide +kernel⟩
  rw [hs] at eq
  obtain rfl := congrArg Prod.fst (Option.some.inj eq)
  have hr := all 2 (by decide) (by decide) 7 (by decide)
  revert hr
  decide +kernel

end

section

variable (oi : Link) (length : Nat → UInt16)

/-- `ospf_ls_upd_packet_new`: the size of the stream, if there is one, and the list. -/
def lsUpdPacketNew (lsa : Nat) (update : List Nat) : Option Nat × List Nat :=
  let size :=
    if oi.packetMax < 4 + (length lsa).toNat then
      (length lsa).toNat + (oi.mtu-oi.packetMax) + 4
    else oi.mtu
  if 65535 < size then (none,update) else (some (size-20),lsa :: update)

/-- The loop of `ospf_make_ls_upd`. -/
def makeLsUpd (sizeNoauth : Nat) : Nat → List Nat → List Nat × List Nat
  | _, [] => ([],[])
  | put, lsa :: update =>
    if sizeNoauth < put+24 + (length lsa).toNat then ([],lsa :: update)
    else
      let (more,left) := makeLsUpd sizeNoauth (put + (length lsa).toNat) update
      (lsa :: more,left)

inductive Sending where
  | idle
  | queued (put left : List Nat)
  | nullDereference
  deriving DecidableEq

/-- `ospf_ls_upd_queue_send` takes `op->s` without a look at `op`. -/
def lsUpdQueueSend : List Nat → Sending
  | [] => .idle
  | lsa :: update =>
    match lsUpdPacketNew oi length lsa update with
    | (none,_) => .nullDereference
    | (some size,update) =>
      let (put,left) := makeLsUpd length (size-oi.authspace) 4 update
      .queued put left

/-- The LSA was put in a packet, or it was dropped and the sender goes on. -/
def Sending.Handles (lsa : Nat) : Sending → Prop
  | .idle => False
  | .queued put left => lsa ∈ put ∨ lsa ∉ left
  | .nullDereference => False

variable {oi length}

theorem Link.mtu_sub_packetMax : oi.mtu - oi.packetMax = oi.authspace+44 := by
  have hl := oi.least
  unfold packetMax authspace
  split <;> omega

/-- Exactly when it fits an IP datagram along with the headers and the digest. -/
theorem handles_iff (oi : Link) (length : Nat → UInt16) (lsa : Nat) (update : List Nat) :
    (lsUpdQueueSend oi length (lsa :: update)).Handles lsa ↔
      (length lsa).toNat + 48 + oi.authspace ≤ 65535 := by
  have rest := @Link.mtu_sub_packetMax oi
  have most := oi.most
  unfold lsUpdQueueSend lsUpdPacketNew
  rw [rest]
  by_cases large : oi.packetMax < 4 + (length lsa).toNat
  · simp only [if_pos large]
    by_cases ha : 65535 < (length lsa).toNat + (oi.authspace+44) + 4
    · simp only [if_pos ha,Sending.Handles,false_iff]
      omega
    simp only [if_neg ha]
    refine iff_of_true (.inl ?_) (by omega)
    rw [makeLsUpd,if_neg (by omega)]
    exact mem_cons_self
  · simp only [if_neg large,if_neg (not_lt.mpr most)]
    refine iff_of_true (.inl ?_) (by omega)
    rw [makeLsUpd,if_neg (by omega)]
    exact mem_cons_self

/-- An update of one opaque LSA of 65484 bytes, without authentication. -/
def largeUpdate : Packet.Wire := fun i =>
  ([2,4,255,232] ++ replicate 20 (0 : UInt8) ++ [0,0,0,1] ++ [0,0,2,10] ++ replicate 14 0 ++
    [255,204]).getD i 0

/-- An LSA that is accepted on one interface stops the daemon when it goes out of another. -/
theorem large_lsa_unsent :
    Packet.packetExamin largeUpdate (fun _ => .ng) 65512 = .ok ∧
    Packet.lsaLength largeUpdate 28 = 65484 ∧
    lsUpdQueueSend (ethernet .broadcast) (fun _ => 65484) [7] = .nullDereference ∧
    ¬ (lsUpdQueueSend (ethernet .broadcast) (fun _ => 65484) [7]).Handles 7 := by
  have hs : lsUpdQueueSend (ethernet .broadcast) (fun _ => 65484) [7] = .nullDereference := by
    decide +kernel
  refine ⟨by decide +kernel,by decide +kernel,hs,?_⟩
  rw [hs]
  exact id

end

end Frr.LsAck
