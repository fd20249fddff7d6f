import Frr.DbDescRuns

/-! The lists of one neighbor, from its first Hello to Full. Packets, databases, flooded LSAs and
moments of timers are arbitrary. -/
namespace Frr.Adjacency

open List
open Ospf (NsmState NsmEvent optionO linkColourLsa)
open DbDesc (Peer Packet Config Env Change Scheduled Taken)

/-- A neighbor with its lists. `ahead` and `behind` count the LoadingDone events dispatched before
and after `scheduled`. -/
structure Nbr extends Peer where
  lsReq : List Instance
  lsRxmt : List Nat
  ahead : Nat
  behind : Nat

def nbrNew (db : DbDesc.Database) (received : List Lsa) : Nbr :=
  {toPeer := DbDesc.nbrNew db received, lsReq := [], lsRxmt := [], ahead := 0, behind := 0}

def lsRequestAdd (lsReq : List Instance) (lsa : Instance) : List Instance :=
  lsReq.filter (fun req => req.key ≠ lsa.key) ++ [lsa]

/-- The request list after `ospf_db_desc_proc`: it asks for the headers it takes that are more
recent than the database copy. -/
def lsRequests (p q : Peer) (lsReq : List Instance) : List Instance :=
  let taken := q.received.drop p.received.length
  (taken.filter fun h => DbDesc.compare p h = -1).foldl
    (fun lsReq h => lsRequestAdd lsReq (Instance.new p.db.now h)) lsReq

def lsRetransmitAdd (db : DbDesc.Database) (lsRxmt : List Nat) (r : Nat) : List Nat :=
  let old := lsRxmt.find? fun s => (db.lsas s).key = (db.lsas r).key
  if Instance.moreRecentThan db.now (old.map db.lsas) (db.lsas r) < 0 then
    lsRxmt.filter (fun s => (db.lsas s).key ≠ (db.lsas r).key) ++ [r]
  else lsRxmt

section

variable (c : Config) (env : Env)

/-- `ospf_nsm_event` with all lists: `nsm_clear_adj` empties them, and so does `ospf_nbr_free`. -/
def nsmEvent (a : Nbr) (event : NsmEvent) : Nbr :=
  let env := {env with requestsEmpty := a.lsReq.isEmpty}
  let q := (DbDesc.nsmEvent c env a.toPeer event).1
  let cleared : Bool := .exStart < a.state ∧ q.state ≤ .exStart ∨ q.state = .deleted
  { toPeer := q
    lsReq := if cleared then [] else a.lsReq
    lsRxmt := if cleared then [] else a.lsRxmt
    ahead := if q.state = .deleted then 0 else a.ahead
    behind := if q.state = .deleted then 0 else a.behind }

def dispatch (a : Nbr) : Nbr :=
  if 0 < a.ahead then nsmEvent c env {a with ahead := a.ahead - 1} .loadingDone
  else match a.scheduled with
    | event :: rest => nsmEvent c env {a with scheduled := rest} event.event
    | [] =>
      if 0 < a.behind then nsmEvent c env {a with behind := a.behind - 1} .loadingDone else a

/-- `ospf_db_desc` with all lists. NegotiationDone puts the LSAs of age MaxAge, `aged`, on the
retransmission list. What a packet schedules is dispatched before the next one is read, but for a
LoadingDone that a timer scheduled. -/
def dbDesc (neighbor : UInt32) (aged : List Nat) (a : Nbr) (dd : Packet) : Nbr :=
  if a.scheduled = [] then
    let q := (DbDesc.dbDesc c neighbor env a.toPeer dd).1
    { toPeer := q
      lsReq := lsRequests a.toPeer q a.lsReq
      lsRxmt := if a.state < .exchange ∧ q.state = .exchange then
        aged.foldl (lsRetransmitAdd q.db) a.lsRxmt else a.lsRxmt
      ahead := a.ahead+a.behind
      behind := 0 }
  else a

end

section

variable (r : Nat)

def checkNbrLoading (a : Nbr) : Nbr :=
  if a.state = .loading ∧ a.lsReq = [] then {a with behind := a.behind + 1} else a

def examineRequest (a : Nbr) : Nbr × Bool :=
  if a.state < .full then
    match a.lsReq.find? fun req => req.key = (a.db.lsas r).key with
    | none => (a,true)
    | some req =>
      let ret := Instance.moreRecent a.db.now req (a.db.lsas r)
      if 0 < ret then (a,false)
      else
        let kept := a.lsReq.filter fun other => other.key ≠ req.key
        (checkNbrLoading {a with lsReq := kept},ret ≠ 0)
  else (a,true)

/-- The neighbor in the loop of `ospf_flood_through_interface`. `comesFrom`: the LSA came from it or
originates there. -/
def flood (comesFrom : Bool) (a : Nbr) : Nbr :=
  let type := (a.db.lsas r).data.type
  if a.state < .exchange then
    if type = linkColourLsa then {a with lsRxmt := lsRetransmitAdd a.db a.lsRxmt r} else a
  else
    let (a,needed) := examineRequest r a
    if ¬ needed then a
    else if Lsa.isOpaque type ∧ a.options &&& optionO = 0 then a
    else if comesFrom then a
    else {a with lsRxmt := lsRetransmitAdd a.db a.lsRxmt r}

end

/-- NegotiationDone, ExchangeDone and LoadingDone come from the exchange and the request list only.
`acknowledge` stands for all that takes an LSA off the retransmission list. -/
inductive Action where
  | deliver (env : Env) (aged : List Nat) (dd : Packet)
  | dispatch (env : Env)
  | event (env : Env) (event : NsmEvent)
  | hello (options : UInt8)
  | database (change : Change)
  | flood (comesFrom : Bool) (r : Nat)
  | acknowledge (r : Nat)
  | create

section

variable (c : Config) (neighbor : UInt32)

def step (a : Nbr) : Action → Nbr
  | .deliver env aged dd => dbDesc c env neighbor aged a dd
  | .dispatch env => dispatch c env a
  | .event env event =>
    if event = .negotiationDone ∨ event = .exchangeDone ∨ event = .loadingDone then a
    else nsmEvent c env a event
  | .hello options => {a with options := a.options ||| options}
  | .database change => {a with db := a.db.change change}
  | .flood comesFrom r => if a.state = .deleted then a else flood r comesFrom a
  | .acknowledge r => {a with lsRxmt := a.lsRxmt.filter (· ≠ r)}
  | .create => if a.state = .deleted then nbrNew a.db a.received else a

end

/-! ### The last packet -/

/-- The last packet of a master has been answered: its sequence number went on. A slave waits for
none. -/
def Answered (p : Peer) : Prop :=
  p.flags.ms = true → ∀ last, p.lastSend = some last → last.seqnum ≠ p.seqnum

def Over (p : Peer) : Prop :=
  .exchange < p.state ∨ p.state = .exchange ∧ .exchangeDone ∈ p.scheduled

structure Ready (p : Peer) : Prop where
  state : p.state = .exchange
  quiet : .exchangeDone ∉ p.scheduled
  waits : p.flags.ms = true → ∀ last, p.lastSend = some last → last.seqnum = p.seqnum

theorem Ready.answered (h : Ready p) (dd : Packet)
    (hd : .exchangeDone ∈ (DbDesc.dbDescProc c p dd).1.scheduled) :
    Answered (DbDesc.dbDescProc c p dd).1 := by
  have ht := (DbDesc.takeHeaders_took c p dd.headers).1
  generalize hta : DbDesc.takeHeaders c p dd.headers = result at ht
  obtain ⟨q,hf⟩ := result
  change DbDesc.Took p q at ht
  have hq : .exchangeDone ∉ q.scheduled := fun mem => by
    rcases ht.mismatch _ mem with old | wrong
    · exact h.quiet old
    · contradiction
  have hw : q.flags.ms → ∀ last, q.lastSend = some last → last.seqnum = q.seqnum := by
    rw [ht.frame]
    exact h.waits
  simp only [DbDesc.dbDescProc,hta] at hd ⊢
  split at hd
  · next hf =>
    simp only [hf,reduceIte]
    cases ms : q.flags.ms with
    | true =>
      simp only [ms,reduceIte,DbDesc.masterTurn] at hd ⊢
      split at hd
      · next none =>
        rw [if_pos none]
        intro _ last hs eq
        have hu : q.seqnum = q.seqnum+1 := (hw ms last hs).symm.trans eq
        simp at hu
      · exact absurd hd hq
    | false =>
      simp only [Bool.false_eq_true,reduceIte,DbDesc.slaveTurn]
      split
      all_goals
        intro master
        simp [DbDesc.saveCurrent,DbDesc.schedule,ms] at master
  · exact absurd hd hq

theorem nsmEvent_received (c : Config) (env : Env) (p : Peer) (ev : NsmEvent)
    (ho : ev ≠ .negotiationDone) :
    (DbDesc.nsmEvent c env p ev).1.received = p.received := by
  have eq := (DbDesc.nsmNext_spec env p ev ho).1
  simp only [DbDesc.nsmEvent,eq,DbDesc.nsmChangeState]
  repeat' split
  all_goals rfl

theorem nsmChangeState_state (c : Config) (env : Env) (p : Peer) (state : NsmState) :
    (DbDesc.nsmChangeState c env p state).1.state = state := by
  simp only [DbDesc.nsmChangeState]
  split <;> split <;> rfl

/-- An event changes nothing, or takes the neighbor back to ExStart or before, or takes one at the
end of its exchange to Loading or Full. -/
theorem nsmEvent_cases (c : Config) (env : Env) (p : Peer) (ev : NsmEvent)
    (ho : ev ≠ .negotiationDone) :
    (DbDesc.nsmEvent c env p ev).1 = p ∨
    (DbDesc.nsmEvent c env p ev).1.state ≤ .exStart ∨
    (.exchange < (DbDesc.nsmNext env p ev).2 ∧
      (DbDesc.nsmEvent c env p ev).1 = {p with state := (DbDesc.nsmNext env p ev).2} ∧
      (.exchange < p.state ∨ p.state = .exchange ∧ ev = .exchangeDone)) := by
  obtain ⟨eq,next⟩ := DbDesc.nsmNext_spec env p ev ho
  generalize hr : (DbDesc.nsmNext env p ev).2 = s at next ⊢
  have res : DbDesc.nsmNext env p ev = (p,s) := Prod.ext eq hr
  simp only [DbDesc.nsmEvent,res]
  split
  · exact .inl rfl
  split
  · exact .inl rfl
  rcases next with hs | low | ⟨hb,hbe⟩
  · contradiction
  · right; left
    split <;> exact (nsmChangeState_state c env p s).trans_le low
  right; right
  have high : ¬ s ≤ .exStart := fun low => absurd (hb.trans_le low) (by decide)
  have hn : s ≠ .exStart := fun now => high now.le
  have hk : s ≠ .deleted := fun hg => absurd (hg ▸ hb) (by decide)
  refine ⟨hb,?_,hbe⟩
  simp [hk,DbDesc.nsmChangeState,high,and_false,hn,reduceIte]

theorem negotiated_ready (c : Config) (env : Env) (p : Peer) (dd : Packet)
    (state : p.state = .exStart) (hq : .exchangeDone ∉ p.scheduled)
    (hw : p.flags.ms → ∀ last, p.lastSend = some last → last.seqnum = p.seqnum) :
    ∃ q, Ready q ∧ (DbDesc.negotiated c env p dd).1 = (DbDesc.dbDescProc c q dd).1 := by
  refine ⟨{DbDesc.nsmNegotiationDone env {p with options := dd.options} with
    state := .exchange},⟨rfl,hq,hw⟩,?_⟩
  simp only [DbDesc.negotiated]
  rw [DbDesc.nsmEvent_negotiationDone c env {p with options := dd.options} state]

theorem dbDescExStart_cases (h : DbDesc.Sound c n p out inc) (state : p.state = .exStart)
    (hq : .exchangeDone ∉ p.scheduled) (env : Env) (dd : Packet) :
    (DbDesc.dbDescExStart c n env p dd).1 = p ∨
      ∃ q, Ready q ∧ (DbDesc.dbDescExStart c n env p dd).1 = (DbDesc.dbDescProc c q dd).1 := by
  obtain ⟨all,fst,hs,-,seqnum,-⟩ := h.claims state
  unfold DbDesc.dbDescExStart
  split
  · split
    · exact .inr (negotiated_ready c env _ dd state hq (absurd · Bool.false_ne_true))
    · exact .inl rfl
  split
  · refine .inr (negotiated_ready c env _ dd state hq fun _ last hf => ?_)
    have eq : last = fst := Option.some.inj (hf.symm.trans hs)
    rw [eq]
    exact seqnum
  · exact .inl rfl

/-- A packet schedules events other than ExchangeDone, or moves a neighbor before Exchange, or is
processed in Exchange. -/
theorem dbDesc_cases (h : DbDesc.Sound c n p out inc) (hq : p.scheduled = []) (env : Env)
    (received : Packet) :
    (∃ l, .exchangeDone ∉ l ∧
      (DbDesc.dbDesc c n env p received).1 = {p with scheduled := l}) ∨
    (p.state ≤ .exStart ∧ (DbDesc.dbDesc c n env p received).1.state ≤ .exStart ∧
      (DbDesc.dbDesc c n env p received).1.received = p.received) ∨
    ∃ q dd, Ready q ∧ (DbDesc.dbDesc c n env p received).1 = (DbDesc.dbDescProc c q dd).1 := by
  have hso : DbDesc.Sound c n (DbDesc.schedule p .packetReceived) out inc := h.schedule (by simp)
  have hs : .exchangeDone ∉ (DbDesc.schedule p .packetReceived).scheduled := by
    simp [DbDesc.schedule,hq]
  have ht : .exchangeDone ∉
      (DbDesc.schedule (DbDesc.schedule p .packetReceived) .seqNumberMismatch).scheduled := by
    simp [DbDesc.schedule,hq]
  unfold DbDesc.dbDesc
  split
  · exact .inl ⟨[],not_mem_nil,by rw [← hq]⟩
  extract_lets dd q
  have hl : ∃ l, .exchangeDone ∉ l ∧ (DbDesc.dbDescLater env q dd).1 = {p with scheduled := l} := by
    unfold DbDesc.dbDescLater
    split
    · exact ⟨_,hs,rfl⟩
    split
    · exact ⟨_,hs,rfl⟩
    · exact ⟨_,ht,rfl⟩
  split
  · next state =>
    right
    have low : p.state ≤ .exStart := le_of_eq_of_le state (by decide)
    have ha := DbDesc.outside_sound hso .twoWayReceived env (by simp) (by simp)
    have hst := DbDesc.nsmEvent_scheduled c env q .twoWayReceived (by simp)
    have eq := nsmEvent_received c env q .twoWayReceived (by simp)
    have hr : (DbDesc.nsmEvent c env q .twoWayReceived).1.state ≤ .exStart := by
      rcases nsmEvent_cases c env q .twoWayReceived (by simp) with eq | low | ⟨-,-,hb | ⟨-,no⟩⟩
      · rw [eq]
        exact low
      · exact low
      · exact absurd (hb.trans_le low) (by decide)
      · contradiction
    simp only [DbDesc.dbDescInit]
    split
    · next start =>
      rcases dbDescExStart_cases ha start (fun mem => hs (hst mem)) env dd with
        hi | ⟨r,hre,hp⟩
      · rw [hi]
        exact .inl ⟨low,hr,eq⟩
      · exact .inr ⟨r,dd,hre,hp⟩
    · exact .inl ⟨low,hr,eq⟩
  · next state =>
    rcases dbDescExStart_cases hso state hs env dd with hi | ⟨r,hre,hp⟩
    · exact .inl ⟨_,hs,hi⟩
    · exact .inr (.inr ⟨r,dd,hre,hp⟩)
  · next state =>
    unfold DbDesc.dbDescExchange
    split
    · exact .inl ⟨_,hs,rfl⟩
    split
    · exact .inl ⟨_,ht,rfl⟩
    refine .inr (.inr ⟨q,dd,⟨state,hs,fun ms last hse => ?_⟩,rfl⟩)
    have old := hso.exchanging (ge_of_eq state)
    have hg : q.finished = false := by
      cases hf : q.finished with
      | false => rfl
      | true => exact absurd ((old.ends state).mp hf) hs
    obtain ⟨ho,hpe⟩ := (old.master ms).2 hg
    have eq : last = ho := Option.some.inj (hse.symm.trans hpe.sent)
    rw [eq]
    exact hpe.seqnum
  · exact .inl hl
  · exact .inl hl
  all_goals exact .inl ⟨_,hs,rfl⟩

/-! ### The lists along a run -/

theorem nsmNext_loading (loading : (DbDesc.nsmNext env p event).2 = .loading) :
    p.state = .loading ∨ p.state = .exchange ∧ event = .exchangeDone := by
  generalize state : p.state = old
  revert loading
  cases old <;> cases event <;> simp only [DbDesc.nsmNext,state,Ospf.nsm,DbDesc.nsmAct] <;>
    cases env.adjacent <;> cases env.requestsEmpty <;> decide

theorem nsmNext_full (hf : (DbDesc.nsmNext env p event).2 = .full) :
    p.state = .full ∨ p.state = .loading ∧ event = .loadingDone ∨
      p.state = .exchange ∧ event = .exchangeDone ∧ env.requestsEmpty := by
  generalize state : p.state = old
  revert hf
  cases old <;> cases event <;> simp only [DbDesc.nsmNext,state,Ospf.nsm,DbDesc.nsmAct] <;>
    cases env.adjacent <;> cases env.requestsEmpty <;> decide

/-- A LoadingDone waiting in Loading finds the request list empty: an older one is dispatched before
ExchangeDone. -/
structure Kept (c : Config) (n : UInt32) (a : Nbr) : Prop where
  exchange : ∃ out inc, DbDesc.Sound c n a.toPeer out inc
  answered : Over a.toPeer → Answered a.toPeer
  low : a.state ≤ .exStart → a.lsReq = []
  fresh : a.state = .exchange → a.behind = 0
  loading : a.state = .loading → a.ahead+a.behind ≠ 0 → a.lsReq = []
  full : a.state = .full → a.lsReq = []

theorem nbrNew_kept (c : Config) (n : UInt32) (db : DbDesc.Database) (received : List Lsa) :
    Kept c n (nbrNew db received) where
  exchange := ⟨[],[],DbDesc.nbrNew_sound db received⟩
  answered := by rintro (hl | ⟨now,-⟩) <;> contradiction
  low := fun _ => rfl
  fresh := nofun
  loading := nofun
  full := nofun

theorem Kept.nsmEvent (h : Kept c n a) (ht : Taken a.toPeer event rest)
    (ho : event ≠ .negotiationDone) (env : Env) (x y : Nat)
    (hf : x + y ≤ a.ahead+a.behind) (hl : y ≤ a.behind)
    (hw : event = .loadingDone → a.ahead+a.behind ≠ 0)
    (fst : event = .exchangeDone → x = 0) :
    Kept c n (nsmEvent c env {a with scheduled := rest, ahead := x, behind := y} event) := by
  obtain ⟨out,inc,hso⟩ := h.exchange
  have exch := DbDesc.nsmEvent_sound hso ht ho {env with requestsEmpty := a.lsReq.isEmpty}
  have hd : event = .exchangeDone → .exchangeDone ∈ a.scheduled := fun hd => by
    rcases ht with ⟨head,pops,eq⟩ | ⟨-,no⟩
    · have isDone : head = .exchangeDone := by
        cases head <;> simp_all [Scheduled.event]
      rw [pops,isDone]
      exact .head _
    · contradiction
  have hk : .exchangeDone ∈ rest → .exchangeDone ∈ a.scheduled := fun mem => by
    rcases ht with ⟨head,pops,-⟩ | ⟨eq,-⟩
    · exact pops ▸ .tail _ mem
    · exact eq ▸ mem
  generalize res : Adjacency.nsmEvent c env {a with scheduled := rest, ahead := x, behind := y} event = b
  have peer : b.toPeer = (DbDesc.nsmEvent c {env with requestsEmpty := a.lsReq.isEmpty}
      {a.toPeer with scheduled := rest} event).1 := by rw [← res]; rfl
  have he : a.lsReq = [] → b.lsReq = [] := fun none => by
    rw [← res]
    simp [Adjacency.nsmEvent,none]
  have ahead : b.ahead ≤ x := by
    rw [← res]
    simp only [Adjacency.nsmEvent]
    split <;> omega
  have hbeh : b.behind ≤ y := by
    rw [← res]
    simp only [Adjacency.nsmEvent]
    split <;> omega
  rw [← peer] at exch
  rcases nsmEvent_cases c {env with requestsEmpty := a.lsReq.isEmpty}
    {a.toPeer with scheduled := rest} event ho with eq | low | ⟨hbe,hm,hb⟩
  · have peer := peer.trans eq
    have state : b.state = a.state := by rw [peer]
    exact {
      exchange := ⟨_,_,exch⟩
      answered := fun hen => by
        rw [peer] at hen ⊢
        exact h.answered (hen.imp_right fun now => ⟨now.1,hk now.2⟩)
      low := fun low => he (h.low (state ▸ low))
      fresh := fun now => by have := h.fresh (state ▸ now); omega
      loading := fun now some => he (h.loading (state ▸ now) (by omega))
      full := fun now => he (h.full (state ▸ now))}
  · rw [← peer] at low
    exact {
      exchange := ⟨_,_,exch⟩
      answered := by
        rintro (hl | ⟨now,-⟩)
        · exact absurd (hl.trans_le low) (by decide)
        · exact absurd (now ▸ low) (by decide)
      low := fun _ => by
        by_cases hc : .exStart < a.state
        · rw [peer] at low
          rw [← res]
          simp only [Adjacency.nsmEvent,hc,low]
          simp
        · exact he (h.low (not_lt.mp hc))
      fresh := fun now => absurd (now ▸ low) (by decide)
      loading := fun now => absurd (now ▸ low) (by decide)
      full := fun now => absurd (now ▸ low) (by decide)}
  · have peer := peer.trans hm
    have state := congrArg Peer.state peer
    have hen : Over a.toPeer := hb.imp_right fun now => ⟨now.1,hd now.2⟩
    exact {
      exchange := ⟨_,_,exch⟩
      answered := fun _ => by
        rw [peer]
        exact h.answered hen
      low := fun low => absurd (hbe.trans_le (state ▸ low)) (by decide)
      fresh := fun now => absurd ((state.symm.trans now) ▸ hbe) (lt_irrefl _)
      loading := fun now some => by
        rcases nsmNext_loading (state.symm.trans now) with hb | ⟨hb,hd⟩
        · exact he (h.loading hb (by omega))
        have := h.fresh hb
        have := fst hd
        omega
      full := fun now => by
        rcases nsmNext_full (state.symm.trans now) with hb | ⟨hb,hd⟩ | ⟨-,-,none⟩
        · exact he (h.full hb)
        · exact he (h.loading hb (hw hd))
        · exact he (isEmpty_iff.mp none)}

theorem Kept.outside (h : Kept c n a) (env : Env) (ho : event ≠ .negotiationDone)
    (another : event ≠ .exchangeDone) (thd : event ≠ .loadingDone) :
    Kept c n (Adjacency.nsmEvent c env a event) :=
  h.nsmEvent (.inr ⟨rfl,another⟩) ho env a.ahead a.behind le_rfl le_rfl (absurd · thd)
    (absurd · another)

theorem Kept.dispatch (h : Kept c n a) (env : Env) : Kept c n (dispatch c env a) := by
  have ht : Taken a.toPeer .loadingDone a.scheduled := .inr ⟨rfl,nofun⟩
  unfold Adjacency.dispatch
  split
  · exact h.nsmEvent ht nofun env _ _ (by omega) le_rfl (fun _ => by omega) nofun
  next none =>
  split
  · next event rest scheduled =>
    refine h.nsmEvent (.inl ⟨event,scheduled,rfl⟩) ?_ env _ _ le_rfl le_rfl ?_ fun _ => by omega
    all_goals cases event <;> nofun
  split
  · exact h.nsmEvent ht nofun env _ _ (by omega) (by omega) (fun _ => by omega) nofun
  · exact h

theorem lsRequests_same (lsReq : List Instance) (eq : q.received = p.received) :
    lsRequests p q lsReq = lsReq := by
  simp [lsRequests,eq]

section

variable (h : Kept c n a)

include h

theorem Kept.dbDesc (env : Env) (aged : List Nat) (dd : Packet) :
    Kept c n (dbDesc c env n aged a dd) := by
  unfold Adjacency.dbDesc
  split
  · next hq =>
    obtain ⟨out,inc,hs⟩ := h.exchange
    have exch := DbDesc.dbDesc_sound
      (hs.mono (List.Subset.refl _) (subset_append_left inc [dd])) hq env
      (mem_append_right _ (mem_singleton_self dd))
    rcases dbDesc_cases hs hq env dd with ⟨l,hsi,eq⟩ | ⟨hb,low,eq⟩ | ⟨q,_,ready,processed⟩
    · rw [eq] at exch ⊢
      have reqs := lsRequests_same a.lsReq (show Peer.received {a.toPeer with scheduled := l} =
        a.received from rfl)
      exact {
        exchange := ⟨_,_,exch⟩
        answered := by
          rintro (hl | ⟨-,done⟩)
          · exact h.answered (.inl hl)
          · exact absurd done hsi
        low := fun low => reqs.trans (h.low low)
        fresh := fun _ => rfl
        loading := fun now some => reqs.trans (h.loading now some)
        full := fun now => reqs.trans (h.full now)}
    · exact {
        exchange := ⟨_,_,exch⟩
        answered := by
          rintro (hl | ⟨now,-⟩)
          · exact absurd (hl.trans_le low) (by decide)
          · exact absurd (now ▸ low) (by decide)
        low := fun _ => (lsRequests_same _ eq).trans (h.low hb)
        fresh := fun _ => rfl
        loading := fun now => absurd (now ▸ low) (by decide)
        full := fun now => absurd (now ▸ low) (by decide)}
    · have state : (DbDesc.dbDesc c n env a.toPeer dd).1.state = .exchange := by
        rw [processed,DbDesc.dbDescProc_state,ready.state]
      exact {
        exchange := ⟨_,_,exch⟩
        answered := by
          rintro (hl | ⟨-,done⟩)
          · exact absurd (state ▸ hl) (lt_irrefl _)
          simp only [processed] at done ⊢
          exact ready.answered _ done
        low := fun low => absurd (state ▸ low) (by decide)
        fresh := fun _ => rfl
        loading := fun now => nomatch state.symm.trans now
        full := fun now => nomatch state.symm.trans now}
  · exact h

theorem Kept.checkNbrLoading : Kept c n (checkNbrLoading a) := by
  unfold Adjacency.checkNbrLoading
  split
  · next done =>
    exact {h with
      fresh := fun now => nomatch done.1.symm.trans now
      loading := fun _ _ => done.2}
  · exact h

theorem Kept.filter (keep : Instance → Bool) : Kept c n {a with lsReq := a.lsReq.filter keep} := by
  have he : a.lsReq = [] → a.lsReq.filter keep = [] := fun none => by rw [none]; rfl
  exact {h with
    low := fun low => he (h.low low)
    loading := fun now some => he (h.loading now some)
    full := fun now => he (h.full now)}

theorem Kept.examineRequest (r : Nat) : Kept c n (examineRequest r a).1 := by
  unfold Adjacency.examineRequest
  split
  · split
    · exact h
    extract_lets ret kept
    split
    · exact h
    · exact (h.filter _).checkNbrLoading
  · exact h

theorem Kept.flood (r : Nat) (comesFrom : Bool) : Kept c n (flood r comesFrom a) := by
  have he := h.examineRequest r
  simp only [Adjacency.flood]
  split
  · split
    · exact {h with}
    · exact h
  split
  · exact he
  split
  · exact he
  split
  · exact he
  · exact {he with}

theorem Kept.step (act : Action) : Kept c n (step c n a act) := by
  cases act with
  | deliver env ha dd => exact h.dbDesc env ha dd
  | dispatch env => exact h.dispatch env
  | event env ev =>
    simp only [Adjacency.step]
    split
    · exact h
    next others =>
    simp only [not_or] at others
    exact h.outside env others.1 others.2.1 others.2.2
  | hello opts =>
    obtain ⟨out,inc,hs⟩ := h.exchange
    exact {h with exchange := ⟨out,inc,hs.options _⟩}
  | database change =>
    obtain ⟨out,inc,hs⟩ := h.exchange
    exact {h with exchange := ⟨out,inc,hs.database change⟩}
  | flood hc r =>
    simp only [Adjacency.step]
    split
    · exact h
    · exact h.flood r hc
  | acknowledge r => exact {h with}
  | create =>
    simp only [Adjacency.step]
    split
    · exact nbrNew_kept c n _ _
    · exact h

end

/-! ### The retransmission list -/

theorem lsRetransmitAdd_ne_nil (db : DbDesc.Database) (lsRxmt : List Nat) (r : Nat) :
    lsRetransmitAdd db lsRxmt r ≠ [] := by
  unfold lsRetransmitAdd
  extract_lets old
  split
  · exact append_ne_nil_of_right_ne_nil _ (cons_ne_nil _ _)
  next known =>
  rintro rfl
  exact known (show (-1 : Int) < 0 by decide)

@[simp] theorem examineRequest_state (r : Nat) (a : Nbr) :
    (examineRequest r a).1.state = a.state := by
  simp only [examineRequest,checkNbrLoading]
  repeat' split
  all_goals rfl

@[simp] theorem flood_state (r : Nat) (comesFrom : Bool) (a : Nbr) :
    (flood r comesFrom a).state = a.state := by
  simp only [flood]
  repeat' split
  all_goals first | rfl | exact examineRequest_state r a

def ColouredBelow (a : Nbr) : Action → Prop
  | .flood _ r => a.state ≠ .deleted ∧ a.state < .exchange ∧
    (a.db.lsas r).data.type = linkColourLsa
  | _ => False

def Idle (a : Nbr) : Prop := a.state ≤ .exStart → a.lsRxmt = []

theorem Idle.nsmEvent (h : Idle a) (env : Env) (ev : NsmEvent) : Idle (nsmEvent c env a ev) := by
  intro low
  simp only [Adjacency.nsmEvent] at low ⊢
  split
  · rfl
  next stays =>
  refine h (not_lt.mp fun high => stays ?_)
  exact decide_eq_true (.inl ⟨high,low⟩)

theorem Idle.dispatch (h : Idle a) (env : Env) : Idle (dispatch c env a) := by
  unfold Adjacency.dispatch
  split
  · exact Idle.nsmEvent h env _
  split
  · next event rest _ => exact @Idle.nsmEvent {a with scheduled := rest} c h env _
  split
  · exact Idle.nsmEvent h env _
  · exact h

theorem Idle.dbDesc (h : Idle a) (hk : Kept c n a) (env : Env) (aged : List Nat) (dd : Packet) :
    Idle (dbDesc c env n aged a dd) := by
  unfold Adjacency.dbDesc
  split
  · next hq =>
    intro low
    have notYet : (DbDesc.dbDesc c n env a.toPeer dd).1.state ≠ .exchange :=
      fun now => absurd (now ▸ low) (by decide)
    simp only [notYet,and_false,reduceIte] at low ⊢
    obtain ⟨out,inc,hs⟩ := hk.exchange
    rcases dbDesc_cases hs hq env dd with ⟨l,-,eq⟩ | ⟨hb,-⟩ | ⟨q,_,hr,hp⟩
    · rw [eq] at low
      exact h low
    · exact h hb
    · exact absurd (by rw [hp,DbDesc.dbDescProc_state,hr.state]) notYet
  · exact h

theorem Idle.step (h : Idle a) (hk : Kept c n a) (hp : ¬ ColouredBelow a action) :
    Idle (step c n a action) := by
  cases action with
  | deliver env ha dd => exact h.dbDesc hk env ha dd
  | dispatch env => exact h.dispatch env
  | event env ev =>
    simp only [Adjacency.step]
    split
    · exact h
    · exact h.nsmEvent env ev
  | hello opts => exact h
  | database change => exact h
  | flood hc r =>
    simp only [Adjacency.step]
    split
    · exact h
    next present =>
    intro low
    rw [flood_state] at low
    have hb : a.state < .exchange := low.trans_lt (by decide)
    have hu : (a.db.lsas r).data.type ≠ linkColourLsa := fun coloured => hp ⟨present,hb,coloured⟩
    simp only [Adjacency.flood,hb,hu,reduceIte]
    exact h low
  | acknowledge r =>
    intro low
    simp [Adjacency.step,h low,filter_nil]
  | create =>
    simp only [Adjacency.step]
    split
    · exact fun _ => rfl
    · exact h

/-! ### Every run -/

/-- In Full a neighbor asks for nothing, describes nothing, and its exchange ended with an answered
packet from both sides that announced no more. And what holds before the exchange. -/
structure Settled (a : Nbr) : Prop where
  full : a.state = .full →
    a.lsReq = [] ∧ a.dbSum = [] ∧ a.toPeer.finished = true ∧ Answered a.toPeer
  low : a.state ≤ .exStart → a.dbSum = [] ∧ a.lsReq = [] ∧ a.lsRxmt = []

theorem Kept.settled (h : Kept c n a) (hi : Idle a) : Settled a where
  full := fun now => by
    obtain ⟨out,inc,hs⟩ := h.exchange
    have hb : .exchange < a.state := now ▸ by decide
    have he := hs.exchanging hb.le
    have hf := he.ended hb
    exact ⟨h.full now,he.more (he.told hf),hf,h.answered (.inl hb)⟩
  low := fun low => by
    obtain ⟨out,inc,hs⟩ := h.exchange
    exact ⟨hs.low low,h.low low,hi low⟩

theorem coloured_not_settled (coloured : ColouredBelow a action) :
    ¬ Settled (step c n a action) := by
  cases action with
  | flood hc r =>
    obtain ⟨hp,hb,ty⟩ := coloured
    intro hs
    have he : a.state ≤ .exStart := by
      revert hb
      cases a.state <;> decide
    simp only [step,hp,flood,hb,ty,reduceIte] at hs
    exact lsRetransmitAdd_ne_nil _ _ _ (hs.low he).2.2
  | _ => exact coloured.elim

/-- A Full neighbor has finished its exchange and asks for nothing, and up to ExStart all lists are
empty, exactly as long as no LSA with colours is flooded below Exchange. -/
theorem lists_settled_iff (c : Config) (n : UInt32) (db : DbDesc.Database)
    (actions : List Action) :
    Trace.Throughout (step c n) (fun a action => Settled (step c n a action)) actions
      (nbrNew db []) ↔
    Trace.Throughout (step c n) (fun a action => ¬ ColouredBelow a action) actions
      (nbrNew db []) := by
  constructor
  · exact Trace.Throughout.mono fun a action hs coloured =>
      coloured_not_settled coloured hs
  have start : Kept c n (nbrNew db []) ∧ Idle (nbrNew db []) := ⟨nbrNew_kept c n db [],fun _ => rfl⟩
  refine @Trace.Throughout.guarantee _ _ _ (fun a => Kept c n a ∧ Idle a) _ _
    (fun a action h hp => ?_) _ _ start
  have hk := h.1.step action
  have hi := h.2.step h.1 hp
  exact ⟨hk.settled hi,hk,hi⟩

def colouredDb : DbDesc.Database where
  now := 0
  lsas := fun _ => Instance.new 0
    { lsAge := 1, options := 2, type := linkColourLsa, id := 1, advRouter := 1,
      lsSeqnum := 0x80000001, checksum := 0, length := 24, body := [1] }
  held := [0]
  discarded := fun _ => false

/-- A Hello of the neighbor has come when the colours are flooded. -/
theorem colours_wait_in_init :
    let a := Trace.run (step (DbDesc.plainConfig .one) 2)
      [.event (DbDesc.plainEnv [] 0) .packetReceived,.flood false 0] (nbrNew colouredDb [])
    a.state = .init ∧ a.lsRxmt = [0] ∧ ¬ Settled a := by
  intro a
  have hl : a.state = .init ∧ a.lsRxmt = [0] := by decide +kernel
  refine ⟨hl.1,hl.2,fun hs => ?_⟩
  have he := (hs.low (hl.1 ▸ by decide)).2.2
  exact nomatch hl.2.symm.trans he

end Frr.Adjacency
