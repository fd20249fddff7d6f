import Frr.Trace

/-! The DUAL machine of `eigrp_fsm.c` for one prefix, with the packets it answers. Packets,
neighbors and what interfaces and configuration do to the entries are arbitrary. -/
namespace Frr.Dual

open List Option Trace

inductive FsmState where
  | passive | active0 | active1 | active2 | active3
  deriving DecidableEq

inductive FsmEvent where
  | nqFcn | lr | qFcn | lrFcs | dinc | qact | lrFcn | keepState
  deriving DecidableEq

inductive MetricChange where
  | decrease | same | increase
  deriving DecidableEq

/-- The machine does not tell the packets of the stuck-in-active procedure from others. -/
inductive PacketType where
  | update | query | reply | siaQuery
  deriving DecidableEq

inductive DataType where
  | connected | int | ext
  deriving DecidableEq

/-- `EIGRP_TOPOLOGY_TYPE_…`. -/
inductive NetworkType where
  | connected | remote | remoteExternal
  deriving DecidableEq

/-- `struct eigrp_metrics`. -/
structure Metrics where
  delay : UInt32
  bandwidth : UInt32
  mtu : UInt8 × UInt8 × UInt8
  hopCount : UInt8
  reliability : UInt8
  load : UInt8
  tag : UInt8
  flags : UInt8
  deriving DecidableEq

/-- `struct eigrp_nexthop_entry`. Of the flags the machine reads that of the successors. -/
structure Entry where
  advRouter : Nat
  reportedDistance : UInt32
  distance : UInt32
  reportedMetric : Metrics
  totalMetric : Metrics
  successor : Bool
  deriving DecidableEq

/-- `struct eigrp_prefix_entry`; `gone` once it is deleted. -/
structure PrefixEntry where
  state : FsmState
  entries : List Entry
  rij : List Nat
  fdistance : UInt32
  rdistance : UInt32
  distance : UInt32
  reportedMetric : Metrics
  nt : NetworkType
  needQuery : Bool
  gone : Bool
  deriving DecidableEq

/-- What the machine needs of `struct eigrp`, with delay and bandwidth for each neighbor. -/
structure Config where
  k1 : UInt8
  k2 : UInt8
  k3 : UInt8
  k4 : UInt8
  k5 : UInt8
  variance : UInt8
  delay : Nat → UInt32
  bandwidth : Nat → UInt32

/-- `struct eigrp_fsm_action_message`. The entry is the one of the neighbor, if there is one. -/
structure Message where
  packetType : PacketType
  dataType : DataType
  advRouter : Nat
  metrics : Metrics

section

variable (c : Config)

def maxMetric : UInt32 := 0xffffffff

def metricsIsSame (m1 m2 : Metrics) : Bool :=
  m1.bandwidth = m2.bandwidth ∧ m1.delay = m2.delay ∧ m1.hopCount = m2.hopCount ∧
    m1.load = m2.load ∧ m1.reliability = m2.reliability ∧ m1.mtu = m2.mtu

/-- `eigrp_calculate_metrics`. The source divides by the reliability if `k5` is set. -/
def calculateMetrics (m : Metrics) : UInt32 :=
  if m.delay = maxMetric then maxMetric
  else
    let t : UInt64 := 0
    let t := if c.k1 ≠ 0 then t + (c.k1.toUInt32*m.bandwidth).toUInt64 else t
    let t := if c.k2 ≠ 0 then
      t + (c.k2.toUInt32*m.bandwidth / (256-m.load.toUInt32)).toUInt64 else t
    let t := if c.k3 ≠ 0 then t + (c.k3.toUInt32*m.delay).toUInt64 else t
    let t := if c.k4 ≠ 0 ∧ c.k5 = 0 then t * c.k4.toUInt64 else t
    let t := if c.k4 = 0 ∧ c.k5 ≠ 0 then t * (c.k5/m.reliability).toUInt64 else t
    let t := if c.k4 ≠ 0 ∧ c.k5 ≠ 0 then
      t * ((c.k5/m.reliability).toUInt64 + c.k4.toUInt64) else t
    if t ≤ maxMetric.toUInt64 then t.toUInt32 else maxMetric

/-- `eigrp_delay_to_scaled` and `eigrp_bandwidth_to_scaled`. -/
def delayToScaled (delay : UInt32) : UInt32 := delay*256

def bandwidthToScaled (bandwidth : UInt32) : UInt32 :=
  (min (2560000000/bandwidth.toUInt64) maxMetric.toUInt64).toUInt32

/-- The entry after `eigrp_calculate_total_metrics`, with the distance it returns. -/
def calculateTotalMetrics (entry : Entry) : Entry :=
  let delay := entry.reportedMetric.delay.toUInt64 +
    (delayToScaled (c.delay entry.advRouter)).toUInt64
  let bw := bandwidthToScaled (c.bandwidth entry.advRouter)
  let total := {entry.reportedMetric with
    delay := if maxMetric.toUInt64 < delay then maxMetric else delay.toUInt32
    bandwidth := if bw < entry.reportedMetric.bandwidth then bw
      else entry.reportedMetric.bandwidth}
  {entry with totalMetric := total, distance := calculateMetrics c total}

end

section

variable (c : Config)

def zeroMetrics : Metrics :=
  { delay := 0, bandwidth := 0, mtu := (0,0,0), hopCount := 0, reliability := 0, load := 0,
    tag := 0, flags := 0 }

/-- `eigrp_nexthop_entry_new` for a neighbor. -/
def nexthopEntryNew (nbr : Nat) : Entry :=
  { advRouter := nbr, reportedDistance := maxMetric, distance := maxMetric,
    reportedMetric := zeroMetrics, totalMetric := zeroMetrics, successor := false }

def prefixEntryLookup (entries : List Entry) (nbr : Nat) : Option Entry :=
  entries.find? fun e => e.advRouter = nbr

/-- `listnode_add_sort` by distance. -/
def listnodeAddSort (entry : Entry) : List Entry → List Entry
  | [] => [entry]
  | e :: rest => if entry.distance < e.distance then entry :: e :: rest
    else e :: listnodeAddSort entry rest

def reposition (entries : List Entry) (entry : Entry) : List Entry :=
  listnodeAddSort entry (entries.eraseP fun e => e.advRouter = entry.advRouter)

/-- `eigrp_topology_update_distance`. A larger distance is noticed and not stored. -/
def topologyUpdateDistance (p : PrefixEntry) (msg : Message) (entry : Entry) :
    MetricChange × Entry × List Entry :=
  match msg.dataType with
  | .connected =>
    if p.nt = .connected then (.same,entry,p.entries)
    else (.decrease,entry,reposition p.entries entry)
  | .int =>
    if p.nt = .connected then (.increase,entry,reposition p.entries entry)
    else if metricsIsSame msg.metrics entry.reportedMetric then (.same,entry,p.entries)
    else
      let reported := calculateMetrics c msg.metrics
      if entry.reportedDistance < reported then (.increase,entry,reposition p.entries entry)
      else
        let entry := calculateTotalMetrics c
          {entry with reportedMetric := msg.metrics, reportedDistance := reported}
        (.decrease,entry,reposition p.entries entry)
  | .ext =>
    if p.nt = .remoteExternal then
      if metricsIsSame msg.metrics entry.reportedMetric then (.same,entry,p.entries)
      else (.same,entry,reposition p.entries entry)
    else (.increase,entry,reposition p.entries entry)

/-- The head of `eigrp_topology_get_successor`. -/
def firstSuccessor (p : PrefixEntry) : Option Entry := p.entries.find? (·.successor)

def topologyUpdateNodeFlags (p : PrefixEntry) : PrefixEntry :=
  { p with entries := p.entries.map fun e => {e with
    successor := e.reportedDistance < p.fdistance ∧
      e.distance.toUInt64 ≤ p.distance.toUInt64*c.variance.toUInt64 ∧ e.distance ≠ maxMetric} }

def updateTopologyTablePrefix (p : PrefixEntry) : PrefixEntry :=
  {p with
    entries := p.entries.filter fun e => e.distance ≠ maxMetric
    gone := p.distance = maxMetric ∧ p.nt ≠ .connected}

end

section

variable (c : Config)

/-- `eigrp_get_fsm_event`: prefix, entry and event; none where the source reads the head of an empty
list. -/
def getFsmEvent (p : PrefixEntry) (msg : Message) : Option (PrefixEntry × FsmEvent) :=
  let entry := (prefixEntryLookup p.entries msg.advRouter).getD (nexthopEntryNew msg.advRouter)
  let (change,entry,entries) := topologyUpdateDistance c p msg entry
  let p := {p with entries := entries}
  let replied := {p with rij := p.rij.erase entry.advRouter}
  match p.state with
  | .passive => p.entries.head?.map fun head =>
    if head.reportedDistance < p.fdistance then (p,.keepState)
    else if msg.packetType = .query then (p,.qFcn)
    else (p,.nqFcn)
  | .active0 =>
    if msg.packetType = .reply then
      if replied.rij ≠ [] then some (replied,.keepState)
      else p.entries.head?.map fun head =>
        if head.reportedDistance < p.fdistance then (replied,.lrFcs) else (replied,.lrFcn)
    else if msg.packetType = .query ∧ entry.successor then some (p,.qact)
    else some (p,.keepState)
  | .active1 =>
    if msg.packetType = .query ∧ entry.successor then some (p,.qact)
    else if msg.packetType = .reply then
      if change = .increase ∧ entry.successor then some (replied,.dinc)
      else if replied.rij ≠ [] then some (replied,.keepState)
      else some (replied,.lr)
    else if msg.packetType = .update ∧ change = .increase ∧ entry.successor then some (p,.dinc)
    else some (p,.keepState)
  | .active2 =>
    if msg.packetType = .reply then
      if replied.rij ≠ [] then some (replied,.keepState)
      else p.entries.head?.map fun head =>
        if head.reportedDistance < p.fdistance then (replied,.lrFcs) else (replied,.lrFcn)
    else some (p,.keepState)
  | .active3 =>
    if msg.packetType = .reply then
      if change = .increase ∧ entry.successor then some (replied,.dinc)
      else if replied.rij ≠ [] then some (replied,.keepState)
      else some (replied,.lr)
    else if msg.packetType = .update ∧ change = .increase ∧ entry.successor then some (p,.dinc)
    else some (p,.keepState)

inductive Action where
  | keepState | nqFcn | qFcn | lr | dinc | lrFcs | lrFcn | qact
  deriving DecidableEq

def nsm : FsmState → FsmEvent → Action
  | .passive, .nqFcn => .nqFcn
  | .passive, .qFcn => .qFcn
  | .active0, .lrFcs => .lrFcs
  | .active0, .qact => .qact
  | .active0, .lrFcn => .lrFcn
  | .active1, .lr => .lr
  | .active1, .dinc => .dinc
  | .active1, .qact => .qact
  | .active2, .lrFcs => .lrFcs
  | .active2, .lrFcn => .lrFcn
  | .active3, .lr => .lr
  | .active3, .dinc => .dinc
  | _, _ => .keepState

abbrev Outcome := PrefixEntry × List Nat

def answer (msg : Message) : List Nat := if msg.packetType = .query then [msg.advRouter] else []

def eventKeepState (p : PrefixEntry) (msg : Message) : Option Outcome :=
  if p.state = .passive then
    p.entries.head?.map fun ne =>
      if metricsIsSame p.reportedMetric ne.totalMetric then
        (topologyUpdateNodeFlags c p,answer msg)
      else
        let p := {p with
          rdistance := ne.distance, fdistance := ne.distance, distance := ne.distance
          reportedMetric := ne.totalMetric}
        (topologyUpdateNodeFlags c p,answer msg ++ answer msg)
  else some (p,answer msg)

/-- The end of `eigrp_fsm_event_lr` and `eigrp_fsm_event_lr_fcs`. -/
def settle (p : PrefixEntry) : PrefixEntry :=
  updateTopologyTablePrefix (topologyUpdateNodeFlags c p)

def eventLr (p : PrefixEntry) : Option Outcome :=
  p.entries.head?.bind fun ne =>
    let q := {p with
      state := .passive
      fdistance := ne.distance, distance := ne.distance, rdistance := ne.distance
      reportedMetric := ne.totalMetric}
    if p.state = .active3 then
      (firstSuccessor p).map fun ne => (settle c q,[ne.advRouter])
    else some (settle c q,[])

/-- Common to `eigrp_fsm_event_nq_fcn`, `eigrp_fsm_event_q_fcn` and `eigrp_fsm_event_lr_fcn`:
queries are to be sent, or no neighbors are left. -/
def diffuse (nbrCount : Nat) (p : PrefixEntry) : Option Outcome :=
  if nbrCount ≠ 0 then some ({p with needQuery := true},[]) else eventLr c p

/-- `eigrp_fsm_event_nq_fcn` and `eigrp_fsm_event_q_fcn`. -/
def eventFcn (state : FsmState) (nbrCount : Nat) (p : PrefixEntry) : Option Outcome :=
  (firstSuccessor p).bind fun ne =>
    diffuse c nbrCount {p with
      state := state
      rdistance := ne.distance, distance := ne.distance, fdistance := ne.distance
      reportedMetric := ne.totalMetric}

/-- `eigrp_fsm_event_lr_fcs`. The state is set before it is compared, so that no reply is
sent. -/
def eventLrFcs (p : PrefixEntry) : Option Outcome :=
  p.entries.head?.bind fun ne =>
    let q := {p with
      state := .passive
      distance := ne.distance, rdistance := ne.distance
      reportedMetric := ne.totalMetric
      fdistance := if ne.distance < p.fdistance then ne.distance else p.fdistance}
    if q.state = .active2 then
      (firstSuccessor q).map fun ne => (settle c q,[ne.advRouter])
    else some (settle c q,[])

def eventLrFcn (nbrCount : Nat) (p : PrefixEntry) : Option Outcome :=
  (firstSuccessor p).bind fun ne =>
    diffuse c nbrCount {p with
      state := if p.state = .active0 then .active1 else .active3
      rdistance := ne.distance, distance := ne.distance
      reportedMetric := ne.totalMetric}

def eventQact (p : PrefixEntry) : Option Outcome :=
  (firstSuccessor p).map fun ne => ({p with state := .active2, distance := ne.distance},[])

section

variable (nbrCount : Nat) (p : PrefixEntry) (msg : Message)

def performSettled : Action → Option Outcome
  | .lrFcs => eventLrFcs c p
  | .lrFcn => eventLrFcn c nbrCount p
  | .qact => eventQact p
  | _ => eventKeepState c p msg

def eventDinc : Option Outcome :=
  (firstSuccessor p).bind fun ne =>
    let p := {p with
      state := if p.state = .active1 then .active0 else .active2
      distance := ne.distance}
    if p.rij = [] then
      (getFsmEvent c p msg).bind fun (p,event) => performSettled c nbrCount p msg (nsm p.state event)
    else some (p,[])

def perform : Action → Option Outcome
  | .keepState => eventKeepState c p msg
  | .nqFcn => eventFcn c .active1 nbrCount p
  | .qFcn => eventFcn c .active3 nbrCount p
  | .lr => eventLr c p
  | .dinc => eventDinc c nbrCount p msg
  | .lrFcs => eventLrFcs c p
  | .lrFcn => eventLrFcn c nbrCount p
  | .qact => eventQact p

def fsmEvent : Option Outcome :=
  (getFsmEvent c p msg).bind fun (p,event) => perform c nbrCount p msg (nsm p.state event)

end

end

/-- The prefix with the neighbors queries came from and replies went to, or none after a failed
assertion or null pointer. -/
structure Machine where
  entry : Option PrefixEntry
  received : List Nat
  sent : List Nat

/-- `others`: interfaces that come up and changes of the configuration. -/
inductive Event where
  | message (nbrCount : Nat) (msg : Message)
  | sendQueries (nbrs : List Nat)
  | others (entries : List Entry)

section

variable (c : Config)

/-- The queries of `eigrp_query_send_all`, as far as this prefix is concerned. -/
def sendQueries (p : PrefixEntry) (nbrs : List Nat) : PrefixEntry :=
  if p.needQuery then {p with rij := p.rij ++ nbrs, needQuery := false} else p

def Machine.step (m : Machine) (event : Event) : Machine :=
  match m.entry with
  | none => m
  | some p =>
    if p.gone then m
    else
      match event with
      | .sendQueries nbrs => {m with entry := some (sendQueries p nbrs)}
      | .others entries => {m with entry := some {p with entries := entries}}
      | .message nbrCount msg =>
        let received := m.received ++ answer msg
        match fsmEvent c nbrCount p msg with
        | none => {entry := none, received := received, sent := m.sent}
        | some (p,replies) =>
          {entry := some p, received := received, sent := m.sent ++ replies}

end

section

def owing (state : FsmState) : Bool := state = .active2 ∨ state = .active3

/-- One reply for each query, to its neighbor, but for one query open in Active 2 and Active 3. -/
def Machine.Settled (m : Machine) : Prop :=
  ∀ p, m.entry = some p →
    if owing p.state then
      ∃ n, ∀ k, m.received.count k = m.sent.count k + if k = n then 1 else 0
    else ∀ k, m.received.count k = m.sent.count k

variable (c : Config)

def Addressed (received sent : List Nat) (p : PrefixEntry) : Prop :=
  ∀ ne ∈ firstSuccessor p, sent.count ne.advRouter < received.count ne.advRouter

section

variable (nbrCount : Nat) (received sent : List Nat) (p : PrefixEntry) (msg : Message)

/-- A distance increase in Active 3 with no reply outstanding finds its event again, from
Active 2. -/
def ProperIncrease : Prop :=
  ∀ ne ∈ firstSuccessor p,
    ∀ found ∈ getFsmEvent c {p with state := .active2, distance := ne.distance} msg,
      found.2 ≠ .lrFcs ∧ (found.2 = .lrFcn → nbrCount = 0 → Addressed received sent found.1)

/-- The neighbors get the replies they wait for: a query that leaves the prefix Passive finds the
reported metric of the best entry unchanged, Active 2 is not left by the feasibility condition, and
when the last reply comes in Active 3, or no neighbor is left to ask, the first successor is the one
that waits. -/
def ProperEvent (event : FsmEvent) : Prop :=
  (p.state = .passive → event = .keepState → msg.packetType = .query →
    ∀ ne ∈ p.entries.head?, metricsIsSame p.reportedMetric ne.totalMetric) ∧
  (p.state = .passive → event = .qFcn → nbrCount = 0 → Addressed received sent p) ∧
  (p.state = .active2 → event ≠ .lrFcs) ∧
  (p.state = .active2 → event = .lrFcn → nbrCount = 0 → Addressed received sent p) ∧
  (p.state = .active3 → event = .lr → Addressed received sent p) ∧
  (p.state = .active3 → event = .dinc → p.rij = [] →
    ProperIncrease c nbrCount received sent p msg)

end

def Machine.Proper (m : Machine) : Event → Prop
  | .message nbrCount msg => ∀ p ∈ m.entry, p.gone = false → ∀ found ∈ getFsmEvent c p msg,
      ProperEvent c nbrCount (m.received ++ answer msg) m.sent found.1 msg found.2
  | .sendQueries _ => True
  | .others _ => True

instance (received sent : List Nat) (p : PrefixEntry) : Decidable (Addressed received sent p) := by
  delta Addressed
  infer_instance

instance (nbrCount : Nat) (received sent : List Nat) (p : PrefixEntry) (msg : Message) :
    Decidable (ProperIncrease c nbrCount received sent p msg) := by
  delta ProperIncrease
  infer_instance

instance (nbrCount : Nat) (received sent : List Nat) (p : PrefixEntry) (msg : Message)
    (event : FsmEvent) : Decidable (ProperEvent c nbrCount received sent p msg event) := by
  delta ProperEvent
  infer_instance

instance (m : Machine) : (event : Event) → Decidable (m.Proper c event)
  | .message nbrCount msg => inferInstanceAs (Decidable (∀ p ∈ m.entry, p.gone = false →
      ∀ found ∈ getFsmEvent c p msg,
        ProperEvent c nbrCount (m.received ++ answer msg) m.sent found.1 msg found.2))
  | .sendQueries _ => isTrue trivial
  | .others _ => isTrue trivial

end

section

/-- The neighbor `owed` waits for one reply, and no other for any. -/
def Debt (received sent : List Nat) (owed : Option Nat) : Prop :=
  ∀ k, received.count k = sent.count k + if owed = some k then 1 else 0

def Done (received sent : List Nat) (outcome : Outcome) : Prop :=
  ∃ owed, Debt received (sent ++ outcome.2) owed ∧ (owed.isSome ↔ owing outcome.1.state = true)

variable {received sent : List Nat} {owed : Option Nat} {msg : Message}

theorem Debt.answered (debt : Debt received sent owed) (msg : Message) :
    Debt (received ++ answer msg) (sent ++ answer msg) owed := by
  intro k
  have hb := debt k
  simp only [count_append]
  omega

theorem Debt.silent (debt : Debt received sent owed) (hs : msg.packetType ≠ .query) :
    Debt (received ++ answer msg) sent owed := by
  simpa [answer,hs] using debt

theorem Debt.asked (debt : Debt received sent none) (ha : msg.packetType = .query) :
    Debt (received ++ answer msg) sent (some msg.advRouter) := by
  intro k
  have hb := debt k
  simp only [answer,ha,if_true,count_append,count_singleton,reduceCtorEq,if_false,
    some.injEq,beq_iff_eq] at hb ⊢
  omega

theorem Debt.paid {n x : Nat} (debt : Debt received sent (some n))
    (hw : sent.count x < received.count x) : Debt received (sent ++ [x]) none := by
  have hh := debt x
  have eq : n = x := by
    by_contra other
    simp [other] at hh
    omega
  intro k
  have hb := debt k
  simp only [count_append,count_singleton,eq,some.injEq,beq_iff_eq,reduceCtorEq,if_false] at hb ⊢
  omega

theorem Debt.append_nil (debt : Debt received sent owed) : Debt received (sent ++ []) owed := by
  rwa [List.append_nil]

end

section

variable {c : Config} {nbrCount : Nat} {p q : PrefixEntry} {msg : Message} {outcome : Outcome}
  {received sent : List Nat} {owed : Option Nat}

section

variable (debt : Debt received sent owed) (ho : owed.isSome ↔ p.state = .active3)

include debt ho

theorem eventLr_done (ha : p.state = .active3 → Addressed received sent p)
    (res : eventLr c p = some outcome) : Done received sent outcome := by
  unfold eventLr at res
  obtain ⟨ne,-,res⟩ := bind_eq_some_iff.mp res
  split at res
  · next active =>
    obtain ⟨successor,fst,rfl⟩ := map_eq_some_iff.mp res
    obtain ⟨n,rfl⟩ := isSome_iff_exists.mp (ho.mpr active)
    exact ⟨none,debt.paid (ha active successor fst),by simp [settle,owing,
      updateTopologyTablePrefix,topologyUpdateNodeFlags]⟩
  · next other =>
    cases res
    have none : owed = none := by
      rw [← not_isSome_iff_eq_none,ho]
      exact other
    subst none
    exact ⟨none,debt.append_nil,by simp [settle,owing,updateTopologyTablePrefix,
      topologyUpdateNodeFlags]⟩

theorem diffuse_done (hot : p.state ≠ .active2)
    (ha : nbrCount = 0 → p.state = .active3 → Addressed received sent p)
    (res : diffuse c nbrCount p = some outcome) : Done received sent outcome := by
  unfold diffuse at res
  split at res
  · cases res
    refine ⟨owed,debt.append_nil,ho.trans ?_⟩
    simp [owing,hot]
  next none =>
  exact eventLr_done debt ho (ha (not_not.mp none)) res

end

theorem eventFcn_done {state : FsmState} (debt : Debt received sent owed)
    (how : owed.isSome ↔ state = .active3) (ho : state ≠ .active2)
    (ha : nbrCount = 0 → state = .active3 → Addressed received sent p)
    (res : eventFcn c state nbrCount p = some outcome) : Done received sent outcome := by
  obtain ⟨ne,-,res⟩ := bind_eq_some_iff.mp res
  exact diffuse_done debt how ho ha res

theorem eventLrFcn_done (debt : Debt received sent owed) (ho : owed.isSome ↔ p.state ≠ .active0)
    (ha : nbrCount = 0 → p.state ≠ .active0 → Addressed received sent p)
    (res : eventLrFcn c nbrCount p = some outcome) : Done received sent outcome := by
  obtain ⟨ne,-,res⟩ := bind_eq_some_iff.mp res
  by_cases hq : p.state = .active0
  · rw [if_pos hq] at res
    exact diffuse_done debt (by simpa [hq] using ho) (by simp) (by simp) res
  rw [if_neg hq] at res
  exact diffuse_done debt (by simpa [hq] using ho) (by simp) (by exact fun none _ => ha none hq) res

theorem eventLrFcs_done (debt : Debt received sent none)
    (res : eventLrFcs c p = some outcome) : Done received sent outcome := by
  obtain ⟨ne,-,res⟩ := bind_eq_some_iff.mp res
  cases res
  exact ⟨none,debt.append_nil,by simp [settle,owing,updateTopologyTablePrefix,
    topologyUpdateNodeFlags]⟩

theorem eventQact_done {n : Nat} (debt : Debt received sent (some n))
    (res : eventQact p = some outcome) : Done received sent outcome := by
  obtain ⟨ne,-,rfl⟩ := map_eq_some_iff.mp res
  exact ⟨some n,debt.append_nil,by simp [owing]⟩

theorem eventKeepState_done (debt : Debt received sent owed)
    (ho : owed.isSome ↔ owing p.state)
    (eq : p.state = .passive → msg.packetType = .query → ∀ ne, p.entries.head? = some ne →
      metricsIsSame p.reportedMetric ne.totalMetric)
    (res : eventKeepState c p msg = some outcome) :
    Done (received ++ answer msg) sent outcome := by
  unfold eventKeepState at res
  split at res
  · next passive =>
    obtain ⟨ne,head,rfl⟩ := map_eq_some_iff.mp res
    split
    · exact ⟨owed,debt.answered msg,ho⟩
    next changed =>
    -- A query would be answered twice here.
    have hs : msg.packetType ≠ .query := fun query => changed (eq passive query ne head)
    refine ⟨owed,?_,ho⟩
    simpa [answer,hs] using debt
  · cases res
    exact ⟨owed,debt.answered msg,ho⟩

end

section

inductive Occurs (msg : Message) : FsmState → FsmEvent → Prop
  | keepState (state : FsmState) : Occurs msg state .keepState
  | nqFcn (silent : msg.packetType ≠ .query) : Occurs msg .passive .nqFcn
  | qFcn (asks : msg.packetType = .query) : Occurs msg .passive .qFcn
  | lrFcs0 (silent : msg.packetType ≠ .query) : Occurs msg .active0 .lrFcs
  | lrFcs2 (silent : msg.packetType ≠ .query) : Occurs msg .active2 .lrFcs
  | lrFcn0 (silent : msg.packetType ≠ .query) : Occurs msg .active0 .lrFcn
  | lrFcn2 (silent : msg.packetType ≠ .query) : Occurs msg .active2 .lrFcn
  | qact0 (asks : msg.packetType = .query) : Occurs msg .active0 .qact
  | qact1 (asks : msg.packetType = .query) : Occurs msg .active1 .qact
  | lr1 (silent : msg.packetType ≠ .query) : Occurs msg .active1 .lr
  | lr3 (silent : msg.packetType ≠ .query) : Occurs msg .active3 .lr
  | dinc1 (silent : msg.packetType ≠ .query) : Occurs msg .active1 .dinc
  | dinc3 (silent : msg.packetType ≠ .query) : Occurs msg .active3 .dinc

variable {c : Config} {nbrCount : Nat} {p q : PrefixEntry} {msg : Message} {outcome : Outcome}
  {received sent : List Nat} {owed : Option Nat} {event : FsmEvent}

theorem getFsmEvent_occurs (hf : getFsmEvent c p msg = some (q,event)) :
    q.state = p.state ∧ Occurs msg p.state event := by
  unfold getFsmEvent at hf
  cases state : p.state <;> simp only [state] at hf
  case passive =>
    obtain ⟨head,-,hf⟩ := map_eq_some_iff.mp hf
    split_ifs at hf with hfe ha <;> cases hf
    · exact ⟨rfl,.keepState _⟩
    · exact ⟨rfl,.qFcn ha⟩
    · exact ⟨rfl,.nqFcn ha⟩
  case active0 =>
    split_ifs at hf with hr hw ha
    · cases hf
      exact ⟨rfl,.keepState _⟩
    · obtain ⟨head,-,hf⟩ := map_eq_some_iff.mp hf
      split_ifs at hf <;> cases hf
      · exact ⟨rfl,.lrFcs0 (by simp [hr])⟩
      · exact ⟨rfl,.lrFcn0 (by simp [hr])⟩
    · cases hf
      exact ⟨rfl,.qact0 ha.1⟩
    cases hf
    exact ⟨rfl,.keepState _⟩
  case active1 =>
    split_ifs at hf with ha hr hi hw hi <;> cases hf
    · exact ⟨rfl,.qact1 ha.1⟩
    · exact ⟨rfl,.dinc1 (by simp [hr])⟩
    · exact ⟨rfl,.keepState _⟩
    · exact ⟨rfl,.lr1 (by simp [hr])⟩
    · exact ⟨rfl,.dinc1 (by simp [hi.1])⟩
    · exact ⟨rfl,.keepState _⟩
  case active2 =>
    split_ifs at hf with hr hw
    · cases hf
      exact ⟨rfl,.keepState _⟩
    · obtain ⟨head,-,hf⟩ := map_eq_some_iff.mp hf
      split_ifs at hf <;> cases hf
      · exact ⟨rfl,.lrFcs2 (by simp [hr])⟩
      · exact ⟨rfl,.lrFcn2 (by simp [hr])⟩
    cases hf
    exact ⟨rfl,.keepState _⟩
  case active3 =>
    split_ifs at hf with hr hi hw hi <;> cases hf
    · exact ⟨rfl,.dinc3 (by simp [hr])⟩
    · exact ⟨rfl,.keepState _⟩
    · exact ⟨rfl,.lr3 (by simp [hr])⟩
    · exact ⟨rfl,.dinc3 (by simp [hi.1])⟩
    · exact ⟨rfl,.keepState _⟩

theorem eventDinc_done (debt : Debt received sent owed) (hs : msg.packetType ≠ .query)
    (active : p.state = .active1 ∧ owed = none ∨ p.state = .active3 ∧ owed.isSome)
    (hp : p.state = .active3 → p.rij = [] →
      ProperIncrease c nbrCount (received ++ answer msg) sent p msg)
    (res : eventDinc c nbrCount p msg = some outcome) :
    Done (received ++ answer msg) sent outcome := by
  obtain ⟨ne,fst,res⟩ := bind_eq_some_iff.mp res
  have ha : Debt (received ++ answer msg) sent owed := debt.silent hs
  obtain ⟨state,rfl⟩ | ⟨state,ho⟩ := active
  · simp only [state,if_true] at res
    split at res
    · obtain ⟨⟨q,event⟩,hf,res⟩ := bind_eq_some_iff.mp res
      obtain ⟨hk,occurs⟩ := getFsmEvent_occurs hf
      simp only at hk occurs
      rw [hk] at res
      cases occurs with
      | keepState =>
        exact eventKeepState_done debt (by simp [hk,owing]) (by simp [hk]) res
      | lrFcs0 => exact eventLrFcs_done ha res
      | lrFcn0 =>
        exact eventLrFcn_done ha (by simp [hk]) (by simp [hk]) res
      | qact0 has => exact absurd has hs
    · cases res
      exact ⟨none,ha.append_nil,by simp [owing]⟩
  · simp only [state,reduceCtorEq,if_false] at res
    split at res
    · next none =>
      obtain ⟨⟨q,event⟩,hf,res⟩ := bind_eq_some_iff.mp res
      have hp := hp state none ne fst (q,event) hf
      obtain ⟨hk,occurs⟩ := getFsmEvent_occurs hf
      simp only at hk occurs
      rw [hk] at res
      cases occurs with
      | keepState =>
        exact eventKeepState_done debt (by simp [hk,owing,ho]) (by simp [hk]) res
      | lrFcs2 => exact absurd rfl hp.1
      | lrFcn2 =>
        exact eventLrFcn_done ha (by simp [hk,ho]) (fun none _ => hp.2 rfl none) res
    · cases res
      exact ⟨owed,ha.append_nil,by simp [owing,ho]⟩

theorem fsmEvent_done (debt : Debt received sent owed) (ho : owed.isSome ↔ owing p.state)
    (hp : ∀ found ∈ getFsmEvent c p msg,
      ProperEvent c nbrCount (received ++ answer msg) sent found.1 msg found.2)
    (res : fsmEvent c nbrCount p msg = some outcome) :
    Done (received ++ answer msg) sent outcome := by
  obtain ⟨⟨q,event⟩,found,res⟩ := bind_eq_some_iff.mp res
  obtain ⟨hu,has,infeasible,askedAgain,last,hi⟩ := hp (q,event) found
  obtain ⟨hk,occurs⟩ := getFsmEvent_occurs found
  rw [← hk] at ho occurs
  replace res : perform c nbrCount q msg (nsm q.state event) = some outcome := res
  generalize state : q.state = current at occurs ho res
  have hq (free : owing current = false) : owed = none := by
    rw [← not_isSome_iff_eq_none,ho,free]
    exact Bool.false_ne_true
  have hw (busy : owing current) : owed.isSome := ho.mpr busy
  cases occurs with
  | keepState =>
    have row : nsm current .keepState = .keepState := by cases current <;> rfl
    rw [row] at res
    exact eventKeepState_done debt (state ▸ ho) (fun passive => hu passive rfl) res
  | nqFcn hs =>
    cases hq rfl
    exact eventFcn_done (debt.silent hs) (by simp) (by simp) (by simp) res
  | qFcn ha =>
    cases hq rfl
    exact eventFcn_done (debt.asked ha) (by simp) (by simp) (fun none _ => has state rfl none) res
  | lrFcs0 hs =>
    cases hq rfl
    exact eventLrFcs_done (debt.silent hs) res
  | lrFcs2 => exact absurd rfl (infeasible state)
  | lrFcn0 hs =>
    cases hq rfl
    exact eventLrFcn_done (debt.silent hs) (by simp [state]) (by simp [state]) res
  | lrFcn2 hs =>
    exact eventLrFcn_done (debt.silent hs) (by simp [state,hw rfl])
      (fun none _ => askedAgain state rfl none) res
  | qact0 ha =>
    cases hq rfl
    exact eventQact_done (debt.asked ha) res
  | qact1 ha =>
    cases hq rfl
    exact eventQact_done (debt.asked ha) res
  | lr1 hs =>
    cases hq rfl
    exact eventLr_done (debt.silent hs) (by simp [state]) (by simp [state]) res
  | lr3 hs =>
    exact eventLr_done (debt.silent hs) (by simp [state,hw rfl]) (fun _ => last state rfl) res
  | dinc1 hs =>
    exact eventDinc_done debt hs (.inl ⟨state,hq rfl⟩) (by simp [state]) res
  | dinc3 hs =>
    exact eventDinc_done debt hs (.inr ⟨state,hw rfl⟩) (fun _ => hi state rfl) res

theorem settled_iff (m : Machine) :
    m.Settled ↔ ∀ p, m.entry = some p →
      ∃ owed, Debt m.received m.sent owed ∧ (owed.isSome ↔ owing p.state) := by
  refine forall_congr' fun p => imp_congr_right fun _ => ?_
  split
  · next busy =>
    constructor
    · rintro ⟨n,hc⟩
      exact ⟨some n,by simpa [Debt,eq_comm] using hc,by simp [busy]⟩
    rintro ⟨owed,debt,ho⟩
    obtain ⟨n,rfl⟩ := isSome_iff_exists.mp (ho.mpr busy)
    exact ⟨n,by simpa [Debt,eq_comm] using debt⟩
  · next free =>
    constructor
    · intro hc
      exact ⟨none,by simpa [Debt] using hc,by simpa using free⟩
    rintro ⟨owed,debt,ho⟩
    have none : owed = none := by rwa [← not_isSome_iff_eq_none,ho]
    simpa [Debt,none] using debt

theorem settled_step {m : Machine} {event : Event} (hs : m.Settled)
    (hp : m.Proper c event) : (m.step c event).Settled := by
  unfold Machine.step
  split
  · exact hs
  next p entry =>
  split
  · exact hs
  next there =>
  obtain ⟨owed,debt,ho⟩ := (settled_iff m).mp hs p entry
  cases event with
  | sendQueries nbrs =>
    refine (settled_iff _).mpr fun q h => ?_
    cases h
    refine ⟨owed,debt,?_⟩
    unfold sendQueries
    split <;> exact ho
  | others ents =>
    refine (settled_iff _).mpr fun q h => ?_
    cases h
    exact ⟨owed,debt,ho⟩
  | message nbrCount msg =>
    refine (settled_iff _).mpr fun q h => ?_
    cases res : fsmEvent c nbrCount p msg with
    | none => simp [res] at h
    | some outcome =>
      simp only [res,some.injEq] at h ⊢
      subst h
      exact fsmEvent_done debt ho (hp p entry (by simpa using there)) res

def Machine.start (p : PrefixEntry) : Machine := {entry := some p, received := [], sent := []}

/-- So no query is left unanswered when the prefix returns to Passive. -/
theorem settled_of_proper (c : Config) (p : PrefixEntry) (passive : p.state = .passive)
    (events : List Event)
    (proper : Throughout (Machine.step c) (Machine.Proper c) events (.start p)) :
    Throughout (Machine.step c) (fun m event => m.Settled ∧ (m.step c event).Settled) events
      (.start p) := by
  have init : (Machine.start p).Settled := by
    refine (settled_iff _).mpr fun q h => ?_
    cases h
    exact ⟨none,fun _ => rfl,by simp [passive,owing]⟩
  refine Throughout.guarantee (I := Machine.Settled) (fun m event hs proper => ?_) init proper
  have next := settled_step hs proper
  exact ⟨⟨hs,next⟩,next⟩

end

section

/-- Delay and bandwidth alone count, and are 256 and 10 on every interface. -/
def plain : Config :=
  { k1 := 1, k2 := 0, k3 := 1, k4 := 0, k5 := 0, variance := 1
    delay := fun _ => 1, bandwidth := fun _ => 256000000 }

def metrics (delay bandwidth : UInt32) : Metrics :=
  {zeroMetrics with delay := delay, bandwidth := bandwidth}

def packet (type : PacketType) (advRouter : Nat) (m : Metrics) : Event :=
  .message 2 {packetType := type, dataType := .int, advRouter := advRouter, metrics := m}

def oneSuccessor : PrefixEntry :=
  { state := .passive
    entries := [{ advRouter := 1, reportedDistance := 100, distance := 356
                  reportedMetric := metrics 90 10, totalMetric := metrics 346 10
                  successor := true }]
    rij := [], fdistance := 356, rdistance := 356, distance := 356
    reportedMetric := metrics 346 10, nt := .remote, needQuery := false, gone := false }

/-- A better path that is not feasible makes the prefix active, and the successor asks meanwhile. -/
def askedBySuccessor : List Event :=
  [packet .update 2 (metrics 0 1000),.sendQueries [1,2],packet .query 1 (metrics 90 10),
    packet .reply 1 (metrics 90 10)]

/-- No path is feasible after the first round of replies, and the query is answered after the
second. -/
theorem two_rounds_settled :
    let events := askedBySuccessor ++
      [packet .reply 2 (metrics 0 1000),.sendQueries [1,2],packet .reply 1 (metrics 90 10),
        packet .reply 2 (metrics 0 1000)]
    Throughout (Machine.step plain) (Machine.Proper plain) events (.start oneSuccessor) ∧
      Throughout (Machine.step plain) (fun m event => m.Settled ∧ (m.step plain event).Settled)
        events (.start oneSuccessor) := by
  intro events
  have hp : Throughout (Machine.step plain) (Machine.Proper plain) events
    (.start oneSuccessor) := by decide +kernel
  exact ⟨hp,settled_of_proper plain oneSuccessor rfl events hp⟩

/-- A path is feasible with the last reply, and in Passive the query of the successor is unanswered.
A query that brings a better metric in Passive is answered twice. -/
theorem query_unanswered_or_answered_twice :
    let m := run (Machine.step plain)
      (askedBySuccessor ++ [packet .reply 2 (metrics 0 50)]) (.start oneSuccessor)
    let n := (Machine.start oneSuccessor).step plain (packet .query 2 (metrics 0 10))
    m.entry.map (·.state) = some .passive ∧ m.received = [1] ∧ m.sent = [] ∧
      n.entry.map (·.state) = some .passive ∧ n.received = [2] ∧ n.sent = [2,2] := by
  decide +kernel

end

end Frr.Dual
