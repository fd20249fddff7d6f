import Frr.Ospf

/-! The interface state machine. The state is a byte, which also is an index of the table; what a
replacement pluglet for the election returns becomes a state. -/
namespace Frr.Ism

open List Option

open Ospf (IsmState NsmState)

section

structure Neighbor where
  routerId : UInt32
  priority : Int
  address : UInt32
  dRouter : UInt32
  bdRouter : UInt32
  state : NsmState
  deriving DecidableEq

/-- The pseudo neighbor, which the interface refers to as well, or another one. -/
inductive Slot where
  | self
  | other (nbr : Neighbor)
  deriving DecidableEq

/-- `struct ospf_interface`, with the counter of its area, `oi->area->act_ints`. -/
structure Interface where
  type : IfType
  state : UInt8
  address : UInt32
  nbrSelf : Neighbor
  nbrs : List Slot
  actInts : Nat := 0
  deriving DecidableEq

variable (oi : Interface)

/-- `DR(oi)` and `BDR(oi)`. -/
def Interface.dr : UInt32 := oi.nbrSelf.dRouter

def Interface.bdr : UInt32 := oi.nbrSelf.bdRouter

def Interface.at : Slot → Neighbor
  | .self => oi.nbrSelf
  | .other nbr => nbr

/-- `NBR_IS_DR` and `NBR_IS_BDR`. -/
def Neighbor.isDr (nbr : Neighbor) : Bool := nbr.address = nbr.dRouter

def Neighbor.isBdr (nbr : Neighbor) : Bool := nbr.address = nbr.bdRouter

end

section

def drElectionSub (routers : List Neighbor) : Option Neighbor :=
  routers.foldl (fun max nbr =>
    match max with
    | none => some nbr
    | some m =>
      if m.priority < nbr.priority ∨ m.priority = nbr.priority ∧ m.routerId < nbr.routerId then
        some nbr
      else some m) none

variable (oi : Interface) (eligible : List Slot)

def electDr : Interface :=
  let declared := (eligible.map oi.at).filter (·.isDr)
  let bdr := (eligible.map oi.at).reverse.find? fun nbr => oi.bdr = nbr.address
  let dr := if declared.isEmpty then bdr else drElectionSub declared
  {oi with nbrSelf := {oi.nbrSelf with dRouter := (dr.map (·.address)).getD 0}}

def electBdr : Interface :=
  let noDr := (eligible.map oi.at).filter fun nbr => ¬ nbr.isDr
  let declared := noDr.filter (·.isBdr)
  let bdr := if declared.isEmpty then drElectionSub noDr else drElectionSub declared
  {oi with nbrSelf := {oi.nbrSelf with bdRouter := (bdr.map (·.address)).getD 0}}

def code : IsmState → UInt8
  | .dependUpon => 0
  | .down => 1
  | .loopback => 2
  | .waiting => 3
  | .pointToPoint => 4
  | .drOther => 5
  | .backup => 6
  | .dr => 7

def ismState : IsmState :=
  if oi.dr = oi.address then .dr else if oi.bdr = oi.address then .backup else .drOther

def drEligibleRouters : List Slot :=
  oi.nbrs.filter fun slot =>
    (oi.at slot).routerId ≠ 0 ∧ 0 < (oi.at slot).priority ∧ .twoWay ≤ (oi.at slot).state

/-- The native body of `ospf_dr_election`. The events for the neighbors are only scheduled. -/
def nativeElection : Interface × IsmState :=
  let eligible := drEligibleRouters oi
  let first := electDr (electBdr oi eligible) eligible
  let new := ismState first
  if code new ≠ oi.state ∧ ¬ (new = .drOther ∧ oi.state < code .drOther) then
    let second := electDr (electBdr first eligible) eligible
    (second,ismState second)
  else (first,new)

/-- The replacement pluglets: for the election, which may return anything, and for the change of
state. -/
structure Pluglets where
  drElection : Option (Interface → UInt64)
  ismChangeState : Bool

/-- `ospf_dr_election`; the result is cast to an `int`. -/
def drElection (plugs : Pluglets) : Interface × UInt32 :=
  match plugs.drElection with
  | some rep => (oi,(rep oi).toUInt32)
  | none =>
    let (oi,new) := nativeElection oi
    (oi,(code new).toUInt32)

end

section

inductive Event where
  | noEvent | interfaceUp | waitTimer | backupSeen | neighborChange | loopInd | unloopInd
  | interfaceDown
  deriving DecidableEq

inductive Action where
  | ignore | interfaceUp | loopInd | interfaceDown | backupSeen | waitTimer | neighborChange
  deriving DecidableEq

def ism : IsmState → Event → Action × IsmState
  | .dependUpon, _ => (.ignore,.dependUpon)
  | _, .noEvent => (.ignore,.dependUpon)
  | .loopback, .interfaceDown => (.interfaceDown,.down)
  | .loopback, .unloopInd => (.ignore,.down)
  | .loopback, _ => (.ignore,.loopback)
  | _, .interfaceDown => (.interfaceDown,.down)
  | _, .loopInd => (.loopInd,.loopback)
  | .down, .interfaceUp => (.interfaceUp,.dependUpon)
  | .waiting, .waitTimer => (.waitTimer,.dependUpon)
  | .waiting, .backupSeen => (.backupSeen,.dependUpon)
  | .drOther, .neighborChange => (.neighborChange,.dependUpon)
  | .backup, .neighborChange => (.neighborChange,.dependUpon)
  | .dr, .neighborChange => (.neighborChange,.dependUpon)
  | state, _ => (.ignore,state)

def row (state : UInt8) : Option IsmState :=
  if state = 0 then some .dependUpon
  else if state = 1 then some .down
  else if state = 2 then some .loopback
  else if state = 3 then some .waiting
  else if state = 4 then some .pointToPoint
  else if state = 5 then some .drOther
  else if state = 6 then some .backup
  else if state = 7 then some .dr
  else none

variable (plugs : Pluglets)

/-- The `int` is stored in a byte. A replacement pluglet cannot write the interface. -/
def ismChangeState (oi : Interface) (state : UInt32) : Interface :=
  if plugs.ismChangeState then oi
  else
    {oi with
      state := state.toUInt8
      actInts := if state = 1 then oi.actInts - 1
        else if oi.state = 1 then oi.actInts + 1 else oi.actInts}

/-- The end of `ospf_ism_event`: if the function returned zero the table is read again. -/
def arrive (oi : Interface) (event : Event) (returned : UInt32) : Option Interface :=
  (if returned = 0 then (row oi.state).map fun now => (code (ism now event).2).toUInt32
    else some returned).map fun next =>
      if next ≠ oi.state.toUInt32 then ismChangeState plugs oi next else oi

/-- A NeighborChange event that `nsm_change_state` executes on the spot. -/
def neighborChange (oi : Interface) : Option Interface := do
  let now ← row oi.state
  match (ism now .neighborChange).1 with
  | .neighborChange =>
    let (oi,returned) := drElection oi plugs
    arrive plugs oi .neighborChange returned
  | _ => arrive plugs oi .neighborChange 0

/-- Whether `nsm_change_state` raises it for a neighbor that is deleted. -/
def notified (oi : Interface) (nbr : Neighbor) : Bool :=
  (oi.state = code .drOther ∨ oi.state = code .backup ∨ oi.state = code .dr) ∧
    .twoWay ≤ nbr.state

/-- The loop of `ospf_if_cleanup` that kills the neighbors, in the order of the table. -/
def killNbrs (before : List Slot) : List Slot → Interface → Option Interface
  | [], oi => some {oi with nbrs := before}
  | .self :: rest, oi => killNbrs (before ++ [.self]) rest oi
  | .other nbr :: rest, oi => do
    let deleted := {nbr with state := .deleted}
    let oi := {oi with nbrs := before ++ .other deleted :: rest}
    let oi ← if notified oi nbr then neighborChange plugs oi else some oi
    killNbrs before rest oi

/-- `ospf_if_cleanup`; at its end the pseudo neighbor is reset. -/
def ifCleanup (oi : Interface) : Option Interface :=
  (killNbrs plugs [] oi.nbrs oi).map fun oi =>
    {oi with nbrSelf := {oi.nbrSelf with dRouter := 0, bdRouter := 0, state := .twoWay}}

def ismInterfaceUp (oi : Interface) : IsmState :=
  if oi.type = .pointToPoint ∨ oi.type = .pointToMultipoint ∨ oi.type = .virtualLink then
    .pointToPoint
  else if oi.nbrSelf.priority = 0 then .drOther
  else .waiting

def act (oi : Interface) : Action → Option (Interface × UInt32)
  | .ignore => some (oi,0)
  | .interfaceUp => some (oi,(code (ismInterfaceUp oi)).toUInt32)
  | .loopInd => some (oi,0)
  | .interfaceDown => (ifCleanup plugs oi).map fun oi => (oi,0)
  | .backupSeen => some (drElection oi plugs)
  | .waitTimer => some (drElection oi plugs)
  | .neighborChange => some (drElection oi plugs)

/-- `ospf_ism_event`. The result is `none` if the table is read beyond its end. -/
def ismEvent (oi : Interface) (event : Event) : Option Interface := do
  let now ← row oi.state
  let (oi,returned) ← act plugs oi (ism now event).1
  arrive plugs oi event returned

end

section

/-- An event, with the pluglets injected then, or a change of neighbors and configuration. -/
inductive Happening where
  | event (plugs : Pluglets) (event : Event)
  | neighbors (nbrSelf : Neighbor) (nbrs : List Slot)
  | configure (type : IfType) (address : UInt32)

def step (oi : Interface) : Happening → Option Interface
  | .event plugs event => ismEvent plugs oi event
  | .neighbors nbrSelf nbrs => some {oi with nbrSelf := nbrSelf, nbrs := nbrs}
  | .configure type address => some {oi with type := type, address := address}

def Indexed (state : UInt8) : Prop := ∃ now : IsmState, now ≠ .dependUpon ∧ code now = state

variable {oi : Interface} {plugs : Pluglets} {event : Event} {now : IsmState}

@[simp] theorem row_code (now : IsmState) : row (code now) = some now := by
  cases now <;> rfl

theorem code_pos (hn : now ≠ .dependUpon) : (code now).toUInt32 ≠ 0 := by
  cases now with
  | dependUpon => exact absurd rfl hn
  | _ => decide

@[simp] theorem code_byte (now : IsmState) : (code now).toUInt32.toUInt8 = code now := by
  cases now <;> decide

theorem not_indexed_zero : ¬ Indexed 0 := by
  rintro ⟨now,named,zero⟩
  cases now <;> first | exact named rfl | exact absurd zero (by decide)

theorem arrive_indexed (start : Indexed oi.state) {returned : UInt32}
    (hg : returned ≠ 0 → Indexed returned.toUInt8)
    (table : ∀ now, row oi.state = some now → returned = 0 →
      (ism now event).2 ≠ .dependUpon) :
    ∃ oi', arrive plugs oi event returned = some oi' ∧ Indexed oi'.state := by
  have change {next : UInt32} (hfi : Indexed next.toUInt8) : Indexed
      (if next ≠ oi.state.toUInt32 then ismChangeState plugs oi next else oi).state := by
    split
    · simp only [ismChangeState]
      split
      · exact start
      · exact hfi
    · exact start
  simp only [arrive]
  split
  · rename_i zero
    obtain ⟨now,hn,eq⟩ := start
    have hf : row oi.state = some now := by rw [← eq,row_code]
    rw [hf]
    refine ⟨_,rfl,change ?_⟩
    rw [code_byte]
    exact ⟨_,table now hf zero,rfl⟩
  · rename_i hg'
    exact ⟨_,rfl,change (hg hg')⟩

def Pluglets.Valid (plugs : Pluglets) : Prop :=
  ∀ rep, plugs.drElection = some rep → ∀ oi, Indexed (rep oi).toUInt8

theorem nativeElection_indexed (oi : Interface) :
    (nativeElection oi).1.state = oi.state ∧ (nativeElection oi).2 ≠ .dependUpon := by
  have hn (oi : Interface) : ismState oi ≠ .dependUpon := by
    simp only [ismState]
    split
    · decide
    split
    · decide
    · decide
  simp only [nativeElection]
  split
  · exact ⟨rfl,hn _⟩
  · exact ⟨rfl,hn _⟩

theorem drElection_indexed (hv : plugs.Valid) :
    (drElection oi plugs).1.state = oi.state ∧ (drElection oi plugs).2 ≠ 0 ∧
      Indexed (drElection oi plugs).2.toUInt8 := by
  simp only [drElection]
  split
  · rename_i rep hi
    have hf : Indexed (rep oi).toUInt32.toUInt8 := by
      rw [UInt64.toUInt8_toUInt32]
      exact hv rep hi oi
    refine ⟨rfl,fun zero => not_indexed_zero ?_,hf⟩
    simp only at zero
    rw [zero] at hf
    exact hf
  · obtain ⟨eq,hn⟩ := nativeElection_indexed oi
    refine ⟨eq,code_pos hn,?_⟩
    rw [code_byte]
    exact ⟨_,hn,rfl⟩

theorem arrive_election (hv : plugs.Valid) (start : Indexed oi.state) :
    ∃ oi', arrive plugs (drElection oi plugs).1 event (drElection oi plugs).2 = some oi' ∧
      Indexed oi'.state := by
  obtain ⟨eq,hg,hf⟩ := @drElection_indexed oi plugs hv
  apply arrive_indexed (eq ▸ start) fun _ => hf
  exact fun _ _ zero => absurd zero hg

theorem ism_named (hn : now ≠ .dependUpon) (raised : event ≠ .noEvent)
    (hp : (ism now event).1 = .ignore ∨ (ism now event).1 = .loopInd ∨
      (ism now event).1 = .interfaceDown) : (ism now event).2 ≠ .dependUpon := by
  revert hp
  cases now <;> cases event <;> simp_all [ism]

theorem neighborChange_indexed (hv : plugs.Valid) (start : Indexed oi.state) :
    ∃ oi', neighborChange plugs oi = some oi' ∧ Indexed oi'.state := by
  obtain ⟨now,hn,eq⟩ := id start
  simp only [neighborChange,← eq,row_code,bind_eq_bind,bind_some]
  split
  · exact arrive_election hv start
  rename_i ho
  apply arrive_indexed start (fun zero => absurd rfl zero)
  intro now' hf _
  rw [← eq,row_code] at hf
  cases hf
  apply ism_named hn (by decide)
  cases now with
  | drOther => exact absurd rfl ho
  | backup => exact absurd rfl ho
  | dr => exact absurd rfl ho
  | _ => exact .inl rfl

theorem killNbrs_indexed (hv : plugs.Valid) {before rest : List Slot} {oi : Interface}
    (start : Indexed oi.state) :
    ∃ oi', killNbrs plugs before rest oi = some oi' ∧ Indexed oi'.state := by
  induction rest generalizing before oi with
  | nil => exact ⟨_,rfl,start⟩
  | cons slot rest ih =>
    cases slot with
    | self => exact ih start
    | other nbr =>
      simp only [killNbrs,bind_eq_bind]
      split
      · obtain ⟨hc,eq,hf⟩ := @neighborChange_indexed
          {oi with nbrs := before ++ .other {nbr with state := .deleted} :: rest} plugs hv
          start
        rw [eq]
        exact ih hf
      · exact ih start

theorem ifCleanup_indexed (hv : plugs.Valid) (start : Indexed oi.state) :
    ∃ oi', ifCleanup plugs oi = some oi' ∧ Indexed oi'.state := by
  obtain ⟨cleaned,eq,hf⟩ := @killNbrs_indexed plugs hv [] oi.nbrs oi start
  simp only [ifCleanup,eq,map_some]
  exact ⟨_,rfl,hf⟩

theorem act_indexed (hv : plugs.Valid) (hn : now ≠ .dependUpon) (raised : event ≠ .noEvent)
    (hh : oi.state = code now) :
    ∃ oi', (act plugs oi (ism now event).1).bind (fun res =>
      arrive plugs res.1 event res.2) = some oi' ∧ Indexed oi'.state := by
  have start : Indexed oi.state := ⟨now,hn,hh.symm⟩
  have hs (hp : (ism now event).1 = .ignore ∨ (ism now event).1 = .loopInd ∨
      (ism now event).1 = .interfaceDown) :
      ∃ oi', arrive plugs oi event 0 = some oi' ∧ Indexed oi'.state := by
    apply arrive_indexed start (fun zero => absurd rfl zero)
    intro now' hf _
    rw [hh,row_code] at hf
    cases hf
    exact ism_named hn raised hp
  cases action : (ism now event).1 with
  | ignore => exact hs (.inl action)
  | loopInd => exact hs (.inr (.inl action))
  | interfaceUp =>
    have up : ismInterfaceUp oi ≠ .dependUpon := by
      simp only [ismInterfaceUp]
      split
      · decide
      split
      · decide
      · decide
    apply arrive_indexed start
    · intro _
      rw [code_byte]
      exact ⟨_,up,rfl⟩
    · exact fun _ _ zero => absurd zero (code_pos up)
  | interfaceDown =>
    obtain ⟨cleaned,eq,hfi⟩ := @ifCleanup_indexed oi plugs hv start
    simp only [act,eq,map_some,bind_some]
    apply arrive_indexed hfi (fun zero => absurd rfl zero)
    intro now' hf _
    obtain ⟨ha,hn',he⟩ := hfi
    rw [← he] at hf
    rw [row_code] at hf
    cases hf
    have hd : event = .interfaceDown := by
      revert action
      cases now <;> cases event <;> simp [ism]
    apply ism_named hn' raised
    rw [hd]
    cases now' with
    | dependUpon => exact absurd rfl hn'
    | _ => exact .inr (.inr rfl)
  | backupSeen => exact arrive_election hv start
  | waitTimer => exact arrive_election hv start
  | neighborChange => exact arrive_election hv start

def Happening.Valid : Happening → Prop
  | .event plugs event => plugs.Valid ∧ event ≠ .noEvent
  | _ => True

theorem step_indexed {happening : Happening} (hv : happening.Valid) (start : Indexed oi.state) :
    ∃ oi', step oi happening = some oi' ∧ Indexed oi'.state := by
  cases happening with
  | event plugs event =>
    obtain ⟨now,hn,hh⟩ := start
    simp only [step,ismEvent,← hh,row_code,bind_eq_bind,bind_some]
    exact act_indexed hv.1 hn hv.2 hh.symm
  | neighbors nbrSelf nbrs => exact ⟨_,rfl,start⟩
  | configure ty addr => exact ⟨_,rfl,start⟩

def Action.elects : Action → Bool
  | .backupSeen => true
  | .waitTimer => true
  | .neighborChange => true
  | _ => false

theorem election_indexed_iff {rep : Interface → UInt64} (hh : row oi.state = some now)
    (start : Indexed oi.state) (elects : (ism now event).1.elects)
    (hi : plugs.drElection = some rep) (applied : plugs.ismChangeState = false) :
    (∃ oi', ismEvent plugs oi event = some oi' ∧ Indexed oi'.state) ↔ Indexed (rep oi).toUInt8 := by
  have table : (ism now event).2 = .dependUpon := by
    revert elects
    cases now <;> cases event <;> simp [ism,Action.elects]
  have election : act plugs oi (ism now event).1 = some (oi,(rep oi).toUInt32) := by
    revert elects
    cases (ism now event).1 <;> simp [act,Action.elects,drElection,hi]
  have res : ismEvent plugs oi event = arrive plugs oi event (rep oi).toUInt32 := by
    simp [ismEvent,hh,bind_eq_bind,bind_some,election]
  rw [res]
  have byte : (rep oi).toUInt32.toUInt8 = (rep oi).toUInt8 := UInt64.toUInt8_toUInt32 _
  generalize (rep oi).toUInt32 = returned at byte
  rw [← byte]
  by_cases zero : returned = 0
  · -- The table says DependUpon.
    subst zero
    obtain ⟨hn,hd,eq⟩ := start
    have changes : (code IsmState.dependUpon).toUInt32 ≠ oi.state.toUInt32 := by
      rw [← eq]
      exact fun hs => code_pos hd hs.symm
    have ha : ∃ n, arrive plugs oi event 0 = some {oi with state := 0, actInts := n} := by
      simp only [arrive,hh,table,map_some,if_true,if_pos changes,ismChangeState,applied]
      exact ⟨_,rfl⟩
    obtain ⟨_,ha⟩ := ha
    rw [ha]
    constructor
    · rintro ⟨oi',hs,hf⟩
      cases hs
      exact hf
    · exact fun hf => absurd hf not_indexed_zero
  · have ha : arrive plugs oi event returned =
        some (if returned ≠ oi.state.toUInt32 then ismChangeState plugs oi returned else oi) := by
      simp [arrive,zero]
    have hst : (ismChangeState plugs oi returned).state = returned.toUInt8 := by
      simp [ismChangeState,applied]
    rw [ha]
    constructor
    · rintro ⟨oi',hs,hf⟩
      cases hs
      split at hf
      · exact hst ▸ hf
      rename_i hu
      rw [not_not.mp hu,UInt8.toUInt8_toUInt32]
      exact hf
    · intro hf
      refine ⟨_,rfl,?_⟩
      split
      · exact hst ▸ hf
      · exact start

/-- With replacement pluglets that return states, the table is read inside its bounds and the state
is Down to DR; and where the result of an election is applied, it has to be one. -/
theorem indexed_iff_election_valid (oi : Interface) :
    (∀ happenings : List Happening, Indexed oi.state →
      (∀ happening ∈ happenings, happening.Valid) →
      ∃ oi', happenings.foldlM step oi = some oi' ∧ Indexed oi'.state) ∧
    ∀ (now : IsmState) (plugs : Pluglets) (event : Event) (rep : Interface → UInt64),
      row oi.state = some now → Indexed oi.state →
      (ism now event).1.elects → plugs.drElection = some rep →
      plugs.ismChangeState = false →
      ((∃ oi', ismEvent plugs oi event = some oi' ∧ Indexed oi'.state) ↔
        Indexed (rep oi).toUInt8) := by
  constructor
  · intro happenings start hv
    induction happenings generalizing oi with
    | nil => exact ⟨oi,rfl,start⟩
    | cons happening rest ih =>
      obtain ⟨next,eq,hf⟩ := step_indexed (hv happening (.head _)) start
      rw [foldlM_cons,eq]
      exact ih next hf fun ho mem => hv ho (.tail _ mem)
  · intro now plugs event rep hh start elects hi applied
    exact election_indexed_iff hh start elects hi applied

def waiting : Interface where
  type := .broadcast
  state := code .waiting
  address := 0x0a000001
  nbrSelf := ⟨1,1,0x0a000001,0,0,.twoWay⟩
  nbrs := [.self, .other ⟨2,1,0x0a000002,0,0,.twoWay⟩]

/-- Natively, the router becomes Backup; then the interface goes down. -/
theorem waiting_indexed :
    ∃ oi', [Happening.event ⟨none,false⟩ .waitTimer,.event ⟨none,false⟩ .interfaceDown].foldlM
      step waiting = some oi' ∧ Indexed oi'.state := by
  apply (indexed_iff_election_valid waiting).1 _ ⟨.waiting,by decide,rfl⟩
  intro hh mem
  have native : Pluglets.Valid ⟨none,false⟩ := fun _ hi => nomatch hi
  rcases mem_cons.mp mem with rfl | hl
  · exact ⟨native,by decide⟩
  cases mem_singleton.mp hl
  exact ⟨native,by decide⟩

/-- A pluglet that returns 0 leaves DependUpon; one that returns 8 a state without a row in the
table. -/
theorem election_out_of_table :
    (step waiting (.event ⟨some fun _ => 0,false⟩ .waitTimer)).map (·.state) =
        some (code .dependUpon) ∧
      [Happening.event ⟨some fun _ => 8,false⟩ .waitTimer,
        .event ⟨some fun _ => 8,false⟩ .neighborChange].foldlM step waiting = none := by
  decide

end

end Frr.Ism
