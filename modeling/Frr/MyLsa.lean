import Frr.NsmRuns

/-! The pluglet `originate_my_lsa`, which describes the colours of the links of an area in an LSA of
its own type: what it writes, and which LSAs are more recent. -/
namespace Frr.MyLsa

open Frr.Ospf List

section

/-- What is read of an interface. The state of the designated neighbor is missing if there is none.
-/
structure Port where
  state : IsmState
  type : IfType
  speed : UInt32
  address : UInt32
  masklen : Nat
  outputCost : UInt16
  stubRouted : Bool
  dr : UInt32
  drState : Option NsmState
  fullNbrs : Nat
  deriving DecidableEq

/-- `RED` and `GREEN`. -/
def red : UInt32 := 1
def green : UInt32 := 2

def Port.colour (port : Port) : UInt32 := if 500 < port.speed then green else red

/-- `my_ospf_link_cost`; the cost of a stub router is `OSPF_OUTPUT_COST_INFINITE`. -/
def Port.linkCost (port : Port) : UInt16 := if port.stubRouted then 0xffff else port.outputCost

/-- `my_link_info_set`: the words of a link. -/
def linkInfo (id data : UInt32) (type : UInt8) (cost : UInt16) (colour : UInt32) : List UInt32 :=
  [id,data,type.toUInt32 <<< 24 ||| cost.toUInt32,colour]

def linkBroadcastSet (port : Port) (colour : UInt32) : List UInt32 :=
  let mask := masklen2ip port.masklen
  let stub := linkInfo (port.address &&& mask) mask RouterLink.stub port.outputCost colour
  if port.state = .waiting then stub
  else if (port.drState.any fun state => state = .full ∨ port.address = port.dr) ∧
      0 < port.fullNbrs then
    linkInfo port.dr port.address RouterLink.transit port.linkCost colour
  else stub

def Port.links (port : Port) : List UInt32 :=
  if port.state = .down then []
  else
    match port.type with
    | .broadcast => linkBroadcastSet port port.colour
    | _ => []

/-- An execution that comes to its end. Its arrays have room for three interfaces, and the number of
links was never set. -/
structure Execution where
  area : Nat
  ports : List Port
  room : ports.length ≤ 3
  cnt : UInt16

/-- `plugin_ntohs(0x10)`: a 16-bit number in network order in the place of a 32-bit one. -/
def seqnum : UInt32 := 0x00100000

def Execution.body (x : Execution) : List UInt32 := x.cnt.toUInt32 :: x.ports.flatMap Port.links

def Execution.content (x : Execution) : Content :=
  ⟨0,UInt16.ofNat (Lsa.headerSize+4*x.body.length),x.body⟩

def key (core : Core) : LsaKey := ⟨linkColourLsa,core.routerId,core.routerId⟩

def Execution.lsa (core : Core) (x : Execution) : Instance :=
  sealed (ownLsa core (key core) seqnum x.content (some x.area))

/-- `plugin_ospf_lsa_install` and `plugin_ospf_flood_through_area`. -/
def Execution.event (env : Env) (core : Core) (x : Execution) : DaemonEvent :=
  .work (.originate env (key core) seqnum x.content (some x.area) none)

end

section

structure Plugged where
  daemon : Daemon
  made : List Instance

inductive PlugEvent where
  | execute (env : Env) (x : Execution)
  | other (event : DaemonEvent)

def Plugged.step (p : Plugged) : PlugEvent → Plugged
  | .execute env x =>
    ⟨p.daemon.step (x.event env p.daemon.core),p.made ++ [x.lsa p.daemon.core]⟩
  | .other event => ⟨p.daemon.step event,p.made⟩

def Numbered (lsa : Instance) : Prop := lsa.data.lsSeqnum = seqnum ∧ lsa.data.lsAge = 0

theorem Execution.numbered (core : Core) (x : Execution) : Numbered (x.lsa core) := ⟨rfl,rfl⟩

theorem step_numbered {p : Plugged} (all : ∀ lsa ∈ p.made, Numbered lsa) (ev : PlugEvent) :
    ∀ lsa ∈ (p.step ev).made, Numbered lsa := by
  cases ev with
  | execute env x =>
    intro lsa mem
    rcases mem_append.mp mem with old | new
    · exact all lsa old
    rw [mem_singleton.mp new]
    exact x.numbered _
  | other ev => exact all

theorem run_numbered {p : Plugged} (all : ∀ lsa ∈ p.made, Numbered lsa)
    (evs : List PlugEvent) : ∀ lsa ∈ (Trace.run Plugged.step evs p).made, Numbered lsa := by
  induction evs generalizing p with
  | nil => exact all
  | cons ev rest ih => exact ih (step_numbered all ev)

def ageAt (later earlier : Instance) : Nat := (later.tvRecv-earlier.tvRecv) / 1000000

/-- More recent with the same sequence number: by its checksum, or because the earlier one is too
old to be the same. -/
def Exceeds (later earlier : Instance) : Prop :=
  earlier.data.checksum < later.data.checksum ∨
    earlier.data.checksum = later.data.checksum ∧
      Instance.maxAgeDiff < ageAt later earlier ∧ ageAt later earlier < Lsa.maxAge

theorem moreRecent_iff_exceeds {later earlier : Instance} (new : Numbered later)
    (old : Numbered earlier) :
    0 < Instance.moreRecent later.tvRecv later earlier ↔ Exceeds later earlier := by
  have num : later.seqnum = earlier.seqnum := by
    simp [Instance.seqnum,new.1,old.1]
  have hf : later.lsAge later.tvRecv = 0 := by
    simp [Instance.lsAge,Instance.getAge,new.2]
  have hag : earlier.lsAge later.tvRecv = min Lsa.maxAge (ageAt later earlier) := by
    simp [Instance.lsAge,Instance.getAge,ageAt,old.2]
  have hy : later.isMaxAge later.tvRecv = false := by
    simp [Instance.isMaxAge,hf,Lsa.maxAge]
  have order : earlier.data.checksum < later.data.checksum ↔
      earlier.data.checksum.toNat < later.data.checksum.toNat := Iff.rfl
  simp only [Instance.moreRecent,num,lt_irrefl,if_false,hy,Exceeds]
  by_cases hs : later.data.checksum = earlier.data.checksum
  · rw [if_neg (not_not_intro hs),hs]
    simp only [hf,hag,Instance.isMaxAge,Lsa.maxAge,Instance.maxAgeDiff,Bool.false_eq_true,
      false_and,if_false,not_false_eq_true,true_and,not_lt_zero,zero_add]
    generalize ageAt later earlier = age
    by_cases ha : 3600 ≤ age
    · simp [min_eq_left ha,UInt16.lt_irrefl]
      omega
    have hl : min 3600 age = age := min_eq_right (by omega)
    have hy : age ≠ 3600 := by omega
    simp only [hl,hy,decide_false,Bool.false_eq_true,if_false,UInt16.lt_irrefl,false_or]
    split
    · omega
    · omega
  · rw [if_pos hs]
    have ne : later.data.checksum.toNat ≠ earlier.data.checksum.toNat := fun eq =>
      hs (UInt16.toNat_inj.mp eq)
    rw [order]
    constructor
    · intro hr
      exact .inl (by omega)
    rintro (hl | ⟨eq,-⟩)
    · omega
    · exact absurd eq.symm hs

/-- An LSA that differs from the one before is related to all earlier ones. -/
def Supersedes (related : Instance → Instance → Prop) (made : List Instance) : Prop :=
  ∀ first previous later rest, made = first ++ previous :: later :: rest →
    later.data.body ≠ previous.data.body →
      ∀ earlier ∈ first ++ [previous], related later earlier

theorem Supersedes.congr {made : List Instance} {related related' : Instance → Instance → Prop}
    (eq : ∀ later ∈ made, ∀ earlier ∈ made, related later earlier ↔ related' later earlier) :
    Supersedes related made ↔ Supersedes related' made := by
  have mems : ∀ fst prev later rest, made = fst ++ prev :: later :: rest →
      later ∈ made ∧ ∀ earlier ∈ fst ++ [prev], earlier ∈ made := by
    rintro fst prev later rest rfl
    refine ⟨by simp,fun earlier mem => ?_⟩
    rcases mem_append.mp mem with old | last
    · exact mem_append_left _ old
    rw [mem_singleton.mp last]
    simp
  constructor
  · intro all fst prev later rest split hd earlier mem
    obtain ⟨inMade,hb⟩ := mems fst prev later rest split
    exact (eq later inMade earlier (hb earlier mem)).mp
      (all fst prev later rest split hd earlier mem)
  intro all fst prev later rest split hd earlier mem
  obtain ⟨inMade,hb⟩ := mems fst prev later rest split
  exact (eq later inMade earlier (hb earlier mem)).mpr
    (all fst prev later rest split hd earlier mem)

/-- Each LSA with another body than the one before is more recent than all before if and only if its
checksum is higher, or the same and they are old enough and not yet of MaxAge. -/
theorem new_colours_recent_iff (d : Daemon) (events : List PlugEvent) :
    let made := (Trace.run Plugged.step events ⟨d,[]⟩).made
    Supersedes (fun hl he => 0 < Instance.moreRecent hl.tvRecv hl he) made ↔
      Supersedes Exceeds made := by
  intro made
  have numbered : ∀ lsa ∈ made, Numbered lsa := run_numbered (by simp) events
  apply Supersedes.congr
  intro hl new he old
  exact moreRecent_iff_exceeds (numbered hl new) (numbered he old)

def lanPort (speed : UInt32) : Port :=
  { state := .dr, type := .broadcast, speed := speed, address := 0x0a000001, masklen := 24
    outputCost := 10, stubRouted := false, dr := 0x0a000001, drState := some .twoWay
    fullNbrs := 0 }

def lanExecution (speed : UInt32) : Execution := ⟨0,[lanPort speed],by simp,0⟩

/-- The link turns from green to red: the checksum gets lower. -/
theorem red_less_recent :
    ¬ Supersedes (fun later earlier => 0 < Instance.moreRecent later.tvRecv later earlier)
      (Trace.run Plugged.step
        [.execute quietEnv (lanExecution 1000), .other (.work (.elapse 60000000)),
          .execute quietEnv (lanExecution 100)] ⟨station,[]⟩).made := by
  intro hr
  have later := hr [] _ _ [] rfl (by decide +kernel) _ (mem_singleton.mpr rfl)
  revert later
  decide +kernel

end

end Frr.MyLsa
