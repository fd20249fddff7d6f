import Frr.PluginsExecution
import Frr.Spf
import Frr.LsUpdateRuns
import Frr.Ism

/-! The functions with an insertion point that has all three anchors: the `PRE` pluglets, the `REP`
pluglet or the native body, the `POST` pluglets. Three bodies have a `return` that leaves the whole
function. -/
namespace Frr.Plugins

open List Option Daemon Ospf Trace

section

/-- How a native body ends: at its last statement, at a `return`, or in a failed assertion. -/
inductive Ending where
  | finished | returned | aborted
  deriving DecidableEq

inductive Wrapped where
  | ospfSpfCalculate | ospfSpfNext | ospfFlood | ospfHelloSend | ismChangeState | ospfDrElection
  deriving DecidableEq

def Wrapped.point : Wrapped → Point
  | .ospfSpfCalculate => .spfCalc
  | .ospfSpfNext => .ospfSpfNext
  | .ospfFlood => .lsaFlood
  | .ospfHelloSend => .sendHello
  | .ismChangeState => .ismChangeState
  | .ospfDrElection => .drElection

/-- The area of a calculation, unless its `router_lsa_self` is `NULL`, and the tree. -/
structure SpfCalculate where
  area : Option Spf.Area
  spf : Option Spf.State

structure SpfNext where
  area : Spf.Area
  spf : Spf.State
  v : LsaKey

structure Flood where
  state : State
  nbr : Nat
  current : Option Nat
  new : Nat

/-- What `ospf_hello_send` reads of the interface, and the destinations of the packets. -/
structure HelloSend where
  oi : Ism.Interface
  passive : Bool
  peerAddr : UInt32
  sent : List UInt32

structure ChangeState where
  oi : Ism.Interface
  state : UInt32

structure Election where
  oi : Ism.Interface
  ret : Option IsmState

def Wrapped.Data : Wrapped → Type
  | .ospfSpfCalculate => SpfCalculate
  | .ospfSpfNext => SpfNext
  | .ospfFlood => Flood
  | .ospfHelloSend => HelloSend
  | .ismChangeState => ChangeState
  | .ospfDrElection => Election

/-- The calculation after its first test, perhaps by pluglets and without end. The rest is what the
link-state procedures call. -/
structure Bodies where
  calculate : Spf.Area → Option Spf.State
  ospf : Env

/-- The calculation with the native `ospf_spf_next`. -/
def nativeCalculate (area : Spf.Area) : Option Spf.State :=
  match Spf.spfCalculate area area.lsdb.length with
  | .finished s => some s
  | _ => none

variable (bodies : Bodies)

def SpfCalculate.native (c : SpfCalculate) : Ending × SpfCalculate :=
  match c.area with
  | none => (.returned,c)
  | some area =>
    match bodies.calculate area with
    | none => (.aborted,c)
    | some spf => (.finished,{c with spf := some spf})

def SpfNext.native (c : SpfNext) : Ending × SpfNext :=
  match Spf.spfNext c.area c.spf c.v with
  | none => (.aborted,c)
  | some spf => (.finished,{c with spf := spf})

def Flood.atInstall (c : Flood) : State :=
  let core := c.state.core
  ⟨markReceived core c.new,
    sweepCurrent core (floodThrough core (some c.nbr) c.new c.state.net).1 c.nbr c.current⟩

/-- Both early returns of `ospf_flood` give `-1`. -/
def Flood.ending (c : Flood) : Ending :=
  if c.current.any fun current => arrivedRecently c.state.core current then .returned
  else
    match (lsaInstall bodies.ospf c.atInstall (some (c.state.net.neighbor c.nbr).oi) c.new).2 with
    | none => .returned
    | some _ => .finished

def Flood.native (c : Flood) : Ending × Flood :=
  (c.ending bodies,{c with state := flood bodies.ospf c.state c.nbr c.current c.new})

/-- A router that cannot become Designated Router only greets the two there are; the others leave
out neighbors that cannot, unless one of the two or still waiting. -/
def HelloSend.greets (c : HelloSend) : Ism.Slot → Option UInt32
  | .self => none
  | .other nbr =>
    if nbr.state = .down then none
    else if c.oi.nbrSelf.priority = 0 ∧ c.oi.dr ≠ nbr.address ∧ c.oi.bdr ≠ nbr.address then none
    else if nbr.priority = 0 ∧ c.oi.state = Ism.code .drOther then none
    else some nbr.address

def allSpfRouters : UInt32 := 0xe0000005

def HelloSend.destinations (c : HelloSend) : List UInt32 :=
  if c.oi.type = .nbma then c.oi.nbrs.filterMap c.greets
  else if c.oi.type = .virtualLink then [c.peerAddr]
  else [allSpfRouters]

def HelloSend.native (c : HelloSend) : Ending × HelloSend :=
  if c.passive then (.returned,c) else (.finished,{c with sent := c.sent ++ c.destinations})

def ChangeState.native (c : ChangeState) : Ending × ChangeState :=
  (.finished,{c with oi := {c.oi with state := c.state.toUInt8}})

def Election.native (c : Election) : Ending × Election :=
  let (oi,new) := Ism.nativeElection c.oi
  (.finished,⟨oi,some new⟩)

def Wrapped.native : (f : Wrapped) → f.Data → Ending × f.Data
  | .ospfSpfCalculate => SpfCalculate.native bodies
  | .ospfSpfNext => SpfNext.native
  | .ospfFlood => Flood.native bodies
  | .ospfHelloSend => HelloSend.native
  | .ismChangeState => ChangeState.native
  | .ospfDrElection => Election.native

end

section

inductive Ran where
  | pluglet (anchor : Anchor) (address : Nat)
  | native
  deriving DecidableEq

structure Call (σ : Type) where
  daemon : Daemon
  data : σ
  log : List Ran

variable {σ : Type} (jit : Bool) (p : Point) (block : Nat) (e : Engine) (act : Nat → σ → σ)

def Call.execute (anchor : Anchor) (c : Call σ) (x : Execution) : Call σ :=
  let d := Plugins.execute e c.daemon x
  match x.pluglet with
  | none => {c with daemon := d}
  | some pluglet =>
    if d.ran.length = c.daemon.ran.length then {c with daemon := d}
    else ⟨d,act pluglet c.data,c.log ++ [.pluglet anchor pluglet]⟩

def Call.reach (c : Call σ) (anchor : Anchor) : Call σ :=
  let (d,xs) := arrive jit c.daemon (.reach p anchor block 0 e)
  xs.foldl (Call.execute e act anchor) {c with daemon := d}

def Daemon.injected (d : Daemon) (anchor : Anchor) : List Nat :=
  (d.slots p.id anchor).filterMap id

def Call.onwards (native : σ → Ending × σ) (c : Call σ) : Call σ :=
  if c.daemon.injected p .rep ≠ [] then
    (c.reach jit p block e act .rep).reach jit p block e act .post
  else
    let (ending,data) := native c.data
    let c : Call σ := ⟨c.daemon,data,c.log ++ [.native]⟩
    match ending with
    | .finished => c.reach jit p block e act .post
    | .returned => c
    | .aborted => {c with daemon := {c.daemon with status := .crashed}}

def Call.around (native : σ → Ending × σ) (c : Call σ) : Call σ :=
  let c := c.reach jit p block e act .pre
  if c.daemon.status ≠ .running then c else c.onwards jit p block e act native

def Daemon.core (d : Daemon) : List Ran :=
  if d.injected p .rep = [] then [.native] else (d.injected p .rep).map (.pluglet .rep)

/-- All `PRE` pluglets, the `REP` pluglet or the native body, all `POST` pluglets. -/
def Daemon.balanced (d : Daemon) : List Ran :=
  (d.injected p .pre).map (.pluglet .pre) ++ d.core p ++
    (d.injected p .post).map (.pluglet .post)

end

section

variable {d : Daemon} {e : Engine} {jit : Bool} {p : Point} {block pkt : Nat} {anchor : Anchor}

def Packed (d : Daemon) : Prop :=
  ∀ id anchor, ∃ (present : List Nat) (room : Nat),
    d.slots id anchor = present.map some ++ replicate room none

theorem Packed.congr {d' : Daemon} (hp : Packed d)
    (eq : ∀ id anchor, d'.slots id anchor = d.slots id anchor) : Packed d' := by
  intro id anchor
  rw [eq]
  exact hp id anchor

theorem slots_congr {d' : Daemon} (eq : d'.plugins = d.plugins) (id : Nat) :
    d'.slots id anchor = d.slots id anchor := by
  simp [slots,eq]

theorem runPluglet_plugins (d : Daemon) (plug : Nat) (mem : Option Nat) (val : Vm → UInt64) :
    (runPluglet d plug mem val).2.plugins = d.plugins := by
  simp only [runPluglet]
  split
  · split <;> rfl
  · rfl

theorem execute_plugins (d : Daemon) (x : Execution) : (execute e d x).plugins = d.plugins := by
  simp only [execute]
  split
  · rfl
  split
  · rfl
  cases x.executor with
  | execLoadedCode =>
    simp only [execLoadedCode]
    split
    · rfl
    · exact runPluglet_plugins ..
  | compileAndExecJit =>
    simp only [compileAndExecJit]
    split
    · rfl
    split
    · split
      · rfl
      · exact runPluglet_plugins ..
    · rfl

theorem prepare_slots (plugin : Plugin) : (plugin.prepare p block).slots anchor = plugin.slots anchor := by
  simp only [Plugin.prepare]
  split
  · cases anchor <;> rfl
  · rfl

theorem prepare_prepare (plugin : Plugin) :
    (plugin.prepare p block).prepare p block = plugin.prepare p block := by
  cases kind : p.typeArg with
  | none => simp [Plugin.prepare,kind]
  | some typeArg => cases hk : plugin.arguments <;> simp [Plugin.prepare,kind,hk]

def Daemon.entered (d : Daemon) (p : Point) (block : Nat) : Daemon :=
  match d.plugins p.id with
  | none => d
  | some plugin => d.setPlugin p.id (plugin.prepare p block)

theorem arrive_reach (d : Daemon) :
    (arrive jit d (.reach p anchor block pkt e)).1 = d.entered p block := by
  simp only [arrive,entered]
  cases d.plugins p.id <;> rfl

theorem entered_slots (d : Daemon) (id : Nat) :
    (d.entered p block).slots id anchor = d.slots id anchor := by
  simp only [entered]
  split
  · rfl
  next plugin there =>
  by_cases eq : id = p.id
  · rw [eq,setPlugin_slots_same,prepare_slots]
    simp [slots,there]
  · exact setPlugin_slots_other _ anchor eq

theorem arrive_again {d' : Daemon} (eq : d'.plugins = (d.entered p block).plugins) :
    arrive jit d' (.reach p anchor block pkt e) =
      (d',(arrive jit d (.reach p anchor block pkt e)).2) := by
  simp only [arrive,eq,entered]
  cases ht : d.plugins p.id with
  | none => simp [ht]
  | some plugin =>
    have hk : d'.plugins = fun i => if i = p.id then some (plugin.prepare p block) else d.plugins i := by
      rw [eq]
      simp [entered,ht,setPlugin]
    simp only [setPlugin,↓reduceIte,prepare_prepare,Prod.mk.injEq,and_true]
    cases d'
    simp only [Daemon.mk.injEq,and_true] at hk ⊢
    funext i
    simp only [hk]
    split <;> rfl

theorem Packed.message (hpa : Packed d) (m : Message) (a : Answers) :
    Packed (pluginsManager d m a).2 := by
  have filling : ∀ {plugin filled : Plugin} {plug : Nat},
      pluginAt d m.insertionPoint.toNat a = some plugin →
      plugin.create m.anchor (some plug) = some filled →
      Packed (d.setPlugin m.insertionPoint.toNat filled) := by
    intro plugin filled plug hp res id anchor
    obtain ⟨which,-,fills,others⟩ := create_slots res
    by_cases hh : id = m.insertionPoint.toNat
    · rw [hh,setPlugin_slots_same]
      by_cases eq : anchor = which
      · obtain ⟨hb,room,shape⟩ := hpa m.insertionPoint.toNat which
        rw [pluginAt_slots hp,shape] at fills
        rw [eq,(fillSlot_packed fills).2]
        exact ⟨hb ++ [plug],room-1,by simp⟩
      rw [others anchor eq,pluginAt_slots hp]
      exact hpa _ anchor
    · rw [setPlugin_slots_other _ anchor hh]
      exact hpa id anchor
  have out := injectPluglet_outcome d m.insertionPoint m.anchor a
  unfold pluginsManager
  generalize injectPluglet d m.insertionPoint m.anchor a = res at out
  obtain ⟨ok,ha⟩ := res
  cases out with
  | ignored => exact hpa
  | prepared _ hp => exact hpa.congr fun id anchor => prepared_slots hp id anchor
  | failed _ _ hp hc => exact (filling hp hc).congr fun _ _ => rfl
  | loaded _ _ _ hp hc => exact (filling hp hc).congr fun _ _ => rfl

theorem foldl_execute_plugins (d : Daemon) (xs : List Execution) :
    (xs.foldl (execute e) d).plugins = d.plugins := by
  induction xs generalizing d with
  | nil => rfl
  | cons x rest ih => rw [foldl_cons,ih,execute_plugins]

theorem Packed.step (hp : Packed d) (jit : Bool) (ev : Event) : Packed (Plugins.step jit d ev) := by
  cases ev with
  | message m a => exact hp.message m a
  | reach p anchor block pkt e =>
    refine hp.congr fun id which => ?_
    rw [Plugins.step,slots_congr (foldl_execute_plugins _ _),arrive_reach,entered_slots]

theorem Packed.run (hp : Packed d) (jit : Bool) (evs : List Event) :
    Packed (run (Plugins.step jit) evs d) := by
  induction evs generalizing d with
  | nil => exact hp
  | cons ev evs ih => exact ih (hp.step jit ev)

theorem initial_packed : Packed .initial := fun _ anchor => ⟨[],anchor.capacity,rfl⟩

theorem slotLoop_packed (mem : Option Nat) (present : List Nat) (room : Nat) :
    (slotLoop mem (present.map some ++ replicate room none)).map Execution.pluglet =
      present.map some := by
  induction present with
  | nil => cases room <;> rfl
  | cons plug rest ih =>
    simp only [map_cons,cons_append,slotLoop]
    rw [ih]

theorem executions_pluglets {plugin : Plugin} {typeArg : Int} {present : List Nat} {room : Nat}
    (kind : p.typeArg = some typeArg)
    (shape : plugin.slots anchor = present.map some ++ replicate room none) :
    (executions jit plugin p anchor pkt).map Execution.pluglet = present.map some := by
  cases anchor with
  | pre =>
    simp only [Plugin.slots] at shape
    simp [executions,kind,shape,slotLoop_packed]
  | post =>
    simp only [Plugin.slots] at shape
    simp [executions,kind,shape,slotLoop_packed]
  | rep =>
    simp only [Plugin.slots] at shape
    simp only [executions,kind]
    cases rep : plugin.plugletRep with
    | none => cases present <;> simp_all
    | some plug =>
      cases present with
      | nil => cases room <;> simp [rep,replicate_succ] at shape
      | cons fst rest => simp_all

theorem calls_pluglets (hpa : Packed d) (f : Wrapped) :
    (arrive jit d (.reach f.point anchor block pkt e)).2.map Execution.pluglet =
      (d.injected f.point anchor).map some := by
  obtain ⟨typeArg,kind⟩ : ∃ typeArg, f.point.typeArg = some typeArg := by
    cases f <;> exact ⟨_,rfl⟩
  obtain ⟨hp,room,shape⟩ := hpa f.point.id anchor
  have all : d.injected f.point anchor = hp := by
    simp [injected,shape,filterMap_append]
  rw [all]
  simp only [arrive]
  cases ht : d.plugins f.point.id with
  | none =>
    have none : hp = [] := by
      simp only [slots,ht] at shape
      cases hp with
      | nil => rfl
      | cons plug rest =>
        cases anchor <;> simp [Anchor.capacity,maxNbrPluglets,replicate_succ] at shape
    simp [none]
  | some plugin =>
    apply executions_pluglets kind
    rw [prepare_slots,← shape]
    simp [slots,ht]

end

section

variable {d : Daemon} {e : Engine} {x : Execution}

theorem execute_dead (hd : Dead d) (x : Execution) :
    (execute e d x).ran = d.ran ∧ Dead (execute e d x) := by
  simp only [execute]
  split
  · exact ⟨rfl,hd⟩
  next running =>
  have hh : d.lockCurrentContext := hd.resolve_left running
  simp [hh,Dead]

end

section

variable {σ : Type} {jit : Bool} {p : Point} {block : Nat} {e : Engine} {act : Nat → σ → σ}
  {anchor : Anchor} {c : Call σ} {x : Execution} {xs : List Execution} {pluglets : List Nat}

structure Went (e : Engine) (act : Nat → σ → σ) (anchor : Anchor) (pluglets : List Nat)
    (c c' : Call σ) : Prop where
  quiet : Quiet c'.daemon
  plugins : c'.daemon.plugins = c.daemon.plugins
  runs : ∀ y, Runs e c'.daemon y ↔ Runs e c.daemon y
  data : c'.data = pluglets.foldl (fun s pluglet => act pluglet s) c.data
  log : c'.log = c.log ++ pluglets.map (.pluglet anchor)

variable (act anchor) in
theorem Went.execute (hq : Quiet c.daemon) (runs : Runs e c.daemon x) {plug : Nat}
    (hn : x.pluglet = some plug) :
    Went e act anchor [plug] c (c.execute e act anchor x) := by
  obtain ⟨ho,vm,vm',ctx,ctx',plugin,eq,-,-,ha,-⟩ := execute_runs hq runs
  obtain rfl : plug = ho := some.inj (hn.symm.trans eq)
  have grew : (Plugins.execute e c.daemon x).ran.length ≠ c.daemon.ran.length := by
    simp [ha,ranPluglet]
  have res : c.execute e act anchor x =
      ⟨Plugins.execute e c.daemon x,act plug c.data,c.log ++ [.pluglet anchor plug]⟩ := by
    simp [Call.execute,hn,if_neg grew]
  rw [res]
  exact ⟨(quiet_execute_iff hq).mpr runs,execute_plugins _ _,runs_execute_iff hq runs,rfl,rfl⟩

theorem Went.foldl (hq : Quiet c.daemon) (runs : ∀ x ∈ xs, Runs e c.daemon x)
    (hn : xs.map Execution.pluglet = pluglets.map some) :
    Went e act anchor pluglets c (xs.foldl (Call.execute e act anchor) c) := by
  induction xs generalizing c pluglets with
  | nil =>
    obtain rfl : pluglets = [] := by simpa using hn
    exact ⟨hq,rfl,fun _ => Iff.rfl,rfl,by simp⟩
  | cons x rest ih =>
    cases pluglets with
    | nil => simp at hn
    | cons plug others =>
      simp only [map_cons,cons.injEq] at hn
      have fst := Went.execute act anchor hq (runs x (by simp)) hn.1
      have others := ih fst.quiet (fun y mem => (fst.runs y).mpr (runs y (by simp [mem]))) hn.2
      refine ⟨others.quiet,others.plugins.trans fst.plugins,
        fun y => (others.runs y).trans (fst.runs y),?_,?_⟩
      · rw [foldl_cons,others.data,fst.data]
        rfl
      rw [foldl_cons,others.log,fst.log]
      simp

variable (act anchor) in
theorem execute_log_le (c : Call σ) (x : Execution) :
    (c.execute e act anchor x).log.length ≤ c.log.length+1 := by
  simp only [Call.execute]
  split
  · exact Nat.le_succ _
  split
  · exact Nat.le_succ _
  · simp

theorem foldl_log_le (c : Call σ) (xs : List Execution) :
    (xs.foldl (Call.execute e act anchor) c).log.length ≤ c.log.length+xs.length := by
  induction xs generalizing c with
  | nil => simp
  | cons x rest ih =>
    have fst := execute_log_le (e := e) act anchor c x
    have others := ih (c.execute e act anchor x)
    simp only [foldl_cons,length_cons]
    omega

variable (act anchor) in
theorem execute_log_same (eq : (Plugins.execute e c.daemon x).ran = c.daemon.ran) :
    (c.execute e act anchor x).log = c.log ∧
      (c.execute e act anchor x).daemon = Plugins.execute e c.daemon x := by
  simp only [Call.execute,eq,↓reduceIte]
  split <;> exact ⟨rfl,rfl⟩

theorem foldl_log_dead (hd : Dead c.daemon) (xs : List Execution) :
    (xs.foldl (Call.execute e act anchor) c).log = c.log := by
  induction xs generalizing c with
  | nil => rfl
  | cons x rest ih =>
    obtain ⟨ran,hd'⟩ := execute_dead (e := e) hd x
    obtain ⟨log,daemon⟩ := execute_log_same act anchor ran
    rw [foldl_cons,ih (by rw [daemon]; exact hd'),log]

theorem foldl_log_lt (hq : Quiet c.daemon) (stuck : ¬ ∀ x ∈ xs, Runs e c.daemon x) :
    (xs.foldl (Call.execute e act anchor) c).log.length < c.log.length+xs.length := by
  induction xs generalizing c with
  | nil => simp at stuck
  | cons x rest ih =>
    simp only [foldl_cons,length_cons]
    by_cases runs : Runs e c.daemon x
    · obtain ⟨plug,-,-,-,hn,-⟩ := id runs
      have fst := Went.execute act anchor hq runs hn
      have others := ih fst.quiet fun all => stuck fun y mem => by
        rcases mem_cons.mp mem with rfl | mem
        · exact runs
        · exact (fst.runs y).mp (all y mem)
      have hg := congrArg length fst.log
      simp only [length_append,length_map,length_singleton] at hg
      omega
    · obtain ⟨ran,hd⟩ := execute_stuck_dead hq runs
      obtain ⟨log,daemon⟩ := execute_log_same act anchor ran
      rw [foldl_log_dead (by rw [daemon]; exact hd),log]
      omega

theorem foldl_daemon_plugins (c : Call σ) (xs : List Execution) :
    (xs.foldl (Call.execute e act anchor) c).daemon.plugins = c.daemon.plugins := by
  induction xs generalizing c with
  | nil => rfl
  | cons x rest ih =>
    rw [foldl_cons,ih]
    simp only [Call.execute]
    split
    · exact execute_plugins _ _
    · split <;> exact execute_plugins _ _

end

section

variable {σ : Type} {jit : Bool} {f : Wrapped} {block : Nat} {e : Engine} {act : Nat → σ → σ}
  {anchor : Anchor} {d : Daemon} {c : Call σ}

def calls (jit : Bool) (f : Wrapped) (block : Nat) (e : Engine) (d : Daemon) (anchor : Anchor) :
    List Execution :=
  (arrive jit d (.reach f.point anchor block 0 e)).2

def Inside (f : Wrapped) (block : Nat) (d : Daemon) (c : Call σ) : Prop :=
  c.daemon.plugins = (d.entered f.point block).plugins

variable (act anchor) in
theorem Inside.reach (hi : Inside f block d c) :
    c.reach jit f.point block e act anchor =
      (calls jit f block e d anchor).foldl (Call.execute e act anchor) c := by
  rw [Call.reach,arrive_again hi]
  rfl

theorem Inside.injected (hi : Inside f block d c) :
    c.daemon.injected f.point anchor = d.injected f.point anchor := by
  rw [Daemon.injected,slots_congr hi,entered_slots]
  rfl

theorem calls_named (hp : Packed d) (anchor : Anchor) :
    (calls jit f block e d anchor).map Execution.pluglet =
      (d.injected f.point anchor).map some :=
  calls_pluglets hp f

theorem calls_length (hp : Packed d) (anchor : Anchor) :
    (calls jit f block e d anchor).length = (d.injected f.point anchor).length := by
  have hn := @calls_named jit f block e d hp anchor
  simpa using congrArg length hn

variable (jit e act) in
theorem Inside.reach_log_le (hp : Packed d) (hi : Inside f block d c) (anchor : Anchor) :
    (c.reach jit f.point block e act anchor).log.length ≤
      c.log.length + (d.injected f.point anchor).length := by
  rw [hi.reach,← calls_length hp]
  exact foldl_log_le c _

variable (jit e act) in
theorem Inside.after (hi : Inside f block d c) (anchor : Anchor) :
    Inside f block d (c.reach jit f.point block e act anchor) := by
  rw [Inside,hi.reach,foldl_daemon_plugins]
  exact hi

def Ready (jit : Bool) (f : Wrapped) (block : Nat) (e : Engine) (d : Daemon) (anchor : Anchor) :
    Prop :=
  ∀ x ∈ calls jit f block e d anchor, Runs e (d.entered f.point block) x

theorem ready_nil (hp : Packed d) (none : d.injected f.point anchor = []) :
    Ready jit f block e d anchor := by
  have he := @calls_length jit f block e d hp anchor
  rw [none,length_nil,length_eq_zero_iff] at he
  simp [Ready,he]

structure Along (f : Wrapped) (block : Nat) (e : Engine) (d : Daemon) (c : Call σ) : Prop where
  quiet : Quiet c.daemon
  inside : Inside f block d c
  runs : ∀ y, Runs e c.daemon y ↔ Runs e (d.entered f.point block) y

variable (act) in
theorem Along.reach (hp : Packed d) (ha : Along f block e d c)
    (hr : Ready jit f block e d anchor) :
    Along f block e d (c.reach jit f.point block e act anchor) ∧
      (c.reach jit f.point block e act anchor).log =
        c.log ++ (d.injected f.point anchor).map (.pluglet anchor) ∧
      (c.reach jit f.point block e act anchor).data =
        (d.injected f.point anchor).foldl (fun s plug => act plug s) c.data := by
  have hw : Went e act anchor (d.injected f.point anchor) c
      (c.reach jit f.point block e act anchor) := by
    rw [ha.inside.reach]
    exact Went.foldl ha.quiet (fun x mem => (ha.runs x).mpr (hr x mem)) (calls_named hp anchor)
  exact ⟨⟨hw.quiet,hw.plugins.trans ha.inside,fun y => (hw.runs y).trans (ha.runs y)⟩,
    hw.log,hw.data⟩

variable (act) in
theorem Along.reach_lt (hp : Packed d) (ha : Along f block e d c)
    (stuck : ¬ Ready jit f block e d anchor) :
    (c.reach jit f.point block e act anchor).log.length <
      c.log.length + (d.injected f.point anchor).length := by
  rw [ha.inside.reach,← @calls_length jit f block e d hp anchor]
  refine foldl_log_lt ha.quiet fun all => stuck fun x mem => ?_
  exact (ha.runs x).mp (all x mem)

theorem Along.post_iff (hp : Packed d) (ha : Along f block e d c) :
    (c.reach jit f.point block e act .post).log =
        c.log ++ (d.injected f.point .post).map (.pluglet .post) ↔
      Ready jit f block e d .post := by
  constructor
  · intro hc
    by_contra stuck
    have hs := ha.reach_lt act hp stuck
    simp [hc] at hs
  · exact fun hr => (ha.reach act hp hr).2.1

/-- The data of a function after its `PRE` pluglets. -/
def Daemon.prepared (d : Daemon) (f : Wrapped) (act : Nat → σ → σ) (data : σ) : σ :=
  (d.injected f.point .pre).foldl (fun s pluglet => act pluglet s) data

theorem quiet_entered (hq : Quiet d) (p : Point) : Quiet (d.entered p block) := by
  simp only [entered]
  split
  · exact hq
  · exact ⟨hq.running,hq.unlocked,hq.cleared,hq.own⟩

theorem Along.start (hq : Quiet d) (data : σ) :
    Along f block e d ⟨d.entered f.point block,data,[]⟩ :=
  ⟨quiet_entered hq _,rfl,fun _ => Iff.rfl⟩

theorem around_entered (native : σ → Ending × σ) (data : σ) :
    Call.around jit f.point block e act native ⟨d,data,[]⟩ =
      Call.around jit f.point block e act native ⟨d.entered f.point block,data,[]⟩ := by
  have eq : Call.reach jit f.point block e act ⟨d,data,[]⟩ .pre =
      Call.reach jit f.point block e act ⟨d.entered f.point block,data,[]⟩ .pre := by
    have begun : Inside f block d (⟨d.entered f.point block,data,[]⟩ : Call σ) := rfl
    rw [begun.reach]
    simp [Call.reach,calls,arrive_reach]
  simp [Call.around,eq]

theorem Along.replaced_iff (hp : Packed d) (ha : Along f block e d c) :
    ((c.reach jit f.point block e act .rep).reach jit f.point block e act .post).log =
        c.log ++ (d.injected f.point .rep).map (.pluglet .rep) ++
          (d.injected f.point .post).map (.pluglet .post) ↔
      Ready jit f block e d .rep ∧ Ready jit f block e d .post := by
  by_cases rep : Ready jit f block e d .rep
  · obtain ⟨haf,log,-⟩ := ha.reach act hp rep
    rw [← log,haf.post_iff hp]
    exact ⟨fun post => ⟨rep,post⟩,And.right⟩
  refine iff_of_false (fun hc => ?_) fun hr => rep hr.1
  have hs := ha.reach_lt act hp rep
  have rest := (ha.inside.after jit e act .rep).reach_log_le jit e act hp .post
  simp only [hc,length_append,length_map] at rest
  omega

variable (jit act) in
theorem Along.onwards_iff (hp : Packed d) (ha : Along f block e d c)
    (native : σ → Ending × σ) :
    (c.onwards jit f.point block e act native).log =
        c.log ++ d.core f.point ++ (d.injected f.point .post).map (.pluglet .post) ↔
      Ready jit f block e d .rep ∧ Ready jit f block e d .post ∧
      (d.injected f.point .rep = [] → d.injected f.point .post ≠ [] →
        (native c.data).1 = .finished) := by
  simp only [Call.onwards,ha.inside.injected,core]
  by_cases rep : d.injected f.point .rep = []
  · have free := @ready_nil jit f block e .rep d hp rep
    simp only [rep,ne_eq,not_true_eq_false,↓reduceIte,free,true_and,forall_const]
    cases ending : (native c.data).1 with
    | finished =>
      have ha : Along f block e d ⟨c.daemon,(native c.data).2,c.log ++ [.native]⟩ :=
        ⟨ha.quiet,ha.inside,ha.runs⟩
      simpa using ha.post_iff hp
    | returned =>
      by_cases post : d.injected f.point .post = []
      · simp [post,ready_nil hp post]
      · simp [post]
    | aborted =>
      by_cases post : d.injected f.point .post = []
      · simp [post,ready_nil hp post]
      · simp [post]
  · simp only [rep,ne_eq,not_false_eq_true,↓reduceIte,ha.replaced_iff hp,false_implies,and_true]

variable (jit e act) in
theorem Inside.onwards_log_le (hp : Packed d) (hi : Inside f block d c)
    (native : σ → Ending × σ) :
    (c.onwards jit f.point block e act native).log.length ≤
      c.log.length + (d.core f.point).length + (d.injected f.point .post).length := by
  simp only [Call.onwards,hi.injected,core]
  by_cases rep : d.injected f.point .rep = []
  · simp only [rep,ne_eq,not_true_eq_false,↓reduceIte,length_singleton]
    cases (native c.data).1 with
    | finished =>
      have hi : Inside f block d ⟨c.daemon,(native c.data).2,c.log ++ [.native]⟩ := hi
      simpa using hi.reach_log_le jit e act hp .post
    | returned => simp
    | aborted => simp
  · have fst := hi.reach_log_le jit e act hp .rep
    have snd := (hi.after jit e act .rep).reach_log_le jit e act hp .post
    simp only [rep,ne_eq,not_false_eq_true,↓reduceIte,length_map]
    omega

/-- All pluglets can run and a native body before a `POST` pluglet gets to its end. -/
theorem around_balanced_iff (hp : Packed d) (hq : Quiet d) (native : σ → Ending × σ)
    (data : σ) :
    (Call.around jit f.point block e act native ⟨d,data,[]⟩).log = d.balanced f.point ↔
      (∀ anchor, Ready jit f block e d anchor) ∧
      (d.injected f.point .rep = [] → d.injected f.point .post ≠ [] →
        (native (d.prepared f act data)).1 = .finished) := by
  rw [around_entered]
  have start : Along f block e d ⟨d.entered f.point block,data,[]⟩ := Along.start hq data
  by_cases pre : Ready jit f block e d .pre
  · obtain ⟨ha,log,hw⟩ := start.reach act hp pre
    have rest := ha.onwards_iff jit act hp native
    rw [log,nil_append] at rest
    simp only [Call.around,ha.quiet.running,ne_eq,not_true_eq_false,↓reduceIte,
      balanced,rest,prepared,← hw]
    constructor
    · rintro ⟨rep,post,body⟩
      exact ⟨fun anchor => by cases anchor <;> assumption,body⟩
    · exact fun ⟨hr,body⟩ => ⟨hr .rep,hr .post,body⟩
  · refine iff_of_false (fun hc => ?_) fun hr => pre (hr.1 .pre)
    have hs := start.reach_lt act hp pre
    have rest := (start.inside.after jit e act .pre).onwards_log_le jit e act hp native
    have total := congrArg length hc
    simp only [Call.around,balanced,length_append,length_map] at total
    split at total
    · simp only [length_nil] at hs
      omega
    simp only [length_nil] at hs
    omega

end

section

variable (bodies : Bodies)

/-- `ospf_lsa_install` gives back an LSA: it has a database, not the number after the last one
unless it is own or replaces another, and if it is an own opaque LSA its module registers it. -/
def Installable (env : Env) (s : State) (oi : Option Nat) (r : Nat) : Prop :=
  ∃ db, installDb (s.core.lsas r).data.type (s.core.lsas r).area = some db ∧
    if (s.core.lsas r).data.lsSeqnum = wrapped ∧
        ¬ lsaIsSelfOriginated s.core (s.core.lsas r) then
      s.core.lookup db (s.core.lsas r).key ≠ none
    else (installType env (store ⟨unwrapped s.core r,s.net⟩ db r) oi r).2 = true

theorem lsaInstall_some_iff (env : Env) (s : State) (oi : Option Nat) (r : Nat) :
    (lsaInstall env s oi r).2 ≠ none ↔ Installable env s oi r := by
  simp only [lsaInstall,Installable]
  cases installDb (s.core.lsas r).data.type (s.core.lsas r).area with
  | none => simp
  | some db =>
    simp only [some.injEq,exists_eq_left']
    split
    · rfl
    · split <;> simp_all

/-- The native body gets to its end: an area has the router's own LSA and its calculation ends, no
assertion fails, a flooded LSA does not come too early and is installed, a hello is not for a
passive interface. -/
def Wrapped.Completes : (f : Wrapped) → f.Data → Prop
  | .ospfSpfCalculate, c => ∃ area, SpfCalculate.area c = some area ∧ bodies.calculate area ≠ none
  | .ospfSpfNext, c => Spf.spfNext (SpfNext.area c) (SpfNext.spf c) (SpfNext.v c) ≠ none
  | .ospfFlood, c =>
    (∀ current, Flood.current c = some current →
      ¬ arrivedRecently (Flood.state c).core current) ∧
    Installable bodies.ospf (Flood.atInstall c)
      (some ((Flood.state c).net.neighbor (Flood.nbr c)).oi) (Flood.new c)
  | .ospfHelloSend, c => HelloSend.passive c = false
  | .ismChangeState, _ => True
  | .ospfDrElection, _ => True

theorem native_finished_iff (f : Wrapped) (data : f.Data) :
    (f.native bodies data).1 = .finished ↔ f.Completes bodies data := by
  cases f with
  | ospfSpfCalculate =>
    simp only [Wrapped.native,Wrapped.Completes,SpfCalculate.native]
    cases SpfCalculate.area data with
    | none => simp
    | some area => cases hc : bodies.calculate area <;> simp [hc]
  | ospfSpfNext =>
    simp only [Wrapped.native,Wrapped.Completes,SpfNext.native]
    split <;> simp_all
  | ospfFlood =>
    simp only [Wrapped.native,Wrapped.Completes,Flood.native,Flood.ending]
    rw [← lsaInstall_some_iff]
    cases Flood.current data with
    | none => simp only [any_none,Bool.false_eq_true,↓reduceIte]; split <;> simp_all
    | some cur =>
      by_cases he : arrivedRecently (Flood.state data).core cur
      · simp [he]
      simp only [any_some,he,Bool.false_eq_true,↓reduceIte]
      split <;> simp_all
  | ospfHelloSend =>
    simp only [Wrapped.native,Wrapped.Completes,HelloSend.native]
    split <;> simp_all
  | ismChangeState => exact iff_of_true rfl trivial
  | ospfDrElection => exact iff_of_true rfl trivial

/-- In every configuration that messages and executions lead to, a call runs its `PRE` pluglets, its
`REP` pluglet or the native body, and its `POST` pluglets, each once and in order, exactly when all
can run and a native body before `POST` pluglets gets to its end. -/
theorem anchors_balanced_iff_body_completes (jit : Bool) (events : List Event)
    (quiet : Quiet (run (step jit) events .initial)) (f : Wrapped) (block : Nat) (e : Engine)
    (act : Nat → f.Data → f.Data) (data : f.Data) :
    (Call.around jit f.point block e act (f.native bodies)
        ⟨run (step jit) events .initial,data,[]⟩).log =
      (run (step jit) events .initial).balanced f.point ↔
    (∀ anchor, Ready jit f block e (run (step jit) events .initial) anchor) ∧
      ((run (step jit) events .initial).injected f.point .rep = [] →
        (run (step jit) events .initial).injected f.point .post ≠ [] →
        f.Completes bodies ((run (step jit) events .initial).prepared f act data)) := by
  rw [around_balanced_iff (initial_packed.run jit events) quiet,native_finished_iff]

/-- A `PRE` and a `POST` pluglet are injected at an insertion point. -/
def injectedAround (p : Point) : List Event :=
  [.message ⟨Int64.ofNat (100*p.id),"/plugins/pre.o"⟩ ⟨true,some 100,true,true,some [0x95]⟩,
    .message ⟨Int64.ofNat (100*p.id+2),"/plugins/post.o"⟩ ⟨true,some 200,true,true,some [0x95]⟩]

def someEngine : Engine := ⟨fun _ => 0,fun _ => true⟩

def plainBodies : Bodies := ⟨nativeCalculate,quietEnv⟩

theorem hello_balanced : (Call.around false .sendHello 300 someEngine (fun _ c => c)
        (Wrapped.ospfHelloSend.native plainBodies)
        ⟨run (step false) (injectedAround .sendHello) .initial,
          (⟨Ism.waiting,false,0,[]⟩ : HelloSend),[]⟩).log =
      [.pluglet .pre 100,.native,.pluglet .post 200] := by
  have hq : Quiet (run (step false) (injectedAround .sendHello) .initial) :=
    quiet_message (quiet_message initial_quiet _ _) _ _
  refine (anchors_balanced_iff_body_completes plainBodies false (injectedAround .sendHello) hq
    .ospfHelloSend 300 someEngine (fun _ c => c) (⟨Ism.waiting,false,0,[]⟩ : HelloSend)).mpr
    ⟨fun anchor x mem => ?_,fun _ _ => rfl⟩
  cases anchor with
  | pre =>
    obtain rfl : x = ⟨.execLoadedCode,some 100,some 300⟩ := mem_singleton.mp mem
    exact ⟨100,_,_,_,rfl,rfl,rfl,nofun⟩
  | rep => cases mem
  | post =>
    obtain rfl : x = ⟨.execLoadedCode,some 200,some 300⟩ := mem_singleton.mp mem
    exact ⟨200,_,_,_,rfl,rfl,rfl,nofun⟩

/-- For an area without an LSA of the router itself the clock of `spf_time` is started and never
read. -/
theorem spf_time_without_spf_time_post :
    (run (step false) (injectedAround .spfCalc) .initial).balanced .spfCalc =
      [.pluglet .pre 100,.native,.pluglet .post 200] ∧
    (Call.around false .spfCalc 300 someEngine (fun _ c => c)
        (Wrapped.ospfSpfCalculate.native plainBodies)
        ⟨run (step false) (injectedAround .spfCalc) .initial,
          (⟨none,none⟩ : SpfCalculate),[]⟩).log =
      [.pluglet .pre 100,.native] :=
  ⟨rfl,rfl⟩

end

end Frr.Plugins
