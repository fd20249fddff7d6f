import Mathlib.Data.Nat.Basic
import Mathlib.Data.List.Basic

/-! Plugins of the OSPF daemon: injection (`plugins_manager.c`), loading and execution
(`ubpf_manager.c`), and the insertion points. Pluglets live at addresses; what C library, file
system and virtual machine answer is an input of each step. -/
namespace Frr.Plugins

def maxNbrPlugins : Nat := 30

def maxNbrPluglets : Nat := 10

def maxExtFuncs : Nat := 64

inductive Anchor where
  | pre | rep | post
  deriving DecidableEq

/-- `PRE`, `REP` and `POST` of `ospf_plugins_api.h`. -/
def Anchor.code : Anchor → Int
  | .pre => 0
  | .rep => 1
  | .post => 2

/-- `struct ubpf_vm`. -/
structure Vm where
  insts : Option (List UInt64)
  jitted : Bool
  extFuncNames : Nat → Option String

/-- `ubpf_create`. -/
def Vm.created : Vm := ⟨none, false, fun _ => none⟩

/-- `ubpf_register`; `none` is the result `-1`. -/
def Vm.register (vm : Vm) (idx : Nat) (name : String) : Option Vm :=
  if maxExtFuncs ≤ idx then none
  else some {vm with
    extFuncNames := fun i => if i = idx then some name else vm.extFuncNames i}

/-- What `register_functions` registers, in its order. -/
def helperFunctions : List (Nat × String) :=
  [(0x01, "strcpy"), (0x02, "gettimeofday"), (0x0a, "plugin_ntohl"), (0x0b, "plugin_ntohs"),
   (0x0c, "print_helper"), (0x0d, "lsa_head_dump"), (0x03, "send_data"),
   (0x10, "get_ospf_interface"), (0x11, "get_interface"), (0x12, "get_ospf_lsa"),
   (0x13, "get_lsa_header"), (0x14, "get_ospf_area"), (0x15, "get_ospf"), (0x16, "get_vertex"),
   (0x17, "get_lsa_with_length"), (0x18, "get_ospf_interface_list"), (0x9, "get_candidate"),
   (0x30, "set_ospf_area"), (0x31, "set_ospf_interface"), (0x24, "plugin_malloc"),
   (0x25, "plugin_free"), (0x26, "plugin_realloc"), (0x27, "plugin_memcpy"),
   (0x28, "plugin_malloc_with_id"), (0x29, "plugin_get_memory_with_id"),
   (0x5, "plugin_ospf_flood_through_area"), (0x6, "ospf_if_name_string"),
   (0x7, "plugin_ospf_lsa_install"), (0x8, "my_get_lsah"), (0x19, "plugin_trickle_up"),
   (0x1a, "plugin_ospf_lsa_has_link"), (0x1b, "plugin_ospf_lsa_lookup_by_id"),
   (0x1c, "plugin_ospf_lsa_lookup"), (0x1d, "plugin_ospf_nexthop_calculation"),
   (0x1e, "plugin_pqueue_enqueue"), (0x1f, "plugin_ospf_vertex_new"),
   (0x2a, "plugin_lsa_link_broadcast_set"), (0x2b, "plugin_ospf_lsa_new_and_data")]

def registerAll : List (Nat × String) → Vm → Bool × Vm
  | [], vm => (true, vm)
  | (idx, name) :: rest, vm =>
    match vm.register idx name with
    | none => (false, vm)
    | some vm => registerAll rest vm

def registerFunctions (vm : Vm) : Bool × Vm := registerAll helperFunctions vm

/-- `pluglet_context_t`; a plugin is named by its index in the table. -/
structure Context where
  originalArg : Option Nat
  typeArg : Int
  heap : Option Nat
  parentPlugin : Nat

structure Pluglet where
  vm : Option Vm
  context : Option Context

/-- A `pluglet_t`: not allocated or freed, never written, or an object. -/
inductive Cell where
  | unallocated
  | uninitialised
  | object (pluglet : Pluglet)

/-- `plugin_t`, a heap being named by the argument block it lies in. -/
structure Plugin where
  plugletsPre : List (Option Nat)
  plugletRep : Option Nat
  plugletsPost : List (Option Nat)
  heap : Option Nat
  arguments : Option Nat
  typeArg : Int

def Plugin.empty : Plugin :=
  ⟨List.replicate maxNbrPluglets none, none, List.replicate maxNbrPluglets none, none, none, -1⟩

inductive Status where
  | running | blocked | crashed
  deriving DecidableEq

/-- `ran` is a ghost: each pluglet that ran, with its context. -/
structure Daemon where
  plugins : Nat → Option Plugin
  store : Nat → Cell
  lockCurrentContext : Bool
  currentContext : Option Nat
  status : Status
  ran : List (Nat × Option Nat)

namespace Daemon

def setPlugin (d : Daemon) (id : Nat) (plugin : Plugin) : Daemon :=
  {d with plugins := fun i => if i = id then some plugin else d.plugins i}

def setCell (d : Daemon) (address : Nat) (cell : Cell) : Daemon :=
  {d with store := fun a => if a = address then cell else d.store a}

def setContext (d : Daemon) (address : Nat) (pluglet : Pluglet) (context : Context) : Daemon :=
  d.setCell address (.object {pluglet with context := some context})

def initial : Daemon :=
  ⟨fun _ => none, fun _ => .unallocated, false, none, .running, []⟩

end Daemon

/-- While one message is handled: the two allocations, the file, the virtual machine, and the code
if it was accepted. -/
structure Answers where
  plugin : Bool
  pluglet : Option Nat
  file : Bool
  vm : Bool
  code : Option (List UInt64)

section

variable (d : Daemon)

/-- `load_elf`. Whether the functions could be registered is not looked at. -/
def loadElf (pluglet : Nat) (a : Answers) : Bool × Daemon :=
  if a.vm = false then (false, d.setCell pluglet .unallocated)
  else
    let vm := (registerFunctions Vm.created).2
    match a.code with
    | none => (false, d.setCell pluglet .unallocated)
    | some code =>
      (true, d.setCell pluglet (.object ⟨some {vm with insts := some code}, none⟩))

def loadElfFile (pluglet : Nat) (a : Answers) : Bool × Daemon :=
  if a.file = false then (false, d) else loadElf d pluglet a

/-- The first slot of an anchor that is `NULL` gets the new pluglet. -/
def fillSlot : List (Option Nat) → Option Nat → Option (List (Option Nat))
  | [], _ => none
  | none :: rest, created => some (created :: rest)
  | some pluglet :: rest, created => (fillSlot rest created).map (some pluglet :: ·)

def Plugin.create (plugin : Plugin) (anchor : Int) (created : Option Nat) : Option Plugin :=
  if anchor = Anchor.pre.code then
    (fillSlot plugin.plugletsPre created).map fun slots => {plugin with plugletsPre := slots}
  else if anchor = Anchor.rep.code then
    match plugin.plugletRep with
    | some _ => none
    | none => some {plugin with plugletRep := created}
  else if anchor = Anchor.post.code then
    (fillSlot plugin.plugletsPost created).map fun slots => {plugin with plugletsPost := slots}
  else none

def initContext (pluglet id : Nat) : Daemon :=
  match d.store pluglet with
  | .object ⟨vm, none⟩ => d.setContext pluglet ⟨vm, none⟩ ⟨none, -1, none, id⟩
  | _ => d

def pluginAt (id : Nat) (a : Answers) : Option Plugin :=
  match d.plugins id with
  | some plugin => some plugin
  | none => if a.plugin then some .empty else none

def injectPluglet (id anchor : Int) (a : Answers) : Bool × Daemon :=
  if id < 0 ∨ (maxNbrPlugins : Int) - 1 < id then (false, d)
  else match pluginAt d id.toNat a with
    | none => (false, d)
    | some plugin =>
      match plugin.create anchor a.pluglet with
      | none => (false, d.setPlugin id.toNat plugin)
      | some plugin =>
        let d := d.setPlugin id.toNat plugin
        match a.pluglet with
        | none => (false, d)
        | some pluglet =>
          match loadElfFile (d.setCell pluglet .uninitialised) pluglet a with
          | (false, d) => (false, d)
          | (true, d) => (true, initContext d pluglet id.toNat)

/-- `struct mesg_buffer`. -/
structure Message where
  mesgType : Int64
  mesgText : String

/-- C's remainder takes the sign of the type. -/
def Message.anchor (m : Message) : Int := m.mesgType.toInt32.toInt.tmod 100

def Message.insertionPoint (m : Message) : Int :=
  (m.mesgType.toInt32.toInt-m.anchor).tdiv 100

/-- One turn of the loop of `plugins_manager`. -/
def pluginsManager (m : Message) (a : Answers) : Bool × Daemon :=
  injectPluglet d m.insertionPoint m.anchor a

inductive Point where
  | main | ismChangeState | sendHello | spfCalc | sendPacket | rcvPacket | lsaFlood
  | ospfSpfNext | drElection
  deriving DecidableEq

/-- The insertion points of `ospf_plugins_api.h`. -/
def Point.id : Point → Nat
  | .main => 1
  | .ismChangeState => 2
  | .sendHello => 4
  | .spfCalc => 6
  | .sendPacket => 8
  | .rcvPacket => 9
  | .lsaFlood => 10
  | .ospfSpfNext => 15
  | .drElection => 16

/-- The argument type, for the points with an argument block. The other three pass a packet or a
test value and call `pluglets_PRE[0]` without looking at it. -/
def Point.typeArg : Point → Option Int
  | .main | .sendPacket | .rcvPacket => none
  | .sendHello => some 0
  | .ismChangeState => some 1
  | .lsaFlood => some 2
  | .spfCalc => some 3
  | .ospfSpfNext => some 4
  | .drElection => some 5

inductive Executor where
  | execLoadedCode | compileAndExecJit
  deriving DecidableEq

structure Execution where
  executor : Executor
  pluglet : Option Nat
  mem : Option Nat

/-- The result of running a pluglet, and whether its translation to machine code succeeds. -/
structure Engine where
  result : Nat → UInt64
  compiles : Nat → Bool

/-- Set up the context, run, reset the context and release the lock. A pluglet that was never
completely loaded makes the daemon follow a wild pointer. -/
def runPluglet (pluglet : Nat) (mem : Option Nat) (value : Vm → UInt64) : UInt64 × Daemon :=
  match d.store pluglet with
  | .object ⟨some vm, some context⟩ =>
    match d.plugins context.parentPlugin with
    | none => (0, {d with status := .crashed})
    | some plugin =>
      let d := d.setContext pluglet ⟨some vm, some context⟩
        {context with originalArg := mem, heap := plugin.heap, typeArg := plugin.typeArg}
      let d := {d with currentContext := some pluglet}
      let d := {d with ran := (pluglet, d.currentContext) :: d.ran}
      let d := d.setContext pluglet ⟨some vm, some context⟩
        {context with originalArg := none, heap := none, typeArg := -1}
      (value vm, {d with currentContext := none, lockCurrentContext := false})
  | _ => (0, {d with status := .crashed})

/-- `ubpf_exec`: a machine without code gives an error value. -/
def ubpfExec (e : Engine) (pluglet : Nat) (vm : Vm) : UInt64 :=
  match vm.insts with
  | none => 0xffffffffffffffff
  | some _ => e.result pluglet

/-- `exec_loaded_code` with the lock free. -/
def execLoadedCode (pluglet mem : Option Nat) (e : Engine) : UInt64 × Daemon :=
  let d := {d with lockCurrentContext := true}
  match pluglet with
  | none => (0, d)
  | some pluglet => runPluglet d pluglet mem (ubpfExec e pluglet)

/-- `ubpf_compile`: the translation is made once and kept in the machine. -/
def ubpfCompile (e : Engine) (pluglet : Nat) (vm : Vm) : Option Vm :=
  if vm.jitted then some vm
  else match vm.insts with
    | none => none
    | some _ => if e.compiles pluglet then some {vm with jitted := true} else none

/-- `compile_and_exec_jit` with the lock free. -/
def compileAndExecJit (pluglet mem : Option Nat) (e : Engine) : UInt64 × Daemon :=
  let d := {d with lockCurrentContext := true}
  match pluglet with
  | none => (0, d)
  | some pluglet =>
    match d.store pluglet with
    | .object ⟨some vm, context⟩ =>
      match ubpfCompile e pluglet vm with
      | none => (1, d)
      | some vm => runPluglet (d.setCell pluglet (.object ⟨some vm, context⟩)) pluglet mem
          (fun _ => e.result pluglet)
    | _ => (0, {d with status := .crashed})

end

/-- One call. The mutex is a default one: taking it while it is held never returns. A daemon that is
blocked or gone calls nothing. -/
def execute (e : Engine) (d : Daemon) (x : Execution) : Daemon :=
  if d.status ≠ .running then d
  else if d.lockCurrentContext then {d with status := .blocked}
  else match x.executor with
    | .execLoadedCode => (execLoadedCode d x.pluglet x.mem e).2
    | .compileAndExecJit => (compileAndExecJit d x.pluglet x.mem e).2

/-- The loop over the pluglets of an anchor, up to the first `NULL` slot. -/
def slotLoop (mem : Option Nat) : List (Option Nat) → List Execution
  | [] | none :: _ => []
  | some pluglet :: rest => ⟨.execLoadedCode, some pluglet, mem⟩ :: slotLoop mem rest

/-- The executor calls at a point for one anchor. `jit` is the local switch of `ospf_spf_next`,
`packet` what points without an argument block pass. -/
def executions (jit : Bool) (plugin : Plugin) (p : Point) (anchor : Anchor) (packet : Nat) :
    List Execution :=
  match p.typeArg, anchor with
  | none, .pre => [⟨.execLoadedCode, plugin.plugletsPre.head?.join, some packet⟩]
  | none, _ => []
  | some _, .pre => slotLoop plugin.arguments plugin.plugletsPre
  | some _, .post => slotLoop plugin.arguments plugin.plugletsPost
  | some _, .rep =>
    match plugin.plugletRep with
    | none => []
    | some pluglet =>
      [⟨if jit ∧ p = .ospfSpfNext then .compileAndExecJit else .execLoadedCode, some pluglet,
        plugin.arguments⟩]

def Plugin.prepare (plugin : Plugin) (p : Point) (block : Nat) : Plugin :=
  match p.typeArg, plugin.arguments with
  | some typeArg, none =>
    {plugin with arguments := some block, heap := some block, typeArg := typeArg}
  | _, _ => plugin

/-- A message of the user, or control comes to an insertion point. Its anchors are separate events,
since other points may be reached in between. -/
inductive Event where
  | message (m : Message) (a : Answers)
  | reach (p : Point) (anchor : Anchor) (block packet : Nat) (e : Engine)

def arrive (jit : Bool) (d : Daemon) : Event → Daemon × List Execution
  | .message _ _ => (d, [])
  | .reach p anchor block packet _ =>
    match d.plugins p.id with
    | none => (d, [])
    | some plugin =>
      let plugin := plugin.prepare p block
      (d.setPlugin p.id plugin, executions jit plugin p anchor packet)

def Event.engine : Event → Engine
  | .message _ _ => ⟨fun _ => 0, fun _ => false⟩
  | .reach _ _ _ _ e => e

def step (jit : Bool) (d : Daemon) (event : Event) : Daemon :=
  match event with
  | .message m a => (pluginsManager d m a).2
  | .reach _ _ _ _ e => (arrive jit d event).2.foldl (execute e) (arrive jit d event).1

end Frr.Plugins
