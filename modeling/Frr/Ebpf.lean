import Frr.WordMemory
import Mathlib.Data.List.Basic

/-! The eBPF virtual machine of the pluglets: instructions, the checks of `ubpf_load`, and the
interpreter `ubpf_exec`. Registers and addresses are 64-bit words that wrap; where C leaves a shift
undefined, the count is that of x86-64. -/
namespace Frr.Ebpf

open WordMemory

section

/-- `struct ebpf_inst`. -/
structure Inst where
  opcode : BitVec 8
  dst : BitVec 4
  src : BitVec 4
  offset : BitVec 16
  imm : BitVec 32
  deriving DecidableEq

inductive Size where
  | w | h | b | dw
  deriving DecidableEq

inductive Source where
  | imm | reg
  deriving DecidableEq

inductive AluOp where
  | add | sub | mul | div | or | and | lsh | rsh | mod | xor | mov | arsh
  deriving DecidableEq

inductive Cond where
  | eq | gt | ge | lt | le | set | ne | sgt | sge | slt | sle
  deriving DecidableEq

/-- The operations of `ebpf.h`; `wide` are those of the class `ALU64`. -/
inductive Op where
  | alu (wide : Bool) (op : AluOp) (source : Source)
  | neg (wide : Bool)
  | le
  | be
  | ldx (size : Size)
  | st (size : Size)
  | stx (size : Size)
  | lddw
  | ja
  | jump (cond : Cond) (source : Source)
  | call
  | exit
  deriving DecidableEq

def Size.code : Size → BitVec 8
  | .w => 0x00
  | .h => 0x08
  | .b => 0x10
  | .dw => 0x18

def Size.bytes : Size → Nat
  | .w => 4
  | .h => 2
  | .b => 1
  | .dw => 8

def Source.code : Source → BitVec 8
  | .imm => 0x00
  | .reg => 0x08

def AluOp.code : AluOp → BitVec 8
  | .add => 0x00
  | .sub => 0x10
  | .mul => 0x20
  | .div => 0x30
  | .or => 0x40
  | .and => 0x50
  | .lsh => 0x60
  | .rsh => 0x70
  | .mod => 0x90
  | .xor => 0xa0
  | .mov => 0xb0
  | .arsh => 0xc0

def Cond.code : Cond → BitVec 8
  | .eq => 0x10
  | .gt => 0x20
  | .ge => 0x30
  | .set => 0x40
  | .ne => 0x50
  | .sgt => 0x60
  | .sge => 0x70
  | .lt => 0xa0
  | .le => 0xb0
  | .slt => 0xc0
  | .sle => 0xd0

def aluClass (wide : Bool) : BitVec 8 := if wide then 0x07 else 0x04

/-- The values of the `EBPF_OP` constants. -/
def Op.code : Op → BitVec 8
  | .alu wide op source => aluClass wide ||| source.code ||| op.code
  | .neg wide => aluClass wide ||| 0x80
  | .le => 0x04 ||| Source.imm.code ||| 0xd0
  | .be => 0x04 ||| Source.reg.code ||| 0xd0
  | .ldx size => 0x01 ||| 0x60 ||| size.code
  | .st size => 0x02 ||| 0x60 ||| size.code
  | .stx size => 0x03 ||| 0x60 ||| size.code
  | .lddw => 0x00 ||| Size.dw.code
  | .ja => 0x05
  | .jump cond source => 0x05 ||| source.code ||| cond.code
  | .call => 0x05 ||| 0x80
  | .exit => 0x05 ||| 0x90

def allAluOps : List AluOp :=
  [.add,.sub,.mul,.div,.or,.and,.lsh,.rsh,.mod,.xor,.mov,.arsh]

def allConds : List Cond := [.eq,.gt,.ge,.lt,.le,.set,.ne,.sgt,.sge,.slt,.sle]

def allSizes : List Size := [.w,.h,.b,.dw]

def allOps : List Op :=
  ([false,true].flatMap fun wide => .neg wide ::
    allAluOps.flatMap fun op => [.alu wide op .imm,.alu wide op .reg]) ++
  [.le,.be,.lddw,.ja,.call,.exit] ++
  (allSizes.flatMap fun size => [.ldx size,.st size,.stx size]) ++
  allConds.flatMap fun cond => [.jump cond .imm,.jump cond .reg]

/-- The `case` of an opcode in the `switch` statements; there is none for other bytes. -/
def decode (opcode : BitVec 8) : Option Op := allOps.find? fun op => op.code = opcode

theorem code_decode {opcode : BitVec 8} {op : Op} (hk : decode opcode = some op) :
    op.code = opcode := by
  simpa using List.find?_some hk

def Op.width : Op → Nat
  | .lddw => 2
  | _ => 1

def Op.stores : Op → Bool
  | .st _ | .stx _ => true
  | _ => false

end

section

/-- What `ubpf_load` and `validate` report, with the instruction it is about. -/
inductive LoadError where
  | alreadyLoaded
  | codeLen
  | tooManyInstructions
  | noExit
  | invalidEndianImmediate (pc : Nat)
  | incompleteLddw (pc : Nat)
  | infiniteLoop (pc : Nat)
  | jumpOutOfBounds (pc : Nat)
  | jumpToMiddleOfLddw (pc : Nat)
  | invalidCallImmediate (pc : Nat)
  | nonexistentFunction (imm pc : Nat)
  | divisionByZero (pc : Nat)
  | unknownOpcode (opcode pc : Nat)
  | invalidSourceRegister (pc : Nat)
  | invalidDestinationRegister (pc : Nat)
  deriving DecidableEq

def maxInsts : Nat := 65536

def maxExtFuncs : Nat := 64

/-- Two digits, as `%02x` prints a byte. -/
def hexByte (byte : Nat) : String :=
  String.ofList [Nat.digitChar (byte/16%16),Nat.digitChar (byte%16)]

def LoadError.message : LoadError → String
  | .alreadyLoaded => "code has already been loaded into this VM"
  | .codeLen => "code_len must be a multiple of 8"
  | .tooManyInstructions => "too many instructions (max " ++ toString maxInsts ++ ")"
  | .noExit => "no exit in instructions"
  | .invalidEndianImmediate pc => "invalid endian immediate at PC " ++ toString pc
  | .incompleteLddw pc => "incomplete lddw at PC " ++ toString pc
  | .infiniteLoop pc => "infinite loop at PC " ++ toString pc
  | .jumpOutOfBounds pc => "jump out of bounds at PC " ++ toString pc
  | .jumpToMiddleOfLddw pc => "jump to middle of lddw at PC " ++ toString pc
  | .invalidCallImmediate pc => "invalid call immediate at PC " ++ toString pc
  | .nonexistentFunction imm pc =>
    "call to nonexistent function " ++ toString imm ++ " at PC " ++ toString pc
  | .divisionByZero pc => "division by zero at PC " ++ toString pc
  | .unknownOpcode opcode pc =>
    "unknown opcode 0x" ++ hexByte opcode ++ " at PC " ++ toString pc
  | .invalidSourceRegister pc => "invalid source register at PC " ++ toString pc
  | .invalidDestinationRegister pc => "invalid destination register at PC " ++ toString pc

abbrev ExtFuncs := Nat → Bool

def ExtFuncs.has (extFuncs : ExtFuncs) (imm : BitVec 32) : Bool :=
  0 ≤ imm.toInt ∧ imm.toInt < maxExtFuncs ∧ extFuncs imm.toNat

variable (extFuncs : ExtFuncs) (insts : List Inst)

section

variable (i : Nat) (inst : Inst)

/-- A jump stays in the program and does not reach the second half of a `lddw`. -/
def checkJump : Except LoadError Unit :=
  if inst.offset = -1 then .error (.infiniteLoop i)
  else
    let newPc : Int := i+1+inst.offset.toInt
    if newPc < 0 ∨ (insts.length : Int) ≤ newPc then .error (.jumpOutOfBounds i)
    else
      match insts[newPc.toNat]? with
      | none => .error (.jumpOutOfBounds i)
      | some target =>
        if target.opcode = 0 then .error (.jumpToMiddleOfLddw i) else .ok ()

def checkOp : Op → Except LoadError Unit
  | .le | .be =>
    if inst.imm ≠ 16 ∧ inst.imm ≠ 32 ∧ inst.imm ≠ 64 then .error (.invalidEndianImmediate i)
    else .ok ()
  | .lddw =>
    match insts[i+1]? with
    | none => .error (.incompleteLddw i)
    | some second => if second.opcode ≠ 0 then .error (.incompleteLddw i) else .ok ()
  | .ja => checkJump insts i inst
  | .jump _ _ => checkJump insts i inst
  | .call =>
    if inst.imm.toInt < 0 ∨ (maxExtFuncs : Int) ≤ inst.imm.toInt then
      .error (.invalidCallImmediate i)
    else if ¬ extFuncs inst.imm.toNat then .error (.nonexistentFunction inst.imm.toNat i)
    else .ok ()
  | .alu _ .div .imm | .alu _ .mod .imm =>
    if inst.imm = 0 then .error (.divisionByZero i) else .ok ()
  | _ => .ok ()

def checkRegisters (op : Op) : Except LoadError Unit :=
  if 10 < inst.src then .error (.invalidSourceRegister i)
  else if 9 < inst.dst ∧ ¬ (op.stores ∧ inst.dst = 10) then .error (.invalidDestinationRegister i)
  else .ok ()

/-- A turn of the loop of `validate`, with the slots to go on. A `lddw` has moved the index before
its registers are looked at. -/
def checkInst : Except LoadError Nat :=
  match decode inst.opcode with
  | none => .error (.unknownOpcode inst.opcode.toNat i)
  | some op => do
    checkOp extFuncs insts i inst op
    checkRegisters (i+op.width-1) inst op
    .ok op.width

end

def checkInsts : Nat → Nat → Except LoadError Unit
  | 0, _ => .ok ()
  | turns + 1, i =>
    match insts[i]? with
    | none => .ok ()
    | some inst => do
      let width ← checkInst extFuncs insts i inst
      checkInsts turns (i+width)

def validate : Except LoadError Unit :=
  if maxInsts ≤ insts.length then .error .tooManyInstructions
  else if insts.all fun inst => inst.opcode ≠ Op.exit.code then .error .noExit
  else checkInsts extFuncs insts insts.length 0

def Inst.ofWord (word : Word) : Inst :=
  ⟨word.setWidth 8,(word >>> 8).setWidth 4,(word >>> 12).setWidth 4,(word >>> 16).setWidth 16,
    (word >>> 32).setWidth 32⟩

def wordOf (bytes : List Byte) : Word :=
  bytes.foldr (fun byte word => byte.setWidth 64 ||| word <<< 8) 0

/-- `struct ubpf_vm`. -/
structure Vm where
  insts : Option (List Inst)
  extFuncs : ExtFuncs

def ubpfLoad (vm : Vm) (code : List Byte) : Except LoadError Vm :=
  if vm.insts.isSome then .error .alreadyLoaded
  else if code.length % 8 ≠ 0 then .error .codeLen
  else do
    let insts := (code.toChunks 8).map fun bytes => Inst.ofWord (wordOf bytes)
    validate vm.extFuncs insts
    .ok {vm with insts := some insts}

end

section

def stackSize : Nat := 2048

/-- The memory a run may touch: its argument, if any, and the stack array. The address after their
ends exists. -/
structure Block where
  mem : Word
  memLen : Word
  stack : Word
  memFits : mem.toNat + memLen.toNat < 2 ^ 64
  stackFits : stack.toNat + stackSize < 2 ^ 64

def Block.boundsCheck (block : Block) (addr : Word) (size : Nat) : Bool :=
  (block.mem ≠ 0 ∧ block.mem ≤ addr ∧ addr + BitVec.ofNat 64 size ≤ block.mem+block.memLen) ∨
    (block.stack ≤ addr ∧
      addr + BitVec.ofNat 64 size ≤ block.stack + BitVec.ofNat 64 stackSize)

def Block.Contains (block : Block) (addr : Word) (size : Nat) : Prop :=
  (block.mem ≠ 0 ∧ block.mem.toNat ≤ addr.toNat ∧
      addr.toNat + size ≤ block.mem.toNat+block.memLen.toNat) ∨
    (block.stack.toNat ≤ addr.toNat ∧ addr.toNat+size ≤ block.stack.toNat+stackSize)

instance (block : Block) (addr : Word) (size : Nat) : Decidable (block.Contains addr size) :=
  inferInstanceAs (Decidable (_ ∨ _))

end

section

def AluOp.eval64 (a b : Word) : AluOp → Word
  | .add => a+b
  | .sub => a-b
  | .mul => a*b
  | .div => a/b
  | .or => a ||| b
  | .and => a &&& b
  | .lsh => a <<< (b.toNat%64)
  | .rsh => a >>> (b.toNat%64)
  | .mod => a%b
  | .xor => a ^^^ b
  | .mov => b
  | .arsh => a.sshiftRight (b.toNat%64)

/-- All but divisions and right shifts work on 64 bits and cut off the result. -/
def AluOp.eval32 (a b : Word) : AluOp → Word
  | .div => u32 a / u32 b
  | .mod => u32 a % u32 b
  | .rsh => u32 a >>> (b.toNat%32)
  | .arsh => u32 (((a.setWidth 32).sshiftRight (b.toNat%32)).signExtend 64)
  | op => u32 (op.eval64 a b)

def AluOp.divides : AluOp → Bool
  | .div | .mod => true
  | _ => false

def Cond.holds (a b : Word) : Cond → Bool
  | .eq => a = b
  | .gt => b < a
  | .ge => b ≤ a
  | .lt => a < b
  | .le => a ≤ b
  | .set => a &&& b ≠ 0
  | .ne => a ≠ b
  | .sgt => b.slt a
  | .sge => b.sle a
  | .slt => a.slt b
  | .sle => a.sle b

def Cond.unsignedOrder : Cond → Bool
  | .gt | .ge | .lt | .le => true
  | _ => false

/-- `htole16` and so on, on a little-endian machine. -/
def toLittleEndian (bits : Nat) (x : Word) : Word := (x.setWidth bits).setWidth 64

structure State (ω : Type) where
  reg : BitVec 4 → Word
  pc : BitVec 16
  memory : Memory
  world : ω

variable {ω : Type}

def State.set (s : State ω) (r : BitVec 4) (value : Word) : State ω :=
  {s with reg := fun other => if other = r then value else s.reg other}

abbrev Helpers (ω : Type) := Nat → List Word → Memory → ω → Word × Memory × ω

structure Machine (ω : Type) where
  insts : List Inst
  extFuncs : ExtFuncs
  helpers : Helpers ω
  block : Block

/-- The failures that are reported, with the value `UINT64_MAX`. -/
inductive Report where
  | division | memory
  deriving DecidableEq

inductive Crash where
  | fetchOutside | unregisteredFunction | divideByZero | wildAccess
  deriving DecidableEq

inductive Outcome (ω : Type) where
  | running (s : State ω)
  | returned (value : Word) (s : State ω)
  | reported (report : Report) (s : State ω)
  | crashed (crash : Crash)

variable (m : Machine ω)

section

variable (s : State ω)

section

variable (inst : Inst)

def operand : Source → Word
  | .imm => inst.imm.signExtend 64
  | .reg => s.reg inst.src

def compared (cond : Cond) (source : Source) : Word :=
  if source = .imm ∧ cond.unsignedOrder then inst.imm.setWidth 64 else operand s inst source

def executeAlu (wide : Bool) (op : AluOp) (source : Source) : Outcome ω :=
  let a := s.reg inst.dst
  let b := operand s inst source
  if op.divides ∧ source = .reg ∧ b = 0 then .reported .division s
  else if op.divides ∧ (if wide then b else u32 b) = 0 then .crashed .divideByZero
  else .running (s.set inst.dst (if wide then op.eval64 a b else op.eval32 a b))

/-- An access after `BOUNDS_CHECK_LOAD` or `BOUNDS_CHECK_STORE`. -/
def withAccess (addr : Word) (size : Size) (go : State ω) : Outcome ω :=
  if ¬ m.block.boundsCheck addr size.bytes then .reported .memory s
  else if m.block.Contains addr size.bytes then .running go
  else .crashed .wildAccess

def loadAddress : Word := s.reg inst.src + inst.offset.signExtend 64

def storeAddress : Word := s.reg inst.dst + inst.offset.signExtend 64

def arguments : List Word := [s.reg 1,s.reg 2,s.reg 3,s.reg 4,s.reg 5]

/-- The `case` of an operation; the program counter is that of the next slot. -/
def execute : Op → Outcome ω
  | .alu wide op source => executeAlu s inst wide op source
  | .neg wide =>
    .running (s.set inst.dst (if wide then - s.reg inst.dst else u32 (- s.reg inst.dst)))
  | .le =>
    .running (if inst.imm = 16 ∨ inst.imm = 32 ∨ inst.imm = 64 then
      s.set inst.dst (toLittleEndian inst.imm.toNat (s.reg inst.dst)) else s)
  | .be =>
    .running (if inst.imm = 16 ∨ inst.imm = 32 ∨ inst.imm = 64 then
      s.set inst.dst (swapBytes (inst.imm.toNat/8) (s.reg inst.dst)) else s)
  | .ldx size =>
    withAccess m s (loadAddress s inst) size
      (s.set inst.dst (loadBytes s.memory size.bytes (loadAddress s inst)))
  | .st size =>
    withAccess m s (storeAddress s inst) size
      {s with memory :=
          storeBytes size.bytes s.memory (storeAddress s inst) (inst.imm.signExtend 64)}
  | .stx size =>
    withAccess m s (storeAddress s inst) size
      {s with memory := storeBytes size.bytes s.memory (storeAddress s inst) (s.reg inst.src)}
  | .lddw =>
    match m.insts[s.pc.toNat]? with
    | none => .crashed .fetchOutside
    | some second =>
      .running ({s with pc := s.pc + 1}.set inst.dst
        (inst.imm.setWidth 64 ||| second.imm.signExtend 64 <<< 32))
  | .ja => .running {s with pc := s.pc + inst.offset}
  | .jump cond source =>
    .running (if cond.holds (s.reg inst.dst) (compared s inst cond source) then
      {s with pc := s.pc + inst.offset} else s)
  | .call =>
    if m.extFuncs.has inst.imm then
      let (result,memory,world) := m.helpers inst.imm.toNat (arguments s) s.memory s.world
      .running ({s with memory := memory, world := world}.set 0 result)
    else .crashed .unregisteredFunction
  | .exit => .returned (s.reg 0) s

end

/-- One turn of the loop of `ubpf_exec`. An opcode without a `case` does nothing. -/
def step : Outcome ω :=
  match m.insts[s.pc.toNat]? with
  | none => .crashed .fetchOutside
  | some inst =>
    match decode inst.opcode with
    | none => .running {s with pc := s.pc + 1}
    | some op => execute m {s with pc := s.pc + 1} inst op

end

def ubpfExec : Nat → State ω → Outcome ω
  | 0, s => .running s
  | turns + 1, s =>
    match step m s with
    | .running s => ubpfExec turns s
    | outcome => outcome

/-- The argument and the end of the stack; other registers have whatever the array had. -/
def start (garbage : BitVec 4 → Word) (memory : Memory) (world : ω) : State ω where
  reg r := if r = 1 then m.block.mem
    else if r = 10 then m.block.stack + BitVec.ofNat 64 stackSize else garbage r
  pc := 0
  memory := memory
  world := world

end

end Frr.Ebpf
