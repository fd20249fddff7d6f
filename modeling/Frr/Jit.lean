import Frr.EbpfSafety
import Frr.X86Machine

/-! The compiler of the pluglets to x86-64. Functions that write code are what they write;
`resolve_jumps` fills in the distances at the end. -/
namespace Frr.Jit

open WordMemory X86 Ebpf List Instr

section

def registerMap : List Reg := [rax,rdi,rsi,rdx,r9,r8,rbx,r13,r14,r15,rbp]

/-- `map_register`; its assertion fails for no register of a program that was loaded. -/
def mapRegister (r : BitVec 4) : Reg := registerMap.getD (r.toNat%11) rax

inductive Target where
  | pc (pc : Nat)
  | exit
  | divByZero
  deriving DecidableEq

inductive Emission where
  | instr (i : Instr)
  | jmp (target : Target)
  | jcc (code : Byte) (target : Target)
  deriving DecidableEq

/-- `struct jump`. -/
structure Jump where
  offsetLoc : Nat
  target : Target

/-- `struct jit_state`. -/
structure JitState where
  buf : List Byte
  pcLocs : Nat → Nat
  exitLoc : Nat
  divByZeroLoc : Nat
  jumps : List Jump

def JitState.emit (state : JitState) : Emission → JitState
  | .instr i => {state with buf := state.buf ++ i.encode}
  | .jmp target =>
    {state with
      buf := state.buf ++ encode (.jmp 0#32)
      jumps := state.jumps ++ [⟨state.buf.length+1,target⟩]}
  | .jcc code target =>
    {state with
      buf := state.buf ++ encode (.jcc code 0#32)
      jumps := state.jumps ++ [⟨state.buf.length+2,target⟩]}

def JitState.emits (state : JitState) (es : List Emission) : JitState := es.foldl JitState.emit state

def emitPush (r : Reg) : Emission := .instr (.push r)

def emitPop (r : Reg) : Emission := .instr (.pop r)

section

variable (wide : Bool) (op : Byte) (src dst : Reg)

/-- `emit_alu32` and `emit_alu64`. -/
def emitAlu : Emission := .instr (.direct wide op src dst)

def emitAluImm32 (imm : BitVec 32) : Emission :=
  .instr (.directImm32 wide op src dst imm)

def emitAluImm8 (imm : BitVec 32) : Emission :=
  .instr (.directImm8 wide op src dst (imm.setWidth 8))

end

def emitMov (src dst : Reg) : Emission := emitAlu true 0x89#8 src dst

def emitCmpImm32 (dst : Reg) (imm : BitVec 32) : Emission := emitAluImm32 true 0x81#8 7#4 dst imm

def emitCmp (src dst : Reg) : Emission := emitAlu true 0x39#8 src dst

def emitLoad (size : OperandSize) (src dst : Reg) (offset : BitVec 16) : Emission :=
  .instr (.load size dst src (offset.signExtend 32))

def emitLoadImm (dst : Reg) (imm : Word) : Emission :=
  if -2 ^ 31 ≤ imm.toInt ∧ imm.toInt < 2 ^ 31 then emitAluImm32 true 0xc7#8 0#4 dst (imm.setWidth 32)
  else .instr (.movabs dst imm)

def emitStore (size : OperandSize) (src dst : Reg) (offset : BitVec 16) : Emission :=
  .instr (.store size src dst (offset.signExtend 32))

def emitStoreImm32 (size : OperandSize) (dst : Reg) (offset : BitVec 16) (imm : BitVec 32) :
    Emission :=
  .instr (.storeImm size dst (offset.signExtend 32) (size.clip imm))

def emitCall (target : Word) : List Emission := [emitLoadImm rax target,.instr .callRax]

end

section

structure Addresses where
  extFuncs : Nat → Word
  fprintf : Word
  stderr : Word
  divByZeroFmt : Word

def testDivisor (pc : Nat) (wide : Bool) (src : Reg) : List Emission :=
  [emitLoadImm rcx (BitVec.ofNat 64 pc),emitAlu wide 0x85#8 src src,.jcc 0x84#8 .divByZero]

/-- The immediate is used if it is not zero, whatever the opcode says. -/
def loadOperands (op : AluOp) (src dst : Reg) (imm : BitVec 32) : List Emission :=
  (if dst ≠ rax then [emitPush rax] else []) ++
  (if dst ≠ rdx then [emitPush rdx] else []) ++
  [if imm ≠ 0 then emitLoadImm rcx (imm.signExtend 64) else emitMov src rcx,emitMov dst rax] ++
  if op.divides then [emitAlu false 0x31#8 rdx rdx] else []

def storeResult (op : AluOp) (dst : Reg) : List Emission :=
  (if dst ≠ rdx then (if op = .mod then [emitMov rdx dst] else []) ++ [emitPop rdx] else []) ++
  if dst ≠ rax then (if op = .mod then [] else [emitMov rax dst]) ++ [emitPop rax] else []

def muldivmod (pc : Nat) (wide : Bool) (op : AluOp) (src dst : Reg) (imm : BitVec 32) :
    List Emission :=
  (if op.divides then testDivisor pc wide src else []) ++ loadOperands op src dst imm ++
  [emitAlu wide 0xf7#8 (if op = .mul then 4#4 else 6#4) rcx] ++ storeResult op dst

def binaryOp : AluOp → Byte × Reg
  | .add => (0x01#8,0#4)
  | .sub => (0x29#8,5#4)
  | .or => (0x09#8,1#4)
  | .and => (0x21#8,4#4)
  | _ => (0x31#8,6#4)

def shiftDigit : AluOp → Reg
  | .lsh => 4#4
  | .rsh => 5#4
  | _ => 7#4

def translateAlu (pc : Nat) (wide : Bool) (src dst : Reg) (imm : BitVec 32) :
    AluOp → Source → List Emission
  | .mul, _ => muldivmod pc wide .mul src dst imm
  | .div, _ => muldivmod pc wide .div src dst imm
  | .mod, _ => muldivmod pc wide .mod src dst imm
  | .mov, .imm =>
    [if wide then emitLoadImm dst (imm.signExtend 64) else emitAluImm32 false 0xc7#8 0#4 dst imm]
  -- The 32-bit form moves the whole register as well.
  | .mov, .reg => [emitMov src dst]
  | .lsh, .imm => [emitAluImm8 wide 0xc1#8 (shiftDigit .lsh) dst imm]
  | .rsh, .imm => [emitAluImm8 wide 0xc1#8 (shiftDigit .rsh) dst imm]
  | .arsh, .imm => [emitAluImm8 wide 0xc1#8 (shiftDigit .arsh) dst imm]
  | .lsh, .reg => [emitMov src rcx,emitAlu wide 0xd3#8 (shiftDigit .lsh) dst]
  | .rsh, .reg => [emitMov src rcx,emitAlu wide 0xd3#8 (shiftDigit .rsh) dst]
  | .arsh, .reg => [emitMov src rcx,emitAlu wide 0xd3#8 (shiftDigit .arsh) dst]
  | op, .imm => [emitAluImm32 wide 0x81#8 (binaryOp op).2 dst imm]
  | op, .reg => [emitAlu wide (binaryOp op).1 src dst]

def jccCode : Cond → Byte
  | .eq => 0x84#8
  | .gt => 0x87#8
  | .ge => 0x83#8
  | .lt => 0x82#8
  | .le => 0x86#8
  | .set => 0x85#8
  | .ne => 0x85#8
  | .sgt => 0x8f#8
  | .sge => 0x8d#8
  | .slt => 0x8c#8
  | .sle => 0x8e#8

def emitComparison (src dst : Reg) (imm : BitVec 32) : Cond → Source → Emission
  | .set, .imm => emitAluImm32 true 0xf7#8 0#4 dst imm
  | .set, .reg => emitAlu true 0x85#8 src dst
  | _, .imm => emitCmpImm32 dst imm
  | _, .reg => emitCmp src dst

def operandSize : Size → OperandSize
  | .w => .s32
  | .h => .s16
  | .b => .s8
  | .dw => .s64

variable (addr : Addresses) (insts : List Inst)

/-- The `case` of an operation in `translate`. -/
def translateInst (i : Nat) (inst : Inst) : Op → List Emission :=
  let dst := mapRegister inst.dst
  let src := mapRegister inst.src
  let targetPc := Target.pc ((i : Int) + inst.offset.toInt + 1).toNat
  fun
  | .alu wide op source => translateAlu i wide src dst inst.imm op source
  | .neg wide => [emitAlu wide 0xf7#8 3#4 dst]
  | .le => []
  | .be =>
    if inst.imm = 16 then [.instr (.rol16 dst 8#8),emitAluImm32 false 0x81#8 4#4 dst 0xffff#32]
    else if inst.imm = 32 ∨ inst.imm = 64 then [.instr (.bswap (inst.imm = 64) dst)]
    else []
  | .ja => [.jmp targetPc]
  | .jump cond source => [emitComparison src dst inst.imm cond source,.jcc (jccCode cond) targetPc]
  | .call => emitMov r9 rcx :: emitCall (addr.extFuncs inst.imm.toNat)
  | .exit => if i ≠ insts.length-1 then [.jmp .exit] else []
  | .ldx size => [emitLoad (operandSize size) src dst inst.offset]
  | .st size => [emitStoreImm32 (operandSize size) dst inst.offset inst.imm]
  | .stx size => [emitStore (operandSize size) src dst inst.offset]
  | .lddw =>
    match insts[i+1]? with
    | none => []
    | some second => [emitLoadImm dst (inst.imm.setWidth 64 ||| second.imm.signExtend 64 <<< 32)]

inductive CompileError where
  | notLoaded
  | unknownInstruction (pc opcode : Nat)
  | assertion
  deriving DecidableEq

def CompileError.message : CompileError → String
  | .notLoaded => "code has not been loaded into this VM"
  | .unknownInstruction pc opcode =>
    "Unknown instruction at PC " ++ toString pc ++ ": opcode " ++ hexByte opcode
  | .assertion => "state->offset <= state->size - len"

def JitState.locate (state : JitState) (pc : Nat) : JitState :=
  {state with pcLocs := fun other => if other = pc then state.buf.length else state.pcLocs other}

/-- The loop of `translate`. -/
def translateInsts : Nat → Nat → JitState → Except CompileError JitState
  | 0, _, state => .ok state
  | turns + 1, i, state =>
    match insts[i]? with
    | none => .ok state
    | some inst =>
      match decode inst.opcode with
      | none => .error (.unknownInstruction i inst.opcode.toNat)
      | some op =>
        translateInsts turns (i+op.width)
          ((state.locate i).emits (translateInst addr insts i inst op))

def prologue : List Emission :=
  [emitPush rbp,emitPush rbx,emitPush r13,emitPush r14,emitPush r15] ++
  (if mapRegister 1 ≠ rdi then [emitMov rdi (mapRegister 1)] else []) ++
  [emitMov rsp (mapRegister 10),emitAluImm32 true 0x81#8 5#4 rsp (BitVec.ofNat 32 stackSize)]

def epilogue : List Emission :=
  (if mapRegister 0 ≠ rax then [emitMov (mapRegister 0) rax] else []) ++
  [emitAluImm32 true 0x81#8 0#4 rsp (BitVec.ofNat 32 stackSize),
    emitPop r15,emitPop r14,emitPop r13,emitPop rbx,emitPop rbp,.instr .ret]

/-- What a division by zero comes to: the program counter is in `rcx`. -/
def divByZeroHandler : List Emission :=
  [emitLoadImm rdi addr.stderr,emitLoadImm rsi addr.divByZeroFmt,emitMov rcx rdx] ++
  emitCall addr.fprintf ++ [emitLoadImm (mapRegister 0) (-1),.jmp .exit]

def translate (state : JitState) : Except CompileError JitState := do
  let state ← translateInsts addr insts insts.length 0 (state.emits prologue)
  let state := {state with exitLoc := state.buf.length}.emits epilogue
  .ok ({state with divByZeroLoc := state.buf.length}.emits (divByZeroHandler addr))

def JitState.location (state : JitState) : Target → Nat
  | .pc pc => state.pcLocs pc
  | .exit => state.exitLoc
  | .divByZero => state.divByZeroLoc

def patch (buf : List Byte) (loc : Nat) (bytes : List Byte) : List Byte :=
  buf.take loc ++ bytes ++ buf.drop (loc+bytes.length)

def distance (goal next : Nat) : BitVec 32 := BitVec.ofNat 32 goal - BitVec.ofNat 32 next

def resolveJumps (location : Target → Nat) (jumps : List Jump) (buf : List Byte) : List Byte :=
  jumps.foldl (fun buf jump =>
    patch buf jump.offsetLoc (le32 (distance (location jump.target) (jump.offsetLoc+4)))) buf

def bufferSize : Nat := 65536

def ubpfCompile (vm : Vm) : Except CompileError (List Byte) :=
  match vm.insts with
  | none => .error .notLoaded
  | some insts => do
    let state ← translate addr insts ⟨[],fun _ => 0,0,0,[]⟩
    if bufferSize < state.buf.length then .error .assertion
    else .ok (resolveJumps state.location state.jumps state.buf)

end

section

def Emission.resolve (location : Target → Nat) (loc : Nat) : Emission → Instr
  | .instr i => i
  | .jmp target => .jmp (distance (location target) (loc+5))
  | .jcc code target => .jcc code (distance (location target) (loc+6))

def Emission.blank : Emission → List Byte
  | .instr i => i.encode
  | .jmp _ => encode (.jmp 0#32)
  | .jcc code _ => encode (.jcc code 0#32)

def Emission.size (e : Emission) : Nat := e.blank.length

def assemble (location : Target → Nat) : Nat → List Emission → List Byte
  | _, [] => []
  | loc, e :: es => (e.resolve location loc).encode ++ assemble location (loc+e.size) es

def sizes (es : List Emission) : Nat := (es.map Emission.size).sum

def Emission.jumps (loc : Nat) : Emission → List Jump
  | .instr _ => []
  | .jmp target => [⟨loc+1,target⟩]
  | .jcc _ target => [⟨loc+2,target⟩]

def jumpsFrom : Nat → List Emission → List Jump
  | _, [] => []
  | loc, e :: es => e.jumps loc ++ jumpsFrom (loc+e.size) es

variable {location : Target → Nat} {es es' : List Emission} {e : Emission} {state : JitState}

@[simp] theorem sizes_nil : sizes [] = 0 := rfl

@[simp] theorem sizes_cons : sizes (e :: es) = e.size + sizes es := by simp [sizes]

@[simp] theorem sizes_append : sizes (es ++ es') = sizes es + sizes es' := by simp [sizes]

theorem resolve_length (loc : Nat) : (e.resolve location loc).encode.length = e.size := by
  cases e <;> simp [Emission.resolve,Emission.size,Emission.blank,encode,le32]

theorem assemble_append (loc : Nat) : assemble location loc (es ++ es') =
    assemble location loc es ++ assemble location (loc + sizes es) es' := by
  induction es generalizing loc with
  | nil => simp [assemble]
  | cons e es ih => simp [assemble,ih,add_assoc]

theorem assemble_length (loc : Nat) : (assemble location loc es).length = sizes es := by
  induction es generalizing loc with
  | nil => rfl
  | cons e es ih => simp [assemble,ih,resolve_length]

theorem emit_buf (e : Emission) : (state.emit e).buf = state.buf ++ e.blank := by
  cases e <;> rfl

theorem emit_jumps (e : Emission) :
    (state.emit e).jumps = state.jumps ++ e.jumps state.buf.length := by
  cases e <;> simp [JitState.emit,Emission.jumps]

theorem emit_locations (e : Emission) : (state.emit e).pcLocs = state.pcLocs ∧
    (state.emit e).exitLoc = state.exitLoc ∧ (state.emit e).divByZeroLoc = state.divByZeroLoc := by
  cases e <;> simp [JitState.emit]

theorem emits_buf : (state.emits es).buf = state.buf ++ es.flatMap Emission.blank := by
  induction es generalizing state with
  | nil => simp [JitState.emits]
  | cons e es ih =>
    have := @ih (state.emit e)
    simp_all [JitState.emits,emit_buf]

theorem emits_length : (state.emits es).buf.length = state.buf.length + sizes es := by
  rw [emits_buf,length_append,length_flatMap]
  rfl

theorem emits_jumps : (state.emits es).jumps = state.jumps ++ jumpsFrom state.buf.length es := by
  induction es generalizing state with
  | nil => simp [JitState.emits,jumpsFrom]
  | cons e es ih =>
    have := @ih (state.emit e)
    simp_all [JitState.emits,emit_buf,emit_jumps,jumpsFrom,Emission.size]

theorem emits_locations : (state.emits es).pcLocs = state.pcLocs ∧
    (state.emits es).exitLoc = state.exitLoc ∧ (state.emits es).divByZeroLoc = state.divByZeroLoc := by
  induction es generalizing state with
  | nil => simp [JitState.emits]
  | cons e es ih =>
    have := @ih (state.emit e)
    simp_all [JitState.emits,emit_locations]

theorem emits_congr (state state' : JitState) (es : List Emission) (buf : state.buf = state'.buf)
    (jumps : state.jumps = state'.jumps) : (state.emits es).buf = (state'.emits es).buf ∧
      (state.emits es).jumps = (state'.emits es).jumps := by
  simp [emits_buf,emits_jumps,buf,jumps,and_self]

theorem emits_append (es es' : List Emission) :
    state.emits (es ++ es') = (state.emits es).emits es' := foldl_append

theorem patch_append (pre old new post : List Byte) (eq : old.length = new.length) :
    patch (pre ++ old ++ post) pre.length new = pre ++ new ++ post := by
  simp [patch,← eq,drop_append]

theorem resolveJumps_emission (pre post : List Byte) :
    resolveJumps location (e.jumps pre.length) (pre ++ e.blank ++ post) =
      pre ++ (e.resolve location pre.length).encode ++ post := by
  cases e with
  | instr i => rfl
  | jmp tgt =>
    have := patch_append (pre ++ [0xe9#8]) (le32 0#32)
      (le32 (distance (location tgt) (pre.length+5))) post (by simp [le32])
    simpa [resolveJumps,Emission.jumps,Emission.blank,Emission.resolve,encode] using this
  | jcc code tgt =>
    have := patch_append (pre ++ [0x0f#8,code]) (le32 0#32)
      (le32 (distance (location tgt) (pre.length+6))) post (by simp [le32])
    simpa [resolveJumps,Emission.jumps,Emission.blank,Emission.resolve,encode] using this

theorem resolveJumps_append (fst snd : List Jump) (buf : List Byte) :
    resolveJumps location (fst ++ snd) buf =
      resolveJumps location snd (resolveJumps location fst buf) :=
  foldl_append

theorem resolveJumps_jumpsFrom (pre : List Byte) :
    resolveJumps location (jumpsFrom pre.length es) (pre ++ es.flatMap Emission.blank) =
      pre ++ assemble location pre.length es := by
  induction es generalizing pre with
  | nil => rfl
  | cons e es ih =>
    have fst := @resolveJumps_emission location e pre (es.flatMap Emission.blank)
    have hm := ih (pre ++ (e.resolve location pre.length).encode)
    rw [length_append,resolve_length] at hm
    rw [jumpsFrom,resolveJumps_append,flatMap_cons,← append_assoc,fst,hm,assemble,append_assoc]

end

section

variable (addr : Addresses) (insts : List Inst)

/-- What the loop of `translate` writes. -/
def translated : Nat → Nat → List Emission
  | 0, _ => []
  | turns + 1, i =>
    match insts[i]? with
    | none => []
    | some inst =>
      match decode inst.opcode with
      | none => []
      | some op => translateInst addr insts i inst op ++ translated turns (i+op.width)

def body : List Emission := translated addr insts insts.length 0

def codeSize : Nat :=
  sizes prologue + sizes (body addr insts) + sizes epilogue + sizes (divByZeroHandler addr)

def Laid (pcLocs : Nat → Nat) (base : Nat) (es : List Emission) (j : Nat) (inst : Inst) (op : Op) :
    Prop :=
  ∃ pre post, es = pre ++ translateInst addr insts j inst op ++ post ∧ pcLocs j = base + sizes pre ∧
    if j + op.width < insts.length then
      pcLocs (j+op.width) = base + sizes pre + sizes (translateInst addr insts j inst op)
    else post = []

variable {addr insts} {turns i j : Nat} {state : JitState} {inst : Inst} {op : Op}

structure Looped (addr : Addresses) (insts : List Inst) (turns i : Nat) (state state' : JitState) :
    Prop where
  buf : state'.buf = (state.emits (translated addr insts turns i)).buf
  jumps : state'.jumps = (state.emits (translated addr insts turns i)).jumps
  before : ∀ k < i, state'.pcLocs k = state.pcLocs k
  first : i < insts.length → state'.pcLocs i = state.buf.length
  laid : ∀ j inst op, Starts insts i j → insts[j]? = some inst → decode inst.opcode = some op →
    Laid addr insts state'.pcLocs state.buf.length (translated addr insts turns i) j inst op

theorem translated_end (he : insts[i]? = none) : translated addr insts turns i = [] := by
  cases turns <;> simp [translated,he]

theorem looped_end (he : insts[i]? = none) : Looped addr insts turns i state state where
  buf := by simp [translated_end he,JitState.emits]
  jumps := by simp [translated_end he,JitState.emits]
  before k _ := rfl
  first hi := by
    have := List.getElem?_eq_none_iff.mp he
    omega
  laid j inst op hs ht _ := by
    have ho := List.getElem?_eq_none_iff.mp he
    have hi := (List.getElem?_eq_some_iff.mp ht).1
    have le := hs.le
    omega

theorem looped_cons {state' : JitState} (hh : insts[i]? = some inst)
    (hk : decode inst.opcode = some op)
    (rest : Looped addr insts turns (i+op.width)
      ((state.locate i).emits (translateInst addr insts i inst op)) state') :
    Looped addr insts (turns+1) i state state' := by
  have split : translated addr insts (turns+1) i =
      translateInst addr insts i inst op ++ translated addr insts turns (i+op.width) := by
    simp [translated,hh,hk]
  have wide : width inst = op.width := width_decode hk
  have one : 1 ≤ op.width := wide ▸ width_pos inst
  have len : ((state.locate i).emits (translateInst addr insts i inst op)).buf.length =
      state.buf.length + sizes (translateInst addr insts i inst op) := emits_length
  have start : state'.pcLocs i = state.buf.length := by
    rw [rest.before i (by omega),emits_locations.1]
    simp [JitState.locate]
  refine ⟨?_,?_,?_,fun _ => start,?_⟩
  · rw [rest.buf,split,← emits_append]
    exact (emits_congr (state.locate i) state _ rfl rfl).1
  · rw [rest.jumps,split,← emits_append]
    exact (emits_congr (state.locate i) state _ rfl rfl).2
  · intro k hb
    rw [rest.before k (by omega),emits_locations.1]
    simp [JitState.locate,show k ≠ i by omega]
  intro j hf op' hs ht hk'
  cases hs with
  | here =>
    obtain rfl := Option.some.inj (hh.symm.trans ht)
    obtain rfl := Option.some.inj (hk.symm.trans hk')
    refine ⟨[],translated addr insts turns (i+op.width),by simp [split],by simp [start],?_⟩
    split
    · next more => simp [rest.first more,len]
    · next less => exact translated_end (getElem?_eq_none_iff.mpr (by omega))
  | skip ht' hs =>
    obtain rfl := Option.some.inj (hh.symm.trans ht')
    rw [wide] at hs
    obtain ⟨pre,post,eq,loc,next⟩ := rest.laid j hf op' hs ht hk'
    refine ⟨translateInst addr insts i inst op ++ pre,post,by simp [split,eq],?_,?_⟩
    · rw [loc,len,sizes_append,add_assoc]
    rw [len] at next
    simpa [add_assoc] using next

theorem translateInsts_checked {extFuncs : ExtFuncs}
    (hp : checkInsts extFuncs insts turns i = .ok ()) (he : insts.length ≤ i+turns) :
    ∃ state', translateInsts addr insts turns i state = .ok state' ∧
      Looped addr insts turns i state state' := by
  induction turns generalizing i state with
  | zero => exact ⟨state,rfl,looped_end (getElem?_eq_none_iff.mpr (by omega))⟩
  | succ turns ih =>
    cases hh : insts[i]? with
    | none => exact ⟨state,by simp [translateInsts,hh],looped_end hh⟩
    | some inst =>
      obtain ⟨op,hk,-,ho⟩ := checkInsts_succ hp hh
      rw [width_decode hk] at ho
      have one : 1 ≤ op.width := width_decode hk ▸ width_pos inst
      obtain ⟨state',hd,hl⟩ := @ih (i+op.width)
        ((state.locate i).emits (translateInst addr insts i inst op)) ho (by omega)
      refine ⟨state',?_,looped_cons hh hk hl⟩
      rw [translateInsts,hh]
      simp only [hk]
      exact hd

structure Compiled (addr : Addresses) (insts : List Inst) (code : List Byte)
    (location : Target → Nat) : Prop where
  assembled : code = assemble location 0
    (prologue ++ body addr insts ++ epilogue ++ divByZeroHandler addr)
  small : code.length ≤ bufferSize
  exit : location .exit = sizes prologue + sizes (body addr insts)
  divByZero : location .divByZero = sizes prologue + sizes (body addr insts) + sizes epilogue
  first : 0 < insts.length → location (.pc 0) = sizes prologue
  laid : ∀ j inst op, Starts insts 0 j → insts[j]? = some inst → decode inst.opcode = some op →
    Laid addr insts (fun pc => location (.pc pc)) (sizes prologue) (body addr insts) j inst op

theorem ubpfCompile_compiled {vm : Vm} (loaded : vm.insts = some insts)
    (accepted : validate vm.extFuncs insts = .ok ()) (fits : codeSize addr insts ≤ bufferSize) :
    ∃ code location, ubpfCompile addr vm = .ok code ∧ Compiled addr insts code location := by
  let blank : JitState := ⟨[],fun _ => 0,0,0,[]⟩
  obtain ⟨looped,loop,result⟩ := @translateInsts_checked addr insts insts.length 0
    (blank.emits prologue) vm.extFuncs (validate_checked accepted).2 (by omega)
  let ended := {looped with exitLoc := looped.buf.length}.emits epilogue
  let final := {ended with divByZeroLoc := ended.buf.length}.emits (divByZeroHandler addr)
  have done : translate addr insts blank = .ok final := by
    simp only [translate,loop]
    rfl
  -- The locations do not change what is written.
  have written : final.buf = (blank.emits (prologue ++ body addr insts ++ epilogue ++
        divByZeroHandler addr)).buf ∧ final.jumps = (blank.emits (prologue ++ body addr insts ++
          epilogue ++ divByZeroHandler addr)).jumps := by
    have ended_eq := emits_congr {looped with exitLoc := looped.buf.length}
      (blank.emits prologue |>.emits (body addr insts)) epilogue result.buf result.jumps
    simp only [emits_append]
    exact emits_congr {ended with divByZeroLoc := ended.buf.length} _ _ ended_eq.1 ended_eq.2
  have looped_length : looped.buf.length = sizes prologue + sizes (body addr insts) := by
    rw [result.buf,emits_length,emits_length]
    exact congrArg (· + _) (zero_add _)
  have ended_length : ended.buf.length =
      sizes prologue + sizes (body addr insts) + sizes epilogue := by
    rw [← looped_length]
    exact emits_length
  have final_length : final.buf.length = codeSize addr insts := by
    rw [codeSize,← ended_length]
    exact emits_length
  have code : resolveJumps final.location final.jumps final.buf = assemble final.location 0
      (prologue ++ body addr insts ++ epilogue ++ divByZeroHandler addr) := by
    rw [written.1,written.2,emits_buf,emits_jumps]
    exact resolveJumps_jumpsFrom []
  have locs : final.pcLocs = looped.pcLocs := emits_locations.1.trans emits_locations.1
  refine ⟨resolveJumps final.location final.jumps final.buf,final.location,?_,code,?_,?_,?_,?_,?_⟩
  · have room : ¬ bufferSize < final.buf.length := by omega
    simp only [ubpfCompile,loaded]
    show (do
      let state ← translate addr insts blank
      if bufferSize < state.buf.length then .error .assertion
      else .ok (resolveJumps state.location state.jumps state.buf)) = _
    simp [done,bind,Except.bind,if_neg room]
  · rw [code,assemble_length]
    simpa [codeSize,add_assoc] using fits
  · rw [← looped_length]
    exact emits_locations.2.1.trans emits_locations.2.1
  · exact emits_locations.2.2.trans ended_length
  · intro some_
    show final.pcLocs 0 = _
    rw [locs,result.first some_,emits_length]
    exact zero_add _
  · intro j inst op starts there known
    have laid := result.laid j inst op starts there known
    rw [emits_length,show blank.buf.length = 0 from rfl,zero_add,← locs] at laid
    exact laid

end

end Frr.Jit
