import Frr.WordMemory

/-! A part of x86-64: integer arithmetic between registers, moves, shifts, multiplication and
division, accesses with a displacement, relative jumps, a call through `rax` and the return. What is
pushed is kept apart from the memory. -/
namespace Frr.X86

open WordMemory List Option

abbrev Reg := BitVec 4

def rax : Reg := 0#4
def rcx : Reg := 1#4
def rdx : Reg := 2#4
def rbx : Reg := 3#4
def rsp : Reg := 4#4
def rbp : Reg := 5#4
def rsi : Reg := 6#4
def rdi : Reg := 7#4
def r8 : Reg := 8#4
def r9 : Reg := 9#4
def r13 : Reg := 13#4
def r14 : Reg := 14#4
def r15 : Reg := 15#4

inductive OperandSize where
  | s8 | s16 | s32 | s64
  deriving DecidableEq

def OperandSize.bytes : OperandSize → Nat
  | .s8 => 1
  | .s16 => 2
  | .s32 => 4
  | .s64 => 8

/-- A `direct` one has a register, or a digit that extends the opcode, and the register it works on.
-/
inductive Instr where
  | push (r : Reg)
  | pop (r : Reg)
  | direct (wide : Bool) (op : Byte) (reg rm : Reg)
  | directImm32 (wide : Bool) (op : Byte) (digit rm : Reg) (imm : BitVec 32)
  | directImm8 (wide : Bool) (op : Byte) (digit rm : Reg) (imm : Byte)
  | rol16 (rm : Reg) (count : Byte)
  | bswap (wide : Bool) (r : Reg)
  | load (size : OperandSize) (dst base : Reg) (disp : BitVec 32)
  | store (size : OperandSize) (src base : Reg) (disp : BitVec 32)
  | storeImm (size : OperandSize) (base : Reg) (disp imm : BitVec 32)
  | movabs (r : Reg) (imm : Word)
  | callRax
  | jmp (rel : BitVec 32)
  | jcc (code : Byte) (rel : BitVec 32)
  | ret
  deriving DecidableEq

section

def high (r : Reg) : Bool := r.getLsbD 3

def low (r : Reg) : Byte := (r &&& 7#4).setWidth 8

def rexByte (w r b : Bool) : Byte :=
  0x40#8 ||| (if w then 8#8 else 0#8) ||| (if r then 4#8 else 0#8) |||
    (if b then 1#8 else 0#8)

/-- A `REX` byte, left out if it would say nothing. -/
def basicRex (w : Bool) (reg rm : Reg) : List Byte :=
  if w ∨ high reg ∨ high rm then [rexByte w (high reg) (high rm)] else []

def modrm (mod : Byte) (reg rm : Reg) : Byte := mod ||| low reg <<< 3 ||| low rm

def le16 (x : BitVec 32) : List Byte := [x.setWidth 8,(x >>> 8).setWidth 8]

def le32 (x : BitVec 32) : List Byte :=
  [x.setWidth 8,(x >>> 8).setWidth 8,(x >>> 16).setWidth 8,(x >>> 24).setWidth 8]

def le64 (x : Word) : List Byte := le32 (x.setWidth 32) ++ le32 ((x >>> 32).setWidth 32)

/-- Without displacement, `rbp` and `r13` would mean something else. -/
def withDisplacement (reg rm : Reg) (disp : BitVec 32) : List Byte :=
  if disp = 0#32 ∧ low rm ≠ 5#8 then [modrm 0x00#8 reg rm]
  else if -128 ≤ disp.toInt ∧ disp.toInt ≤ 127 then [modrm 0x40#8 reg rm,disp.setWidth 8]
  else modrm 0x80#8 reg rm :: le32 disp

def override16 (size : OperandSize) : List Byte := if size = .s16 then [0x66#8] else []

def Instr.encode : Instr → List Byte
  | .push r => basicRex false 0#4 r ++ [0x50#8 ||| low r]
  | .pop r => basicRex false 0#4 r ++ [0x58#8 ||| low r]
  | .direct wide op reg rm => basicRex wide reg rm ++ [op,modrm 0xc0#8 reg rm]
  | .directImm32 wide op digit rm imm => basicRex wide digit rm ++ [op,modrm 0xc0#8 digit rm] ++ le32 imm
  | .directImm8 wide op digit rm imm => basicRex wide digit rm ++ [op,modrm 0xc0#8 digit rm,imm]
  | .rol16 rm count => 0x66#8 :: basicRex false 0#4 rm ++ [0xc1#8,modrm 0xc0#8 0#4 rm,count]
  | .bswap wide r => basicRex wide 0#4 r ++ [0x0f#8,0xc8#8 ||| low r]
  | .load size dst base disp =>
    basicRex (size = .s64) dst base ++
      (match size with
        | .s8 => [0x0f#8,0xb6#8]
        | .s16 => [0x0f#8,0xb7#8]
        | _ => [0x8b#8]) ++ withDisplacement dst base disp
  | .store size src base disp =>
    override16 size ++
      (if size = .s64 ∨ high src ∨ high base ∨ size = .s8 then
        [rexByte (size = .s64) (high src) (high base)] else []) ++
      [if size = .s8 then 0x88#8 else 0x89#8] ++ withDisplacement src base disp
  | .storeImm size base disp imm =>
    override16 size ++ basicRex (size = .s64) 0#4 base ++ [if size = .s8 then 0xc6#8 else 0xc7#8] ++
      withDisplacement 0#4 base disp ++
      match size with
      | .s8 => [imm.setWidth 8]
      | .s16 => le16 imm
      | _ => le32 imm
  | .movabs r imm => basicRex true 0#4 r ++ [0xb8#8 ||| low r] ++ le64 imm
  | .callRax => [0xff#8,0xd0#8]
  | .jmp rel => 0xe9#8 :: le32 rel
  | .jcc code rel => 0x0f#8 :: code :: le32 rel
  | .ret => [0xc3#8]

end

section

/-- A register of an instruction, with its bit from the `REX` byte. -/
def extend (bit : Bool) (low : Byte) : Reg :=
  (if bit then 8#4 else 0#4) ||| (low &&& 7#8).setWidth 4

def modOf (byte : Byte) : Byte := byte &&& 0xc0#8

def regOf (bit : Bool) (byte : Byte) : Reg := extend bit (byte >>> 3)

def take16 : List Byte → Option (BitVec 32 × List Byte)
  | b0 :: b1 :: rest => some (b0.setWidth 32 ||| b1.setWidth 32 <<< 8,rest)
  | _ => none

def take32 : List Byte → Option (BitVec 32 × List Byte)
  | b0 :: b1 :: b2 :: b3 :: rest =>
    some (b0.setWidth 32 ||| b1.setWidth 32 <<< 8 ||| b2.setWidth 32 <<< 16 ||| b3.setWidth 32 <<< 24,
      rest)
  | _ => none

def take64 (bytes : List Byte) : Option (Word × List Byte) := do
  let (first,rest) ← take32 bytes
  let (second,rest) ← take32 rest
  some (first.setWidth 64 ||| second.setWidth 64 <<< 32,rest)

/-- Register, base and displacement. Forms with an index or relative to the instruction pointer are
not decoded. -/
def decodeMemory (r b : Bool) : List Byte → Option ((Reg × Reg × BitVec 32) × List Byte)
  | [] => none
  | byte :: rest =>
    if byte &&& 7#8 = 4#8 then none
    else if modOf byte = 0x00#8 then
      if byte &&& 7#8 = 5#8 then none else some ((regOf r byte,extend b byte,0#32),rest)
    else if modOf byte = 0x40#8 then
      match rest with
      | [] => none
      | disp :: rest => some ((regOf r byte,extend b byte,disp.signExtend 32),rest)
    else if modOf byte = 0x80#8 then do
      let (disp,rest) ← take32 rest
      some ((regOf r byte,extend b byte,disp),rest)
    else none

/-- Opcodes with a register operand and no immediate: between two registers, and with a digit. -/
def plainOps : List Byte := [0x01#8,0x09#8,0x21#8,0x29#8,0x31#8,0x39#8,0x85#8,0x89#8]

def plainDigits : List (Byte × Reg) :=
  [(0xd3#8,4#4),(0xd3#8,5#4),(0xd3#8,7#4),(0xf7#8,3#4),(0xf7#8,4#4),(0xf7#8,6#4)]

def imm32Digits : List (Byte × Reg) :=
  [(0x81#8,0#4),(0x81#8,1#4),(0x81#8,4#4),(0x81#8,5#4),(0x81#8,6#4),(0x81#8,7#4),(0xc7#8,0#4),
    (0xf7#8,0#4)]

def imm8Digits : List (Byte × Reg) := [(0xc1#8,4#4),(0xc1#8,5#4),(0xc1#8,7#4)]

def decode0f (w r b : Bool) : List Byte → Option (Instr × List Byte)
  | [] => none
  | op :: rest =>
    if op &&& 0xf0#8 = 0x80#8 then do
      let (rel,rest) ← take32 rest
      some (.jcc op rel,rest)
    else if op &&& 0xf8#8 = 0xc8#8 then some (.bswap w (extend b op),rest)
    else if op = 0xb6#8 then do
      let ((reg,base,disp),rest) ← decodeMemory r b rest
      some (.load .s8 reg base disp,rest)
    else if op = 0xb7#8 then do
      let ((reg,base,disp),rest) ← decodeMemory r b rest
      some (.load .s16 reg base disp,rest)
    else none

def sizeOf (p66 w : Bool) : OperandSize := if w then .s64 else if p66 then .s16 else .s32

def decodeRegister (p66 w r b : Bool) (op byte : Byte) (rest : List Byte) :
    Option (Instr × List Byte) :=
  let reg := regOf r byte
  let rm := extend b byte
  if op = 0xff#8 ∧ byte = 0xd0#8 then some (.callRax,rest)
  else if p66 then
    match rest with
    | [] => none
    | count :: rest => if op = 0xc1#8 ∧ reg = 0#4 then some (.rol16 rm count,rest) else none
  else if op ∈ plainOps ∨ (op,reg) ∈ plainDigits then some (.direct w op reg rm,rest)
  else if (op,reg) ∈ imm32Digits then do
    let (imm,rest) ← take32 rest
    some (.directImm32 w op reg rm imm,rest)
  else if (op,reg) ∈ imm8Digits then
    match rest with
    | [] => none
    | imm :: rest => some (.directImm8 w op reg rm imm,rest)
  else none

def decodeAccess (p66 w r b : Bool) (op : Byte) (bytes : List Byte) : Option (Instr × List Byte) := do
  let ((reg,base,disp),rest) ← decodeMemory r b bytes
  if op = 0x8b#8 then
    if p66 then none else some (.load (sizeOf p66 w) reg base disp,rest)
  else if op = 0x88#8 then some (.store .s8 reg base disp,rest)
  else if op = 0x89#8 then some (.store (sizeOf p66 w) reg base disp,rest)
  else if op = 0xc6#8 then
    match rest with
    | [] => none
    | imm :: rest => some (.storeImm .s8 base disp (imm.setWidth 32),rest)
  else if op = 0xc7#8 then
    if sizeOf p66 w = .s16 then do
      let (imm,rest) ← take16 rest
      some (.storeImm .s16 base disp imm,rest)
    else do
      let (imm,rest) ← take32 rest
      some (.storeImm (sizeOf p66 w) base disp imm,rest)
  else none

def decodeOp (p66 w r b : Bool) : List Byte → Option (Instr × List Byte)
  | [] => none
  | op :: rest =>
    if op = 0xc3#8 then some (.ret,rest)
    else if op = 0xe9#8 then do
      let (rel,rest) ← take32 rest
      some (.jmp rel,rest)
    else if op = 0x0f#8 then decode0f w r b rest
    else if op &&& 0xf8#8 = 0x50#8 then some (.push (extend b op),rest)
    else if op &&& 0xf8#8 = 0x58#8 then some (.pop (extend b op),rest)
    else if op &&& 0xf8#8 = 0xb8#8 ∧ w then do
      let (imm,rest) ← take64 rest
      some (.movabs (extend b op) imm,rest)
    else
      match rest with
      | [] => none
      | byte :: tail =>
        if modOf byte = 0xc0#8 then decodeRegister p66 w r b op byte tail
        else decodeAccess p66 w r b op rest

def decodeRex (p66 : Bool) : List Byte → Option (Instr × List Byte)
  | [] => none
  | byte :: rest =>
    if byte &&& 0xf0#8 = 0x40#8 then
      decodeOp p66 (byte.getLsbD 3) (byte.getLsbD 2) (byte.getLsbD 0) rest
    else decodeOp p66 false false false (byte :: rest)

def decode : List Byte → Option (Instr × List Byte)
  | [] => none
  | byte :: rest => if byte = 0x66#8 then decodeRex true rest else decodeRex false (byte :: rest)

def OperandSize.clip (size : OperandSize) (imm : BitVec 32) : BitVec 32 :=
  match size with
  | .s8 => (imm.setWidth 8).setWidth 32
  | .s16 => (imm.setWidth 16).setWidth 32
  | _ => imm

/-- Encoded as the processor reads them. A base of `rsp` or `r12` would need another form. -/
def Instr.Encodable : Instr → Prop
  | .direct _ op reg _ => op ∈ plainOps ∨ (op,reg) ∈ plainDigits
  | .directImm32 _ op digit _ _ => (op,digit) ∈ imm32Digits
  | .directImm8 _ op digit _ _ => (op,digit) ∈ imm8Digits
  | .load _ _ base _ => low base ≠ 4#8
  | .store _ _ base _ => low base ≠ 4#8
  | .storeImm size base _ imm => low base ≠ 4#8 ∧ size.clip imm = imm
  | .jcc code _ => code &&& 0xf0#8 = 0x80#8
  | _ => True

section

variable (rest : List Byte)

@[simp] theorem take16_le16 (x : BitVec 32) :
    take16 (le16 x ++ rest) = some ((x.setWidth 16).setWidth 32,rest) := by
  simp only [le16,cons_append,nil_append,take16,some.injEq,Prod.mk.injEq,and_true]
  ext i inside
  simp
  grind

@[simp] theorem take32_le32 (x : BitVec 32) : take32 (le32 x ++ rest) = some (x,rest) := by
  simp only [le32,cons_append,nil_append,take32,some.injEq,Prod.mk.injEq,and_true]
  ext i inside
  simp
  grind

@[simp] theorem take64_le64 (x : Word) : take64 (le64 x ++ rest) = some (x,rest) := by
  simp only [le64,append_assoc,take64,take32_le32,bind_eq_bind,bind_some,
    some.injEq,Prod.mk.injEq,and_true]
  ext i inside
  simp
  grind

theorem signExtend_setWidth {disp : BitVec 32} (low : -128 ≤ disp.toInt) (high : disp.toInt ≤ 127) :
    (disp.setWidth 8).signExtend 32 = disp := by
  apply BitVec.eq_of_toInt_eq
  rw [BitVec.toInt_signExtend_of_le (by omega),BitVec.toInt_setWidth]
  rw [BitVec.toInt_eq_toNat_cond] at *
  simp only [Int.bmod_def]
  split at low <;> simp_all <;> omega

theorem modrm_register : ∀ reg rm : Reg, modOf (modrm 0xc0#8 reg rm) = 0xc0#8 ∧
    regOf (high reg) (modrm 0xc0#8 reg rm) = reg ∧ extend (high rm) (modrm 0xc0#8 reg rm) = rm := by
  decide

theorem modrm_memory : ∀ mod ∈ [0x00#8,0x40#8,0x80#8], ∀ reg rm : Reg,
    modOf (modrm mod reg rm) = mod ∧ regOf (high reg) (modrm mod reg rm) = reg ∧
      extend (high rm) (modrm mod reg rm) = rm ∧ modrm mod reg rm &&& 7#8 = low rm := by
  decide

theorem decodeMemory_withDisplacement {reg rm : Reg} (base : low rm ≠ 4#8) (disp : BitVec 32) :
    decodeMemory (high reg) (high rm) (withDisplacement reg rm disp ++ rest) =
      some ((reg,rm,disp),rest) := by
  obtain ⟨mod0,reg0,rm0,low0⟩ := modrm_memory 0x00#8 (by decide) reg rm
  obtain ⟨mod1,reg1,rm1,low1⟩ := modrm_memory 0x40#8 (by decide) reg rm
  obtain ⟨mod2,reg2,rm2,low2⟩ := modrm_memory 0x80#8 (by decide) reg rm
  simp only [withDisplacement]
  split
  · next none => simp [decodeMemory,low0,base,mod0,none,reg0,rm0]
  split
  · next short => simp [decodeMemory,low1,base,mod1,reg1,rm1,signExtend_setWidth short.1 short.2]
  · simp [decodeMemory,low2,base,mod2,reg2,rm2]

theorem decodeRex_rexByte (p66 w r b : Bool) (bytes : List Byte) :
    decodeRex p66 (rexByte w r b :: bytes) = decodeOp p66 w r b bytes := by
  have bits : ∀ w r b : Bool, rexByte w r b &&& 0xf0#8 = 0x40#8 ∧ (rexByte w r b).getLsbD 3 = w ∧
      (rexByte w r b).getLsbD 2 = r ∧ (rexByte w r b).getLsbD 0 = b := by decide
  obtain ⟨rex,hw,fst,snd⟩ := bits w r b
  simp only [decodeRex,rex,↓reduceIte,hw,fst,snd]

theorem decodeRex_basicRex {op : Byte} (hp : op &&& 0xf0#8 ≠ 0x40#8) (p66 w : Bool) (reg rm : Reg) :
    decodeRex p66 (basicRex w reg rm ++ op :: rest) =
      decodeOp p66 w (high reg) (high rm) (op :: rest) := by
  simp only [basicRex]
  split
  · exact decodeRex_rexByte ..
  next none =>
  simp only [not_or,Bool.not_eq_true] at none
  simp [decodeRex,hp,none]

theorem rexByte_ne (w r b : Bool) : rexByte w r b ≠ 0x66#8 := by
  revert w r b
  decide

theorem decode_basicRex {op : Byte} (hp : op &&& 0xf0#8 ≠ 0x40#8) (fst : op ≠ 0x66#8) (w : Bool)
    (reg rm : Reg) : decode (basicRex w reg rm ++ op :: rest) =
      decodeOp false w (high reg) (high rm) (op :: rest) := by
  rw [← decodeRex_basicRex rest hp]
  simp only [basicRex]
  split
  · simp [decode,rexByte_ne]
  · simp [decode,fst]

theorem opcode_register : ∀ first ∈ [0x50#8,0x58#8,0xb8#8], ∀ r : Reg,
    (first ||| low r) &&& 0xf8#8 = first ∧ first ||| low r ≠ 0xc3#8 ∧ first ||| low r ≠ 0xe9#8 ∧
      first ||| low r ≠ 0x0f#8 ∧ extend (high r) (first ||| low r) = r ∧
      (first ||| low r) &&& 0xf0#8 ≠ 0x40#8 ∧ first ||| low r ≠ 0x66#8 := by
  decide

theorem decode_push (reg : Reg) :
    decode (basicRex false 0#4 reg ++ (0x50#8 ||| low reg) :: rest) = some (.push reg,rest) := by
  obtain ⟨group,ret,jmp,two,eq,hp,fst⟩ := opcode_register 0x50#8 (by decide) reg
  rw [decode_basicRex _ hp fst]
  simp [decodeOp,group,ret,jmp,two,eq]

theorem decode_pop (reg : Reg) :
    decode (basicRex false 0#4 reg ++ (0x58#8 ||| low reg) :: rest) = some (.pop reg,rest) := by
  obtain ⟨group,ret,jmp,two,eq,hp,fst⟩ := opcode_register 0x58#8 (by decide) reg
  rw [decode_basicRex _ hp fst]
  simp [decodeOp,group,ret,jmp,two,eq]

theorem decode_movabs (reg : Reg) (imm : Word) :
    decode (basicRex true 0#4 reg ++ (0xb8#8 ||| low reg) :: (le64 imm ++ rest)) =
      some (.movabs reg imm,rest) := by
  obtain ⟨group,ret,jmp,two,eq,hp,fst⟩ := opcode_register 0xb8#8 (by decide) reg
  rw [decode_basicRex _ hp fst]
  simp [decodeOp,group,ret,jmp,two,eq]

theorem decode0f_bswap (w r : Bool) (reg : Reg) :
    decode0f w r (high reg) ((0xc8#8 ||| low reg) :: rest) = some (.bswap w reg,rest) := by
  have bits : ∀ r : Reg, (0xc8#8 ||| low r) &&& 0xf8#8 = 0xc8#8 ∧ (0xc8#8 ||| low r) &&& 0xf0#8 ≠ 0x80#8 ∧
      extend (high r) (0xc8#8 ||| low r) = r := by
    decide
  obtain ⟨group,ho,eq⟩ := bits reg
  simp [decode0f,group,ho,eq]

def operandOps : List Byte :=
  [0x01#8,0x09#8,0x21#8,0x29#8,0x31#8,0x39#8,0x85#8,0x89#8,0xd3#8,0xf7#8,0x81#8,0xc7#8,0xc1#8,0x8b#8,
    0x88#8,0xc6#8]

theorem decodeOp_operand {op : Byte} (hk : op ∈ operandOps) (p66 w r b : Bool) (byte : Byte) :
    decodeOp p66 w r b (op :: byte :: rest) =
      if modOf byte = 0xc0#8 then decodeRegister p66 w r b op byte rest
      else decodeAccess p66 w r b op (byte :: rest) := by
  have others : ∀ op ∈ operandOps, op ≠ 0xc3#8 ∧ op ≠ 0xe9#8 ∧ op ≠ 0x0f#8 ∧ op &&& 0xf8#8 ≠ 0x50#8 ∧
      op &&& 0xf8#8 ≠ 0x58#8 ∧ op &&& 0xf8#8 ≠ 0xb8#8 := by decide
  obtain ⟨ret,jmp,two,push,pop,movabs⟩ := others op hk
  simp [decodeOp,ret,jmp,two,push,pop,movabs]

theorem operandOps_plain : ∀ op ∈ operandOps, op &&& 0xf0#8 ≠ 0x40#8 ∧ op ≠ 0x66#8 := by decide

theorem decode_register {op : Byte} (hk : op ∈ operandOps) (w : Bool) (reg rm : Reg) :
    decode (basicRex w reg rm ++ op :: modrm 0xc0#8 reg rm :: rest) =
      decodeRegister false w (high reg) (high rm) op (modrm 0xc0#8 reg rm) rest := by
  obtain ⟨hp,fst⟩ := operandOps_plain op hk
  rw [decode_basicRex _ hp fst,decodeOp_operand rest hk,if_pos (modrm_register reg rm).1]

theorem decode_direct {op : Byte} {reg : Reg} (form : op ∈ plainOps ∨ (op,reg) ∈ plainDigits)
    (wide : Bool) (rm : Reg) :
    decode (basicRex wide reg rm ++ op :: modrm 0xc0#8 reg rm :: rest) =
      some (.direct wide op reg rm,rest) := by
  have ops : ∀ op ∈ plainOps, op ∈ operandOps ∧ op ≠ 0xff#8 := by decide
  have digits : ∀ form ∈ plainDigits, form.1 ∈ operandOps ∧ form.1 ≠ 0xff#8 := by
    simp [plainDigits,operandOps]
  obtain ⟨hk,ho⟩ : op ∈ operandOps ∧ op ≠ 0xff#8 := form.elim (ops op) (digits (op,reg))
  obtain ⟨-,fst,snd⟩ := modrm_register reg rm
  rw [decode_register rest hk]
  simp [decodeRegister,ho,fst,snd,form]

theorem decode_directImm32 {op : Byte} {digit : Reg} (form : (op,digit) ∈ imm32Digits) (wide : Bool)
    (rm : Reg) (imm : BitVec 32) :
    decode (basicRex wide digit rm ++ op :: modrm 0xc0#8 digit rm :: (le32 imm ++ rest)) =
      some (.directImm32 wide op digit rm imm,rest) := by
  have digits : ∀ form ∈ imm32Digits, form.1 ∈ operandOps ∧ form.1 ≠ 0xff#8 ∧ form.1 ∉ plainOps ∧
    form ∉ plainDigits := by simp [imm32Digits,plainDigits,plainOps,operandOps]
  obtain ⟨hk,ho,hp,digits⟩ := digits (op,digit) form
  obtain ⟨-,fst,snd⟩ := modrm_register digit rm
  rw [decode_register _ hk]
  simp [decodeRegister,ho,fst,snd,form,hp,digits]

theorem decode_directImm8 {op : Byte} {digit : Reg} (form : (op,digit) ∈ imm8Digits) (wide : Bool)
    (rm : Reg) (imm : Byte) :
    decode (basicRex wide digit rm ++ op :: modrm 0xc0#8 digit rm :: imm :: rest) =
      some (.directImm8 wide op digit rm imm,rest) := by
  have digits : ∀ form ∈ imm8Digits, form.1 ∈ operandOps ∧ form.1 ≠ 0xff#8 ∧ form.1 ∉ plainOps ∧
    form ∉ plainDigits ∧ form ∉ imm32Digits := by
    simp [imm8Digits,imm32Digits,plainDigits,plainOps,operandOps]
  obtain ⟨hk,ho,hp,digits,imms⟩ := digits (op,digit) form
  obtain ⟨-,fst,snd⟩ := modrm_register digit rm
  rw [decode_register _ hk]
  simp [decodeRegister,ho,fst,snd,form,hp,digits,imms]

theorem decode_rol16 (rm : Reg) (count : Byte) :
    decode (0x66#8 :: (basicRex false 0#4 rm ++ 0xc1#8 :: modrm 0xc0#8 0#4 rm :: count :: rest)) =
      some (.rol16 rm count,rest) := by
  obtain ⟨mod,fst,snd⟩ := modrm_register 0#4 rm
  rw [decode,if_pos rfl,decodeRex_basicRex _ (by decide),decodeOp_operand _ (by decide),if_pos mod]
  simp [decodeRegister,fst,snd]

theorem withDisplacement_cons (reg rm : Reg) (disp : BitVec 32) :
    ∃ byte tail, withDisplacement reg rm disp = byte :: tail ∧ modOf byte ≠ 0xc0#8 := by
  simp only [withDisplacement]
  split
  · refine ⟨_,_,rfl,?_⟩
    rw [(modrm_memory 0x00#8 (by decide) reg rm).1]
    decide
  split
  · refine ⟨_,_,rfl,?_⟩
    rw [(modrm_memory 0x40#8 (by decide) reg rm).1]
    decide
  refine ⟨_,_,rfl,?_⟩
  rw [(modrm_memory 0x80#8 (by decide) reg rm).1]
  decide

theorem decodeOp_access {op : Byte} (hk : op ∈ operandOps) (p66 w : Bool) (reg rm : Reg)
    (disp : BitVec 32) :
    decodeOp p66 w (high reg) (high rm) (op :: (withDisplacement reg rm disp ++ rest)) =
      decodeAccess p66 w (high reg) (high rm) op (withDisplacement reg rm disp ++ rest) := by
  obtain ⟨byte,tail,eq,mod⟩ := withDisplacement_cons reg rm disp
  rw [eq,cons_append,decodeOp_operand _ hk,if_neg mod]

section

variable {base : Reg} (hp : low base ≠ 4#8)

include hp

theorem decode_load (sz : OperandSize) (dst : Reg) (disp : BitVec 32) :
    decode (Instr.encode (.load sz dst base disp) ++ rest) = some (.load sz dst base disp,rest) := by
  have memory := @decodeMemory_withDisplacement rest dst base hp disp
  cases sz with
  | s8 =>
    simp only [Instr.encode,append_assoc,cons_append,nil_append]
    rw [decode_basicRex _ (by decide) (by decide)]
    simp [decodeOp,decode0f,memory]
  | s16 =>
    simp only [Instr.encode,append_assoc,cons_append,nil_append]
    rw [decode_basicRex _ (by decide) (by decide)]
    simp [decodeOp,decode0f,memory]
  | s32 =>
    simp only [Instr.encode,append_assoc,cons_append,nil_append]
    rw [decode_basicRex _ (by decide) (by decide),decodeOp_access _ (by decide)]
    simp [decodeAccess,memory,sizeOf]
  | s64 =>
    simp only [Instr.encode,append_assoc,cons_append,nil_append]
    rw [decode_basicRex _ (by decide) (by decide),decodeOp_access _ (by decide)]
    simp [decodeAccess,memory,sizeOf]

theorem decode_store (sz : OperandSize) (src : Reg) (disp : BitVec 32) :
    decode (Instr.encode (.store sz src base disp) ++ rest) = some (.store sz src base disp,rest) := by
  have memory := @decodeMemory_withDisplacement rest src base hp disp
  cases sz with
  | s8 =>
    simp only [Instr.encode,override16,reduceCtorEq,↓reduceIte,nil_append,or_true,
      cons_append,decide_false]
    rw [decode,if_neg (rexByte_ne _ _ _),decodeRex_rexByte,decodeOp_access _ (by decide)]
    simp [decodeAccess,memory]
  | s16 =>
    simp only [Instr.encode,override16,reduceCtorEq,↓reduceIte,or_false,false_or,
      cons_append,append_assoc,decide_false,nil_append]
    have eq : (if high src ∨ high base = true then [rexByte false (high src) (high base)]
        else []) = basicRex false src base := by simp [basicRex]
    rw [decode,if_pos rfl,eq,decodeRex_basicRex _ (by decide),decodeOp_access _ (by decide)]
    simp [decodeAccess,memory,sizeOf]
  | s32 =>
    simp only [Instr.encode,override16,reduceCtorEq,↓reduceIte,or_false,false_or,
      cons_append,append_assoc,decide_false,nil_append]
    have eq : (if high src ∨ high base = true then [rexByte false (high src) (high base)]
        else []) = basicRex false src base := by simp [basicRex]
    rw [eq,decode_basicRex _ (by decide) (by decide),decodeOp_access _ (by decide)]
    simp [decodeAccess,memory,sizeOf]
  | s64 =>
    simp only [Instr.encode,override16,reduceCtorEq,↓reduceIte,true_or,
      cons_append,decide_true,nil_append]
    rw [decode,if_neg (rexByte_ne _ _ _),decodeRex_rexByte,decodeOp_access _ (by decide)]
    simp [decodeAccess,memory,sizeOf]

theorem decode_storeImm {sz : OperandSize} {imm : BitVec 32}
    (hf : sz.clip imm = imm) (disp : BitVec 32) :
    decode (Instr.encode (.storeImm sz base disp imm) ++ rest) =
      some (.storeImm sz base disp imm,rest) := by
  have memory : ∀ rest, decodeMemory (high 0#4) (high base) (withDisplacement 0#4 base disp ++ rest) =
      some ((0#4,base,disp),rest) := fun rest => decodeMemory_withDisplacement rest hp disp
  cases sz with
  | s8 =>
    simp only [Instr.encode,override16,reduceCtorEq,↓reduceIte,nil_append,
      cons_append,append_assoc,decide_false]
    rw [decode_basicRex _ (by decide) (by decide),decodeOp_access _ (by decide)]
    simpa [decodeAccess,memory,OperandSize.clip] using hf
  | s16 =>
    simp only [Instr.encode,override16,reduceCtorEq,↓reduceIte,nil_append,
      cons_append,append_assoc,decide_false]
    rw [decode,if_pos rfl,decodeRex_basicRex _ (by decide),decodeOp_access _ (by decide)]
    simpa [decodeAccess,memory,sizeOf,OperandSize.clip] using hf
  | s32 =>
    simp only [Instr.encode,override16,reduceCtorEq,↓reduceIte,nil_append,
      cons_append,append_assoc,decide_false]
    rw [decode_basicRex _ (by decide) (by decide),decodeOp_access _ (by decide)]
    simp [decodeAccess,memory,sizeOf]
  | s64 =>
    simp only [Instr.encode,override16,reduceCtorEq,↓reduceIte,nil_append,
      cons_append,append_assoc,decide_true]
    rw [decode_basicRex _ (by decide) (by decide),decodeOp_access _ (by decide)]
    simp [decodeAccess,memory,sizeOf]

end

theorem decode_encode {i : Instr} (he : i.Encodable) :
    decode (i.encode ++ rest) = some (i,rest) := by
  cases i with
  | push r => simpa [Instr.encode] using decode_push rest r
  | pop r => simpa [Instr.encode] using decode_pop rest r
  | direct hw op reg rm =>
    simpa [Instr.encode] using decode_direct rest he hw rm
  | directImm32 hw op digit rm imm =>
    simpa [Instr.encode] using decode_directImm32 rest he hw rm imm
  | directImm8 hw op digit rm imm =>
    simpa [Instr.encode] using decode_directImm8 rest he hw rm imm
  | rol16 rm count => simpa [Instr.encode] using decode_rol16 rest rm count
  | bswap hw r =>
    simp only [Instr.encode,append_assoc,cons_append,nil_append]
    rw [decode_basicRex _ (by decide) (by decide)]
    simpa [decodeOp] using decode0f_bswap rest hw (high 0#4) r
  | load sz dst base disp => exact decode_load rest he sz dst disp
  | store sz src base disp => exact decode_store rest he sz src disp
  | storeImm sz base disp imm => exact decode_storeImm rest he.1 he.2 disp
  | movabs r imm => simpa [Instr.encode] using decode_movabs rest r imm
  | callRax => rfl
  | jmp rel => simp [Instr.encode,decode,decodeRex,decodeOp]
  | jcc code rel =>
    have group : code &&& 0xf0#8 = 0x80#8 := he
    simp [Instr.encode,decode,decodeRex,decodeOp,decode0f,group]
  | ret => rfl

theorem encode_length_pos {i : Instr} (he : i.Encodable) : 0 < i.encode.length := by
  apply length_pos_iff.mpr
  intro none
  have read := decode_encode [] he
  rw [none] at read
  contradiction

end

end

end Frr.X86
