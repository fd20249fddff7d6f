import Frr.X86

/-! Execution. Flags are known only after a comparison or a test; a jump on other flags is a fault,
as is an instruction that cannot be read or executed. -/
namespace Frr.X86

open WordMemory BitVec

section

/-- Zero, carry, sign and overflow. -/
structure Flags where
  zf : Bool
  cf : Bool
  sf : Bool
  of : Bool
  deriving DecidableEq

/-- With the words pushed so far, and what called functions depend on besides. -/
structure State (ω : Type) where
  reg : Reg → Word
  flags : Option Flags
  memory : Memory
  frame : List Word
  world : ω

variable {ω : Type}

def State.set (s : State ω) (r : Reg) (value : Word) : State ω :=
  {s with reg := fun other => if other = r then value else s.reg other}

def result (wide : Bool) (value : Word) : Word := if wide then value else u32 value

def differenceFlags {w : Nat} (a b : BitVec w) : Flags :=
  ⟨a-b = 0,a < b,(a-b).msb,a.ssubOverflow b⟩

def compareFlags (wide : Bool) (a b : Word) : Flags :=
  if wide then differenceFlags a b else differenceFlags (a.setWidth 32) (b.setWidth 32)

def testFlags (wide : Bool) (a b : Word) : Flags :=
  ⟨result wide (a &&& b) = 0,false,if wide then (a &&& b).msb else ((a &&& b).setWidth 32).msb,false⟩

def binary (op : Byte) (a b : Word) : Option Word :=
  if op = 0x01#8 then some (a+b)
  else if op = 0x09#8 then some (a ||| b)
  else if op = 0x21#8 then some (a &&& b)
  else if op = 0x29#8 then some (a-b)
  else if op = 0x31#8 then some (a ^^^ b)
  else none

section

variable (s : State ω) (wide : Bool)

/-- An operation with a second operand: `cmp`, `test`, `mov` or arithmetic. -/
def State.arith (op : Byte) (rm : Reg) (b : Word) : Option (State ω) :=
  if op = 0x39#8 then some {s with flags := some (compareFlags wide (s.reg rm) b)}
  else if op = 0x85#8 then some {s with flags := some (testFlags wide (s.reg rm) b)}
  else if op = 0x89#8 then some (s.set rm (result wide b))
  else
    match binary op (s.reg rm) b with
    | none => none
    | some value => some {s.set rm (result wide value) with flags := none}

/-- `shl`, `shr` and `sar`; the count is taken modulo the width. -/
def State.shift (digit rm : Reg) (count : Nat) : Option (State ω) :=
  let a := s.reg rm
  let by_ := count % if wide then 64 else 32
  let go (value : Word) : Option (State ω) :=
    some {s.set rm (result wide value) with flags := none}
  if digit = 4#4 then go (a <<< by_)
  else if digit = 5#4 then go ((if wide then a else u32 a) >>> by_)
  else if digit = 7#4 then
    go (if wide then a.sshiftRight by_ else ((a.setWidth 32).sshiftRight by_).signExtend 64)
  else none

/-- `mul`: the product goes to `rdx` and `rax`. -/
def State.multiply (rm : Reg) : State ω :=
  let a := s.reg rax
  let b := s.reg rm
  if wide then
    {(s.set rax (a*b)).set rdx (BitVec.ofNat 64 (a.toNat*b.toNat / 2 ^ 64)) with flags := none}
  else
    let product := u32 a * u32 b
    {(s.set rax (u32 product)).set rdx (product >>> 32) with flags := none}

/-- The dividend is in `rdx` and `rax`. It faults if the divisor is zero or the quotient does not
fit. -/
def State.divide (rm : Reg) : Option (State ω) :=
  let bits := if wide then 64 else 32
  let dividend := (s.reg rdx).toNat % 2 ^ bits * 2 ^ bits + (s.reg rax).toNat % 2 ^ bits
  let divisor := (s.reg rm).toNat % 2 ^ bits
  if divisor = 0 ∨ 2 ^ bits ≤ dividend/divisor then none
  else
    some {(s.set rax (BitVec.ofNat 64 (dividend/divisor))).set rdx
      (BitVec.ofNat 64 (dividend%divisor)) with flags := none}

def State.direct (op : Byte) (reg rm : Reg) : Option (State ω) :=
  if op = 0xd3#8 then s.shift wide reg rm ((s.reg rcx).toNat % 256)
  else if op = 0xf7#8 then
    if reg = 3#4 then some {s.set rm (result wide (- s.reg rm)) with flags := none}
    else if reg = 4#4 then some (s.multiply wide rm)
    else if reg = 6#4 then s.divide wide rm
    else none
  else s.arith wide op rm (s.reg reg)

end

/-- The operation a digit of the opcode `81` stands for. -/
def opOfDigit (digit : Reg) : Option Byte :=
  if digit = 0#4 then some 0x01#8
  else if digit = 1#4 then some 0x09#8
  else if digit = 4#4 then some 0x21#8
  else if digit = 5#4 then some 0x29#8
  else if digit = 6#4 then some 0x31#8
  else if digit = 7#4 then some 0x39#8
  else none

section

variable (s : State ω)

def State.directImm32 (wide : Bool) (op : Byte) (digit rm : Reg) (imm : BitVec 32) :
    Option (State ω) :=
  if op = 0x81#8 then
    match opOfDigit digit with
    | none => none
    | some op => s.arith wide op rm (imm.signExtend 64)
  else if op = 0xc7#8 ∧ digit = 0#4 then s.arith wide 0x89#8 rm (imm.signExtend 64)
  else if op = 0xf7#8 ∧ digit = 0#4 then s.arith wide 0x85#8 rm (imm.signExtend 64)
  else none

/-- `rol` on the low 16 bits. -/
def rotate16 (x : Word) (count : Nat) : Word :=
  (x &&& ~~~ 0xffff#64) ||| ((x.setWidth 16).rotateLeft count).setWidth 64

def State.push (r : Reg) : State ω :=
  {s.set rsp (s.reg rsp - 8) with frame := s.reg r :: s.frame}

def State.pop (r : Reg) : Option (State ω) :=
  match s.frame with
  | [] => none
  | value :: rest => some {(s.set rsp (s.reg rsp + 8)).set r value with frame := rest}

def State.write (size : OperandSize) (addr value : Word) : State ω :=
  {s with memory := storeBytes size.bytes s.memory addr value}

def Instr.effect : Instr → Option (State ω)
  | .push r => some (s.push r)
  | .pop r => s.pop r
  | .direct wide op reg rm => s.direct wide op reg rm
  | .directImm32 wide op digit rm imm => s.directImm32 wide op digit rm imm
  | .directImm8 wide op digit rm imm => if op = 0xc1#8 then s.shift wide digit rm imm.toNat else none
  | .rol16 rm count =>
    some {s.set rm (rotate16 (s.reg rm) (count.toNat%16)) with flags := none}
  | .bswap wide r => some (s.set r (swapBytes (if wide then 8 else 4) (s.reg r)))
  | .load size dst base disp =>
    some (s.set dst (loadBytes s.memory size.bytes (s.reg base + disp.signExtend 64)))
  | .store size src base disp =>
    some (s.write size (s.reg base + disp.signExtend 64) (s.reg src))
  | .storeImm size base disp imm =>
    some (s.write size (s.reg base + disp.signExtend 64) (imm.signExtend 64))
  | .movabs r imm => some (s.set r imm)
  | .callRax | .jmp _ | .jcc _ _ | .ret => none

end

end

section

abbrev Function (ω : Type) := List Word → Memory → ω → Word × Memory × ω

/-- The code, the functions by address, and what these leave in the registers they need not keep. -/
structure Machine (ω : Type) where
  code : List Byte
  library : Word → Option (Function ω)
  clobber : State ω → Reg → Word

inductive Outcome (ω : Type) where
  | running (rip : Nat) (s : State ω)
  | returned (s : State ω)
  | fault

def callerSaved (r : Reg) : Bool :=
  r = rax ∨ r = rcx ∨ r = rdx ∨ r = rsi ∨ r = rdi ∨ r = r8 ∨ r = r9 ∨ r = 10#4 ∨ r = 11#4

def Flags.taken (flags : Flags) (code : Byte) : Option Bool :=
  if code = 0x82#8 then some flags.cf
  else if code = 0x83#8 then some (!flags.cf)
  else if code = 0x84#8 then some flags.zf
  else if code = 0x85#8 then some (!flags.zf)
  else if code = 0x86#8 then some (flags.cf || flags.zf)
  else if code = 0x87#8 then some (!(flags.cf || flags.zf))
  else if code = 0x8c#8 then some (flags.sf != flags.of)
  else if code = 0x8d#8 then some (flags.sf == flags.of)
  else if code = 0x8e#8 then some (flags.zf || flags.sf != flags.of)
  else if code = 0x8f#8 then some (!flags.zf && flags.sf == flags.of)
  else none

def target (next : Nat) (rel : BitVec 32) : Nat := ((next : Int) + rel.toInt).toNat

variable {ω : Type} (m : Machine ω)

def Machine.call (s : State ω) (f : Function ω) : State ω :=
  let (value,memory,world) := f [s.reg rdi,s.reg rsi,s.reg rdx,s.reg rcx,s.reg r8] s.memory s.world
  { reg := fun r => if r = rax then value else if callerSaved r then m.clobber s r else s.reg r
    flags := none
    memory := memory
    frame := s.frame
    world := world }

def Machine.flow (next : Nat) (s : State ω) : Instr → Outcome ω
  | .jmp rel => .running (target next rel) s
  | .jcc code rel =>
    match s.flags.bind fun flags => flags.taken code with
    | none => .fault
    | some true => .running (target next rel) s
    | some false => .running next s
  | .ret => if s.frame = [] then .returned s else .fault
  | .callRax =>
    match m.library (s.reg rax) with
    | none => .fault
    | some f => .running next (m.call s f)
  | .push _ | .pop _ | .direct _ _ _ _ | .directImm32 _ _ _ _ _ | .directImm8 _ _ _ _ _ | .rol16 _ _
  | .bswap _ _ | .load _ _ _ _ | .store _ _ _ _ | .storeImm _ _ _ _ | .movabs _ _ => .fault

def Machine.exec (next : Nat) (s : State ω) (i : Instr) : Outcome ω :=
  match i.effect s with
  | none => m.flow next s i
  | some s => .running next s

def Machine.step (rip : Nat) (s : State ω) : Outcome ω :=
  match decode (m.code.drop rip) with
  | none => .fault
  | some (i,rest) => m.exec (m.code.length-rest.length) s i

def Machine.run : Nat → Nat → State ω → Outcome ω
  | 0, rip, s => .running rip s
  | turns + 1, rip, s =>
    match m.step rip s with
    | .running rip s => Machine.run turns rip s
    | outcome => outcome

def Machine.Reaches (rip : Nat) (s : State ω) (rip' : Nat) (s' : State ω) : Prop :=
  ∃ turns, m.run turns rip s = .running rip' s'

variable {m} {rip rip' : Nat} {s s' : State ω}

theorem run_add {turns : Nat} (fst : m.run turns rip s = .running rip' s') (more : Nat) :
    m.run (turns+more) rip s = m.run more rip' s' := by
  induction turns generalizing rip s with
  | zero =>
    obtain ⟨rfl,rfl⟩ := Outcome.running.inj fst
    rw [zero_add]
  | succ turns ih =>
    rw [Nat.add_right_comm,Machine.run]
    rw [Machine.run] at fst
    cases next : m.step rip s with
    | running rip₁ s₁ =>
      rw [next] at fst
      exact ih fst
    | returned last => simp [next] at fst
    | fault => simp [next] at fst

theorem Machine.Reaches.refl : m.Reaches rip s rip s := ⟨0,rfl⟩

theorem Machine.Reaches.trans {rip'' : Nat} {s'' : State ω} (fst : m.Reaches rip s rip' s')
    (snd : m.Reaches rip' s' rip'' s'') : m.Reaches rip s rip'' s'' := by
  obtain ⟨turns,fst⟩ := fst
  obtain ⟨hm,snd⟩ := snd
  exact ⟨turns+hm,(run_add fst hm).trans snd⟩

theorem Machine.Reaches.once (next : m.step rip s = .running rip' s') : m.Reaches rip s rip' s' :=
  ⟨1,by simp [Machine.run,next]⟩

theorem step_at {i : Instr} {rest : List Byte} (he : i.Encodable)
    (hh : m.code.drop rip = i.encode ++ rest) :
    m.step rip s = m.exec (rip+i.encode.length) s i := by
  have place : m.code.length - rest.length = rip+i.encode.length := by
    have lengths := congrArg List.length hh
    have some_ := encode_length_pos he
    simp only [List.length_drop,List.length_append] at lengths
    omega
  simp [Machine.step,hh,decode_encode rest he,place]

theorem target_sub {next goal : Nat} (fst : next < 2 ^ 31) (snd : goal < 2 ^ 31) :
    target next (BitVec.ofNat 32 goal - BitVec.ofNat 32 next) = goal := by
  simp only [target,BitVec.toInt_eq_toNat_cond,BitVec.toNat_sub,BitVec.toNat_ofNat]
  split <;> omega

end

section

variable (a b : Word)

theorem sign_overflow : ((a-b).msb != a.ssubOverflow b) = a.slt b := by
  have fst := @BitVec.toInt_lt 64 a
  have snd := @BitVec.toInt_lt 64 b
  have thd := @BitVec.le_toInt 64 a
  have fourth := @BitVec.le_toInt 64 b
  rw [Bool.eq_iff_iff,bne_iff_ne,ne_eq,Bool.eq_iff_iff,slt_iff_toInt_lt,msb_eq_toInt]
  simp only [toInt_sub,ssubOverflow,Bool.or_eq_true,decide_eq_true_eq,Int.bmod_def]
  split <;> omega

theorem compare_zf : (compareFlags true a b).zf = decide (a = b) := by
  simp [compareFlags,differenceFlags,sub_eq_iff_eq_add]

theorem compare_cf : (compareFlags true a b).cf = decide (a < b) := rfl

theorem compare_signed : ((compareFlags true a b).sf != (compareFlags true a b).of) = a.slt b :=
  sign_overflow a b

theorem taken_below : (compareFlags true a b).taken 0x82#8 = some (decide (a < b)) := rfl

theorem taken_aboveEqual : (compareFlags true a b).taken 0x83#8 = some (decide (b ≤ a)) := by
  simp [Flags.taken,compare_cf,← BitVec.not_le]

theorem taken_equal : (compareFlags true a b).taken 0x84#8 = some (decide (a = b)) := by
  simp [Flags.taken,compare_zf]

theorem taken_notEqual : (compareFlags true a b).taken 0x85#8 = some (decide (a ≠ b)) := by
  simp [Flags.taken,compare_zf]

theorem below_or_equal : (decide (a < b) || decide (a = b)) = decide (a ≤ b) := by
  rw [← Bool.decide_or,decide_eq_decide,lt_def,le_def,← toNat_inj]
  omega

theorem taken_belowEqual : (compareFlags true a b).taken 0x86#8 = some (decide (a ≤ b)) := by
  simp [Flags.taken,compare_zf,compare_cf,below_or_equal]

theorem taken_above : (compareFlags true a b).taken 0x87#8 = some (decide (b < a)) := by
  have ht : (compareFlags true a b).taken 0x87#8 =
      some (!((compareFlags true a b).cf || (compareFlags true a b).zf)) := rfl
  rw [ht,compare_zf,compare_cf,below_or_equal]
  simp [← BitVec.not_le]

theorem taken_less : (compareFlags true a b).taken 0x8c#8 = some (a.slt b) := by
  simp [Flags.taken,compare_signed]

theorem taken_greaterEqual : (compareFlags true a b).taken 0x8d#8 = some (b.sle a) := by
  have ht : (compareFlags true a b).taken 0x8d#8 =
      some (!((compareFlags true a b).sf != (compareFlags true a b).of)) := by
    simp [Flags.taken,bne]
  rw [ht,compare_signed,sle_eq_not_slt]

theorem taken_lessEqual : (compareFlags true a b).taken 0x8e#8 = some (a.sle b) := by
  have ht : (compareFlags true a b).taken 0x8e#8 = some ((compareFlags true a b).zf ||
      (compareFlags true a b).sf != (compareFlags true a b).of) := rfl
  rw [ht,compare_signed,compare_zf,sle_eq_slt_or_eq,Bool.or_comm]
  rfl

theorem taken_greater : (compareFlags true a b).taken 0x8f#8 = some (b.slt a) := by
  have ht : (compareFlags true a b).taken 0x8f#8 = some (!((compareFlags true a b).zf ||
      (compareFlags true a b).sf != (compareFlags true a b).of)) := by
    simp [Flags.taken,bne]
  rw [ht,compare_signed,compare_zf,← Bool.not_not (BitVec.slt b a),← sle_eq_not_slt,
    sle_eq_slt_or_eq,Bool.or_comm]
  rfl

theorem taken_testNotEqual : (testFlags true a b).taken 0x85#8 = some (decide (a &&& b ≠ 0)) := by
  simp [Flags.taken,testFlags,result]

end

end Frr.X86
