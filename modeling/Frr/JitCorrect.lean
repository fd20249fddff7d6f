import Frr.Jit

/-! Compiled code against the interpreter. Between two instructions the registers correspond as
`register_map` says, except for those the interpreter did not set or a called function may have
changed. -/
namespace Frr.Jit

open WordMemory X86 Ebpf List Option

section

variable {ω : Type} (m : X86.Machine ω)

def after (x : X86.State ω) (i : Instr) : Option (X86.State ω) :=
  match i.effect x with
  | some x => some x
  | none => if i = .callRax then (m.library (x.reg rax)).map (m.call x) else none

def follow (x : X86.State ω) : List Emission → Option (X86.State ω × Option Target)
  | [] => some (x,none)
  | .instr i :: es => (after m x i).bind fun x => follow x es
  | .jmp target :: _ => some (x,some target)
  | .jcc code target :: es =>
    (x.flags.bind fun flags => flags.taken code).bind fun taken =>
      if taken then some (x,some target) else follow x es

def Emission.Encodable : Emission → Prop
  | .instr i => i.Encodable
  | .jmp _ => True
  | .jcc code _ => code &&& 0xf0#8 = 0x80#8

def onwards (location : Target → Nat) (next : Nat) : Option Target → Nat
  | none => next
  | some target => location target

variable {m} {location : Target → Nat} {x x' : X86.State ω}

theorem exec_after {i : Instr} (hd : after m x i = some x') (next : Nat) :
    m.exec next x i = .running next x' := by
  rw [after] at hd
  rw [X86.Machine.exec]
  cases effect : i.effect x with
  | some x₁ =>
    rw [effect] at hd
    rw [some.inj hd]
  | none =>
    rw [effect] at hd
    by_cases call : i = .callRax
    · subst call
      obtain ⟨f,ht,rfl⟩ := map_eq_some_iff.mp hd
      simp [X86.Machine.flow,ht]
    · simp [call] at hd

theorem resolve_encodable {e : Emission} (he : e.Encodable) (loc : Nat) :
    (e.resolve location loc).Encodable := by
  cases e with
  | instr i => exact he
  | jmp tgt => trivial
  | jcc code tgt => exact he

theorem follow_reaches {es : List Emission} {rest : List Byte} {loc : Nat} {goal : Option Target}
    (hs : m.code.length ≤ bufferSize)
    (hn : ∀ tgt, goal = some tgt → location tgt ≤ bufferSize)
    (hh : m.code.drop loc = assemble location loc es ++ rest)
    (he : ∀ e ∈ es, e.Encodable) (hd : follow m x es = some (x',goal)) :
    m.Reaches loc x (onwards location (loc + sizes es) goal) x' := by
  induction es generalizing loc x with
  | nil =>
    simp only [follow,some.injEq,Prod.mk.injEq] at hd
    obtain ⟨rfl,rfl⟩ := hd
    exact .refl
  | cons e es ih =>
    have fst := he e (by simp)
    simp only [assemble,append_assoc] at hh
    have step := @step_at ω m loc x _ _ (resolve_encodable fst loc) hh
    rw [resolve_length] at step
    have hb : m.code.drop (loc+e.size) = assemble location (loc+e.size) es ++ rest := by
      rw [← @resolve_length location e loc,← drop_drop,hh,drop_left,resolve_length]
    have next : loc + e.size < 2 ^ 31 := by
      have lengths := congrArg length hh
      have some_ := encode_length_pos (@resolve_encodable location e fst loc)
      rw [length_drop,length_append,resolve_length] at lengths
      rw [resolve_length] at some_
      simp only [bufferSize] at hs
      omega
    have hm := fun e hi => he e (.tail _ hi)
    rw [sizes_cons,← add_assoc]
    cases e with
    | instr i =>
      obtain ⟨x₁,one,hd⟩ := bind_eq_some_iff.mp hd
      exact (X86.Machine.Reaches.once (step.trans (exec_after one _))).trans (ih hb hm hd)
    | jmp tgt =>
      simp only [follow,some.injEq,Prod.mk.injEq] at hd
      obtain ⟨rfl,rfl⟩ := hd
      have hr := hn tgt rfl
      simp only [bufferSize] at hr
      refine .once (step.trans ?_)
      exact congrArg (X86.Outcome.running · x) (target_sub next (by omega))
    | jcc code tgt =>
      obtain ⟨ht,flags,hd⟩ := bind_eq_some_iff.mp hd
      cases ht with
      | true =>
        simp only [↓reduceIte,some.injEq,Prod.mk.injEq] at hd
        obtain ⟨rfl,rfl⟩ := hd
        have hr := hn tgt rfl
        simp only [bufferSize] at hr
        refine .once (step.trans ?_)
        rw [Emission.resolve,X86.Machine.exec,Instr.effect,X86.Machine.flow,flags]
        exact congrArg (X86.Outcome.running · x) (target_sub next (by omega))
      | false =>
        have hg : m.exec (loc + (Emission.jcc code tgt).size) x
            ((Emission.jcc code tgt).resolve location loc) =
              .running (loc + (Emission.jcc code tgt).size) x := by
          rw [Emission.resolve,X86.Machine.exec,Instr.effect,X86.Machine.flow,flags]
        exact (X86.Machine.Reaches.once (step.trans hg)).trans (ih hb hm hd)

end

section

theorem mapRegister_injective : ∀ r q : BitVec 4, r ≤ 10 → q ≤ 10 → mapRegister r = mapRegister q →
    r = q := by decide

theorem mapRegister_plain : ∀ r : BitVec 4, mapRegister r ≠ rcx ∧ mapRegister r ≠ rsp ∧
    low (mapRegister r) ≠ 4#8 := by decide

variable {ω : Type} {x x' : X86.State ω}

/-- The code of an instruction changed one register, apart from `rcx` and the stack pointer. -/
structure Updates (x x' : X86.State ω) (d : Reg) (value : Word) : Prop where
  value : x'.reg d = value
  others : ∀ r, r ≠ d → r ≠ rcx → r ≠ rsp → x'.reg r = x.reg r
  memory : x'.memory = x.memory
  world : x'.world = x.world
  frame : x'.frame = x.frame

/-- The code runs to its end and leaves a value in a register. -/
abbrev Computes (m : X86.Machine ω) (x : X86.State ω) (es : List Emission) (d : Reg)
    (value : Word) : Prop := ∃ x', follow m x es = some (x',none) ∧ Updates x x' d value

abbrev Fresh := BitVec 4 → Bool

structure Agrees (fresh : Fresh) (saved : List Word) (s : Ebpf.State ω) (x : X86.State ω) :
    Prop where
  regs : ∀ r, r ≤ 10 → fresh r → x.reg (mapRegister r) = s.reg r
  memory : x.memory = s.memory
  world : x.world = s.world
  frame : x.frame = saved

def Fresh.add (fresh : Fresh) (r : BitVec 4) : Fresh := fun other => other = r ∨ fresh other

variable {fresh : Fresh} {saved : List Word} {s : Ebpf.State ω} {dst : BitVec 4} {value : Word}

theorem Agrees.update (ha : Agrees fresh saved s x) (register : dst ≤ 10)
    (hu : Updates x x' (mapRegister dst) value) :
    Agrees (fresh.add dst) saved (s.set dst value) x' where
  regs r le hi := by
    by_cases eq : r = dst
    · subst eq
      simp [Ebpf.State.set,hu.value]
    have ho : fresh r := by simpa [Fresh.add,eq] using hi
    obtain ⟨shift,stack,-⟩ := mapRegister_plain r
    rw [hu.others _ (fun h => eq (mapRegister_injective r dst le register h)) shift stack,
      ha.regs r le ho]
    simp [Ebpf.State.set,eq]
  memory := hu.memory.trans ha.memory
  world := hu.world.trans ha.world
  frame := hu.frame.trans ha.frame

end

section

variable {ω : Type} {m : X86.Machine ω} {x x₁ x' : X86.State ω} {es : List Emission} {d src : Reg}
  {wide : Bool} {op : AluOp}

theorem follow_instr {i : Instr} (hd : i.effect x = some x₁) :
    follow m x (.instr i :: es) = follow m x₁ es := by
  rw [follow,after,hd]
  rfl

theorem follow_mov : follow m x (emitMov src d :: es) = follow m (x.set d (x.reg src)) es :=
  follow_instr rfl

theorem follow_push : follow m x (emitPush d :: es) = follow m (x.push d) es := follow_instr rfl

theorem follow_pop (popped : x.pop d = some x₁) : follow m x (emitPop d :: es) = follow m x₁ es :=
  follow_instr popped

theorem signExtend_low {imm : Word} (low : -2 ^ 31 ≤ imm.toInt) (high : imm.toInt < 2 ^ 31) :
    (imm.setWidth 32).signExtend 64 = imm := by
  apply BitVec.eq_of_toInt_eq
  rw [BitVec.toInt_signExtend_of_le (by omega),BitVec.toInt_setWidth]
  rw [BitVec.toInt_eq_toNat_cond] at *
  simp only [Int.bmod_def]
  split at low <;> split at high <;> split <;> omega

theorem follow_loadImm (imm : Word) :
    follow m x (emitLoadImm d imm :: es) = follow m (x.set d imm) es := by
  unfold emitLoadImm
  split
  · next range =>
    apply follow_instr
    simp [Instr.effect,State.directImm32,State.arith,result,signExtend_low range.1 range.2]
  · exact follow_instr rfl

def aluValue (wide : Bool) (op : AluOp) (a b : Word) : Word :=
  if wide then op.eval64 a b else op.eval32 a b

theorem updates_set (value : Word) (flags : Option Flags) :
    Updates x {x.set d value with flags := flags} d value where
  value := by simp [X86.State.set]
  others r ho _ _ := by simp [X86.State.set,ho]
  memory := rfl
  world := rfl
  frame := rfl

theorem Updates.of_rcx {value v : Word} (hu : Updates (x.set rcx v) x' d value) :
    Updates x x' d value where
  __ := hu
  others r ho shift stack := by
    rw [hu.others r ho shift stack]
    simp [X86.State.set,shift]

def binaryOps : List AluOp := [.add,.sub,.or,.and,.xor]

theorem arith_binary (binary : op ∈ binaryOps) (b : Word) : x.arith wide (binaryOp op).1 d b =
    some {x.set d (aluValue wide op (x.reg d) b) with flags := none} := by
  simp only [binaryOps,mem_cons,not_mem_nil,or_false] at binary
  rcases binary with rfl | rfl | rfl | rfl | rfl <;> cases wide <;> rfl

theorem opOfDigit_binaryOp (binary : op ∈ binaryOps) :
    opOfDigit (binaryOp op).2 = some (binaryOp op).1 := by
  revert op
  decide

def shiftOps : List AluOp := [.lsh,.rsh,.arsh]

theorem u32_ushiftRight (a : Word) (n : Nat) : u32 (u32 a >>> n) = u32 a >>> n := by
  ext i inside
  simp [u32]
  grind

/-- The processor takes the count in the width of the operand, the interpreter that of a left shift
in 64 bits. -/
theorem shift_value (shifts : op ∈ shiftOps) {b : Word} {count : Nat}
    (eq : count % 64 = b.toNat%64) (low : wide ∨ op ≠ .lsh ∨ b.toNat%64 < 32) :
    x.shift wide (shiftDigit op) d count =
      some {x.set d (aluValue wide op (x.reg d) b) with flags := none} := by
  have half : count % 32 = b.toNat%32 := by omega
  simp only [shiftOps,mem_cons,not_mem_nil,or_false] at shifts
  cases wide with
  | true =>
    rcases shifts with rfl | rfl | rfl <;>
      simp [State.shift,shiftDigit,aluValue,AluOp.eval64,result,eq]
  | false =>
    rcases shifts with rfl | rfl | rfl
    · have count : b.toNat % 64 = b.toNat%32 := by
        simp only [Bool.false_eq_true,ne_eq,not_true_eq_false,false_or] at low
        omega
      simp [State.shift,shiftDigit,aluValue,AluOp.eval32,AluOp.eval64,result,half,count]
    · simp [State.shift,shiftDigit,aluValue,AluOp.eval32,result,half,u32_ushiftRight]
    · simp [State.shift,shiftDigit,aluValue,AluOp.eval32,result,half]

def second (imm : BitVec 32) (value : Word) : Source → Word
  | .imm => imm.signExtend 64
  | .reg => value

/-- The code of a 32-bit move copies the whole register; a left shift of 32 bits takes its count in
32 bits; a multiplication or division goes by the immediate being there and compares the source
register with zero. -/
def AluSuited (wide : Bool) (imm : BitVec 32) (value : Word) : AluOp → Source → Prop
  | .mov, .reg => wide = true ∨ value.toNat < 2 ^ 32
  | .lsh, source => wide = true ∨ (second imm value source).toNat % 64 < 32
  | .mul, .imm => imm ≠ 0
  | .div, .imm => result wide value ≠ 0
  | .mod, .imm => result wide value ≠ 0
  | .mul, .reg => imm = 0
  | .div, .reg => imm = 0
  | .mod, .reg => imm = 0
  | _, _ => True

variable {imm : BitVec 32} {pc : Nat}

theorem u32_eq_self {a : Word} (low : a.toNat < 2 ^ 32) : u32 a = a := by
  apply BitVec.eq_of_toNat_eq
  simp only [u32,BitVec.toNat_setWidth]
  omega

theorem count_imm : (imm.setWidth 8).toNat % 64 = (imm.signExtend 64).toNat % 64 := by
  simp only [BitVec.toNat_setWidth,BitVec.toNat_signExtend]
  split <;> omega

theorem binary_follow (binary : op ∈ binaryOps) (source : Source) :
    Computes m x (translateAlu pc wide src d imm op source)
      d (aluValue wide op (x.reg d) (second imm (x.reg src) source)) := by
  refine ⟨_,?_,updates_set _ none⟩
  have others : ∀ op ∈ binaryOps, (binaryOp op).1 ≠ 0xd3#8 ∧ (binaryOp op).1 ≠ 0xf7#8 := by decide
  obtain ⟨shift,group⟩ := others op binary
  cases source with
  | imm =>
    have emits : translateAlu pc wide src d imm op .imm =
        [emitAluImm32 wide 0x81#8 (binaryOp op).2 d imm] := by
      simp only [binaryOps,mem_cons,not_mem_nil,or_false] at binary
      rcases binary with rfl | rfl | rfl | rfl | rfl <;> rfl
    rw [emits]
    apply follow_instr
    simp only [Instr.effect,State.directImm32,↓reduceIte,opOfDigit_binaryOp binary]
    exact arith_binary binary _
  | reg =>
    have emits : translateAlu pc wide src d imm op .reg = [emitAlu wide (binaryOp op).1 src d] := by
      simp only [binaryOps,mem_cons,not_mem_nil,or_false] at binary
      rcases binary with rfl | rfl | rfl | rfl | rfl <;> rfl
    rw [emits]
    apply follow_instr
    simp only [Instr.effect,State.direct,shift,group,↓reduceIte]
    exact arith_binary binary _

theorem shift_follow (shifts : op ∈ shiftOps) {source : Source} (ha : d ≠ rcx)
    (hs : AluSuited wide imm (x.reg src) op source) :
    Computes m x (translateAlu pc wide src d imm op source)
      d (aluValue wide op (x.reg d) (second imm (x.reg src) source)) := by
  have low : wide ∨ op ≠ .lsh ∨ (second imm (x.reg src) source).toNat % 64 < 32 := by
    by_cases left : op = .lsh
    · subst left
      exact hs.imp_right .inr
    · exact .inr (.inl left)
  cases source with
  | imm =>
    have emits : translateAlu pc wide src d imm op .imm =
        [emitAluImm8 wide 0xc1#8 (shiftDigit op) d imm] := by
      simp only [shiftOps,mem_cons,not_mem_nil,or_false] at shifts
      rcases shifts with rfl | rfl | rfl <;> rfl
    refine ⟨_,?_,updates_set _ none⟩
    rw [emits]
    exact follow_instr (shift_value shifts count_imm low)
  | reg =>
    have emits : translateAlu pc wide src d imm op .reg =
        [emitMov src rcx,emitAlu wide 0xd3#8 (shiftDigit op) d] := by
      simp only [shiftOps,mem_cons,not_mem_nil,or_false] at shifts
      rcases shifts with rfl | rfl | rfl <;> rfl
    have hm : (x.set rcx (x.reg src)).reg d = x.reg d := by simp [X86.State.set,ha]
    have count : ((x.set rcx (x.reg src)).reg rcx).toNat % 256 % 64 = (x.reg src).toNat % 64 := by
      simp only [X86.State.set,↓reduceIte]
      omega
    have hd := @shift_value ω (x.set rcx (x.reg src)) d wide op shifts _ _ count low
    rw [hm] at hd
    rw [Computes,emits,follow_mov]
    exact ⟨_,follow_instr hd,(updates_set _ none).of_rcx⟩

theorem mov_follow {source : Source} (hs : AluSuited wide imm (x.reg src) .mov source) :
    Computes m x (translateAlu pc wide src d imm .mov source)
      d (aluValue wide .mov (x.reg d) (second imm (x.reg src) source)) := by
  cases source with
  | imm =>
    cases wide with
    | true => exact ⟨_,follow_loadImm _,updates_set _ x.flags⟩
    | false => exact ⟨_,follow_instr rfl,updates_set _ x.flags⟩
  | reg =>
    have eq : aluValue wide .mov (x.reg d) (x.reg src) = x.reg src := by
      cases wide with
      | true => rfl
      | false => exact u32_eq_self (hs.resolve_left (by decide))
    refine ⟨_,follow_mov,?_⟩
    rw [second,eq]
    exact updates_set _ x.flags

end

section

variable {ω : Type} {m : X86.Machine ω} {x y x' : X86.State ω} {es : List Emission} {d src : Reg}
  {wide : Bool} {op : AluOp} {imm : BitVec 32} {pc : Nat}

def chosen (imm : BitVec 32) (value : Word) : Word := if imm ≠ 0 then imm.signExtend 64 else value

theorem follow_operand :
    follow m x ((if imm ≠ 0 then emitLoadImm rcx (imm.signExtend 64) else emitMov src rcx) :: es) =
      follow m (x.set rcx (chosen imm (x.reg src))) es := by
  unfold chosen
  split
  · exact follow_loadImm _
  · exact follow_mov

theorem follow_clear : follow m x (emitAlu false 0x31#8 rdx rdx :: es) =
    follow m {x.set rdx 0 with flags := none} es := by
  apply follow_instr
  simp [Instr.effect,State.direct,State.arith,binary,result,u32]

def multiplications : List AluOp := [.mul,.div,.mod]

def resultRegister (op : AluOp) : Reg := if op = .mod then rdx else rax

structure Prepared (x y : X86.State ω) (op : AluOp) (d : Reg) (b : Word) : Prop where
  first : y.reg rax = x.reg d
  second : y.reg rcx = b
  high : op.divides → y.reg rdx = 0
  others : ∀ r, r ≠ rax → r ≠ rcx → r ≠ rdx → r ≠ rsp → y.reg r = x.reg r
  memory : y.memory = x.memory
  world : y.world = x.world
  frame : y.frame = (if d ≠ rdx then [x.reg rdx] else []) ++ (if d ≠ rax then [x.reg rax] else []) ++
    x.frame

theorem push_kept : ∃ y, follow m x ((if d ≠ rax then [emitPush rax] else []) ++
        (if d ≠ rdx then [emitPush rdx] else []) ++ es) = follow m y es ∧
      (∀ r, r ≠ rsp → y.reg r = x.reg r) ∧ y.memory = x.memory ∧ y.world = x.world ∧
      y.frame = (if d ≠ rdx then [x.reg rdx] else []) ++ (if d ≠ rax then [x.reg rax] else []) ++
        x.frame := by
  have ha : rax ≠ rdx := by decide
  have stack : rdx ≠ rsp := by decide
  by_cases fst : d = rax
  · subst fst
    refine ⟨x.push rdx,by simp [ha,follow_push],?_,rfl,rfl,by simp [ha,X86.State.push]⟩
    intro r ho
    simp [X86.State.push,X86.State.set,ho]
  by_cases thd : d = rdx
  · subst thd
    refine ⟨x.push rax,by simp [fst,follow_push],?_,rfl,rfl,by simp [fst,X86.State.push]⟩
    intro r ho
    simp [X86.State.push,X86.State.set,ho]
  refine ⟨(x.push rax).push rdx,by simp [fst,thd,follow_push],?_,rfl,rfl,?_⟩
  · intro r ho
    simp [X86.State.push,X86.State.set,ho]
  · simp [fst,thd,X86.State.push,X86.State.set,stack]

theorem clear_high : ∃ z, follow m y ((if op.divides then [emitAlu false 0x31#8 rdx rdx] else []) ++
        es) = follow m z es ∧ (op.divides → z.reg rdx = 0) ∧ (∀ r, r ≠ rdx → z.reg r = y.reg r) ∧
      z.memory = y.memory ∧ z.world = y.world ∧ z.frame = y.frame := by
  cases hd : op.divides with
  | true =>
    refine ⟨{y.set rdx 0 with flags := none},?_,?_,?_,rfl,rfl,rfl⟩
    · exact follow_clear
    · simp [X86.State.set]
    intro r ho
    simp [X86.State.set,ho]
  | false => exact ⟨y,rfl,nofun,fun _ _ => rfl,rfl,rfl,rfl⟩

theorem prepare (stack : d ≠ rsp) (ha : d ≠ rcx) (stack' : src ≠ rsp) :
    ∃ y, follow m x (loadOperands op src d imm ++ es) = follow m y es ∧
      Prepared x y op d (chosen imm (x.reg src)) := by
  obtain ⟨y,pushes,regs,memory,world,frm⟩ := @push_kept ω m x
    ([if imm ≠ 0 then emitLoadImm rcx (imm.signExtend 64) else emitMov src rcx,emitMov d rax] ++
      ((if op.divides then [emitAlu false 0x31#8 rdx rdx] else []) ++ es)) d
  obtain ⟨z,hc,high,others,memory',world',frm'⟩ := @clear_high ω m
    ((y.set rcx (chosen imm (y.reg src))).set rax ((y.set rcx (chosen imm (y.reg src))).reg d)) es op
  have hd : rax ≠ rcx ∧ rax ≠ rdx ∧ rcx ≠ rdx := by decide
  obtain ⟨fst,snd,thd⟩ := hd
  refine ⟨z,?_,?_,?_,high,?_,memory'.trans memory,world'.trans world,frm'.trans frm⟩
  · rw [loadOperands,append_assoc,append_assoc,pushes,cons_append,follow_operand,
      cons_append,follow_mov,nil_append,hc]
  · rw [others rax snd]
    simp [X86.State.set,ha,regs d stack]
  · rw [others rcx thd]
    simp [X86.State.set,fst.symm,regs src stack']
  intro r other₁ other₂ other₃ other₄
  rw [others r other₃]
  simp [X86.State.set,other₁,other₂,regs r other₄]

structure Operated (y z : X86.State ω) (wide : Bool) (op : AluOp) : Prop where
  result : z.reg (resultRegister op) = aluValue wide op (y.reg rax) (y.reg rcx)
  others : ∀ r, r ≠ rax → r ≠ rdx → z.reg r = y.reg r
  memory : z.memory = y.memory
  world : z.world = y.world
  frame : z.frame = y.frame

theorem u32_mul (a b : Word) : u32 (u32 a * u32 b) = u32 (a*b) := by
  apply BitVec.eq_of_toNat_eq
  simp [u32]

theorem multiply_operated : Operated y (y.multiply wide rcx) wide .mul := by
  have ha : rax ≠ rdx := by decide
  cases wide with
  | true =>
    refine ⟨?_,?_,rfl,rfl,rfl⟩
    · simp [State.multiply,X86.State.set,resultRegister,ha,aluValue,AluOp.eval64]
    intro r fst thd
    simp [State.multiply,X86.State.set,fst,thd]
  | false =>
    refine ⟨?_,?_,rfl,rfl,rfl⟩
    · simp [State.multiply,X86.State.set,resultRegister,ha,aluValue,AluOp.eval32,AluOp.eval64,
        u32_mul]
    intro r fst thd
    simp [State.multiply,X86.State.set,fst,thd]

def divided (y : X86.State ω) (wide : Bool) : X86.State ω :=
  {(y.set rax (aluValue wide .div (y.reg rax) (y.reg rcx))).set rdx
      (aluValue wide .mod (y.reg rax) (y.reg rcx)) with flags := none}

theorem result_toNat (a : Word) : (result wide a).toNat = a.toNat % 2 ^ (if wide then 64 else 32) := by
  cases wide with
  | true => exact (Nat.mod_eq_of_lt a.isLt).symm
  | false =>
    simp only [result,u32,Bool.false_eq_true,↓reduceIte,BitVec.toNat_setWidth]
    omega

theorem ofNat_div (a b : Word) : BitVec.ofNat 64 (a.toNat/b.toNat) = a/b := by
  apply BitVec.eq_of_toNat_eq
  rw [BitVec.toNat_ofNat,BitVec.toNat_udiv,Nat.mod_eq_of_lt]
  exact (Nat.div_le_self _ _).trans_lt a.isLt

theorem ofNat_mod (a b : Word) : BitVec.ofNat 64 (a.toNat%b.toNat) = a%b := by
  apply BitVec.eq_of_toNat_eq
  rw [BitVec.toNat_ofNat,BitVec.toNat_umod,Nat.mod_eq_of_lt]
  exact (Nat.mod_le _ _).trans_lt a.isLt

theorem divide_eq (high : y.reg rdx = 0) (divisor : result wide (y.reg rcx) ≠ 0) :
    y.divide wide rcx = some (divided y wide) := by
  have quotient : aluValue wide .div (y.reg rax) (y.reg rcx) =
      result wide (y.reg rax) / result wide (y.reg rcx) := by
    cases wide <;> rfl
  have rem : aluValue wide .mod (y.reg rax) (y.reg rcx) =
      result wide (y.reg rax) % result wide (y.reg rcx) := by
    cases wide <;> rfl
  rw [divided,quotient,rem,← ofNat_div,← ofNat_mod]
  have pos : (result wide (y.reg rcx)).toNat ≠ 0 := fun zero => divisor (BitVec.eq_of_toNat_eq zero)
  have hs : (result wide (y.reg rax)).toNat < 2 ^ (if wide then 64 else 32) := by
    rw [result_toNat]
    exact Nat.mod_lt _ (Nat.two_pow_pos _)
  have hf : ¬ ((result wide (y.reg rcx)).toNat = 0 ∨ 2 ^ (if wide then 64 else 32) ≤
      (result wide (y.reg rax)).toNat / (result wide (y.reg rcx)).toNat) := by
    have le := Nat.div_le_self (result wide (y.reg rax)).toNat (result wide (y.reg rcx)).toNat
    omega
  have none : (result wide 0).toNat = 0 := by cases wide <;> rfl
  simp only [State.divide,high,← result_toNat,none,zero_mul,zero_add]
  rw [if_neg hf]
theorem divide_operated (divides : op = .div ∨ op = .mod) : Operated y (divided y wide) wide op := by
  have ha : rax ≠ rdx := by decide
  refine ⟨?_,?_,rfl,rfl,rfl⟩
  · rcases divides with rfl | rfl <;> simp [divided,X86.State.set,resultRegister,ha]
  intro r first third
  simp [divided,X86.State.set,first,third]

theorem operate (hm : op ∈ multiplications) (high : op.divides → y.reg rdx = 0)
    (divisor : op.divides → result wide (y.reg rcx) ≠ 0) :
    ∃ z, follow m y (emitAlu wide 0xf7#8 (if op = .mul then 4#4 else 6#4) rcx :: es) =
      follow m z es ∧ Operated y z wide op := by
  simp only [multiplications,mem_cons,not_mem_nil,or_false] at hm
  rcases hm with rfl | rfl | rfl
  · exact ⟨_,follow_instr rfl,multiply_operated⟩
  · exact ⟨_,follow_instr (divide_eq (high rfl) (divisor rfl)),divide_operated (.inl rfl)⟩
  · exact ⟨_,follow_instr (divide_eq (high rfl) (divisor rfl)),divide_operated (.inr rfl)⟩

theorem follow_pop_cons {value : Word} {rest : List Word} (frm : x.frame = value :: rest) :
    follow m x (emitPop d :: es) =
      follow m {(x.set rsp (x.reg rsp + 8)).set d value with frame := rest} es := by
  apply follow_pop
  rw [X86.State.pop,frm]

theorem pop_last {w : X86.State ω} {k : Reg} {value : Word} (ha : d ≠ k) (stack : d ≠ rsp)
    (ht : w.reg d = value)
    (others : ∀ r, r ≠ d → r ≠ k → r ≠ rcx → r ≠ rsp → w.reg r = x.reg r)
    (memory : w.memory = x.memory) (world : w.world = x.world) (frm : w.frame = x.reg k :: x.frame) :
    ∃ x', follow m w [emitPop k] = some (x',none) ∧ Updates x x' d value := by
  rw [follow_pop_cons frm]
  refine ⟨_,rfl,?_,?_,memory,world,rfl⟩
  · simp [X86.State.set,ha,stack,ht]
  intro r ho shift ptr
  by_cases eq : r = k
  · simp [X86.State.set,eq]
  · simp [X86.State.set,eq,ptr,others r ho eq shift ptr]

theorem finish {z : X86.State ω} {b : Word} (stack : d ≠ rsp)
    (hp : Prepared x y op d b) (hop : Operated y z wide op) :
    ∃ x', follow m z (storeResult op d) = some (x',none) ∧
      Updates x x' d (aluValue wide op (x.reg d) b) := by
  have value := hop.result
  have others : ∀ r, r ≠ rax → r ≠ rcx → r ≠ rdx → r ≠ rsp → z.reg r = x.reg r :=
    fun r a b c d => (hop.others r a c).trans (hp.others r a b c d)
  have frm := hop.frame.trans hp.frame
  have memory := hop.memory.trans hp.memory
  have world := hop.world.trans hp.world
  rw [hp.first,hp.second] at value
  have hd : rax ≠ rdx ∧ rax ≠ rsp ∧ rdx ≠ rsp := by decide
  obtain ⟨ha,stack₁,stack₂⟩ := hd
  unfold storeResult
  by_cases fst : d = rax
  · subst fst
    simp only [ne_eq,ha,not_false_eq_true,↓reduceIte,not_true_eq_false,append_nil,
      cons_append,nil_append] at frm ⊢
    by_cases rest : op = .mod
    · simp only [resultRegister,rest,↓reduceIte,cons_append,nil_append] at value ⊢
      rw [follow_mov]
      refine pop_last ha stack (by simp [X86.State.set,value]) ?_ memory world frm
      intro r ho hk shift ptr
      simp [X86.State.set,ho,others r ho shift hk ptr]
    · simp only [resultRegister,rest,↓reduceIte,nil_append] at value ⊢
      exact pop_last ha stack value (fun r a b c d => others r a c b d) memory world frm
  · by_cases thd : d = rdx
    · subst thd
      simp only [ne_eq,fst,not_false_eq_true,↓reduceIte,not_true_eq_false,
        cons_append,nil_append] at frm ⊢
      by_cases rest : op = .mod
      · simp only [resultRegister,rest,↓reduceIte,nil_append] at value ⊢
        exact pop_last fst stack value (fun r a b c d => others r b c a d) memory world frm
      simp only [resultRegister,rest,↓reduceIte,cons_append,nil_append] at value ⊢
      rw [follow_mov]
      refine pop_last fst stack (by simp [X86.State.set,value]) ?_ memory world frm
      intro r ho hk shift ptr
      simp [X86.State.set,ho,others r hk shift ho ptr]
    · simp only [ne_eq,fst,thd,not_false_eq_true,↓reduceIte,cons_append,nil_append] at frm ⊢
      by_cases rest : op = .mod
      · simp only [resultRegister,rest,↓reduceIte,cons_append,nil_append] at value ⊢
        have left : (z.set d (z.reg rdx)).frame = x.reg rdx :: x.reg rax :: x.frame := frm
        rw [follow_mov,follow_pop_cons left]
        refine pop_last fst stack ?_ ?_ memory world rfl
        · simp [X86.State.set,thd,stack,value]
        intro r ho hk shift ptr
        by_cases eq : r = rdx
        · simp [X86.State.set,eq]
        · simp [X86.State.set,eq,ptr,ho,others r hk shift eq ptr]
      · simp only [resultRegister,rest,↓reduceIte,cons_append,nil_append] at value ⊢
        rw [follow_pop_cons frm,follow_mov]
        refine pop_last fst stack ?_ ?_ memory world rfl
        · simp [X86.State.set,ha,stack₁,value]
        intro r ho hk shift ptr
        by_cases eq : r = rdx
        · simp [X86.State.set,eq,Ne.symm thd]
        · simp [X86.State.set,eq,ptr,ho,others r hk shift eq ptr]
def tested (x : X86.State ω) (pc : Nat) (wide : Bool) (src : Reg) : X86.State ω :=
  {x.set rcx (BitVec.ofNat 64 pc) with flags := some (testFlags wide (x.reg src) (x.reg src))}

theorem follow_test (ha : src ≠ rcx) :
    follow m x (testDivisor pc wide src ++ es) =
      if result wide (x.reg src) = 0 then some (tested x pc wide src,some .divByZero)
      else follow m (tested x pc wide src) es := by
  have eq : (x.set rcx (BitVec.ofNat 64 pc)).reg src = x.reg src := by simp [X86.State.set,ha]
  have test : Instr.effect (x.set rcx (BitVec.ofNat 64 pc)) (.direct wide 0x85#8 src src) =
      some (tested x pc wide src) := by
    simp [Instr.effect,State.direct,State.arith,eq,tested]
  have ht : (tested x pc wide src).flags.bind (fun flags => flags.taken 0x84#8) =
      some (decide (result wide (x.reg src) = 0)) := by
    simp [tested,Flags.taken,testFlags]
  rw [testDivisor,cons_append,follow_loadImm,cons_append,emitAlu,follow_instr test,
    cons_append,follow,ht,nil_append]
  by_cases zero : result wide (x.reg src) = 0 <;> simp [zero]

theorem tested_updates {value : Word} (hu : Updates (tested x pc wide src) x' d value) :
    Updates x x' d value := by
  have hp : Updates (x.set rcx (BitVec.ofNat 64 pc)) x' d value :=
    ⟨hu.value,hu.others,hu.memory,hu.world,hu.frame⟩
  exact hp.of_rcx

section

variable (hm : op ∈ multiplications) (stack : d ≠ rsp) (ha : d ≠ rcx)
  (stack' : src ≠ rsp)

include hm stack ha stack'

theorem operation_follow (divisor : op.divides → result wide (chosen imm (x.reg src)) ≠ 0) :
    Computes m x (loadOperands op src d imm ++
        [emitAlu wide 0xf7#8 (if op = .mul then 4#4 else 6#4) rcx] ++ storeResult op d)
      d (aluValue wide op (x.reg d) (chosen imm (x.reg src))) := by
  obtain ⟨y,hb,hp⟩ := @prepare ω m x
    (emitAlu wide 0xf7#8 (if op = .mul then 4#4 else 6#4) rcx :: storeResult op d) d src op imm stack
    ha stack'
  obtain ⟨z,operation,ho⟩ := @operate ω m y (storeResult op d) wide op hm hp.high
    (hp.second ▸ divisor)
  obtain ⟨x',rest,hu⟩ := @finish ω m x y d wide op z _ stack hp ho
  refine ⟨x',?_,hu⟩
  rw [append_assoc,cons_append,nil_append,hb,operation,rest]

theorem muldivmod_follow (ha' : src ≠ rcx) (tests : op.divides → result wide (x.reg src) ≠ 0)
    (divisor : op.divides → result wide (chosen imm (x.reg src)) ≠ 0) :
    Computes m x (muldivmod pc wide op src d imm)
      d (aluValue wide op (x.reg d) (chosen imm (x.reg src))) := by
  unfold muldivmod
  cases hd : op.divides with
  | true =>
    have eq : ∀ r, r ≠ rcx → (tested x pc wide src).reg r = x.reg r := fun r ho => by
      simp [tested,X86.State.set,ho]
    obtain ⟨x',hdo,hu⟩ := @operation_follow ω m (tested x pc wide src) d src wide op imm
      hm stack ha stack' (by rwa [eq src ha'])
    rw [eq src ha',eq d ha] at hu
    refine ⟨x',?_,tested_updates hu⟩
    rw [if_pos rfl,append_assoc,append_assoc,follow_test ha',if_neg (tests hd),← append_assoc]
    exact hdo
  | false => exact operation_follow hm stack ha stack' divisor

end

theorem multiplication_follow (hm : op ∈ multiplications) {source : Source} (stack : d ≠ rsp)
    (ha : d ≠ rcx) (stack' : src ≠ rsp) (apart' : src ≠ rcx)
    (suited : AluSuited wide imm (x.reg src) op source)
    (divisor : op.divides → result wide (second imm (x.reg src) source) ≠ 0) :
    Computes m x (translateAlu pc wide src d imm op source)
      d (aluValue wide op (x.reg d) (second imm (x.reg src) source)) := by
  simp only [multiplications,mem_cons,not_mem_nil,or_false] at hm
  have emits : translateAlu pc wide src d imm op source = muldivmod pc wide op src d imm := by
    rcases hm with rfl | rfl | rfl <;> cases source <;> rfl
  have operand : chosen imm (x.reg src) = second imm (x.reg src) source := by
    cases source with
    | reg =>
      have none : imm = 0 := by rcases hm with rfl | rfl | rfl <;> exact suited
      simp [chosen,none,second]
    | imm =>
      have there : imm ≠ 0 := by
        rintro rfl
        rcases hm with rfl | rfl | rfl
        · exact suited rfl
        · exact divisor rfl (by cases wide <;> rfl)
        · exact divisor rfl (by cases wide <;> rfl)
      exact if_pos there
  have tests : op.divides → result wide (x.reg src) ≠ 0 := by
    intro divides
    cases source with
    | reg => exact divisor divides
    | imm => rcases hm with rfl | rfl | rfl <;> first | exact suited | contradiction
  rw [emits,← operand]
  rw [← operand] at divisor
  exact muldivmod_follow (by simp [multiplications,hm]) stack ha stack' apart' tests divisor

theorem alu_follow {source : Source} (stack : d ≠ rsp) (ha : d ≠ rcx) (stack' : src ≠ rsp)
    (ha' : src ≠ rcx) (hs : AluSuited wide imm (x.reg src) op source)
    (divisor : op.divides → result wide (second imm (x.reg src) source) ≠ 0) :
    Computes m x (translateAlu pc wide src d imm op source)
      d (aluValue wide op (x.reg d) (second imm (x.reg src) source)) := by
  cases op with
  | mul | div | mod =>
    exact multiplication_follow (by decide) stack ha stack' ha' hs divisor
  | lsh | rsh | arsh => exact shift_follow (by decide) ha hs
  | mov => exact mov_follow hs
  | add | sub | or | and | xor => exact binary_follow (by decide) source

end

section

variable {ω : Type} {m : X86.Machine ω} {x x' : X86.State ω} {es : List Emission} {d src : Reg}
  {imm : BitVec 32}

theorem neg_follow (wide : Bool) :
    Computes m x [emitAlu wide 0xf7#8 3#4 d] d (if wide then - x.reg d else u32 (- x.reg d)) :=
  ⟨_,follow_instr rfl,updates_set _ none⟩

theorem and_word (a : Word) : a &&& 0xffff#64 = (a.setWidth 16).setWidth 64 := by
  apply BitVec.eq_of_toNat_eq
  simp only [BitVec.toNat_and,BitVec.toNat_ofNat,BitVec.toNat_setWidth]
  rw [show 65535 % 2 ^ 64 = 2 ^ 16 - 1 from rfl,Nat.and_two_pow_sub_one_eq_mod]
  omega

theorem and_byte (a : Word) : a &&& 0xff = (a.setWidth 8).setWidth 64 := by
  apply BitVec.eq_of_toNat_eq
  rw [BitVec.toNat_and,show (0xff : Word).toNat = 2 ^ 8 - 1 from rfl,Nat.and_two_pow_sub_one_eq_mod]
  simp only [BitVec.toNat_setWidth]
  omega

theorem rotate_swap (a : Word) : u32 (rotate16 a 8 &&& 0xffff#64) = swapBytes 2 a := by
  simp only [swapBytes,and_byte,and_word,rotate16,u32]
  ext i inside
  simp
  grind

theorem swap16_follow :
    Computes m x [.instr (.rol16 d 8#8),emitAluImm32 false 0x81#8 4#4 d 0xffff#32]
      d (swapBytes 2 (x.reg d)) := by
  rw [Computes,follow_instr rfl,emitAluImm32,follow_instr rfl]
  refine ⟨_,rfl,?_,?_,rfl,rfl,rfl⟩
  · simp only [X86.State.set,↓reduceIte]
    exact rotate_swap _
  intro r ho _ _
  simp [X86.State.set,ho]

theorem storeBytes_congr {memory : Memory} {sz : Nat} {addr a b : Word}
    (eq : ∀ i < 8*sz, a.getLsbD i = b.getLsbD i) :
    storeBytes sz memory addr a = storeBytes sz memory addr b := by
  induction sz generalizing memory addr a b with
  | zero => rfl
  | succ sz ih =>
    have fst : a.setWidth 8 = b.setWidth 8 := by
      ext i hi
      simpa [hi] using eq i (by omega)
    rw [storeBytes,storeBytes,fst]
    apply ih
    intro i hi
    simpa using eq (8+i) (by omega)

theorem storeBytes_clip (sz : OperandSize) (memory : Memory) (addr : Word) :
    storeBytes sz.bytes memory addr ((sz.clip imm).signExtend 64) =
      storeBytes sz.bytes memory addr (imm.signExtend 64) := by
  apply storeBytes_congr
  intro i hi
  cases sz <;> simp only [OperandSize.bytes] at hi <;>
    simp [OperandSize.clip,BitVec.getLsbD_signExtend] <;> grind

theorem signExtend_signExtend (off : BitVec 16) :
    (off.signExtend 32).signExtend 64 = off.signExtend 64 := by
  apply BitVec.eq_of_toInt_eq
  rw [BitVec.toInt_signExtend_of_le (by omega),BitVec.toInt_signExtend_of_le (by omega),
    BitVec.toInt_signExtend_of_le (by omega)]

end

section

variable {ω : Type} (m : Ebpf.Machine ω)

/-- The registers an instruction reads or its code compares; those of a call are apart. -/
def readsOf (inst : Inst) : Op → List (BitVec 4)
  | .alu _ op source =>
    (if op = .mov then [] else [inst.dst]) ++ if source = .reg ∨ op.divides then [inst.src] else []
  | .neg _ => [inst.dst]
  | .le => [inst.dst]
  | .be => [inst.dst]
  | .ldx _ => [inst.src]
  | .st _ => [inst.dst]
  | .stx _ => [inst.dst,inst.src]
  | .lddw => []
  | .ja => []
  | .jump _ source => inst.dst :: if source = .reg then [inst.src] else []
  | .call => []
  | .exit => [0]

/-- The code of `LE` does nothing; a comparison extends the sign of its immediate; the registers a
call passes on besides its arguments may differ. -/
def CaseSuited (fresh : Fresh) (s : Ebpf.State ω) (inst : Inst) : Op → Prop
  | .alu wide op source => AluSuited wide inst.imm (s.reg inst.src) op source
  | .le => toLittleEndian inst.imm.toNat (s.reg inst.dst) = s.reg inst.dst
  | .jump cond .imm => cond.unsignedOrder → 0 ≤ inst.imm.toInt
  | .call => ∀ reg, (∀ r, fresh r → reg r = s.reg r) →
      m.helpers inst.imm.toNat (arguments {s with reg := reg}) s.memory s.world =
        m.helpers inst.imm.toNat (arguments s) s.memory s.world
  | _ => True

structure Suited (fresh : Fresh) (s : Ebpf.State ω) (inst : Inst) (op : Op) : Prop where
  reads : ∀ r ∈ readsOf inst op, fresh r
  case : CaseSuited m fresh s inst op

def freshAfter (fresh : Fresh) (inst : Inst) : Op → Fresh
  | .alu _ _ _ => fresh.add inst.dst
  | .neg _ => fresh.add inst.dst
  | .le => fresh.add inst.dst
  | .be => fresh.add inst.dst
  | .ldx _ => fresh.add inst.dst
  | .lddw => fresh.add inst.dst
  | .call => fun r => r = 0 ∨ (5 < r ∧ fresh r)
  | _ => fresh

def SuitedRun : Nat → Fresh → Ebpf.State ω → Prop
  | 0, _, _ => True
  | turns + 1, fresh, s => ∀ inst op, m.insts[s.pc.toNat]? = some inst →
      decode inst.opcode = some op → Suited m fresh s inst op ∧
        ∀ s', step m s = .running s' → SuitedRun turns (freshAfter fresh inst op) s'

def freshStart : Fresh := fun r => r = 1 ∨ r = 10

/-- The helpers are where the code calls them, and `fprintf` leaves the program alone. -/
structure Linked (addr : Addresses) (library : Word → Option (X86.Function ω)) : Prop where
  helpers : ∀ n, m.extFuncs n → library (addr.extFuncs n) = some (m.helpers n)
  fprintf : ∃ f, library addr.fprintf = some f ∧
    ∀ args memory world, (f args memory world).2 = (memory,world)

end

end Frr.Jit
