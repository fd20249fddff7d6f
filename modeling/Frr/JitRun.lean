import Frr.JitCorrect

/-! One turn of the interpreter against the code of its instruction, and whole runs: as long as the
code of every instruction agrees, `compile_and_exec_jit` returns what `exec_loaded_code` does. -/
namespace Frr.Jit

open WordMemory X86 Ebpf List

section

variable {ω : Type}

structure Beside (saved : List Word) (s : Ebpf.State ω) (x : X86.State ω) : Prop where
  memory : x.memory = s.memory
  world : x.world = s.world
  frame : x.frame = saved

def Simulated (m : X86.Machine ω) (saved : List Word) (fresh : Fresh) (insts : List Inst)
    (s : Ebpf.State ω) (op : Op) (x : X86.State ω) (es : List Emission) : Ebpf.Outcome ω → Prop
  | .running s' => ∃ x' goal, follow m x es = some (x',goal) ∧ Agrees fresh saved s' x' ∧
      ((goal = none ∧ s'.pc = s.pc + BitVec.ofNat 16 op.width) ∨ goal = some (.pc s'.pc.toNat))
  | .returned value s' => ∃ x' goal, follow m x es = some (x',goal) ∧
      (goal = some .exit ∨ goal = none ∧ s.pc.toNat+1 = insts.length) ∧ x'.reg rax = value ∧
      Beside saved s' x'
  | .reported .division s' => ∃ x', follow m x es = some (x',some .divByZero) ∧ Beside saved s' x'
  | _ => True

variable {m : Ebpf.Machine ω} {X : X86.Machine ω} {addr : Addresses} {saved : List Word}
  {fresh : Fresh} {s : Ebpf.State ω} {x : X86.State ω} {inst : Inst} {op : Op}

/-- The code of an instruction against the turn of the interpreter. -/
def Corresponds (m : Ebpf.Machine ω) (X : X86.Machine ω) (addr : Addresses) (saved : List Word)
    (fresh : Fresh) (s : Ebpf.State ω) (x : X86.State ω) (inst : Inst) (op : Op) : Prop :=
  Simulated X saved (freshAfter fresh inst op) m.insts s op x
    (translateInst addr m.insts s.pc.toNat inst op) (execute m {s with pc := s.pc + 1} inst op)

theorem Agrees.pc (agrees : Agrees fresh saved s x) (pc : BitVec 16) :
    Agrees fresh saved {s with pc := pc} x := ⟨agrees.regs,agrees.memory,agrees.world,agrees.frame⟩

theorem simulated_update {val : Word} {es : List Emission} (agrees : Agrees fresh saved s x)
    (regs : RegistersOk inst op) (one : op.width = 1)
    (code : Computes X x es (mapRegister inst.dst) val) :
    Simulated X saved (fresh.add inst.dst) m.insts s op x es
      (.running ({s with pc := s.pc + 1}.set inst.dst val)) := by
  obtain ⟨x',hd,hu⟩ := code
  exact ⟨x',none,hd,(agrees.pc _).update regs.2.1 hu,.inl ⟨rfl,by rw [one]; rfl⟩⟩

section

variable {wide : Bool} {operation : AluOp}

theorem aluSuited_congr {imm : BitVec 32} {v v' : Word}
    {src : Source} (eq : src = .reg ∨ operation.divides → v = v')
    (suited : AluSuited wide imm v operation src) : AluSuited wide imm v' operation src := by
  by_cases hu : src = .reg ∨ operation.divides
  · exact eq hu ▸ suited
  cases src with
  | reg => simp at hu
  | imm => cases operation <;> first | exact suited | simp [AluOp.divides] at hu

theorem division_follow {source : Source} {src d : Reg}
    {imm : BitVec 32} {pc : Nat} (hd : operation.divides) (ha : src ≠ rcx)
    (zero : x.reg src = 0) :
    follow X x (translateAlu pc wide src d imm operation source) =
      some (tested x pc wide src,some .divByZero) := by
  have emits : translateAlu pc wide src d imm operation source =
      muldivmod pc wide operation src d imm := by
    cases operation <;> first | cases source <;> rfl | contradiction
  have none : result wide (x.reg src) = 0 := by
    rw [zero]
    cases wide <;> rfl
  rw [emits,muldivmod,if_pos hd,append_assoc,append_assoc,follow_test ha,if_pos none]

theorem alu_simulated {source : Source}
    (agrees : Agrees fresh saved s x) (regs : RegistersOk inst (.alu wide operation source))
    (suited : Suited m fresh s inst (.alu wide operation source)) :
    Corresponds m X addr saved fresh s x inst (.alu wide operation source) := by
  obtain ⟨shift,stack,-⟩ := mapRegister_plain inst.dst
  obtain ⟨shift',stack',-⟩ := mapRegister_plain inst.src
  have dst : operation ≠ .mov → x.reg (mapRegister inst.dst) = s.reg inst.dst := fun ho =>
    agrees.regs _ regs.2.1 (suited.reads _ (by simp [readsOf,ho]))
  have src : source = .reg ∨ operation.divides → x.reg (mapRegister inst.src) = s.reg inst.src :=
    fun hu => agrees.regs _ regs.1 (suited.reads _ (by simp [readsOf,hu]))
  have operand : second inst.imm (x.reg (mapRegister inst.src)) source =
      operand {s with pc := s.pc + 1} inst source := by
    cases source with
    | imm => rfl
    | reg => exact src (.inl rfl)
  have case : AluSuited wide inst.imm (x.reg (mapRegister inst.src)) operation source :=
    aluSuited_congr (fun hu => (src hu).symm) suited.case
  unfold Corresponds execute executeAlu
  simp only [← operand]
  by_cases hs : operation.divides ∧ source = .reg ∧
      second inst.imm (x.reg (mapRegister inst.src)) source = 0
  · rw [if_pos hs]
    obtain ⟨hd,rfl,zero⟩ := hs
    exact ⟨_,division_follow hd shift' zero,agrees.memory,agrees.world,agrees.frame⟩
  rw [if_neg hs]
  by_cases zero : operation.divides ∧
      (if wide then second inst.imm (x.reg (mapRegister inst.src)) source
        else u32 (second inst.imm (x.reg (mapRegister inst.src)) source)) = 0
  · rw [if_pos zero]
    trivial
  rw [if_neg zero]
  have val : aluValue wide operation (x.reg (mapRegister inst.dst))
        (second inst.imm (x.reg (mapRegister inst.src)) source) =
      if wide then operation.eval64 (s.reg inst.dst)
          (second inst.imm (x.reg (mapRegister inst.src)) source)
        else operation.eval32 (s.reg inst.dst)
          (second inst.imm (x.reg (mapRegister inst.src)) source) := by
    by_cases hm : operation = .mov
    · subst hm
      cases wide <;> rfl
    rw [dst hm]
    rfl
  refine simulated_update agrees regs rfl ?_
  rw [← val]
  exact alu_follow stack shift stack' shift' case fun hd none => zero ⟨hd,none⟩

end

theorem Agrees.read (agrees : Agrees fresh saved s x) (suited : Suited m fresh s inst op)
    {r : BitVec 4} (le : r ≤ 10) (reads : r ∈ readsOf inst op) :
    x.reg (mapRegister r) = s.reg r := agrees.regs r le (suited.reads r reads)

theorem neg_simulated {wide : Bool} (agrees : Agrees fresh saved s x)
    (regs : RegistersOk inst (.neg wide)) (suited : Suited m fresh s inst (.neg wide)) :
    Corresponds m X addr saved fresh s x inst (.neg wide) := by
  have eq := agrees.read suited regs.2.1 (by simp [readsOf])
  refine simulated_update agrees regs rfl ?_
  simp only [← eq]
  exact neg_follow wide

theorem endian_checked (hc : checkOp m.extFuncs m.insts s.pc.toNat inst .le = .ok () ∨
      checkOp m.extFuncs m.insts s.pc.toNat inst .be = .ok ()) :
    inst.imm = 16 ∨ inst.imm = 32 ∨ inst.imm = 64 := by
  by_contra other
  simp only [not_or] at other
  simp only [checkOp,if_pos (show inst.imm ≠ 16 ∧ inst.imm ≠ 32 ∧ inst.imm ≠ 64 from other),or_self,
    reduceCtorEq] at hc

theorem le_simulated (agrees : Agrees fresh saved s x) (regs : RegistersOk inst .le)
    (hc : checkOp m.extFuncs m.insts s.pc.toNat inst .le = .ok ())
    (suited : Suited m fresh s inst .le) :
    Corresponds m X addr saved fresh s x inst .le := by
  unfold Corresponds
  have eq := agrees.read suited regs.2.1 (by simp [readsOf])
  have hf : toLittleEndian inst.imm.toNat (s.reg inst.dst) = s.reg inst.dst := suited.case
  rw [execute,if_pos (endian_checked (.inl hc))]
  refine simulated_update agrees regs rfl ⟨x,rfl,?_⟩
  exact ⟨eq.trans hf.symm,fun _ _ _ _ => rfl,rfl,rfl,rfl⟩

theorem be_simulated (agrees : Agrees fresh saved s x) (regs : RegistersOk inst .be)
    (hc : checkOp m.extFuncs m.insts s.pc.toNat inst .be = .ok ())
    (suited : Suited m fresh s inst .be) :
    Corresponds m X addr saved fresh s x inst .be := by
  unfold Corresponds
  have eq := agrees.read suited regs.2.1 (by simp [readsOf])
  have sizes := endian_checked (.inr hc)
  rw [execute,if_pos sizes]
  refine simulated_update agrees regs rfl ?_
  simp only [← eq,translateInst]
  rcases sizes with half | word | hw
  · simp only [half]
    exact swap16_follow
  · simp only [word]
    exact ⟨_,follow_instr rfl,updates_set _ x.flags⟩
  simp only [hw]
  exact ⟨_,follow_instr rfl,updates_set _ x.flags⟩

theorem operandSize_bytes (sz : Size) : (operandSize sz).bytes = sz.bytes := by
  cases sz <;> rfl

section

variable (agrees : Agrees fresh saved s x)

include agrees

theorem ldx_simulated {sz : Size}
    (regs : RegistersOk inst (.ldx sz)) (suited : Suited m fresh s inst (.ldx sz)) :
    Corresponds m X addr saved fresh s x inst (.ldx sz) := by
  unfold Corresponds
  have eq := agrees.read suited regs.1 (by simp [readsOf])
  simp only [execute,withAccess]
  split
  · trivial
  split
  · refine simulated_update agrees regs rfl ⟨_,follow_instr rfl,?_⟩
    simp only [loadAddress,← agrees.memory,← eq,← signExtend_signExtend,← operandSize_bytes]
    exact updates_set _ x.flags
  · trivial

theorem simulated_write {memory : Memory} {es : List Emission} (one : op.width = 1)
    (code : follow X x es = some ({x with memory := memory},none)) :
    Simulated X saved fresh m.insts s op x es
      (.running {s with pc := s.pc+1, memory := memory}) :=
  ⟨_,none,code,⟨agrees.regs,rfl,agrees.world,agrees.frame⟩,.inl ⟨rfl,by rw [one]; rfl⟩⟩

theorem st_simulated {sz : Size}
    (regs : RegistersOk inst (.st sz)) (suited : Suited m fresh s inst (.st sz)) :
    Corresponds m X addr saved fresh s x inst (.st sz) := by
  unfold Corresponds
  have eq := agrees.read suited regs.2.1 (by simp [readsOf])
  simp only [execute,withAccess]
  split
  · trivial
  split
  · refine simulated_write agrees rfl (follow_instr ?_)
    simp [Instr.effect,X86.State.write,storeAddress,← agrees.memory,← eq,signExtend_signExtend,storeBytes_clip,← operandSize_bytes]
  · trivial

theorem stx_simulated {sz : Size}
    (regs : RegistersOk inst (.stx sz)) (suited : Suited m fresh s inst (.stx sz)) :
    Corresponds m X addr saved fresh s x inst (.stx sz) := by
  unfold Corresponds
  have eq := agrees.read suited regs.2.1 (by simp [readsOf])
  have val := agrees.read suited regs.1 (by simp [readsOf])
  simp only [execute,withAccess]
  split
  · trivial
  split
  · refine simulated_write agrees rfl (follow_instr ?_)
    simp [Instr.effect,X86.State.write,storeAddress,← agrees.memory,← eq,← val,signExtend_signExtend,operandSize_bytes]
  · trivial

end

theorem pc_succ (accepted : m.Accepted) (at_ : Executable m s inst op) :
    (s.pc+1).toNat = s.pc.toNat+1 := by
  have hs := accepted.checked.1
  have hi := (List.getElem?_eq_some_iff.mp at_.fetched).1
  have one : (1 : BitVec 16).toNat = 1 := rfl
  simp only [maxInsts] at hs
  rw [BitVec.toNat_add,one]
  omega

theorem lddw_simulated (accepted : m.Accepted) (at_ : Executable m s inst .lddw)
    (agrees : Agrees fresh saved s x) (regs : RegistersOk inst .lddw) :
    Corresponds m X addr saved fresh s x inst .lddw := by
  unfold Corresponds
  simp only [execute,translateInst,pc_succ accepted at_]
  cases m.insts[s.pc.toNat+1]? with
  | none => trivial
  | some snd =>
    refine ⟨_,none,follow_loadImm _,(agrees.pc (s.pc+1+1)).update regs.2.1
      (updates_set _ x.flags),.inl ⟨rfl,?_⟩⟩
    show s.pc + 1 + 1 = s.pc+2
    rw [BitVec.add_assoc]
    rfl

theorem jump_goal (accepted : m.Accepted)
    (hc : checkJump m.insts s.pc.toNat inst = .ok ()) :
    Target.pc ((s.pc.toNat : Int) + inst.offset.toInt + 1).toNat =
      .pc (s.pc+1+inst.offset).toNat := by
  rw [jump_pc accepted hc]
  congr 2
  omega

theorem ja_simulated (accepted : m.Accepted) (agrees : Agrees fresh saved s x)
    (hc : checkOp m.extFuncs m.insts s.pc.toNat inst .ja = .ok ()) :
    Corresponds m X addr saved fresh s x inst .ja :=
  ⟨x,_,rfl,agrees.pc _,.inr (congrArg some (jump_goal accepted hc))⟩

def comparisonFlags (cond : Cond) (a b : Word) : Flags :=
  if cond = .set then testFlags true a b else compareFlags true a b

theorem follow_comparison {cond : Cond} {source : Source} {src d : Reg} {imm : BitVec 32}
    {es : List Emission} : follow X x (emitComparison src d imm cond source :: es) =
      follow X {x with flags := some (comparisonFlags cond (x.reg d)
        (second imm (x.reg src) source))} es := by
  cases cond <;> cases source <;> exact follow_instr rfl

theorem taken_comparison (cond : Cond) (a b : Word) :
    (comparisonFlags cond a b).taken (jccCode cond) = some (cond.holds a b) := by
  cases cond with
  | eq => exact taken_equal a b
  | gt => exact taken_above a b
  | ge => exact taken_aboveEqual a b
  | lt => exact taken_below a b
  | le => exact taken_belowEqual a b
  | set => exact taken_testNotEqual a b
  | ne => exact taken_notEqual a b
  | sgt => exact taken_greater a b
  | sge => exact taken_greaterEqual a b
  | slt => exact taken_less a b
  | sle => exact taken_lessEqual a b

theorem follow_jump {cond : Cond} {source : Source} {src d : Reg} {imm : BitVec 32} {goal : Target} :
    follow X x [emitComparison src d imm cond source,.jcc (jccCode cond) goal] =
      some ({x with flags := some (comparisonFlags cond (x.reg d) (second imm (x.reg src) source))},
        if cond.holds (x.reg d) (second imm (x.reg src) source) then some goal else none) := by
  rw [follow_comparison,follow,Option.bind_some,taken_comparison,Option.bind_some]
  split <;> rfl

theorem signExtend_nonneg {imm : BitVec 32} (hn : 0 ≤ imm.toInt) :
    imm.signExtend 64 = imm.setWidth 64 := by
  apply BitVec.eq_of_toNat_eq
  rw [BitVec.toInt_eq_toNat_cond] at hn
  simp only [BitVec.toNat_signExtend,BitVec.toNat_setWidth,BitVec.msb_eq_decide]
  split at hn <;> split <;> simp_all <;> omega

theorem jump_simulated {cond : Cond} {src : Source} (accepted : m.Accepted)
    (agrees : Agrees fresh saved s x) (regs : RegistersOk inst (.jump cond src))
    (hc : checkOp m.extFuncs m.insts s.pc.toNat inst (.jump cond src) = .ok ())
    (suited : Suited m fresh s inst (.jump cond src)) :
    Corresponds m X addr saved fresh s x inst (.jump cond src) := by
  unfold Corresponds
  have dst := agrees.read suited regs.2.1 (by simp [readsOf])
  have ho : second inst.imm (x.reg (mapRegister inst.src)) src =
      compared {s with pc := s.pc + 1} inst cond src := by
    cases src with
    | reg => exact agrees.read suited regs.1 (by simp [readsOf])
    | imm =>
      have signed : cond.unsignedOrder → 0 ≤ inst.imm.toInt := suited.case
      by_cases unsigned : cond.unsignedOrder
      · simp [second,compared,unsigned,signExtend_nonneg (signed unsigned)]
      · simp [second,compared,unsigned,operand]
  have eq : ∀ flags, Agrees fresh saved s {x with flags := flags} := fun _ =>
    ⟨agrees.regs,agrees.memory,agrees.world,agrees.frame⟩
  simp only [execute,translateInst,← dst,← ho]
  split
  · next holds =>
    have code := @follow_jump ω X x cond src (mapRegister inst.src) (mapRegister inst.dst) inst.imm
      (.pc ((s.pc.toNat : Int) + inst.offset.toInt + 1).toNat)
    rw [if_pos holds] at code
    exact ⟨_,_,code,(eq _).pc _,.inr (congrArg some (jump_goal accepted hc))⟩
  · next falls =>
    have code := @follow_jump ω X x cond src (mapRegister inst.src) (mapRegister inst.dst) inst.imm
      (.pc ((s.pc.toNat : Int) + inst.offset.toInt + 1).toNat)
    rw [if_neg falls] at code
    exact ⟨_,_,code,(eq _).pc _,.inl ⟨rfl,rfl⟩⟩

theorem mapRegister_kept : ∀ r : BitVec 4, 5 < r → r ≤ 10 → callerSaved (mapRegister r) = false := by
  decide

def registersOf (s : Ebpf.State ω) (x : X86.State ω) : BitVec 4 → Word :=
  fun r => if r ≤ 10 then x.reg (mapRegister r) else s.reg r

def calling (x : X86.State ω) (target : Word) : X86.State ω := (x.set rcx (x.reg r9)).set rax target

theorem calling_arguments (tgt : Word) :
    [(calling x tgt).reg rdi,(calling x tgt).reg rsi,(calling x tgt).reg rdx,
      (calling x tgt).reg rcx,(calling x tgt).reg r8] =
    arguments {s with reg := registersOf s x} := by
  simp [calling,X86.State.set,arguments,registersOf,mapRegister,registerMap,rax,rcx,rdx,rsi,rdi,r8,r9]

theorem follow_call {tgt : Word} {f : X86.Function ω} (ht : X.library tgt = some f)
    {es : List Emission} : follow X x (emitMov r9 rcx :: (emitCall tgt ++ es)) =
      follow X (X.call (calling x tgt) f) es := by
  have adr : (calling x tgt).reg rax = tgt := by simp [calling,X86.State.set]
  rw [follow_mov,emitCall,cons_append,follow_loadImm,cons_append,follow]
  show (after X (calling x tgt) .callRax).bind _ = _
  simp [after,Instr.effect,adr,ht]

theorem call_simulated (linked : Linked m addr X.library) (agrees : Agrees fresh saved s x)
    (at_ : Executable m s inst .call) (suited : Suited m fresh s inst .call) :
    Corresponds m X addr saved fresh s x inst .call := by
  unfold Corresponds
  have has := at_.registered rfl
  have ht := linked.helpers inst.imm.toNat (by simp_all [ExtFuncs.has])
  have eq : m.helpers inst.imm.toNat (arguments {s with reg := registersOf s x}) s.memory s.world =
      m.helpers inst.imm.toNat (arguments s) s.memory s.world := by
    refine suited.case _ fun r hi => ?_
    simp only [registersOf]
    split
    · next le => exact agrees.regs r le hi
    · rfl
  have code := @follow_call ω X x (addr.extFuncs inst.imm.toNat) (m.helpers inst.imm.toNat) ht []
  rw [append_nil] at code
  have called : X.call (calling x (addr.extFuncs inst.imm.toNat)) (m.helpers inst.imm.toNat) =
      { reg := fun r => if r = rax then
          (m.helpers inst.imm.toNat (arguments s) s.memory s.world).1
        else if callerSaved r then X.clobber (calling x (addr.extFuncs inst.imm.toNat)) r
        else (calling x (addr.extFuncs inst.imm.toNat)).reg r
        flags := none
        memory := (m.helpers inst.imm.toNat (arguments s) s.memory s.world).2.1
        frame := x.frame
        world := (m.helpers inst.imm.toNat (arguments s) s.memory s.world).2.2 } := by
    rw [← eq,← calling_arguments (addr.extFuncs inst.imm.toNat),← agrees.memory,← agrees.world]
    rfl
  rw [called] at code
  simp only [execute,has,↓reduceIte]
  refine ⟨_,none,code,⟨?_,rfl,rfl,agrees.frame⟩,.inl ⟨rfl,rfl⟩⟩
  intro r le hi
  by_cases fst : r = 0
  · subst fst
    rfl
  simp only [freshAfter,fst,false_or,decide_eq_true_eq] at hi
  have hk := mapRegister_kept r hi.1 le
  obtain ⟨shift,-,-⟩ := mapRegister_plain r
  have ha : mapRegister r ≠ rax := fun eq => fst (mapRegister_injective r 0 le (by decide) eq)
  simp only [ha,↓reduceIte,hk,Bool.false_eq_true,calling,X86.State.set,shift,Ebpf.State.set,fst]
  exact agrees.regs r le hi.2

theorem exit_simulated (agrees : Agrees fresh saved s x) (at_ : Executable m s inst .exit)
    (suited : Suited m fresh s inst .exit) :
    Corresponds m X addr saved fresh s x inst .exit := by
  unfold Corresponds
  have val := agrees.read suited (by decide : (0 : BitVec 4) ≤ 10) (by simp [readsOf])
  have hi := (List.getElem?_eq_some_iff.mp at_.fetched).1
  simp only [execute,translateInst]
  by_cases last : s.pc.toNat = m.insts.length-1
  · refine ⟨x,none,?_,.inr ⟨rfl,by omega⟩,val,agrees.memory,agrees.world,agrees.frame⟩
    simp [last,follow]
  refine ⟨x,some .exit,?_,.inl rfl,val,agrees.memory,agrees.world,agrees.frame⟩
  simp [last,follow]

theorem step_simulated (accepted : m.Accepted) (linked : Linked m addr X.library)
    (at_ : Executable m s inst op) (agrees : Agrees fresh saved s x) (suited : Suited m fresh s inst op) :
    Simulated X saved (freshAfter fresh inst op) m.insts s op x
      (translateInst addr m.insts s.pc.toNat inst op) (step m s) := by
  have hc := at_.checked accepted
  have regs := at_.registers accepted
  simp only [step,at_.fetched,at_.known]
  cases op with
  | alu hw operation src => exact alu_simulated agrees regs suited
  | neg hw => exact neg_simulated agrees regs suited
  | le => exact le_simulated agrees regs hc suited
  | be => exact be_simulated agrees regs hc suited
  | ldx sz => exact ldx_simulated agrees regs suited
  | st sz => exact st_simulated agrees regs suited
  | stx sz => exact stx_simulated agrees regs suited
  | lddw => exact lddw_simulated accepted at_ agrees regs
  | ja => exact ja_simulated accepted agrees hc
  | jump cond src => exact jump_simulated accepted agrees regs hc suited
  | call => exact call_simulated linked agrees at_ suited
  | exit => exact exit_simulated agrees at_ suited

end

section

theorem emitLoadImm_encodable (d : Reg) (imm : Word) : (emitLoadImm d imm).Encodable := by
  unfold emitLoadImm
  split
  · exact (by decide : (0xc7#8,0#4) ∈ imm32Digits)
  · trivial

theorem emitMov_encodable (src d : Reg) : (emitMov src d).Encodable :=
  .inl (by decide : 0x89#8 ∈ plainOps)

theorem emitPush_encodable (r : Reg) : (emitPush r).Encodable := trivial

theorem emitPop_encodable (r : Reg) : (emitPop r).Encodable := trivial

theorem emitCall_encodable (tgt : Word) : ∀ e ∈ emitCall tgt, e.Encodable :=
  forall_mem_cons.mpr ⟨emitLoadImm_encodable _ _,forall_mem_cons.mpr ⟨trivial,nofun⟩⟩

theorem testDivisor_encodable (pc : Nat) (wide : Bool) (src : Reg) :
    ∀ e ∈ testDivisor pc wide src, e.Encodable := by
  rintro e (_ | ⟨_,_ | ⟨_,_ | ⟨_,_ | _⟩⟩⟩)
  · exact emitLoadImm_encodable _ _
  · exact .inl (by decide : 0x85#8 ∈ plainOps)
  · exact (by decide : 0x84#8 &&& 0xf0#8 = 0x80#8)

theorem loadOperands_encodable (op : AluOp) (src dst : Reg) (imm : BitVec 32) :
    ∀ e ∈ loadOperands op src dst imm, e.Encodable := by
  intro e hi
  simp only [loadOperands,mem_append,mem_ite_nil_right,mem_cons,not_mem_nil,or_false] at hi
  rcases hi with ((⟨-,rfl⟩ | ⟨-,rfl⟩) | rfl | rfl) | ⟨-,rfl⟩
  · exact emitPush_encodable _
  · exact emitPush_encodable _
  · split
    · exact emitLoadImm_encodable _ _
    · exact emitMov_encodable _ _
  · exact emitMov_encodable _ _
  · exact .inl (by decide : 0x31#8 ∈ plainOps)

theorem storeResult_encodable (op : AluOp) (dst : Reg) : ∀ e ∈ storeResult op dst, e.Encodable := by
  intro e hi
  simp only [storeResult,mem_append,mem_ite_nil_right,mem_ite_nil_left,mem_singleton] at hi
  rcases hi with ⟨-,⟨-,rfl⟩ | rfl⟩ | ⟨-,⟨-,rfl⟩ | rfl⟩
  · exact emitMov_encodable _ _
  · exact emitPop_encodable _
  · exact emitMov_encodable _ _
  · exact emitPop_encodable _

theorem muldivmod_encodable (pc : Nat) (wide : Bool) (op : AluOp) (src dst : Reg) (imm : BitVec 32) :
    ∀ e ∈ muldivmod pc wide op src dst imm, e.Encodable := by
  intro e hi
  simp only [muldivmod,mem_append,mem_ite_nil_right,mem_singleton] at hi
  rcases hi with ((⟨-,test⟩ | loads) | rfl) | hs
  · exact testDivisor_encodable _ _ _ e test
  · exact loadOperands_encodable _ _ _ _ e loads
  · refine .inr ?_
    split <;> decide
  · exact storeResult_encodable _ _ e hs

theorem translateAlu_encodable (pc : Nat) (wide : Bool) (src dst : Reg) (imm : BitVec 32) (op : AluOp)
    (source : Source) : ∀ e ∈ translateAlu pc wide src dst imm op source, e.Encodable := by
  have digits : ∀ op, (0x81#8,(binaryOp op).2) ∈ imm32Digits ∧ (binaryOp op).1 ∈ plainOps ∧
      (0xc1#8,shiftDigit op) ∈ imm8Digits ∧ (0xd3#8,shiftDigit op) ∈ plainDigits := by
    intro op
    cases op <;> decide
  obtain ⟨binaryImm,binaryReg,shiftImm,shiftReg⟩ := digits op
  cases op with
  | mul => cases source <;> exact muldivmod_encodable _ _ _ _ _ _
  | div => cases source <;> exact muldivmod_encodable _ _ _ _ _ _
  | mod => cases source <;> exact muldivmod_encodable _ _ _ _ _ _
  | mov =>
    cases source with
    | imm =>
      refine forall_mem_singleton.mpr ?_
      split
      · exact emitLoadImm_encodable _ _
      · exact (by decide : (0xc7#8,0#4) ∈ imm32Digits)
    | reg => exact forall_mem_singleton.mpr (emitMov_encodable _ _)
  | lsh | rsh | arsh =>
    cases source with
    | imm => exact forall_mem_singleton.mpr shiftImm
    | reg =>
      exact forall_mem_cons.mpr ⟨emitMov_encodable _ _,forall_mem_singleton.mpr (.inr shiftReg)⟩
  | add | sub | or | and | xor =>
    cases source with
    | imm => exact forall_mem_singleton.mpr binaryImm
    | reg => exact forall_mem_singleton.mpr (.inl binaryReg)

theorem clip_clip (sz : OperandSize) (imm : BitVec 32) : sz.clip (sz.clip imm) = sz.clip imm := by
  cases sz <;> simp [OperandSize.clip]

theorem emitComparison_encodable (src dst : Reg) (imm : BitVec 32) (cond : Cond) (source : Source) :
    (emitComparison src dst imm cond source).Encodable := by
  cases source with
  | imm =>
    cases cond with
    | set => exact (by decide : (0xf7#8,0#4) ∈ imm32Digits)
    | _ => exact (by decide : (0x81#8,7#4) ∈ imm32Digits)
  | reg =>
    cases cond with
    | set => exact .inl (by decide : 0x85#8 ∈ plainOps)
    | _ => exact .inl (by decide : 0x39#8 ∈ plainOps)

theorem translateInst_encodable (addr : Addresses) (insts : List Inst) (i : Nat) (inst : Inst) (op : Op) :
    ∀ e ∈ translateInst addr insts i inst op, e.Encodable := by
  obtain ⟨-,-,dst⟩ := mapRegister_plain inst.dst
  obtain ⟨-,-,src⟩ := mapRegister_plain inst.src
  cases op with
  | alu hw op source => exact translateAlu_encodable _ _ _ _ _ _ _
  | neg hw =>
    exact forall_mem_singleton.mpr (.inr (by decide : (0xf7#8,3#4) ∈ plainDigits))
  | le => exact nofun
  | be =>
    simp only [translateInst]
    split
    · exact forall_mem_cons.mpr ⟨trivial,forall_mem_singleton.mpr
        (by decide : (0x81#8,4#4) ∈ imm32Digits)⟩
    split
    · exact forall_mem_singleton.mpr trivial
    · exact nofun
  | ja => exact forall_mem_singleton.mpr trivial
  | jump cond source =>
    have code : ∀ cond, jccCode cond &&& 0xf0#8 = 0x80#8 := by
      intro cond
      cases cond <;> decide
    exact forall_mem_cons.mpr ⟨emitComparison_encodable ..,forall_mem_singleton.mpr (code cond)⟩
  | call => exact forall_mem_cons.mpr ⟨emitMov_encodable _ _,emitCall_encodable _⟩
  | exit =>
    simp only [translateInst]
    split
    · exact forall_mem_singleton.mpr trivial
    · exact nofun
  | ldx sz => exact forall_mem_singleton.mpr src
  | st sz => exact forall_mem_singleton.mpr ⟨dst,clip_clip _ _⟩
  | stx sz => exact forall_mem_singleton.mpr dst
  | lddw =>
    simp only [translateInst]
    split
    · exact nofun
    · exact forall_mem_singleton.mpr (emitLoadImm_encodable _ _)

end

section

variable {addr : Addresses} {insts : List Inst} {code : List Byte} {location : Target → Nat}

theorem placed {pre es post : List Emission} {loc : Nat}
    (hw : code = assemble location 0 (pre ++ es ++ post)) (hs : code.length ≤ bufferSize)
    (hh : loc = sizes pre) :
    (∃ rest, code.drop loc = assemble location loc es ++ rest) ∧ loc ≤ bufferSize := by
  constructor
  · refine ⟨assemble location (sizes pre + sizes es) post,?_⟩
    rw [hh,hw,append_assoc,assemble_append,assemble_append,zero_add,
      ← @assemble_length location pre 0,drop_left]
  rw [hw,assemble_length] at hs
  simp only [sizes_append] at hs
  omega

section

variable (compiled : Compiled addr insts code location)

include compiled

theorem Compiled.instruction {j : Nat} {inst : Inst}
    {op : Op} (hs : Starts insts 0 j) (ht : insts[j]? = some inst)
    (hk : decode inst.opcode = some op) :
    ((∃ rest, code.drop (location (.pc j)) =
      assemble location (location (.pc j)) (translateInst addr insts j inst op) ++ rest) ∧
      location (.pc j) ≤ bufferSize) ∧
    location (.pc j) + sizes (translateInst addr insts j inst op) =
      if j + op.width < insts.length then location (.pc (j+op.width)) else location .exit := by
  obtain ⟨pre,post,body,loc,next⟩ := compiled.laid j inst op hs ht hk
  simp only at loc next
  have hw := compiled.assembled
  have split : prologue ++ (pre ++ translateInst addr insts j inst op ++ post) ++ epilogue ++
      divByZeroHandler addr = (prologue ++ pre) ++ translateInst addr insts j inst op ++
        (post ++ epilogue ++ divByZeroHandler addr) := by simp
  rw [body,split] at hw
  refine ⟨placed hw compiled.small (by rw [loc,sizes_append]),?_⟩
  by_cases hm : j + op.width < insts.length
  · rw [if_pos hm] at next ⊢
    rw [next,loc]
  rw [if_neg hm] at next ⊢
  rw [compiled.exit,loc,body,next]
  simp only [sizes_append,sizes_nil]
  omega

theorem Compiled.exit_placed :
    (∃ rest, code.drop (location .exit) = assemble location (location .exit) epilogue ++ rest) ∧
      location .exit ≤ bufferSize :=
  placed compiled.assembled compiled.small (by rw [compiled.exit,sizes_append])

theorem Compiled.handler_placed : (∃ rest, code.drop (location .divByZero) =
      assemble location (location .divByZero) (divByZeroHandler addr) ++ rest) ∧
      location .divByZero ≤ bufferSize := by
  have hw := compiled.assembled
  rw [← append_nil (_ ++ divByZeroHandler addr)] at hw
  exact placed hw compiled.small (by rw [compiled.divByZero,sizes_append,sizes_append])

theorem Compiled.start_placed : ∃ rest, code.drop 0 = assemble location 0 prologue ++ rest := by
  have hw := compiled.assembled
  rw [append_assoc,append_assoc,← nil_append (prologue ++ _),← append_assoc] at hw
  exact (placed hw compiled.small rfl).1

end

end

section

variable {ω : Type} {m : Ebpf.Machine ω} {X : X86.Machine ω} {addr : Addresses}
  {location : Target → Nat} {fresh : Fresh} {saved : List Word} {s : Ebpf.State ω}
  {x : X86.State ω} {inst : Inst} {op : Op}

structure Ended (saved : List Word) (value : Word) (memory : Memory) (world : ω) (x : X86.State ω) :
    Prop where
  value : x.reg rax = value
  memory : x.memory = memory
  world : x.world = world
  frame : x.frame = saved

theorem handler_follow (linked : Linked m addr X.library) (hb : Beside saved s x) :
    ∃ x', follow X x (divByZeroHandler addr) = some (x',some .exit) ∧
      Ended saved (-1) s.memory s.world x' := by
  obtain ⟨f,ht,hk⟩ := linked.fprintf
  let y := (((x.set rdi addr.stderr).set rsi addr.divByZeroFmt).set rdx
    (((x.set rdi addr.stderr).set rsi addr.divByZeroFmt).reg rcx)).set rax addr.fprintf
  have adr : y.reg rax = addr.fprintf := by simp [y,X86.State.set]
  have call : after X y .callRax = some (X.call y f) := by simp [after,Instr.effect,adr,ht]
  have code : follow X x (divByZeroHandler addr) = some ((X.call y f).set rax (-1),some .exit) := by
    simp only [divByZeroHandler,emitCall,cons_append,nil_append]
    rw [follow_loadImm,follow_loadImm,follow_mov,follow_loadImm,follow]
    show (after X y .callRax).bind _ = _
    rw [call,Option.bind_some,follow_loadImm]
    rfl
  have hu := hk [y.reg rdi,y.reg rsi,y.reg rdx,y.reg rcx,y.reg r8] y.memory y.world
  refine ⟨_,code,by simp [X86.State.set],?_,?_,hb.frame⟩
  · exact (congrArg Prod.fst hu).trans hb.memory
  · exact (congrArg Prod.snd hu).trans hb.world

theorem divByZeroHandler_encodable (addr : Addresses) : ∀ e ∈ divByZeroHandler addr, e.Encodable := by
  intro e hi
  simp only [divByZeroHandler,mem_append,mem_cons,not_mem_nil,or_false] at hi
  rcases hi with ((rfl | rfl | rfl) | call) | rfl | rfl
  · exact emitLoadImm_encodable _ _
  · exact emitLoadImm_encodable _ _
  · exact emitMov_encodable _ _
  · exact emitCall_encodable _ e call
  · exact emitLoadImm_encodable _ _
  · trivial

theorem handler_reaches (compiled : Compiled addr m.insts X.code location)
    (linked : Linked m addr X.library) (hb : Beside saved s x) :
    ∃ x', X.Reaches (location .divByZero) x (location .exit) x' ∧
      Ended saved (-1) s.memory s.world x' := by
  obtain ⟨x',hd,he⟩ := handler_follow linked hb
  obtain ⟨⟨rest,hh⟩,-⟩ := compiled.handler_placed
  refine ⟨x',follow_reaches compiled.small ?_ hh (divByZeroHandler_encodable addr) hd,he⟩
  intro tgt eq
  cases eq
  exact compiled.exit_placed.2

def restore : List Emission :=
  [emitAluImm32 true 0x81#8 0#4 rsp (BitVec.ofNat 32 stackSize),
    emitPop r15,emitPop r14,emitPop r13,emitPop rbx,emitPop rbp]

theorem epilogue_eq : epilogue = restore ++ [.instr .ret] := rfl

theorem restore_encodable : ∀ e ∈ restore, e.Encodable :=
  forall_mem_cons.mpr ⟨(by decide : (0x81#8,0#4) ∈ imm32Digits),by
    simp [emitPop_encodable]⟩

theorem pops_follow {val : Word} {memory : Memory} {world : ω} (rs : List Reg) (ha : rax ∉ rs)
    (eq : saved.length = rs.length) (he : Ended saved val memory world x) :
    ∃ x', follow X x (rs.map emitPop) = some (x',none) ∧ Ended [] val memory world x' := by
  induction rs generalizing saved x with
  | nil =>
    obtain rfl := length_eq_zero_iff.mp eq
    exact ⟨x,rfl,he⟩
  | cons r rs ih =>
    simp only [mem_cons,not_or] at ha
    obtain ⟨fst,rest,rfl⟩ := exists_cons_of_length_eq_add_one eq
    have ptr : rax ≠ rsp := by decide
    rw [map_cons,follow_pop_cons he.frame]
    refine ih ha.2 (by simpa using eq) ⟨?_,he.memory,he.world,rfl⟩
    simp [X86.State.set,ha.1,ptr,he.value]

theorem restore_follow {val : Word} {memory : Memory} {world : ω}
    (he : Ended saved val memory world x) (five : saved.length = 5) :
    ∃ x', follow X x restore = some (x',none) ∧ Ended [] val memory world x' := by
  have ptr : rax ≠ rsp := by decide
  have split : restore = emitAluImm32 true 0x81#8 0#4 rsp (BitVec.ofNat 32 stackSize) ::
      [r15,r14,r13,rbx,rbp].map emitPop := rfl
  rw [split,emitAluImm32,follow_instr rfl]
  refine pops_follow _ (by decide) five ⟨?_,he.memory,he.world,he.frame⟩
  simp [X86.State.set,ptr,he.value]

theorem exit_returns (compiled : Compiled addr m.insts X.code location) {val : Word} {memory : Memory}
    {world : ω} (he : Ended saved val memory world x) (five : saved.length = 5) :
    ∃ turns x', X.run turns (location .exit) x = .returned x' ∧ x'.reg rax = val ∧
      x'.memory = memory ∧ x'.world = world := by
  obtain ⟨x',hd,he⟩ := @restore_follow ω X saved x val memory world he five
  obtain ⟨⟨rest,hh⟩,-⟩ := compiled.exit_placed
  rw [epilogue_eq,assemble_append,append_assoc] at hh
  obtain ⟨turns,hr⟩ : X.Reaches (location .exit) x (location .exit + sizes restore) x' :=
    @follow_reaches ω X location x x' _ _ _ none compiled.small nofun hh restore_encodable hd
  have ret : X.code.drop (location .exit + sizes restore) = Instr.ret.encode ++ rest := by
    rw [← drop_drop,hh,← @assemble_length location restore (location .exit),drop_left]
    rfl
  have last : X.run 1 (location .exit + sizes restore) x' = .returned x' := by
    rw [X86.Machine.run,step_at (show Instr.ret.Encodable from trivial) ret]
    simp [X86.Machine.exec,Instr.effect,X86.Machine.flow,he.frame]
  refine ⟨turns+1,x',?_,he.value,he.memory,he.world⟩
  exact (run_add hr 1).trans last

/-- The code is called, with the arguments of `ubpf_jit_fn`. The registers it saves lie above its
stack. -/
structure Entered (block : Block) (memory : Memory) (world : ω) (x : X86.State ω) : Prop where
  mem : x.reg rdi = block.mem
  memLen : x.reg rsi = block.memLen
  stack : x.reg rsp = block.stack + BitVec.ofNat 64 stackSize + 5 * 8
  memory : x.memory = memory
  world : x.world = world
  frame : x.frame = []

theorem prologue_encodable : ∀ e ∈ prologue, e.Encodable := by
  intro e hi
  simp only [prologue,mem_append,mem_ite_nil_right,mem_cons,not_mem_nil,or_false] at hi
  rcases hi with ((rfl | rfl | rfl | rfl | rfl) | ⟨-,rfl⟩) | rfl | rfl
  · exact emitPush_encodable _
  · exact emitPush_encodable _
  · exact emitPush_encodable _
  · exact emitPush_encodable _
  · exact emitPush_encodable _
  · exact emitMov_encodable _ _
  · exact emitMov_encodable _ _
  · exact (by decide : (0x81#8,5#4) ∈ imm32Digits)

theorem prologue_follow {memory : Memory} {world : ω} (he : Entered m.block memory world x)
    (garbage : BitVec 4 → Word) : ∃ x' saved, follow X x prologue = some (x',none) ∧
      saved.length = 5 ∧ Agrees freshStart saved (start m garbage memory world) x' := by
  have code : follow X x prologue = some ({(((((((x.push rbp).push rbx).push r13).push r14).push r15).set
      rbp (x.reg rsp - 8 - 8 - 8 - 8 - 8)).set rsp
        (x.reg rsp - 8 - 8 - 8 - 8 - 8 - BitVec.ofNat 64 stackSize)) with flags := none},none) := by
    rfl
  have bottom : x.reg rsp - 8 - 8 - 8 - 8 - 8 = m.block.stack + BitVec.ofNat 64 stackSize := by
    rw [he.stack]
    generalize m.block.stack + BitVec.ofNat 64 stackSize = top
    bv_omega
  have regs : mapRegister 1 = rdi ∧ mapRegister 10 = rbp := by decide
  refine ⟨_,[x.reg r15,x.reg r14,x.reg r13,x.reg rbx,x.reg rbp],code,rfl,?_,he.memory,he.world,?_⟩
  · intro r le hi
    simp only [freshStart,decide_eq_true_eq] at hi
    rcases hi with rfl | rfl
    · rw [regs.1]
      exact he.mem
    rw [regs.2]
    exact bottom
  · simp only [X86.State.push,X86.State.set,he.frame]
    rfl

/-- What `exec_loaded_code` returns, with the memory and the rest as the run leaves them. -/
def execLoadedCode (m : Ebpf.Machine ω) (turns : Nat) (s : Ebpf.State ω) : Option (Word × Memory × ω) :=
  match ubpfExec m turns s with
  | .returned value s => some (value,s.memory,s.world)
  | .reported _ s => some (-1,s.memory,s.world)
  | _ => none

/-- What `compile_and_exec_jit` returns. A failed assertion ends the process. -/
def compileAndExecJit (addr : Addresses) (vm : Vm) (library : Word → Option (X86.Function ω))
    (clobber : X86.State ω → Reg → Word) (turns : Nat) (x : X86.State ω) :
    Option (Word × Memory × ω) :=
  match ubpfCompile addr vm with
  | .error .assertion => none
  | .error _ => some (1,x.memory,x.world)
  | .ok code =>
    match X86.Machine.run ⟨code,library,clobber⟩ turns 0 x with
    | .returned x => some (x.reg rax,x.memory,x.world)
    | _ => none

section

variable (accepted : m.Accepted) (compiled : Compiled addr m.insts X.code location)
  (linked : Linked m addr X.library) (at_ : Executable m s inst op)
  (agrees : Agrees fresh saved s x) (suited : Suited m fresh s inst op)

include accepted compiled linked at_ agrees suited

theorem turn_reaches {s' : Ebpf.State ω} (next : step m s = .running s')
    {inst' : Inst} {op' : Op} (at_' : Executable m s' inst' op') :
    ∃ x', X.Reaches (location (.pc s.pc.toNat)) x (location (.pc s'.pc.toNat)) x' ∧
      Agrees (freshAfter fresh inst op) saved s' x' := by
  have hs := step_simulated accepted linked at_ agrees suited
  rw [next] at hs
  obtain ⟨x',goal,hd,ha',hg⟩ := hs
  obtain ⟨⟨⟨rest,hh⟩,-⟩,hb⟩ := compiled.instruction at_.starts at_.fetched at_.known
  obtain ⟨⟨-,hn⟩,-⟩ := compiled.instruction at_'.starts at_'.fetched at_'.known
  have he := translateInst_encodable addr m.insts s.pc.toNat inst op
  refine ⟨x',?_,ha'⟩
  rcases hg with ⟨rfl,pc⟩ | rfl
  · have hsm := accepted.checked.1
    have hi := (List.getElem?_eq_some_iff.mp at_'.fetched).1
    have le := width_le at_ (at_.checked accepted)
    have eq : s'.pc.toNat = s.pc.toNat+op.width := by
      simp only [maxInsts] at hsm
      rw [pc,BitVec.toNat_add,BitVec.toNat_ofNat]
      omega
    rw [if_pos (eq ▸ hi),← eq] at hb
    rw [← hb]
    exact @follow_reaches ω X location x x' _ _ _ none compiled.small (by simp) hh he hd
  · refine follow_reaches compiled.small ?_ hh he hd
    intro tgt hr
    cases hr
    exact hn

theorem last_reaches {val : Word} {s' : Ebpf.State ω}
    (last : step m s = .returned val s' ∨ val = -1 ∧ step m s = .reported .division s') :
    ∃ x', X.Reaches (location (.pc s.pc.toNat)) x (location .exit) x' ∧
      Ended saved val s'.memory s'.world x' := by
  have hs := step_simulated accepted linked at_ agrees suited
  obtain ⟨⟨⟨rest,hh⟩,-⟩,hbe⟩ := compiled.instruction at_.starts at_.fetched at_.known
  have he := translateInst_encodable addr m.insts s.pc.toNat inst op
  rcases last with hre | ⟨rfl,reports⟩
  · rw [hre] at hs
    obtain ⟨x',goal,hd,hg,val,hb⟩ := hs
    refine ⟨x',?_,val,hb.memory,hb.world,hb.frame⟩
    rcases hg with rfl | ⟨rfl,ends⟩
    · refine follow_reaches compiled.small ?_ hh he hd
      intro tgt hr
      cases hr
      exact compiled.exit_placed.2
    have hw : 1 ≤ op.width := width_decode at_.known ▸ width_pos inst
    rw [if_neg (by omega)] at hbe
    rw [← hbe]
    exact @follow_reaches ω X location x x' _ _ _ none compiled.small (by simp) hh he hd
  · rw [reports] at hs
    obtain ⟨x₁,hd,hb⟩ := hs
    obtain ⟨x',handled,hen⟩ := handler_reaches compiled linked hb
    refine ⟨x',X86.Machine.Reaches.trans ?_ handled,hen⟩
    refine follow_reaches compiled.small ?_ hh he hd
    intro tgt hr
    cases hr
    exact compiled.handler_placed.2

end

theorem running_executable (accepted : m.Accepted) (at_ : Executable m s inst op) {s' : Ebpf.State ω}
    (next : step m s = .running s') (hw : s'.pc.toNat < m.insts.length) :
    ∃ inst' op', Executable m s' inst' op' := by
  have turn := step_turn accepted at_
  rw [next] at turn
  cases turn with
  | onwards _ _ _ _ pc =>
    have le := width_le at_ (at_.checked accepted)
    refine (sound_running_iff accepted at_ le pc).mpr ?_
    intro last
    have hsm := accepted.checked.1
    simp only [maxInsts] at hsm
    rw [pc,BitVec.toNat_add,BitVec.toNat_ofNat] at hw
    omega
  | departs _ _ _ _ jump pc =>
    obtain ⟨hs,-⟩ := jump_target accepted jump
    exact accepted.executable (pc ▸ hs) hw

/-- By induction on the turns, from any state in which the two agree. -/
theorem run_reaches (accepted : m.Accepted) (compiled : Compiled addr m.insts X.code location)
    (linked : Linked m addr X.library) {turns : Nat} {val : Word} {memory : Memory} {world : ω}
    (at_ : Executable m s inst op) (agrees : Agrees fresh saved s x) (suited : SuitedRun m turns fresh s)
    (hr : execLoadedCode m turns s = some (val,memory,world))
    (hi : ∀ s', ubpfExec m turns s ≠ .reported .memory s') :
    ∃ x', X.Reaches (location (.pc s.pc.toNat)) x (location .exit) x' ∧
      Ended saved val memory world x' := by
  induction turns generalizing fresh s x inst op with
  | zero => simp [execLoadedCode,ubpfExec] at hr
  | succ turns ih =>
    obtain ⟨hh,hl⟩ := suited inst op at_.fetched at_.known
    cases next : step m s with
    | running s' =>
      simp only [execLoadedCode,ubpfExec,next] at hr hi
      -- Behind the end of the program the interpreter would not have returned.
      have hw : s'.pc.toNat < m.insts.length := by
        by_contra outside
        have none := getElem?_eq_none (Nat.not_lt.mp outside)
        cases turns with
        | zero => simp [ubpfExec] at hr
        | succ turns => simp [ubpfExec,step,none] at hr
      obtain ⟨inst',op',at_'⟩ := running_executable accepted at_ next hw
      obtain ⟨x₁,hre,ha'⟩ := turn_reaches accepted compiled linked at_ agrees hh next at_'
      obtain ⟨x',hm,he⟩ := ih at_' ha' (hl s' next) hr hi
      exact ⟨x',hre.trans hm,he⟩
    | returned val' s' =>
      simp only [execLoadedCode,ubpfExec,next,Option.some.injEq,Prod.mk.injEq] at hr
      obtain ⟨rfl,rfl,rfl⟩ := hr
      exact last_reaches accepted compiled linked at_ agrees hh (.inl next)
    | reported report s' =>
      simp only [execLoadedCode,ubpfExec,next,Option.some.injEq,Prod.mk.injEq] at hr hi
      obtain ⟨rfl,rfl,rfl⟩ := hr
      cases report with
      | memory => exact absurd rfl (hi s')
      | division => exact last_reaches accepted compiled linked at_ agrees hh (.inr ⟨rfl,next⟩)
    | crashed crash => simp [execLoadedCode,ubpfExec,next] at hr

/-- For every program whose code fits into the buffer and every run that returns without a memory
error: if each instruction it executes is one whose code agrees, the compiled code returns the same
value and leaves the same memory. -/
theorem compiled_run_returns {vm loaded : Vm} {code : List Byte}
    (load : ubpfLoad vm code = .ok loaded) {insts : List Inst}
    (program : loaded.insts = some insts) (helpers : Helpers ω) (block : Block) {addr : Addresses}
    {library : Word → Option (X86.Function ω)}
    (linked : Linked ⟨insts,loaded.extFuncs,helpers,block⟩ addr library)
    (clobber : X86.State ω → Reg → Word) (fits : codeSize addr insts ≤ bufferSize)
    (garbage : BitVec 4 → Word) {memory memory' : Memory} {world world' : ω} {turns : Nat} {value : Word}
    (suited : SuitedRun ⟨insts,loaded.extFuncs,helpers,block⟩ turns freshStart
      (start ⟨insts,loaded.extFuncs,helpers,block⟩ garbage memory world))
    (returns : execLoadedCode ⟨insts,loaded.extFuncs,helpers,block⟩ turns
      (start ⟨insts,loaded.extFuncs,helpers,block⟩ garbage memory world) = some (value,memory',world'))
    (inside : ∀ s, ubpfExec ⟨insts,loaded.extFuncs,helpers,block⟩ turns
      (start ⟨insts,loaded.extFuncs,helpers,block⟩ garbage memory world) ≠ .reported .memory s)
    {x : X86.State ω} (entered : Entered block memory world x) :
    ∃ turns', compileAndExecJit addr loaded library clobber turns' x = some (value,memory',world') := by
  have hv := ubpfLoad_accepted load program
  have accepted : Ebpf.Machine.Accepted (⟨insts,loaded.extFuncs,helpers,block⟩ : Ebpf.Machine ω) := hv
  obtain ⟨native,location,hd,compiled⟩ := ubpfCompile_compiled program hv fits
  let X : X86.Machine ω := ⟨native,library,clobber⟩
  obtain ⟨x₁,saved,ent,five,agrees⟩ := @prologue_follow ω ⟨insts,loaded.extFuncs,helpers,block⟩ X x memory
    world entered garbage
  obtain ⟨rest,hh⟩ := compiled.start_placed
  have begins : X.Reaches 0 x (0 + sizes prologue) x₁ :=
    @follow_reaches ω X location x x₁ _ _ _ none compiled.small nofun hh prologue_encodable ent
  rw [zero_add,← compiled.first accepted.nonempty] at begins
  obtain ⟨inst,op,at_⟩ := start_executable accepted garbage memory world
  obtain ⟨x₂,hr,he⟩ :=
    @run_reaches ω ⟨insts,loaded.extFuncs,helpers,block⟩ X addr location freshStart saved _ x₁ inst op
      accepted compiled linked turns value memory' world' at_ agrees suited returns inside
  obtain ⟨turns₁,fst⟩ := begins.trans hr
  obtain ⟨turns₂,x₃,last,res,mem,rest⟩ :=
    @exit_returns ω ⟨insts,loaded.extFuncs,helpers,block⟩ X addr location saved x₂ compiled value memory'
      world' he five
  refine ⟨turns₁+turns₂,?_⟩
  rw [compileAndExecJit,hd]
  simp [(run_add fst turns₂).trans last,X,res,mem,rest]

end

section

def someAddresses : Addresses := ⟨fun _ => 0,1,2,3⟩

/-- A library with nothing but `fprintf`. -/
def bareLibrary : Word → Option (X86.Function Unit) := fun target =>
  if target = 1 then some fun _ memory world => (0,memory,world) else none

theorem bareLibrary_linked (insts : List Inst) (block : Block) :
    Linked ⟨insts,fun _ => false,bareHelpers,block⟩ someAddresses bareLibrary :=
  ⟨nofun,_,rfl,fun _ _ _ => rfl⟩

def entry (block : Block) : X86.State Unit where
  reg r := if r = rdi then block.mem else if r = rsi then block.memLen
    else if r = rsp then block.stack + BitVec.ofNat 64 stackSize + 5 * 8 else 0
  flags := none
  memory := fun _ => 0
  frame := []
  world := ()

theorem entry_entered (block : Block) : Entered block (fun _ => 0) () (entry block) :=
  ⟨rfl,rfl,rfl,rfl,rfl,rfl⟩

/-- `mov64 r0, r1; exit` returns its argument, compiled or not. -/
theorem move_returns : ∃ turns, compileAndExecJit someAddresses
      ⟨some [⟨0xbf,0,1,0,0⟩,⟨0x95,0,0,0,0⟩],fun _ => false⟩ bareLibrary (fun _ _ => 0) turns
        (entry someBlock) = some (0x10000,fun _ => 0,()) := by
  let m := bareMachine [⟨0xbf,0,1,0,0⟩,⟨0x95,0,0,0,0⟩]
  have suited : SuitedRun m 2 freshStart (start m (fun _ => 0) (fun _ => 0) ()) := by
    intro inst op hf hk
    obtain rfl := Option.some.inj hf
    obtain rfl : Op.alu true .mov .reg = op := Option.some.inj hk
    refine ⟨⟨by decide,.inl rfl⟩,?_⟩
    intro s' next inst op hf hk
    obtain rfl := Outcome.running.inj next
    obtain rfl := Option.some.inj hf
    obtain rfl : Op.exit = op := Option.some.inj hk
    exact ⟨⟨by decide,trivial⟩,fun _ _ => trivial⟩
  exact @compiled_run_returns Unit bareVm _ ([0xbf,0x10,0,0,0,0,0,0] ++ [0x95,0,0,0,0,0,0,0]) rfl _ rfl
    bareHelpers someBlock someAddresses bareLibrary (bareLibrary_linked _ _) (fun _ _ => 0) (by decide)
    (fun _ => 0) (fun _ => 0) (fun _ => 0) () () 2 0x10000 suited rfl nofun (entry someBlock)
    (entry_entered _)

def highBlock : Block := {someBlock with mem := 0x100000000, memFits := by decide}

/-- The code of `mov32 r0, r1; exit` returns the whole address, the interpreter its low half. -/
theorem move32_differs :
    ubpfLoad bareVm ([0xbc,0x10,0,0,0,0,0,0] ++ [0x95,0,0,0,0,0,0,0]) =
      .ok ⟨some [⟨0xbc,0,1,0,0⟩,⟨0x95,0,0,0,0⟩],fun _ => false⟩ ∧
    (execLoadedCode ⟨[⟨0xbc,0,1,0,0⟩,⟨0x95,0,0,0,0⟩],fun _ => false,bareHelpers,highBlock⟩ 2
      (start ⟨[⟨0xbc,0,1,0,0⟩,⟨0x95,0,0,0,0⟩],fun _ => false,bareHelpers,highBlock⟩ (fun _ => 0)
        (fun _ => 0) ())).map (fun result => result.1) = some 0 ∧
    (compileAndExecJit someAddresses ⟨some [⟨0xbc,0,1,0,0⟩,⟨0x95,0,0,0,0⟩],fun _ => false⟩ bareLibrary
      (fun _ _ => 0) 15 (entry highBlock)).map (fun result => result.1) = some 0x100000000 := by
  refine ⟨rfl,rfl,?_⟩
  decide +kernel

end

end Frr.Jit
