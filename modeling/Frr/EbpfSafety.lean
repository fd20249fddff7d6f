import Frr.Ebpf

/-! What the checks of `validate` are worth at run time. They relate jumps to the layout of the
program, but not its last instruction to its end; the tests of the interpreter compare sums that may
wrap, and a divisor in the wrong width. -/
namespace Frr.Ebpf

open WordMemory Option

section

variable {extFuncs : ExtFuncs} {insts : List Inst} {turns i j : Nat} {inst : Inst} {op : Op}

def width (inst : Inst) : Nat := if inst.opcode = Op.lddw.code then 2 else 1

theorem width_pos (inst : Inst) : 1 ≤ width inst := by
  unfold width
  split <;> decide

inductive Starts (insts : List Inst) : Nat → Nat → Prop
  | here (i : Nat) : Starts insts i i
  | skip {i j : Nat} {inst : Inst} : insts[i]? = some inst → Starts insts (i + width inst) j →
      Starts insts i j

theorem Starts.next (hs : Starts insts i j) (ht : insts[j]? = some inst) :
    Starts insts i (j + width inst) := by
  induction hs with
  | here => exact .skip ht (.here _)
  | skip fst _ ih => exact .skip fst (ih ht)

theorem Starts.le (hs : Starts insts i j) : i ≤ j := by
  induction hs with
  | here => exact le_rfl
  | skip _ _ ih => omega

theorem width_decode (hk : decode inst.opcode = some op) : width inst = op.width := by
  have code := code_decode hk
  by_cases two : op = .lddw
  · subst two
    simp [width,← code,Op.width]
  have ho : inst.opcode ≠ Op.lddw.code := by
    intro eq
    rw [eq] at hk
    exact two (some.inj (hk.symm.trans (by decide)))
  cases op <;> simp_all [width,Op.width]

/-- The registers are registers of the machine, and the last one is not written. -/
def RegistersOk (inst : Inst) (op : Op) : Prop :=
  inst.src ≤ 10 ∧ inst.dst ≤ 10 ∧ (op.stores = false → inst.dst ≠ 10)

theorem checkRegisters_ok {pc : Nat} (hpa : checkRegisters pc inst op = .ok ()) :
    RegistersOk inst op := by
  unfold checkRegisters at hpa
  split at hpa
  · contradiction
  next src =>
  split at hpa
  · contradiction
  next dst =>
  have ten : (10 : BitVec 4).toNat = 10 := rfl
  have nine : (9 : BitVec 4).toNat = 9 := rfl
  simp only [BitVec.lt_def,ten,nine] at src dst
  have hs : 9 < inst.dst.toNat → op.stores ∧ inst.dst = 10 :=
    fun high => by_contra fun ho => dst ⟨high,ho⟩
  simp only [RegistersOk,BitVec.le_def,ten,← BitVec.toNat_inj,ne_eq]
  refine ⟨by omega,?_,?_⟩
  · by_cases high : 9 < inst.dst.toNat
    · exact (congrArg BitVec.toNat (hs high).2).le
    · omega
  intro hp eq
  have hst := (hs (by omega)).1
  simp [hp] at hst

theorem checkInst_ok (hpa : ∃ n, checkInst extFuncs insts i inst = .ok n) :
    ∃ op, decode inst.opcode = some op ∧ checkOp extFuncs insts i inst op = .ok () ∧
      RegistersOk inst op ∧ checkInst extFuncs insts i inst = .ok op.width := by
  obtain ⟨n,hpa⟩ := hpa
  unfold checkInst at hpa ⊢
  cases hk : decode inst.opcode with
  | none => simp [hk] at hpa
  | some op =>
    simp only [hk] at hpa ⊢
    cases hc : checkOp extFuncs insts i inst op with
    | error e => simp [hc,bind,Except.bind] at hpa
    | ok =>
      cases regs : checkRegisters (i+op.width-1) inst op with
      | error e => simp [hc,regs,bind,Except.bind] at hpa
      | ok => exact ⟨op,rfl,hc,checkRegisters_ok regs,by simp [bind,Except.bind]⟩

theorem checkInsts_succ (hpa : checkInsts extFuncs insts (turns+1) i = .ok ())
    (ht : insts[i]? = some inst) :
    ∃ op, decode inst.opcode = some op ∧
      (checkOp extFuncs insts i inst op = .ok () ∧ RegistersOk inst op) ∧
      checkInsts extFuncs insts turns (i + width inst) = .ok () := by
  simp only [checkInsts,ht] at hpa
  cases fst : checkInst extFuncs insts i inst with
  | error e => simp [fst,bind,Except.bind] at hpa
  | ok n =>
    obtain ⟨op,hk,hc,regs,eq⟩ := checkInst_ok ⟨n,fst⟩
    rw [eq] at hpa
    rw [width_decode hk]
    exact ⟨op,hk,⟨hc,regs⟩,hpa⟩

section

variable (hpa : checkInsts extFuncs insts turns i = .ok ()) (he : insts.length ≤ i+turns)

include hpa he

theorem checkInsts_starts (hst : Starts insts i j) (ht : insts[j]? = some inst) :
    ∃ op, decode inst.opcode = some op ∧ checkOp extFuncs insts j inst op = .ok () ∧
      RegistersOk inst op := by
  induction hst generalizing turns with
  | here =>
    cases turns with
    | zero =>
      have hi := (List.getElem?_eq_some_iff.mp ht).1
      omega
    | succ turns =>
      obtain ⟨op,hk,hc,-⟩ := checkInsts_succ hpa ht
      exact ⟨op,hk,hc⟩
  | @skip _ _ hs fst rest ih =>
    cases turns with
    | zero =>
      have hi := (List.getElem?_eq_some_iff.mp fst).1
      omega
    | succ turns =>
      obtain ⟨op,-,-,ho⟩ := checkInsts_succ hpa fst
      have hw := width_pos hs
      exact ih ho (by omega) ht

theorem checkInsts_covers (le : i ≤ j) (there : insts[j]? = some inst)
    (whole : inst.opcode ≠ 0) : Starts insts i j := by
  induction turns generalizing i with
  | zero =>
    have inside := (List.getElem?_eq_some_iff.mp there).1
    omega
  | succ turns ih =>
    by_cases same : i = j
    · subst same
      exact .here _
    have inside := (List.getElem?_eq_some_iff.mp there).1
    obtain ⟨first,found⟩ : ∃ first, insts[i]? = some first :=
      ⟨_,List.getElem?_eq_getElem (by omega : i < insts.length)⟩
    obtain ⟨op,known,⟨checked,-⟩,onwards⟩ := checkInsts_succ hpa found
    have wide := width_pos first
    refine .skip found (ih onwards (by omega) ?_)
    -- Only a `lddw` could step over the slot, and then the slot has opcode zero.
    by_contra beyond
    have two : op = .lddw := by
      rw [width_decode known] at beyond wide
      cases op <;> simp only [Op.width] at beyond <;> first | rfl | omega
    have second : j = i+1 := by
      rw [width_decode known,two,Op.width] at beyond
      omega
    subst two second
    simp only [checkOp,there] at checked
    split at checked
    · contradiction
    · next zero => exact whole (not_not.mp zero)

end

theorem validate_checked (ha : validate extFuncs insts = .ok ()) :
    insts.length < maxInsts ∧ checkInsts extFuncs insts insts.length 0 = .ok () := by
  unfold validate at ha
  split at ha
  · contradiction
  next small =>
  split at ha
  · contradiction
  · exact ⟨by omega,ha⟩

end

section

variable {ω : Type} (m : Machine ω) (s : State ω)

def accessOf (inst : Inst) : Op → Option (Word × Nat)
  | .ldx size => some (loadAddress s inst,size.bytes)
  | .st size => some (storeAddress s inst,size.bytes)
  | .stx size => some (storeAddress s inst,size.bytes)
  | _ => none

def divisorOf (inst : Inst) : Op → Option Word
  | .alu wide op source =>
    if op.divides then some (if wide then operand s inst source else u32 (operand s inst source))
    else none
  | _ => none

def Reports (inst : Inst) : Op → Prop
  | .alu _ op source => op.divides ∧ source = .reg ∧ operand s inst source = 0
  | .ldx size => ¬ m.block.boundsCheck (loadAddress s inst) size.bytes
  | .st size => ¬ m.block.boundsCheck (storeAddress s inst) size.bytes
  | .stx size => ¬ m.block.boundsCheck (storeAddress s inst) size.bytes
  | _ => False

def Departs (inst : Inst) : Op → Prop
  | .exit => True
  | .ja => True
  | .jump cond source => cond.holds (s.reg inst.dst) (compared s inst cond source)
  | _ => False

/-- What the checks leave to the program: not to run through the last instruction, not to divide by
a register with only a high half, not to access around the end of the address space. -/
structure Careful (inst : Inst) (op : Op) : Prop where
  last : s.pc.toNat + op.width = m.insts.length → Departs s inst op ∨ Reports m s inst op
  divisor : ∀ operation, op = .alu false operation .reg → operation.divides →
    u32 (s.reg inst.src) = 0 → s.reg inst.src = 0
  access : ∀ addr size, accessOf s inst op = some (addr,size) →
    m.block.boundsCheck addr size → addr.toNat+size < 2 ^ 64

/-- The next turn finds an instruction of the program with a known opcode, and not the call of an
unregistered function. -/
structure Executable (inst : Inst) (op : Op) : Prop where
  fetched : m.insts[s.pc.toNat]? = some inst
  starts : Starts m.insts 0 s.pc.toNat
  known : decode inst.opcode = some op
  registered : op = .call → m.extFuncs.has inst.imm

/-- What `ubpf_load` accepted. -/
def Machine.Accepted : Prop := validate m.extFuncs m.insts = .ok ()

def CarefulAt : Prop :=
  ∀ inst op, m.insts[s.pc.toNat]? = some inst → decode inst.opcode = some op → Careful m s inst op

end

section

variable {ω : Type} {m : Machine ω} {s s' : State ω} {inst : Inst} {op : Op}

section

variable (ha : m.Accepted)

include ha

theorem Machine.Accepted.checked :
    m.insts.length < maxInsts ∧ checkInsts m.extFuncs m.insts m.insts.length 0 = .ok () :=
  validate_checked ha

theorem Machine.Accepted.executable
    (hs : Starts m.insts 0 s.pc.toNat) (hi : s.pc.toNat < m.insts.length) :
    ∃ inst op, Executable m s inst op := by
  have hf := List.getElem?_eq_getElem hi
  obtain ⟨op,hk,hc,-⟩ := checkInsts_starts ha.checked.2 (by omega) hs hf
  refine ⟨_,op,⟨hf,hs,hk,?_⟩⟩
  rintro rfl
  simp only [checkOp] at hc
  split at hc
  · contradiction
  next range =>
  split at hc
  · contradiction
  next there =>
  simp only [not_or,not_lt,not_le] at range
  simpa [ExtFuncs.has,range] using there

theorem Executable.checked (at_ : Executable m s inst op) :
    checkOp m.extFuncs m.insts s.pc.toNat inst op = .ok () := by
  obtain ⟨op',hk,hc,-⟩ := checkInsts_starts ha.checked.2 (by omega) at_.starts at_.fetched
  obtain rfl := some.inj (hk.symm.trans at_.known)
  exact hc

theorem Executable.registers (at_ : Executable m s inst op) : RegistersOk inst op := by
  obtain ⟨op',hk,-,regs⟩ := checkInsts_starts ha.checked.2 (by omega) at_.starts at_.fetched
  obtain rfl := some.inj (hk.symm.trans at_.known)
  exact regs

theorem Machine.Accepted.nonempty : 0 < m.insts.length := by
  unfold Machine.Accepted validate at ha
  cases he : m.insts with
  | nil => simp [he,maxInsts] at ha
  | cons _ _ => simp

theorem jump_pc (hc : checkJump m.insts s.pc.toNat inst = .ok ()) :
    (s.pc+1+inst.offset).toNat = ((s.pc.toNat : Int) + 1 + inst.offset.toInt).toNat := by
  have hs := ha.checked.1
  unfold checkJump at hc
  split at hc
  · contradiction
  simp only at hc
  split at hc
  · contradiction
  next range =>
    have one : (1 : BitVec 16).toNat = 1 := rfl
    simp only [maxInsts] at hs
    simp only [BitVec.toInt_eq_toNat_cond,BitVec.toNat_add,one] at range ⊢
    split at range <;> split <;> omega

theorem jump_target (hc : checkJump m.insts s.pc.toNat inst = .ok ()) :
    Starts m.insts 0 (s.pc+1+inst.offset).toNat ∧ (s.pc+1+inst.offset).toNat < m.insts.length := by
  have eq := jump_pc ha hc
  unfold checkJump at hc
  split at hc
  · contradiction
  simp only at hc
  split at hc
  · contradiction
  next range =>
    rw [← eq] at hc
    split at hc
    · contradiction
    next target there =>
    split at hc
    · contradiction
    next whole =>
    exact ⟨checkInsts_covers ha.checked.2 (by omega) (Nat.zero_le _) there whole,
      (List.getElem?_eq_some_iff.mp there).1⟩

end

/-- What `bounds_check` lets pass without a wrapped sum lies in the argument or the stack. -/
theorem contains_iff {block : Block} {addr : Word} {sz : Nat}
    (hp : block.boundsCheck addr sz) :
    block.Contains addr sz ↔ addr.toNat+sz < 2 ^ 64 := by
  have mem := block.memFits
  have stack := block.stackFits
  simp only [Block.boundsCheck,Bool.decide_or,Bool.decide_and,Bool.or_eq_true,Bool.and_eq_true,
    decide_eq_true_eq,BitVec.le_def,BitVec.toNat_add,BitVec.toNat_ofNat] at hp
  constructor
  · rintro (⟨-,-,ends⟩ | ⟨-,ends⟩) <;> omega
  intro straight
  simp only [stackSize] at stack hp
  simp only [Block.Contains,stackSize]
  rcases hp with ⟨ht,low,high⟩ | ⟨low,high⟩
  · exact .inl ⟨ht,low,by omega⟩
  · exact .inr ⟨low,by omega⟩

inductive Turn (m : Machine ω) (s : State ω) (inst : Inst) (op : Op) : Outcome ω → Prop
  | onwards {next : State ω} : ¬ Departs s inst op → ¬ Reports m s inst op →
      divisorOf s inst op ≠ some 0 →
      (∀ addr size, accessOf s inst op = some (addr,size) → m.block.Contains addr size) →
      next.pc = s.pc + BitVec.ofNat 16 op.width → Turn m s inst op (.running next)
  | departs {next : State ω} : Departs s inst op → ¬ Reports m s inst op →
      divisorOf s inst op = none → accessOf s inst op = none →
      checkJump m.insts s.pc.toNat inst = .ok () →
      next.pc = s.pc+1+inst.offset → Turn m s inst op (.running next)
  | returns {value : Word} {last : State ω} : op = .exit → Turn m s inst op (.returned value last)
  | reports {report : Report} {last : State ω} : Reports m s inst op →
      Turn m s inst op (.reported report last)
  | divides : ¬ Reports m s inst op → divisorOf s inst op = some 0 → accessOf s inst op = none →
      ¬ Departs s inst op → Turn m s inst op (.crashed .divideByZero)
  | strays {addr : Word} {size : Nat} : accessOf s inst op = some (addr,size) →
      m.block.boundsCheck addr size → ¬ m.block.Contains addr size →
      divisorOf s inst op = none → ¬ Departs s inst op → Turn m s inst op (.crashed .wildAccess)

theorem access_turn {addr : Word} {sz : Size} {go : State ω}
    (access : accessOf s inst op = some (addr,sz.bytes)) (divisor : divisorOf s inst op = none)
    (hs : ¬ Departs s inst op)
    (reports : Reports m s inst op ↔ ¬ m.block.boundsCheck addr sz.bytes)
    (pc : go.pc = s.pc + BitVec.ofNat 16 op.width) :
    Turn m s inst op (withAccess m s' addr sz go) := by
  unfold withAccess
  by_cases hp : m.block.boundsCheck addr sz.bytes
  · rw [if_neg (not_not.mpr hp)]
    split
    · next inside =>
      refine .onwards hs (fun reported => reports.mp reported hp) (by simp [divisor]) ?_ pc
      intro addr' sz' eq
      obtain ⟨rfl,rfl⟩ := Prod.mk.inj (some.inj (access.symm.trans eq))
      exact inside
    · next outside => exact .strays access hp outside divisor hs
  · rw [if_pos hp]
    exact .reports (reports.mpr hp)

theorem alu_turn {wide : Bool} {operation : AluOp} {src : Source} :
    Turn m s inst (.alu wide operation src)
      (executeAlu {s with pc := s.pc + 1} inst wide operation src) := by
  have eq : operand {s with pc := s.pc + 1} inst src = operand s inst src := by
    cases src <;> rfl
  simp only [executeAlu,eq]
  by_cases hs : operation.divides ∧ src = .reg ∧ operand s inst src = 0
  · rw [if_pos hs]
    exact .reports hs
  rw [if_neg hs]
  by_cases zero : operation.divides ∧
      (if wide then operand s inst src else u32 (operand s inst src)) = 0
  · rw [if_pos zero]
    exact .divides hs (by simp [divisorOf,zero.1,↓reduceIte,zero.2]) rfl fun h => h
  rw [if_neg zero]
  refine .onwards (fun h => h) hs ?_ nofun rfl
  simp only [divisorOf]
  split
  · next divides => exact fun eq => zero ⟨divides,some.inj eq⟩
  · nofun

theorem execute_turn (at_ : Executable m s inst op)
    (hc : checkOp m.extFuncs m.insts s.pc.toNat inst op = .ok ())
    (hs : m.insts.length < maxInsts) :
    Turn m s inst op (execute m {s with pc := s.pc + 1} inst op) := by
  cases op with
  | alu hw operation src => exact alu_turn
  | neg hw => exact .onwards (fun h => h) (fun h => h) (by simp [divisorOf]) nofun rfl
  | le =>
    refine .onwards (fun h => h) (fun h => h) (by simp [divisorOf]) nofun ?_
    split <;> rfl
  | be =>
    refine .onwards (fun h => h) (fun h => h) (by simp [divisorOf]) nofun ?_
    split <;> rfl
  | ldx sz => exact access_turn rfl rfl (fun h => h) Iff.rfl rfl
  | st sz => exact access_turn rfl rfl (fun h => h) Iff.rfl rfl
  | stx sz => exact access_turn rfl rfl (fun h => h) Iff.rfl rfl
  | lddw =>
    simp only [checkOp] at hc
    have next : (s.pc+1).toNat = s.pc.toNat+1 := by
      have hi := (List.getElem?_eq_some_iff.mp at_.fetched).1
      have one : (1 : BitVec 16).toNat = 1 := rfl
      simp only [maxInsts] at hs
      rw [BitVec.toNat_add,one]
      omega
    simp only [execute,next]
    cases ht : m.insts[s.pc.toNat+1]? with
    | none => simp [ht] at hc
    | some snd =>
      refine .onwards (fun h => h) (fun h => h) (by simp [divisorOf]) nofun ?_
      show s.pc + 1 + 1 = s.pc+2
      rw [BitVec.add_assoc]
      rfl
  | ja => exact .departs trivial (fun h => h) rfl rfl hc rfl
  | jump cond src =>
    have eq : compared {s with pc := s.pc + 1} inst cond src = compared s inst cond src := by
      cases src <;> rfl
    simp only [execute,eq]
    split
    · next taken => exact .departs taken (fun h => h) rfl rfl hc rfl
    · next falls => exact .onwards falls (fun h => h) (by simp [divisorOf]) nofun rfl
  | call =>
    simp only [execute,at_.registered rfl,↓reduceIte]
    exact .onwards (fun h => h) (fun h => h) (by simp [divisorOf]) nofun rfl
  | exit => exact .returns rfl

theorem step_turn (ha : m.Accepted) (at_ : Executable m s inst op) :
    Turn m s inst op (step m s) := by
  simp only [step,at_.fetched,at_.known]
  exact execute_turn at_ (at_.checked ha) ha.checked.1

theorem width_le (at_ : Executable m s inst op)
    (hc : checkOp m.extFuncs m.insts s.pc.toNat inst op = .ok ()) :
    s.pc.toNat + op.width ≤ m.insts.length := by
  have hi := (List.getElem?_eq_some_iff.mp at_.fetched).1
  cases op with
  | lddw =>
    cases ht : m.insts[s.pc.toNat+1]? with
    | none => simp [checkOp,ht] at hc
    | some snd =>
      have hm := (List.getElem?_eq_some_iff.mp ht).1
      simp only [Op.width]
      omega
  | _ => exact hi

theorem divisor_zero (hc : checkOp m.extFuncs m.insts s.pc.toNat inst op = .ok ())
    (hg : ¬ Reports m s inst op) (zero : divisorOf s inst op = some 0) :
    ∃ operation, op = .alu false operation .reg ∧ operation.divides ∧
      u32 (s.reg inst.src) = 0 ∧ s.reg inst.src ≠ 0 := by
  cases op with
  | alu hw operation src =>
    simp only [divisorOf] at zero
    split at zero
    · next divides =>
      have zero := some.inj zero
      cases src with
      | imm =>
        have hn : inst.imm ≠ 0 := by
          intro none
          cases operation <;> simp_all [checkOp,AluOp.divides]
        have low := congrArg (BitVec.setWidth 32) zero
        cases hw <;> exact absurd (by simpa [operand] using low) hn
      | reg =>
        have hn : s.reg inst.src ≠ 0 := fun none => hg ⟨divides,rfl,none⟩
        cases hw with
        | false => exact ⟨operation,rfl,divides,zero,hn⟩
        | true => exact absurd zero hn
    · contradiction
  | _ => contradiction

/-- What a run may come to: an instruction of the program, its `EXIT`, or a reported error. -/
def Sound (m : Machine ω) : Outcome ω → Prop
  | .running s => ∃ inst op, Executable m s inst op
  | .returned _ _ => True
  | .reported _ _ => True
  | .crashed _ => False

theorem sound_running_iff (ha : m.Accepted) (at_ : Executable m s inst op)
    (le : s.pc.toNat + op.width ≤ m.insts.length) {next : State ω}
    (pc : next.pc = s.pc + BitVec.ofNat 16 op.width) :
    Sound m (.running next) ↔ s.pc.toNat+op.width ≠ m.insts.length := by
  have hs := ha.checked.1
  simp only [maxInsts] at hs
  have hh : next.pc.toNat = s.pc.toNat+op.width := by
    rw [pc,BitVec.toNat_add,BitVec.toNat_ofNat]
    omega
  constructor
  · rintro ⟨inst,op,ht⟩ last
    have hi := (List.getElem?_eq_some_iff.mp ht.fetched).1
    omega
  intro hm
  refine ha.executable ?_ (by omega)
  rw [hh,← width_decode at_.known]
  exact at_.starts.next at_.fetched

/-- One turn at an instruction of the program is sound exactly when the program is careful. -/
theorem step_sound_iff (ha : m.Accepted) (at_ : Executable m s inst op) :
    Sound m (step m s) ↔ Careful m s inst op := by
  have hch := at_.checked ha
  have turn := step_turn ha at_
  have le := width_le at_ hch
  cases out : step m s with
  | running next =>
    rw [out] at turn
    cases turn with
    | onwards stays hg divisor access pc =>
      rw [sound_running_iff ha at_ le pc]
      constructor
      · intro hm
        refine ⟨fun last => absurd last hm,?_,?_⟩
        · rintro operation rfl hd zero
          exact absurd (by simp [divisorOf,hd,operand,zero]) divisor
        · exact fun addr sz ht hp => (contains_iff hp).mp (access addr sz ht)
      · exact fun hc last => (hc.last last).elim stays hg
    | departs hl hg divisor access jump pc =>
      obtain ⟨hst,hi⟩ := jump_target ha jump
      rw [← pc] at hst hi
      refine iff_of_true (ha.executable hst hi) ⟨fun _ => .inl hl,?_,by simp [access]⟩
      rintro operation rfl hd
      exact hl.elim
  | returned val last =>
    rw [out] at turn
    cases turn with
    | returns exits =>
      subst exits
      exact iff_of_true trivial ⟨fun _ => .inl trivial,nofun,nofun⟩
  | reported report last =>
    rw [out] at turn
    cases turn with
    | reports hs =>
      refine iff_of_true trivial ⟨fun _ => .inr hs,?_,?_⟩
      · rintro operation rfl hd -
        exact hs.2.2
      intro addr sz ht hp
      cases op <;> simp only [accessOf,some.injEq,Prod.mk.injEq,reduceCtorEq] at ht <;>
        exact absurd (by rwa [ht.1,ht.2]) hs
  | crashed crash =>
    rw [out] at turn
    refine iff_of_false (fun h => h) fun hc => ?_
    cases turn with
    | divides hg zero =>
      obtain ⟨operation,eq,hd,low,hw⟩ := divisor_zero hch hg zero
      exact hw (hc.divisor operation eq hd low)
    | strays ht hp ho =>
      exact ho ((contains_iff hp).mpr (hc.access _ _ ht hp))

end

section

variable {ω : Type} {m : Machine ω}

theorem ubpfExec_succ (turns : Nat) (s : State ω) :
    ubpfExec m (turns+1) s =
      match ubpfExec m turns s with
      | .running s' => step m s'
      | outcome => outcome := by
  induction turns generalizing s with
  | zero =>
    simp only [ubpfExec]
    cases step m s <;> rfl
  | succ turns ih =>
    rw [ubpfExec]
    cases next : step m s with
    | running s' => simpa [ubpfExec,next] using ih s'
    | _ => simp [ubpfExec,next]

section

variable (ha : m.Accepted) (garbage : BitVec 4 → Word) (memory : Memory) (world : ω)

include ha

theorem start_executable : ∃ inst op, Executable m (start m garbage memory world) inst op :=
  ha.executable (.here 0) ha.nonempty

theorem run_sound_iff : (∀ turns, Sound m (ubpfExec m turns (start m garbage memory world))) ↔
      ∀ turns s, ubpfExec m turns (start m garbage memory world) = .running s → CarefulAt m s := by
  constructor
  · intro hs turns s hh inst op hf hk
    have now := hs turns
    have next := hs (turns+1)
    rw [ubpfExec_succ,hh] at next
    rw [hh] at now
    obtain ⟨inst',op',at_⟩ := now
    obtain rfl := some.inj (hf.symm.trans at_.fetched)
    obtain rfl := some.inj (hk.symm.trans at_.known)
    exact (step_sound_iff ha at_).mp next
  · intro hc turns
    induction turns with
    | zero => exact start_executable ha garbage memory world
    | succ turns ih =>
      rw [ubpfExec_succ]
      cases hh : ubpfExec m turns (start m garbage memory world) with
      | running s =>
        rw [hh] at ih
        obtain ⟨inst,op,at_⟩ := ih
        exact (step_sound_iff ha at_).mpr (hc turns s hh inst op at_.fetched at_.known)
      | returned val last => trivial
      | reported report last => trivial
      | crashed crash =>
        rw [hh] at ih
        exact ih

end

theorem ubpfLoad_accepted {vm loaded : Vm} {code : List Byte}
    (load : ubpfLoad vm code = .ok loaded) {insts : List Inst}
    (prog : loaded.insts = some insts) : validate loaded.extFuncs insts = .ok () := by
  unfold ubpfLoad at load
  split at load
  · contradiction
  split at load
  · contradiction
  cases hc : validate vm.extFuncs
      ((code.toChunks 8).map fun bytes => Inst.ofWord (wordOf bytes)) with
  | error e => simp [hc,bind,Except.bind] at load
  | ok =>
    simp only [hc,bind,Except.bind,Except.ok.injEq] at load
    subst load
    obtain rfl := some.inj prog
    exact hc

/-- The interpreter is at an instruction in every turn, and stops only at an `EXIT` or with a
reported error, exactly when the program does not run through its last instruction, divide 32-bit
values by a register that is zero in its low half only, or access memory around the end of the
address space. -/
theorem loaded_run_sound_iff {vm loaded : Vm} {code : List Byte}
    (load : ubpfLoad vm code = .ok loaded) {insts : List Inst}
    (program : loaded.insts = some insts) (helpers : Helpers ω) (block : Block)
    (garbage : BitVec 4 → Word) (memory : Memory) (world : ω) :
    (∀ turns, Sound ⟨insts,loaded.extFuncs,helpers,block⟩
      (ubpfExec ⟨insts,loaded.extFuncs,helpers,block⟩ turns
        (start ⟨insts,loaded.extFuncs,helpers,block⟩ garbage memory world))) ↔
    ∀ turns s, ubpfExec ⟨insts,loaded.extFuncs,helpers,block⟩ turns
        (start ⟨insts,loaded.extFuncs,helpers,block⟩ garbage memory world) = .running s →
      CarefulAt ⟨insts,loaded.extFuncs,helpers,block⟩ s :=
  run_sound_iff (m := ⟨insts,loaded.extFuncs,helpers,block⟩) (ubpfLoad_accepted load program) garbage
    memory world

def bareVm : Vm := ⟨none,fun _ => false⟩

def bareHelpers : Helpers Unit := fun _ _ memory world => (0,memory,world)

def someBlock : Block := ⟨0x10000,64,0x20000,by decide,by decide⟩

def bareMachine (insts : List Inst) : Machine Unit := ⟨insts,fun _ => false,bareHelpers,someBlock⟩

def bareStart (insts : List Inst) : State Unit :=
  start (bareMachine insts) (fun _ => 0) (fun _ => 0) ()

/-- `lddw r0, 1; exit`. -/
def constantCode : List Byte :=
  [0x18,0,0,0,1,0,0,0] ++ [0,0,0,0,0,0,0,0] ++ [0x95,0,0,0,0,0,0,0]

def constantProgram : List Inst := [⟨0x18,0,0,0,1⟩,⟨0,0,0,0,0⟩,⟨0x95,0,0,0,0⟩]

theorem constant_run_sound :
    ubpfLoad bareVm constantCode = .ok ⟨some constantProgram,fun _ => false⟩ ∧
    ∀ turns, Sound (bareMachine constantProgram)
      (ubpfExec (bareMachine constantProgram) turns (bareStart constantProgram)) := by
  refine ⟨rfl,(@loaded_run_sound_iff Unit bareVm ⟨some constantProgram,fun _ => false⟩ constantCode rfl
    constantProgram rfl bareHelpers someBlock _ _ ()).mpr ?_⟩
  intro turns s hh inst op hf hk
  match turns with
  | 0 =>
    obtain rfl := Outcome.running.inj hh
    obtain rfl := some.inj hf
    obtain rfl : Op.lddw = op := some.inj hk
    exact ⟨fun last => absurd last (by decide),nofun,nofun⟩
  | 1 =>
    obtain rfl := Outcome.running.inj hh
    obtain rfl := some.inj hf
    obtain rfl : Op.exit = op := some.inj hk
    exact ⟨fun _ => .inl trivial,nofun,nofun⟩
  | _ + 2 => contradiction

/-- `ja +1; exit; mov64 r0, 0` is accepted, and runs on behind its end. -/
theorem accepted_program_runs_off :
    ubpfLoad bareVm ([0x05,0,1,0,0,0,0,0] ++ [0x95,0,0,0,0,0,0,0] ++ [0xb7,0,0,0,0,0,0,0]) =
      .ok ⟨some [⟨0x05,0,0,1,0⟩,⟨0x95,0,0,0,0⟩,⟨0xb7,0,0,0,0⟩],fun _ => false⟩ ∧
    ubpfExec (bareMachine [⟨0x05,0,0,1,0⟩,⟨0x95,0,0,0,0⟩,⟨0xb7,0,0,0,0⟩]) 3
      (bareStart [⟨0x05,0,0,1,0⟩,⟨0x95,0,0,0,0⟩,⟨0xb7,0,0,0,0⟩]) = .crashed .fetchOutside :=
  ⟨rfl,rfl⟩

structure Guarded (m : Machine ω) (s : State ω) (inst : Inst) (op : Op) : Prop where
  access : ∀ addr size, accessOf s inst op = some (addr,size) →
    m.block.boundsCheck addr size → m.block.Contains addr size
  divisor : ∀ divisor, divisorOf s inst op = some divisor → ¬ Reports m s inst op → divisor ≠ 0

def Safe (m : Machine ω) : Outcome ω → Prop
  | .running s => ∃ inst op, m.insts[s.pc.toNat]? = some inst ∧ decode inst.opcode = some op ∧
      Guarded m s inst op
  | .returned _ _ => True
  | .reported _ _ => True
  | .crashed _ => False

section

variable (ha : m.Accepted) {s : State ω} {inst : Inst} {op : Op}
  (at_ : Executable m s inst op)

include ha at_

theorem Careful.guarded (hc : Careful m s inst op) : Guarded m s inst op := by
  refine ⟨fun addr sz ht hp => ?_,?_⟩
  · exact (contains_iff hp).mpr (hc.access addr sz ht hp)
  rintro divisor ht hg rfl
  obtain ⟨operation,eq,hd,low,hw⟩ := divisor_zero (at_.checked ha) hg ht
  exact hw (hc.divisor operation eq hd low)

theorem sound_of_safe (safe : Safe m (step m s)) : Sound m (step m s) := by
  have turn := step_turn ha at_
  cases out : step m s with
  | running next =>
    rw [out] at turn safe
    cases turn with
    | onwards _ _ _ _ pc =>
      have le := width_le at_ (at_.checked ha)
      refine (sound_running_iff ha at_ le pc).mpr fun last => ?_
      obtain ⟨_,_,hf,-⟩ := safe
      have hi := (List.getElem?_eq_some_iff.mp hf).1
      have hsm := ha.checked.1
      simp only [maxInsts] at hsm
      rw [pc,BitVec.toNat_add,BitVec.toNat_ofNat] at hi
      omega
    | departs _ _ _ _ jump pc =>
      obtain ⟨hs,hi⟩ := jump_target ha jump
      rw [← pc] at hs hi
      exact ha.executable hs hi
  | returned val last => trivial
  | reported report last => trivial
  | crashed crash =>
    rw [out] at safe
    exact safe

end

theorem run_safe_iff (ha : m.Accepted) (garbage : BitVec 4 → Word) (memory : Memory)
    (world : ω) :
    (∀ turns, Safe m (ubpfExec m turns (start m garbage memory world))) ↔
      ∀ turns s, ubpfExec m turns (start m garbage memory world) = .running s → CarefulAt m s := by
  rw [← run_sound_iff ha]
  constructor
  · intro safe turns
    induction turns with
    | zero => exact start_executable ha garbage memory world
    | succ turns ih =>
      have next := safe (turns+1)
      rw [ubpfExec_succ] at next ⊢
      cases hh : ubpfExec m turns (start m garbage memory world) with
      | running s =>
        rw [hh] at ih next
        obtain ⟨inst,op,at_⟩ := ih
        exact sound_of_safe ha at_ next
      | returned val last => trivial
      | reported report last => trivial
      | crashed crash =>
        rw [hh] at ih
        exact ih
  · intro hs turns
    have now := hs turns
    cases hh : ubpfExec m turns (start m garbage memory world) with
    | running s =>
      rw [hh] at now
      obtain ⟨inst,op,at_⟩ := now
      have hc := (run_sound_iff ha garbage memory world).mp hs turns s hh inst op
        at_.fetched at_.known
      exact ⟨inst,op,at_.fetched,at_.known,hc.guarded ha at_⟩
    | returned val last => trivial
    | reported report last => trivial
    | crashed crash =>
      rw [hh] at now
      exact now

/-- Also with helper functions: each load and store lies in the argument or the stack, no division
is by zero, and the interpreter stops only at an `EXIT` or with a reported error, exactly when the
program is careful. -/
theorem loaded_run_safe_iff {vm loaded : Vm} {code : List Byte}
    (load : ubpfLoad vm code = .ok loaded) {insts : List Inst}
    (program : loaded.insts = some insts) (helpers : Helpers ω) (block : Block)
    (garbage : BitVec 4 → Word) (memory : Memory) (world : ω) :
    (∀ turns, Safe ⟨insts,loaded.extFuncs,helpers,block⟩
      (ubpfExec ⟨insts,loaded.extFuncs,helpers,block⟩ turns
        (start ⟨insts,loaded.extFuncs,helpers,block⟩ garbage memory world))) ↔
    ∀ turns s, ubpfExec ⟨insts,loaded.extFuncs,helpers,block⟩ turns
        (start ⟨insts,loaded.extFuncs,helpers,block⟩ garbage memory world) = .running s →
      CarefulAt ⟨insts,loaded.extFuncs,helpers,block⟩ s :=
  run_safe_iff (m := ⟨insts,loaded.extFuncs,helpers,block⟩) (ubpfLoad_accepted load program) garbage
    memory world

/-- `ldxw r0, [r1]; exit`, for an argument of 64 bytes. -/
def argumentProgram : List Inst := [⟨0x61,0,1,0,0⟩,⟨0x95,0,0,0,0⟩]

theorem argument_run_safe :
    ubpfLoad bareVm ([0x61,0x10,0,0,0,0,0,0] ++ [0x95,0,0,0,0,0,0,0]) =
      .ok ⟨some argumentProgram,fun _ => false⟩ ∧
    ∀ turns, Safe (bareMachine argumentProgram)
      (ubpfExec (bareMachine argumentProgram) turns (bareStart argumentProgram)) := by
  refine ⟨rfl,(@loaded_run_safe_iff Unit bareVm ⟨some argumentProgram,fun _ => false⟩
    ([0x61,0x10,0,0,0,0,0,0] ++ [0x95,0,0,0,0,0,0,0]) rfl argumentProgram rfl bareHelpers someBlock
    _ _ ()).mpr ?_⟩
  intro turns s hh inst op hf hk
  match turns with
  | 0 =>
    obtain rfl := Outcome.running.inj hh
    obtain rfl := some.inj hf
    obtain rfl : Op.ldx .w = op := some.inj hk
    refine ⟨fun last => absurd last (by decide),nofun,fun addr sz ht _ => ?_⟩
    obtain ⟨rfl,rfl⟩ := Prod.mk.inj (some.inj ht)
    decide
  | 1 =>
    obtain rfl := Outcome.running.inj hh
    obtain rfl := some.inj hf
    obtain rfl : Op.exit = op := some.inj hk
    exact ⟨fun _ => .inl trivial,nofun,nofun⟩
  | _ + 2 => contradiction

/-- `mov64 r1, -1; ldxdw r0, [r1]; exit` loads from the last address: the end wraps to 7, below the
end of the argument. `lddw r1, 0x100000000; mov64 r0, 1; div r0, r1; exit` divides by the low half
of a register that is not zero. -/
theorem checks_miss_wrapped_access_and_zero_half :
    ubpfLoad bareVm ([0xb7,1,0,0,0xff,0xff,0xff,0xff] ++ [0x79,0x10,0,0,0,0,0,0] ++
        [0x95,0,0,0,0,0,0,0]) =
      .ok ⟨some [⟨0xb7,1,0,0,-1⟩,⟨0x79,0,1,0,0⟩,⟨0x95,0,0,0,0⟩],fun _ => false⟩ ∧
    ubpfExec (bareMachine [⟨0xb7,1,0,0,-1⟩,⟨0x79,0,1,0,0⟩,⟨0x95,0,0,0,0⟩]) 2
      (bareStart [⟨0xb7,1,0,0,-1⟩,⟨0x79,0,1,0,0⟩,⟨0x95,0,0,0,0⟩]) = .crashed .wildAccess ∧
    ubpfLoad bareVm ([0x18,1,0,0,0,0,0,0] ++ [0,0,0,0,1,0,0,0] ++ [0xb7,0,0,0,1,0,0,0] ++
        [0x3c,0x10,0,0,0,0,0,0] ++ [0x95,0,0,0,0,0,0,0]) =
      .ok ⟨some [⟨0x18,1,0,0,0⟩,⟨0,0,0,0,1⟩,⟨0xb7,0,0,0,1⟩,⟨0x3c,0,1,0,0⟩,⟨0x95,0,0,0,0⟩],
        fun _ => false⟩ ∧
    ubpfExec (bareMachine [⟨0x18,1,0,0,0⟩,⟨0,0,0,0,1⟩,⟨0xb7,0,0,0,1⟩,⟨0x3c,0,1,0,0⟩,⟨0x95,0,0,0,0⟩]) 3
      (bareStart [⟨0x18,1,0,0,0⟩,⟨0,0,0,0,1⟩,⟨0xb7,0,0,0,1⟩,⟨0x3c,0,1,0,0⟩,⟨0x95,0,0,0,0⟩]) =
      .crashed .divideByZero :=
  ⟨rfl,rfl,rfl,rfl⟩

end

end Frr.Ebpf
