import Mathlib.Tactic.Ring

/-! A flat byte-addressed memory with little-endian accesses. Addresses are unbounded; the extent of
an object is the client's to prove. -/
namespace Frr.ByteMemory

abbrev Memory := Nat → UInt8

/-- The `width` bytes at `address`, least significant first. -/
def load : Nat → Memory → Nat → Nat
  | 0, _, _ => 0
  | width + 1, m, address => (m address).toNat + 256 * load width m (address+1)

def poke (m : Memory) (address : Nat) (value : UInt8) : Memory :=
  fun other => if other = address then value else m other

/-- Only the low `width` bytes of `value` are stored, as a C scalar store does. -/
def store : Nat → Memory → Nat → Nat → Memory
  | 0, m, _, _ => m
  | width + 1, m, address, value =>
    store width (poke m address (UInt8.ofNat value)) (address+1) (value/256)

def copy (m : Memory) (target source length : Nat) : Memory :=
  fun other => if target ≤ other ∧ other < target+length
    then m (source + (other-target)) else m other

@[simp] theorem poke_same (m : Memory) (addr : Nat) (val : UInt8) : poke m addr val addr = val := by
  simp [poke]

theorem poke_other (m : Memory) (val : UInt8) (h : other ≠ address) :
    poke m address val other = m other := by
  simp [poke,h]

section

variable (width : Nat)

theorem load_lt (m : Memory) (addr : Nat) : load width m addr < 256 ^ width := by
  induction width generalizing addr with
  | zero => simp [load]
  | succ width ih =>
    have low := (m addr).toNat_lt
    have high := ih (addr+1)
    simp only [load,pow_succ]
    omega

theorem load_congr (m m' : Memory) (addr : Nat) (eq : ∀ x, addr ≤ x → x < addr+width → m' x = m x) :
    load width m' addr = load width m addr := by
  induction width generalizing addr with
  | zero => rfl
  | succ width ih =>
    simp only [load]
    rw [eq addr (by omega) (by omega),ih (addr+1) (fun x low high => eq x (by omega) (by omega))]

theorem store_outside (m : Memory) (addr val : Nat) (ho : other < addr ∨ addr+width ≤ other) :
    store width m addr val other = m other := by
  induction width generalizing m addr val with
  | zero => rfl
  | succ width ih =>
    simp only [store]
    rw [ih _ _ _ (by omega),poke_other _ _ (by omega)]

theorem load_store_same (m : Memory) (addr val : Nat) :
    load width (store width m addr val) addr = val % 256 ^ width := by
  induction width generalizing m addr val with
  | zero => simp [load,Nat.mod_one]
  | succ width ih =>
    simp only [load,store]
    rw [ih,store_outside width _ _ _ (by omega),poke_same]
    have low : (UInt8.ofNat val).toNat = val%256 := by simp
    rw [low,pow_succ,mul_comm (256 ^ width) 256,Nat.mod_mul]

end

theorem load_store_apart (width width' : Nat) (m : Memory) (addr addr' val : Nat)
    (ha : addr' + width' ≤ addr ∨ addr+width ≤ addr') :
    load width' (store width m addr val) addr' = load width' m addr' :=
  load_congr _ _ _ _ (fun x low high => store_outside width m addr val (by omega))

theorem copy_outside (m : Memory) (tgt src len : Nat)
    (ho : other < tgt ∨ tgt+len ≤ other) :
    copy m tgt src len other = m other := by
  simp only [copy]
  rw [if_neg (by omega)]

theorem copy_inside (m : Memory) (tgt src len : Nat) (hb : i < len) :
    copy m tgt src len (tgt+i) = m (src+i) := by
  simp only [copy]
  rw [if_pos (by omega)]
  congr 1
  omega

/-- A value that was read at one place and is written at another. -/
theorem store_load (width : Nat) (m m' : Memory) (tgt src other : Nat) :
    store width m' tgt (load width m src) other =
      if tgt ≤ other ∧ other < tgt+width then m (src + (other-tgt)) else m' other := by
  induction width generalizing m' tgt src with
  | zero => rw [if_neg (by omega),store]
  | succ width ih =>
    have low := (m src).toNat_lt
    have byte : UInt8.ofNat (load (width+1) m src) = m src := by
      apply UInt8.toNat_inj.mp
      simp only [load,UInt8.toNat_ofNat']
      omega
    have rest : load (width+1) m src / 256 = load width m (src+1) := by
      simp only [load]
      omega
    rw [store,byte,rest,ih]
    by_cases first : other = tgt
    · subst other
      rw [if_neg (by omega),if_pos (by omega),poke_same,Nat.sub_self,Nat.add_zero]
    · rw [poke_other _ _ first]
      split_ifs <;> first | omega | rfl | (congr 1; omega)

theorem store_eq_copy (width : Nat) (m : Memory) (tgt src : Nat) :
    store width m tgt (load width m src) = copy m tgt src width :=
  funext fun _ => store_load ..

@[simp] theorem copy_zero (m : Memory) (tgt src : Nat) : copy m tgt src 0 = m :=
  funext fun _ => if_neg (by omega)

theorem copy_self (m : Memory) (addr len : Nat) : copy m addr addr len = m := by
  funext other
  simp only [copy]
  split_ifs with inside
  · rw [Nat.add_sub_cancel' inside.1]
  · rfl

theorem copy_append (low : tgt ≤ src) (m : Memory) (len len' : Nat) :
    copy (copy m tgt src len) (tgt+len) (src+len) len' = copy m tgt src (len+len') := by
  funext other
  simp only [copy]
  split_ifs <;> first | omega | rfl | (congr 1; omega)

theorem copy_prepend (high : src ≤ tgt) (m : Memory) (len len' : Nat) :
    copy (copy m (tgt+len') (src+len') len) tgt src len' = copy m tgt src (len+len') := by
  funext other
  simp only [copy]
  split_ifs <;> first | omega | rfl | (congr 1; omega)

end Frr.ByteMemory
