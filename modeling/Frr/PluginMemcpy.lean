import Frr.ByteMemory
import Mathlib.Data.Nat.Bitwise

/-! The helper `plugin_memcpy`: words are copied where both addresses can be aligned, and a block
that moves up is copied backwards. No object wraps around the address space. -/
namespace Frr.PluginMemcpy

open ByteMemory Function

/-- `sizeof(int)`. -/
def wsize : Nat := 4

def wmask : Nat := wsize-1

structure Cursor where
  mem : Memory
  dst : Nat
  src : Nat

/-- A byte or a word is copied, then both pointers move. -/
def forward (size : Nat) (c : Cursor) : Cursor :=
  ⟨store size c.mem c.dst (load size c.mem c.src), c.dst+size, c.src+size⟩

/-- Both pointers move first. -/
def backward (size : Nat) (c : Cursor) : Cursor :=
  ⟨store size c.mem (c.dst-size) (load size c.mem (c.src-size)), c.dst-size, c.src-size⟩

/-- `TLOOP1`: the body comes before the test of `--t`, so a counter of zero wraps. -/
def tloop1 (body : Cursor → Cursor) (t : Nat) : Cursor → Cursor :=
  body^[if t = 0 then 2 ^ 64 else t]

def tloop (body : Cursor → Cursor) (t : Nat) (c : Cursor) : Cursor :=
  if t = 0 then c else tloop1 body t c

/-- Whole words, then the trailing bytes. -/
def copyWords (body : Nat → Cursor → Cursor) (length : Nat) (c : Cursor) : Cursor :=
  tloop (body 1) (length &&& wmask) (tloop (body wsize) (length/wsize) c)

/-- Either direction. Operands whose low bits match are aligned by so many bytes, unless there are
too few. -/
def copyBlock (body : Nat → Cursor → Cursor) (few : Bool) (align length : Nat) (c : Cursor) :
    Cursor :=
  if (c.src ||| c.dst) &&& wmask ≠ 0 then
    let t := if (c.src ^^^ c.dst) &&& wmask ≠ 0 ∨ few then length else align
    copyWords body (length-t) (tloop1 (body 1) t c)
  else copyWords body length c

/-- The pointer that is returned, and the memory. -/
def pluginMemcpy (m : Memory) (dst src length : Nat) : Nat × Memory :=
  if length = 0 ∨ dst = src then (dst, m)
  else if dst < src then
    (dst, (copyBlock forward (length < wsize) (wsize - (src &&& wmask)) length ⟨m, dst, src⟩).mem)
  else
    (dst, (copyBlock backward (length ≤ wsize) ((src+length) &&& wmask) length
      ⟨m, dst+length, src+length⟩).mem)

theorem and_wmask (x : Nat) : x &&& wmask = x % wsize := Nat.and_two_pow_sub_one_eq_mod x 2

theorem mod_wsize_lt (x : Nat) : x % wsize < wsize := Nat.mod_lt _ (by decide)

theorem tloop_eq (body : Cursor → Cursor) (t : Nat) : tloop body t = body^[t] := by
  funext c
  unfold tloop tloop1
  split_ifs with none
  · rw [none,iterate_zero_apply]
  · rfl

section

-- where the loops are when so many bytes are done
variable {body : Nat → Cursor → Cursor} {after : Nat → Cursor} {length : Nat}
  (step : ∀ size done, done+size ≤ length → body size (after done) = after (done+size))

include step

theorem iterate_step (size : Nat) {t done : Nat} (hb : done + t*size ≤ length) :
    (body size)^[t] (after done) = after (done + t*size) := by
  induction t with
  | zero => rw [zero_mul,add_zero,iterate_zero_apply]
  | succ t ih =>
    rw [Nat.succ_mul,← add_assoc] at hb ⊢
    rw [iterate_succ_apply',ih (by omega),step _ _ hb]

theorem copyWords_step {done : Nat} (hb : done ≤ length) :
    copyWords body (length-done) (after done) = after length := by
  have parts := Nat.div_add_mod (length-done) wsize
  rw [mul_comm] at parts
  rw [copyWords,tloop_eq,tloop_eq,and_wmask,iterate_step step _ (by omega),
    iterate_step step _ (by omega)]
  congr 1
  omega

theorem copyBlock_step (few : Bool) (align : Nat) (some : 0 < length)
    (ha : (after 0).src &&& wmask ≠ 0 → few = false → 0 < align ∧ align ≤ length) :
    copyBlock body few align length (after 0) = after length := by
  have bytes {t : Nat} (ht : 0 < t ∧ t ≤ length) :
      copyWords body (length-t) (tloop1 (body 1) t (after 0)) = after length := by
    have first : 0 + t*1 ≤ length := by omega
    rw [tloop1,if_neg ht.1.ne',iterate_step step 1 first,zero_add,mul_one,copyWords_step step ht.2]
  unfold copyBlock
  split_ifs with either differ
  · exact bytes ⟨some,le_rfl⟩
  · -- The low bits match and one is set, so there are bytes in front of the words.
    rw [not_or,not_not,Nat.and_xor_distrib_right,Bool.not_eq_true] at differ
    refine bytes (ha (fun aligned => either ?_) differ.2)
    rw [aligned,Nat.zero_xor] at differ
    rw [Nat.and_or_distrib_right,aligned,differ.1,Nat.or_zero]
  · exact copyWords_step step (Nat.zero_le _)

end

section

variable (m : Memory) {dst src length : Nat} (some : 0 < length)

include some

theorem copyBlock_forward (low : dst ≤ src) :
    (copyBlock forward (length < wsize) (wsize - (src &&& wmask)) length ⟨m, dst, src⟩).mem =
      copy m dst src length := by
  let after (done : Nat) : Cursor := ⟨copy m dst src done, dst+done, src+done⟩
  have start : (⟨m, dst, src⟩ : Cursor) = after 0 := by simp [after]
  have step size done (_ : done+size ≤ length) :
      forward size (after done) = after (done+size) := by
    simp only [forward,after,store_eq_copy,copy_append low,add_assoc]
  rw [start,copyBlock_step step _ _ some fun _ few => ?_]
  have rest := mod_wsize_lt src
  rw [decide_eq_false_iff_not] at few
  rw [and_wmask]
  omega

theorem copyBlock_backward (high : src ≤ dst) :
    (copyBlock backward (length ≤ wsize) ((src+length) &&& wmask) length
      ⟨m, dst+length, src+length⟩).mem = copy m dst src length := by
  let after (done : Nat) : Cursor :=
    ⟨copy m (dst + (length-done)) (src + (length-done)) done, dst + (length-done),
      src + (length-done)⟩
  have start : (⟨m, dst+length, src+length⟩ : Cursor) = after 0 := by simp [after]
  have step size done (hb : done+size ≤ length) :
      backward size (after done) = after (done+size) := by
    obtain ⟨left,rfl⟩ := Nat.exists_eq_add_of_le hb
    have left' : done + size + left - done = left+size := by omega
    simp only [backward,after,left',Nat.add_sub_cancel_left,← add_assoc,Nat.add_sub_cancel,
      store_eq_copy,copy_prepend (Nat.add_le_add_right high left)]
  rw [start,copyBlock_step step _ _ some fun ahead few => ?_]
  · simp only [after,Nat.sub_self,add_zero]
  have rest := mod_wsize_lt (src+length)
  rw [decide_eq_false_iff_not] at few
  rw [← start,and_wmask] at ahead
  rw [and_wmask]
  exact ⟨Nat.pos_of_ne_zero ahead,by omega⟩

end

theorem pluginMemcpy_eq_copy (m : Memory) (dst src length : Nat) :
    pluginMemcpy m dst src length = (dst, copy m dst src length) := by
  unfold pluginMemcpy
  split_ifs with trivial low
  · rcases trivial with rfl | rfl
    · rw [copy_zero]
    · rw [copy_self]
  · rw [copyBlock_forward m (by omega) low.le]
  · rw [copyBlock_backward m (by omega) (by omega)]

theorem pluginMemcpy_exact (m : Memory) (dst src length : Nat) :
    (pluginMemcpy m dst src length).1 = dst ∧
      ∀ x, (pluginMemcpy m dst src length).2 x =
        if dst ≤ x ∧ x < dst+length then m (src + (x-dst)) else m x := by
  rw [pluginMemcpy_eq_copy]
  exact ⟨rfl,fun _ => rfl⟩

end Frr.PluginMemcpy
