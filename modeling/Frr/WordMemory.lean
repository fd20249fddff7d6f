import Mathlib.Data.BitVec

/-! A memory of bytes under 64-bit addresses that wrap, with little-endian accesses. -/
namespace Frr.WordMemory

abbrev Word := BitVec 64

abbrev Byte := BitVec 8

abbrev Memory := Word → Byte

def poke (memory : Memory) (addr : Word) (byte : Byte) : Memory :=
  fun other => if other = addr then byte else memory other

def loadBytes (memory : Memory) : Nat → Word → Word
  | 0, _ => 0
  | size + 1, addr => (memory addr).setWidth 64 ||| loadBytes memory size (addr+1) <<< 8

def storeBytes : Nat → Memory → Word → Word → Memory
  | 0, memory, _, _ => memory
  | size + 1, memory, addr, value =>
    storeBytes size (poke memory addr (value.setWidth 8)) (addr+1) (value >>> 8)

def u32 (x : Word) : Word := (x.setWidth 32).setWidth 64

def swapBytes : Nat → Word → Word
  | 0, _ => 0
  | bytes + 1, x => (x &&& 0xff) <<< (8*bytes) ||| swapBytes bytes (x >>> 8)

@[simp] theorem setWidth_signExtend (x : BitVec 32) : (x.signExtend 64).setWidth 32 = x := by
  apply BitVec.eq_of_toNat_eq
  simp only [BitVec.toNat_setWidth,BitVec.toNat_signExtend]
  split <;> omega

@[simp] theorem setWidth_u32 (x : Word) : (u32 x).setWidth 32 = x.setWidth 32 := by
  simp [u32]

end Frr.WordMemory
