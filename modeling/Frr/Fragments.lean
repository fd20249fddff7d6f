import Mathlib.Tactic.Linarith

/-! The IP fragments of a packet that is longer than the MTU. -/
namespace Frr.Fragments

open List

/-- `struct ip` and the data behind it. -/
structure Fragment where
  ipLen : UInt16
  ipOff : UInt16
  data : List UInt8
  deriving DecidableEq

def ipHeaderSize : Nat := 20

def ipMf : UInt16 := 0x2000

/-- `IP_OFFMASK`. -/
def ipOffmask : UInt16 := 0x1fff

def Fragment.more (f : Fragment) : Bool := f.ipOff &&& ipMf ≠ 0

def Fragment.offset (f : Fragment) : Nat := 8 * (f.ipOff &&& ipOffmask).toNat

/-- The loop of `ospf_write_frags` over what is left of the stream, and the last `sendmsg` of
`ospf_write`. There is no result if an assertion fails or the loop takes more turns. -/
def writeFrags (mtu : Nat) (maxdatasize : UInt16) : Nat → UInt16 → List UInt8 → Option (List Fragment)
  | 0, _, _ => none
  | turns + 1, ipOff, left =>
    if maxdatasize.toNat < left.length then
      let offset := maxdatasize >>> 3
      let iovLen := offset.toNat <<< 3
      let ipLen := UInt16.ofNat (iovLen+ipHeaderSize)
      if mtu < ipLen.toNat then none
      else (writeFrags mtu maxdatasize turns (ipOff+offset) (left.drop iovLen)).map
        (⟨ipLen, ipOff, left.take iovLen⟩ :: ·)
    else some [⟨.ofNat (left.length+ipHeaderSize), ipOff &&& ~~~ipMf, left⟩]

/-- `ospf_write` for one packet. -/
def write (mtu : UInt32) (packet : List UInt8) : Option (List Fragment) :=
  let maxdatasize := (mtu - .ofNat ipHeaderSize).toUInt16
  if maxdatasize.toNat < packet.length then
    writeFrags mtu.toNat maxdatasize (packet.length+1) (0 ||| ipMf) packet
  else some [⟨.ofNat (packet.length+ipHeaderSize), 0, packet⟩]

/-- Each fragment starts where the one before ends. -/
def Consecutive : Nat → List Fragment → Prop
  | _, [] => True
  | start, f :: rest => f.offset = start ∧ Consecutive (start+f.data.length) rest

/-- What the receiver needs: `frags` and the last one fit, follow each other and are the packet. -/
structure Fragmented (mtu start : Nat) (packet : List UInt8) (frags : List Fragment)
    (last : Fragment) : Prop where
  fit : ∀ f ∈ frags ++ [last], f.data.length + ipHeaderSize ≤ mtu ∧
    f.ipLen = .ofNat (f.data.length+ipHeaderSize)
  words : ∀ f ∈ frags, f.more = true ∧ f.data.length%8 = 0
  ends : last.more = false
  consecutive : Consecutive start (frags ++ [last])
  whole : (frags ++ [last]).flatMap (·.data) = packet

/-- The `ip_off` of the fragments before the last one. -/
def flagged (k : Nat) : UInt16 := .ofNat (k + 0x2000)

theorem flagged_spec {k : Nat} (hs : k < 0x2000) :
    flagged k &&& ipMf ≠ 0 ∧ (flagged k &&& ipOffmask).toNat = k := by
  have val : (flagged k).toNat = k + 2 ^ 13 := Nat.mod_eq_of_lt (by omega)
  have bit : (k + 2 ^ 13).testBit 13 := by
    rw [add_comm,Nat.testBit_two_pow_add_eq,Nat.testBit_lt_two_pow hs]
    rfl
  constructor
  · intro zero
    have flag := congrArg (·.toNat.testBit 13) zero
    simp only [UInt16.toNat_and,val,Nat.testBit_and,bit] at flag
    exact absurd flag (by decide)
  · rw [UInt16.toNat_and,val,show ipOffmask.toNat = 2 ^ 13 - 1 from rfl,
      Nat.and_two_pow_sub_one_eq_mod]
    omega

/-- Without the flag, the offset is the same. -/
theorem unflagged (off : UInt16) : (off &&& ~~~ipMf) &&& ipMf = 0 ∧
    (off &&& ~~~ipMf) &&& ipOffmask = off &&& ipOffmask := by
  rw [UInt16.and_assoc,UInt16.and_assoc]
  exact ⟨UInt16.and_zero,rfl⟩

theorem Fragmented.cons {mtu start : Nat} {pkt rest : List UInt8} {frags : List Fragment}
    {last f : Fragment} (h : Fragmented mtu (start+f.data.length) rest frags last)
    (fit : f.data.length + ipHeaderSize ≤ mtu ∧ f.ipLen = .ofNat (f.data.length+ipHeaderSize))
    (words : f.more ∧ f.data.length%8 = 0) (off : f.offset = start)
    (split : f.data ++ rest = pkt) : Fragmented mtu start pkt (f :: frags) last where
  fit := forall_mem_cons.mpr ⟨fit,h.fit⟩
  words := forall_mem_cons.mpr ⟨words,h.words⟩
  ends := h.ends
  consecutive := ⟨off,h.consecutive⟩
  whole := (congrArg (f.data ++ ·) h.whole).trans split

theorem writeFrags_spec {mtu turns k : Nat} {maxdatasize : UInt16} {left : List UInt8}
    (room : 8 ≤ maxdatasize.toNat) (hf : maxdatasize.toNat + ipHeaderSize = mtu)
    (hen : left.length < turns) (hsh : 8 * k + left.length < 2 ^ 16) :
    ∃ frags last, writeFrags mtu maxdatasize turns (flagged k) left = some (frags ++ [last]) ∧
      Fragmented mtu (8*k) left frags last := by
  induction turns generalizing k left with
  | zero => omega
  | succ turns ih =>
    obtain ⟨hm,off⟩ := flagged_spec (k := k) (by omega)
    rw [writeFrags]
    split
    · next long =>
      obtain ⟨c,words,ht,some,few⟩ : ∃ c, maxdatasize >>> 3 = .ofNat c ∧
          (maxdatasize >>> 3).toNat <<< 3 = 8*c ∧ 0 < c ∧ 8*c ≤ maxdatasize.toNat := by
        have val : (maxdatasize >>> 3).toNat = maxdatasize.toNat/8 := by
          simp [Nat.shiftRight_eq_div_pow]
        refine ⟨maxdatasize.toNat/8,?_,?_,by omega,by omega⟩
        · rw [← val,UInt16.ofNat_toNat]
        · rw [val,Nat.shiftLeft_eq,mul_comm]
      have next : flagged k + .ofNat c = flagged (k+c) := by
        rw [flagged,flagged,Nat.add_right_comm,← UInt16.ofNat_add]
      simp only [ht]
      rw [words,next]
      have len : (left.take (8*c)).length = 8*c := by
        rw [length_take]
        omega
      have hs : ¬mtu < (UInt16.ofNat (8*c+ipHeaderSize)).toNat := by
        have := Nat.mod_le (8*c+ipHeaderSize) (2 ^ 16)
        rw [UInt16.toNat_ofNat']
        omega
      have rest := length_drop (i := 8*c) (l := left)
      obtain ⟨frags,last,hse,h⟩ := @ih (k+c) (left.drop (8*c)) (by omega) (by omega)
      rw [if_neg hs,hse]
      refine ⟨_ :: frags,last,rfl,?_⟩
      refine Fragmented.cons ?_ ?_ ⟨?_,?_⟩ ?_ (take_append_drop ..)
      · rwa [len,← mul_add]
      · rw [len]
        exact ⟨by omega,rfl⟩
      · simpa [Fragment.more] using hm
      · rw [len,Nat.mul_mod_right]
      · rw [Fragment.offset,off]
    · next done =>
      obtain ⟨he,eq⟩ := unflagged (flagged k)
      refine ⟨[],_,rfl,?_,nofun,?_,⟨?_,trivial⟩,append_nil _⟩
      · simp
        omega
      · simp [Fragment.more,he]
      · rw [Fragment.offset,eq,off]

theorem write_fragmented (mtu : UInt32) (packet : List UInt8) (room : 28 ≤ mtu)
    (short : packet.length < 2 ^ 16) (long : mtu.toNat < packet.length+ipHeaderSize) :
    ∃ frags last, write mtu packet = some (frags ++ [last]) ∧ frags ≠ [] ∧
      Fragmented mtu.toNat 0 packet frags last := by
  simp only [write,ipHeaderSize] at *
  have hl : 28 ≤ mtu.toNat := UInt32.le_iff_toNat_le.mp room
  have sz : (mtu - .ofNat 20).toUInt16.toNat = mtu.toNat-20 := by
    rw [UInt32.toNat_toUInt16,UInt32.toNat_sub_of_le _ _ (UInt32.le_iff_toNat_le.mpr (by
      change 20 ≤ _
      omega))]
    exact Nat.mod_eq_of_lt (by change mtu.toNat - 20 < _; omega)
  obtain ⟨frags,last,hs,h⟩ := @writeFrags_spec mtu.toNat (packet.length+1) 0
    (mtu - .ofNat 20).toUInt16 packet (by omega) (by rw [sz,ipHeaderSize]; omega)
    (Nat.lt_succ_self _) (by omega)
  refine ⟨frags,last,(if_pos (by omega)).trans hs,?_,h⟩
  rintro rfl
  have all := (h.fit last (by simp)).1
  have hw := h.whole
  simp only [nil_append,flatMap_singleton] at hw
  rw [hw,ipHeaderSize] at all
  omega

/-- 100 bytes with an MTU of 60: fragments with 40, 40 and 20 bytes. -/
theorem hundred_fragmented : ∃ frags last, write 60 (replicate 100 7) = some (frags ++ [last]) ∧
    frags ≠ [] ∧ Fragmented 60 0 (replicate 100 7) frags last :=
  write_fragmented 60 (replicate 100 7) (by decide) (by decide) (by decide)

end Frr.Fragments
