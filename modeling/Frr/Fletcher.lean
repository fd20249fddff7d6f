import Mathlib.Data.Int.ModEq
import Mathlib.Tactic.LinearCombination
import Mathlib.Tactic.Linarith
import Mathlib.Tactic.Ring

/-! The Fletcher checksum: two sums modulo 255, reduced after every block, and the check bytes that
bring both to zero. -/
namespace Frr.Fletcher

open List

def addBytes : List UInt8 → Nat → Nat → Nat × Nat
  | [], c0, c1 => (c0, c1)
  | b :: rest, c0, c1 => addBytes rest (c0+b.toNat) (c1 + (c0+b.toNat))

/-- `MODX`. -/
def blockLength : Nat := 4102

/-- The outer loop. A block is reduced before either sum exceeds an `int`. -/
def sums : Nat → List UInt8 → Nat → Nat → Nat × Nat
  | 0, _, c0, c1 => (c0, c1)
  | fuel + 1, bytes, c0, c1 =>
    if bytes = [] then (c0, c1)
    else
      let block := addBytes (bytes.take blockLength) c0 c1
      sums fuel (bytes.drop blockLength) (block.1 % 255) (block.2 % 255)

section

variable (bytes : List UInt8)

def residues : Nat × Nat := sums bytes.length bytes 0 0

/-- `fletcher_checksum` with `FLETCHER_CHECKSUM_VALIDATE`. -/
def valid : Bool := residues bytes = (0, 0)

def firstByte (len offset c0 c1 : Nat) : Int :=
  let x := Int.tmod (((len : Int) - offset - 1) * c0 - c1) 255
  if x ≤ 0 then x + 255 else x

def secondByte (c0 : Nat) (x : Int) : Int :=
  let y := 510-c0-x
  if 255 < y then y - 255 else y

/-- The check bytes `fletcher_checksum` writes at an offset. -/
def checksum (offset : Nat) : Int × Int :=
  let c := residues ((bytes.set offset 0).set (offset+1) 0)
  let x := firstByte bytes.length offset c.1 c.2
  (x, secondByte c.1 x)

def total : List UInt8 → Nat
  | [] => 0
  | b :: rest => b.toNat + total rest

def weighted : List UInt8 → Nat
  | [] => 0
  | b :: rest => (rest.length+1) * b.toNat + weighted rest

theorem total_append (fst snd : List UInt8) : total (fst ++ snd) = total fst + total snd := by
  induction fst with
  | nil => simp [total]
  | cons b rest ih => simp [total,ih,add_assoc]

theorem weighted_append (fst snd : List UInt8) : weighted (fst ++ snd) =
    weighted fst + snd.length * total fst + weighted snd := by
  induction fst with
  | nil => simp [weighted,total]
  | cons b rest ih =>
    simp only [cons_append,weighted,total,ih,length_append]
    ring

theorem addBytes_eq (c0 c1 : Nat) : addBytes bytes c0 c1 =
    (c0 + total bytes,c1+bytes.length*c0 + weighted bytes) := by
  induction bytes generalizing c0 c1 with
  | nil => simp [addBytes,total,weighted]
  | cons b rest ih =>
    simp only [addBytes,ih,total,weighted,length_cons,Prod.mk.injEq]
    constructor <;> ring

end

theorem sums_eq {fuel : Nat} {bytes : List UInt8} (hen : bytes.length ≤ fuel) {c0 c1 : Nat}
    (hs : c0 < 255) (hs' : c1 < 255) : sums fuel bytes c0 c1 =
      ((c0 + total bytes) % 255,(c1+bytes.length*c0 + weighted bytes) % 255) := by
  induction fuel generalizing bytes c0 c1 with
  | zero =>
    have he : bytes = [] := eq_nil_of_length_eq_zero (by omega)
    simp [sums,he,total,weighted,Nat.mod_eq_of_lt hs,Nat.mod_eq_of_lt hs']
  | succ fuel ih =>
    rw [sums]
    by_cases he : bytes = []
    · simp [he,total,weighted,Nat.mod_eq_of_lt hs,Nat.mod_eq_of_lt hs']
    have some := length_pos_iff.mpr he
    have hf : (bytes.drop blockLength).length ≤ fuel := by
      simp only [length_drop,blockLength]
      omega
    have hw := take_append_drop blockLength bytes
    rw [if_neg he,ih hf (Nat.mod_lt _ (by decide)) (Nat.mod_lt _ (by decide)),addBytes_eq]
    have sum : total bytes = total (bytes.take blockLength) + total (bytes.drop blockLength) := by
      rw [← total_append,hw]
    have sum' : weighted bytes = weighted (bytes.take blockLength) +
        (bytes.drop blockLength).length * total (bytes.take blockLength) +
        weighted (bytes.drop blockLength) := by rw [← weighted_append,hw]
    have len : bytes.length = (bytes.take blockLength).length +
        (bytes.drop blockLength).length := by rw [← length_append,hw]
    rw [Prod.mk.injEq]
    constructor
    · rw [sum,Nat.mod_add_mod,add_assoc]
    generalize (bytes.drop blockLength).length = n at *
    generalize (bytes.take blockLength).length = m at *
    have reduce : n * ((c0 + total (bytes.take blockLength)) % 255) ≡
        n * (c0 + total (bytes.take blockLength)) [MOD 255] := (Nat.mod_modEq _ _).mul_left n
    have reduce' := Nat.mod_modEq (c1+m*c0 + weighted (bytes.take blockLength)) 255
    have hb := (reduce'.add reduce).add_right (weighted (bytes.drop blockLength))
    refine hb.trans ?_
    rw [sum',len]
    exact congrArg (· % 255) (by ring)

theorem residues_eq (bytes : List UInt8) :
    residues bytes = (total bytes % 255,weighted bytes % 255) := by
  rw [residues,sums_eq le_rfl (by decide) (by decide)]
  simp

/-- The remainder brought into the range of a byte that is not zero. -/
def checkByte (d : Int) : Int :=
  let x := Int.tmod d 255
  if x ≤ 0 then x + 255 else x

theorem checkByte_spec (d : Int) :
    1 ≤ checkByte d ∧ checkByte d ≤ 255 ∧ checkByte d ≡ d [ZMOD 255] := by
  simp only [checkByte]
  have ha := Int.tmod_lt_of_pos d (by decide : (0 : Int) < 255)
  have hb := Int.lt_tmod_of_pos d (by decide : (0 : Int) < 255)
  have hw := Int.mul_tdiv_add_tmod d 255
  have congruent : Int.tmod d 255 ≡ d [ZMOD 255] := by
    rw [Int.modEq_iff_dvd]
    exact ⟨Int.tdiv d 255,by omega⟩
  split
  · exact ⟨by omega,by omega,(Int.add_modEq_right).trans congruent⟩
  · exact ⟨by omega,by omega,congruent⟩

theorem firstByte_eq (len off c0 c1 : Nat) : firstByte len off c0 c1 =
    checkByte (((len : Int) - off - 1) * c0 - c1) := rfl

theorem secondByte_spec {c0 : Nat} (hs : c0 < 255) {x : Int} (low : 1 ≤ x) (high : x ≤ 255) :
    1 ≤ secondByte c0 x ∧ secondByte c0 x ≤ 255 ∧ secondByte c0 x ≡ -c0 - x [ZMOD 255] := by
  simp only [secondByte]
  split
  · refine ⟨by omega,by omega,?_⟩
    rw [Int.modEq_iff_dvd]
    exact ⟨-1,by omega⟩
  refine ⟨by omega,by omega,?_⟩
  rw [Int.modEq_iff_dvd]
  exact ⟨-2,by omega⟩

theorem checksum_le (bytes : List UInt8) (off : Nat) :
    (checksum bytes off).1 ≤ 255 ∧ (checksum bytes off).2 ≤ 255 := by
  simp only [checksum,residues_eq,firstByte_eq]
  obtain ⟨low,high,-⟩ := checkByte_spec (((bytes.length : Int) - off - 1) *
    ((total ((bytes.set off 0).set (off+1) 0) % 255 : Nat) : Int) -
      (weighted ((bytes.set off 0).set (off+1) 0) % 255 : Nat))
  exact ⟨high,(secondByte_spec (Nat.mod_lt _ (by decide)) low high).2.1⟩

theorem le_of_modEq {x y : Int} (eq : x ≡ y [ZMOD 255]) (high : x ≤ 255) (hn : 0 ≤ x)
    (low : 1 ≤ y) : x ≤ y := by
  rw [Int.ModEq] at eq
  omega

/-! ### Valid check bytes -/

section

variable (before after : List UInt8)

/-- What the first check byte has to be, modulo 255. -/
def due : Int :=
  let c := residues (before ++ 0 :: 0 :: after)
  (after.length+1) * c.1 - c.2

theorem valid_iff (x y : UInt8) : valid (before ++ x :: y :: after) ↔
    (x.toNat : Int) ≡ due before after [ZMOD 255] ∧
    (y.toNat : Int) ≡ -(residues (before ++ 0 :: 0 :: after)).1 - x.toNat [ZMOD 255] := by
  have cast (n : Nat) : ((n % 255 : Nat) : Int) ≡ n [ZMOD 255] := by
    rw [Int.natCast_mod]
    exact Int.mod_modEq _ _
  have zero (n : Nat) : n % 255 = 0 ↔ (255 : Int) ∣ n := by omega
  simp only [valid,residues_eq,due,decide_eq_true_eq,Prod.mk.injEq,zero]
  generalize totalZero : total (before ++ 0 :: 0 :: after) = t
  generalize weightZero : weighted (before ++ 0 :: 0 :: after) = u
  have fst : ((total (before ++ x :: y :: after) : Nat) : Int) = t+x.toNat+y.toNat := by
    rw [← totalZero]
    simp only [total_append,total,UInt8.toNat_zero]
    push_cast
    ring
  have snd : ((weighted (before ++ x :: y :: after) : Nat) : Int) =
      u + (after.length+2) * x.toNat + (after.length+1) * y.toNat := by
    rw [← weightZero]
    simp only [weighted_append,weighted,length_cons,UInt8.toNat_zero]
    push_cast
    ring
  have sums : (x.toNat : Int) ≡ (after.length+1) * (t % 255 : Nat) - (u % 255 : Nat) [ZMOD 255] ↔
      (255 : Int) ∣ (after.length+1) * t - u - x.toNat := by
    rw [← Int.modEq_iff_dvd]
    have eq := ((cast t).mul_left ((after.length : Int) + 1)).sub (cast u)
    exact ⟨fun h => h.trans eq,fun h => h.trans eq.symm⟩
  have rest : (y.toNat : Int) ≡ -(t % 255 : Nat) - x.toNat [ZMOD 255] ↔
      (255 : Int) ∣ -(t : Int) - x.toNat - y.toNat := by
    rw [← Int.modEq_iff_dvd]
    have eq := ((cast t).neg).sub (Int.ModEq.refl (x.toNat : Int))
    exact ⟨fun h => h.trans eq,fun h => h.trans eq.symm⟩
  rw [sums,rest,fst,snd]
  constructor
  · rintro ⟨⟨a,one⟩,b,two⟩
    refine ⟨⟨(after.length+1) * a - b,?_⟩,-a,by linear_combination -one⟩
    linear_combination (after.length+1) * one - two
  · rintro ⟨⟨a,one⟩,b,two⟩
    refine ⟨⟨-b,by linear_combination -two⟩,-a - (after.length+1) * b,?_⟩
    linear_combination -one - (after.length+1) * two

variable {before after}

theorem zeroed (x y : UInt8) :
    ((before ++ x :: y :: after).set before.length 0).set (before.length+1) 0 =
      before ++ 0 :: 0 :: after := by simp

theorem due_eq (x y : UInt8) : (((before ++ x :: y :: after).length : Int) - before.length - 1) *
      (residues (before ++ 0 :: 0 :: after)).1 - (residues (before ++ 0 :: 0 :: after)).2 =
        due before after := by
  simp only [due,length_append,length_cons]
  push_cast
  ring

theorem residues_small (bytes : List UInt8) : (residues bytes).1 < 255 := by
  rw [residues_eq]
  exact Nat.mod_lt _ (by decide)

/-- The check bytes of a valid list are no greater than those `checksum` would write. -/
theorem carried_le {x y : UInt8} (ok : valid (before ++ x :: y :: after)) :
    (x.toNat : Int) ≤ (checksum (before ++ x :: y :: after) before.length).1 ∧
    (y.toNat : Int) ≤ (checksum (before ++ x :: y :: after) before.length).2 := by
  obtain ⟨fst,snd⟩ := (valid_iff before after x y).mp ok
  simp only [checksum,zeroed,firstByte_eq,due_eq]
  obtain ⟨low,high,congruent⟩ := checkByte_spec (due before after)
  obtain ⟨low',-,congruent'⟩ :=
    secondByte_spec (residues_small (before ++ 0 :: 0 :: after)) low high
  have eq := fst.trans congruent.symm
  have eq' := snd.trans (((Int.ModEq.refl _).sub eq).trans congruent'.symm)
  have xTop := x.toNat_lt
  have yTop := y.toNat_lt
  exact ⟨le_of_modEq eq (by omega) (by omega) low,le_of_modEq eq' (by omega) (by omega) low'⟩

end

/-- Two bytes of a valid list change. It stays valid exactly if 255 divides the sum of the changes,
and the first times the distance of the two. -/
theorem change_unnoticed_iff (before mid after : List UInt8) (x y x' y' : UInt8) :
    let b (x y : UInt8) := before ++ x :: (mid ++ y :: after)
    let dx : Int := x'.toNat - x.toNat
    let dy : Int := y'.toNat - y.toNat
    valid (b x y) ∧ valid (b x' y') ↔
      valid (b x y) ∧ (255 : Int) ∣ dx + dy ∧ (255 : Int) ∣ (mid.length+1) * dx := by
  intro b dx dy
  have zero (n : Nat) : n % 255 = 0 ↔ (255 : Int) ∣ n := by omega
  simp only [valid,residues_eq,decide_eq_true_eq,Prod.mk.injEq,zero]
  apply and_congr_right
  rintro ⟨hs,hw⟩
  have fst : (total (b x' y') : Int) = total (b x y) + (dx+dy) := by
    simp only [b,total_append,total]
    push_cast
    ring
  have snd : (weighted (b x' y') : Int) =
      weighted (b x y) + ((after.length+1) * (dx+dy) + (mid.length+1) * dx) := by
    simp only [b,weighted_append,weighted,length_append,length_cons]
    push_cast
    ring
  rw [fst,snd,Int.dvd_add_right hs,Int.dvd_add_right hw]
  exact and_congr_right fun hd => Int.dvd_add_right (hd.mul_left _)

/-! ### The buffer with the checksum written to it -/

section

def fletcherChecksumValidate : UInt16 := 0xffff

/-- What `fletcher_checksum` leaves in the buffer. The product is a `size_t`, cast to an `int`. -/
def fletcherChecksum (bytes : List UInt8) (offset : UInt16) : List UInt8 :=
  if offset = fletcherChecksumValidate then bytes
  else
    let o := offset.toNat
    let c := residues ((bytes.set o 0).set (o+1) 0)
    let x := checkByte (Int.bmod (((bytes.length : Int) - o - 1) * c.1 - c.2) (2 ^ 32))
    (bytes.set o (UInt8.ofNat x.toNat)).set (o+1) (UInt8.ofNat (secondByte c.1 x).toNat)

/-- No sum of the loops exceeds an `int`. -/
def Fits : Nat → List UInt8 → Nat → Nat → Prop
  | 0, _, _, _ => True
  | fuel + 1, bytes, c0, c1 =>
    let sums (n : Nat) := addBytes (bytes.take n) c0 c1
    (∀ n ≤ blockLength, (sums n).1 < 2 ^ 31 ∧ (sums n).2 < 2 ^ 31) ∧
      Fits fuel (bytes.drop blockLength) ((sums blockLength).1 % 255) ((sums blockLength).2 % 255)

theorem sums_le (bytes : List UInt8) : total bytes ≤ 255*bytes.length ∧
    2 * weighted bytes ≤ 255 * (bytes.length * (bytes.length+1)) := by
  induction bytes with
  | nil => decide
  | cons b rest ih =>
    have byte := b.toNat_lt
    simp only [total,weighted,length_cons]
    refine ⟨by omega,?_⟩
    nlinarith [ih.2,Nat.mul_le_mul_left (rest.length+1) (Nat.le_of_lt_succ byte)]

theorem fits (fuel : Nat) (bytes : List UInt8) {c0 c1 : Nat} (hsm : c0 < 255) (hs' : c1 < 255) :
    Fits fuel bytes c0 c1 := by
  induction fuel generalizing bytes c0 c1 with
  | zero => trivial
  | succ fuel ih =>
    refine ⟨fun n few => ?_,ih _ (Nat.mod_lt _ (by decide)) (Nat.mod_lt _ (by decide))⟩
    have hs : (bytes.take n).length ≤ 4102 := (length_take_le ..).trans few
    obtain ⟨fst,snd⟩ := sums_le (bytes.take n)
    dsimp only
    rw [addBytes_eq]
    generalize (bytes.take n).length = len at *
    have product : len * (len+1) ≤ 4102*4103 := Nat.mul_le_mul hs (by omega)
    have hc : len * c0 ≤ 4102*254 := Nat.mul_le_mul hs (by omega)
    exact ⟨by omega,by omega⟩

theorem toNat_byte {z : Int} (low : 1 ≤ z) (high : z ≤ 255) :
    ((UInt8.ofNat z.toNat).toNat : Int) = z ∧ UInt8.ofNat z.toNat ≠ 0 := by
  have val : ((UInt8.ofNat z.toNat).toNat : Int) = z := by
    rw [UInt8.toNat_ofNat']
    omega
  refine ⟨val,fun zero => ?_⟩
  rw [zero,UInt8.toNat_zero] at val
  omega

/-- `ospf_lsa_checksum`, for an LSA with the length that its header says. -/
def ospfLsaChecksum (lsa : List UInt8) : List UInt8 :=
  lsa.take 2 ++ fletcherChecksum (lsa.drop 2) 14

def ospfLsaChecksumValid (lsa : List UInt8) : Bool := valid (lsa.drop 2)

/-- The bytes written are not zero, and valid exactly if the cast keeps the remainder. -/
theorem written_valid_iff {bytes : List UInt8} {off : UInt16}
    (room : off.toNat + 2 ≤ bytes.length) (idx : off ≠ fletcherChecksumValidate) :
    ∃ before after x y, before = bytes.take off.toNat ∧ after = bytes.drop (off.toNat+2) ∧
      off.toNat = before.length ∧ x ≠ 0 ∧ y ≠ 0 ∧
      fletcherChecksum bytes off = before ++ x :: y :: after ∧
      (valid (before ++ x :: y :: after) ↔
        Int.bmod (due before after) (2 ^ 32) ≡ due before after [ZMOD 255]) := by
  have split : bytes = bytes.take off.toNat ++ bytes[off.toNat] :: bytes[off.toNat+1] ::
      bytes.drop (off.toNat+2) := by
    rw [getElem_cons_drop,getElem_cons_drop,take_append_drop]
  have place : off.toNat = (bytes.take off.toNat).length := by
    rw [length_take]
    omega
  generalize bytes.take off.toNat = before at *
  generalize bytes.drop (off.toNat+2) = after at *
  obtain ⟨low,high,fst⟩ := checkByte_spec (Int.bmod (due before after) (2 ^ 32))
  obtain ⟨low',high',snd⟩ := secondByte_spec (residues_small (before ++ 0 :: 0 :: after)) low high
  obtain ⟨val,some⟩ := toNat_byte low high
  obtain ⟨val',some'⟩ := toNat_byte low' high'
  refine ⟨before,after,_,_,rfl,rfl,place,some,some',?_,?_⟩
  · rw [split]
    simp only [fletcherChecksum,if_neg idx,place,zeroed,due_eq]
    simp
  · rw [valid_iff,val,val',and_iff_left snd]
    exact ⟨fun h => fst.symm.trans h,fun h => fst.trans h⟩

/-- For an LSA the cast changes nothing. -/
theorem ospfLsaChecksum_valid {lsa : List UInt8} (hdr : 18 ≤ lsa.length)
    (hs : lsa.length < 2 ^ 16) : ospfLsaChecksumValid (ospfLsaChecksum lsa) := by
  have room : (14 : UInt16).toNat + 2 ≤ (lsa.drop 2).length := by
    rw [length_drop]
    change 14 + 2 ≤ _
    omega
  obtain ⟨before,after,x,y,-,rest,-,-,-,eq,ok⟩ := written_valid_iff room (by decide)
  rw [ospfLsaChecksumValid,ospfLsaChecksum,drop_left' (by rw [length_take]; omega),eq,ok]
  have few : after.length < 2 ^ 16 := by
    rw [rest,length_drop,length_drop]
    omega
  have hb : (after.length+1) * (residues (before ++ 0 :: 0 :: after)).1 ≤ 2 ^ 16 * 254 :=
    Nat.mul_le_mul few (Nat.le_of_lt_succ (residues_small _))
  have hb' : (residues (before ++ 0 :: 0 :: after)).2 < 255 := by
    rw [residues_eq]
    exact Nat.mod_lt _ (by decide)
  have cast : due before after =
      ((after.length+1) * (residues (before ++ 0 :: 0 :: after)).1 : Nat) -
        (residues (before ++ 0 :: 0 :: after)).2 := by
    rw [due]
    push_cast
    rfl
  rw [Int.bmod_eq_of_le] <;> omega

/-- For any buffer, and any offset but the one that stands for a validation. -/
theorem checksum_exact (bytes : List UInt8) (offset : UInt16)
    (room : offset.toNat + 2 ≤ bytes.length) (index : offset ≠ fletcherChecksumValidate) :
    let o := offset.toNat
    let d := due (bytes.take o) (bytes.drop (o+2))
    let hw := fletcherChecksum bytes offset
    (valid hw ↔ Int.bmod d (2 ^ 32) ≡ d [ZMOD 255]) ∧
    hw[o]? ≠ some 0 ∧ hw[o+1]? ≠ some 0 ∧
    residues bytes = (total bytes % 255,weighted bytes % 255) ∧ Fits bytes.length bytes 0 0 ∧
    ∀ lsa : List UInt8, 18 ≤ lsa.length → lsa.length < 2 ^ 16 →
      ospfLsaChecksumValid (ospfLsaChecksum lsa) := by
  obtain ⟨before,after,x,y,fst,rest,place,some,some',eq,ok⟩ := written_valid_iff room index
  dsimp only
  rw [eq,← fst,← rest,place]
  exact ⟨ok,by simpa using some,by simpa using some',residues_eq bytes,
    fits _ _ (by decide) (by decide),fun _ => ospfLsaChecksum_valid⟩

theorem checksum_exact_two : valid (fletcherChecksum [3,0,0,5] 1) :=
  (checksum_exact [3,0,0,5] 1 (by decide) (by decide)).1.mpr (by decide)

theorem sums_zeros (n : Nat) : total (replicate n 0) = 0 ∧ weighted (replicate n 0) = 0 := by
  induction n with
  | zero => exact ⟨rfl,rfl⟩
  | succ n ih => simpa [replicate_succ,total,weighted] using ih

theorem zeros_invalid (n : Nat) : valid (1 :: replicate n 0) = false := by
  simp [valid,residues_eq,total,sums_zeros]

theorem long_invalid {n : Nat} (cast : ¬Int.bmod ((n+1) * 254) (2 ^ 32) ≡ (n+1) * 254 [ZMOD 255]) :
    valid (fletcherChecksum (0 :: 0 :: (replicate n 0 ++ [254])) 0) = false := by
  have val : due [] (replicate n 0 ++ [254]) = (n+1) * 254 := by
    simp [due,residues_eq,total,weighted,total_append,weighted_append,sums_zeros]
    ring
  have room : (0 : UInt16).toNat + 2 ≤ (0 :: 0 :: (replicate n (0 : UInt8) ++ [254])).length := by
    simp
  obtain ⟨_,_,x,y,rfl,rfl,-,-,-,eq,ok⟩ := written_valid_iff room (by decide)
  rw [eq,Bool.eq_false_iff,Ne,ok,UInt16.toNat_zero,take_zero]
  rwa [← val] at cast

/-- At the offset 65535 nothing is written. In a long buffer the cast changes the remainder. -/
theorem checksum_unwritten : (let bytes : List UInt8 := 1 :: replicate 65536 0
    fletcherChecksum bytes 0xffff = bytes ∧ valid bytes = false) ∧
    valid (fletcherChecksum (0 :: 0 :: (replicate 8454660 0 ++ [254])) 0) = false :=
  ⟨⟨rfl,zeros_invalid 65536⟩,long_invalid (by decide)⟩

end

end Frr.Fletcher
