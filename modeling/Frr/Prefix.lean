import Frr.RadixTree
import Mathlib.Tactic.IntervalCases

/-! Prefixes as `lib/prefix.c` and `lib/table.c` compute with them, and the strings of bits they
stand for. -/
namespace Frr

namespace Prefix

/-- Bit `j` of a byte, counted from the most significant one. -/
def byteBit (x : UInt8) (j : Nat) : Bool := (x >>> UInt8.ofNat (7-j)) &&& 1 ≠ 0

def prefixBit (val : List UInt8) (i : Nat) : Bool := byteBit (val.getD (i/8) 0) (i%8)

def maskbit : List UInt8 := [0x00,0x80,0xc0,0xe0,0xf0,0xf8,0xfc,0xfe,0xff]

/-! ### Bits of bytes -/

theorem forall_byte {P : UInt8 → Prop} (all : ∀ n : Fin 256, P (UInt8.ofNat n)) (x : UInt8) :
    P x := by
  simpa using all ⟨x.toNat,x.toNat_lt⟩

theorem byteBit_eq (x : UInt8) (j : Nat) (byte : j < 8) :
    byteBit x j = x.toBitVec.getLsbD (7-j) := by
  revert x
  apply forall_byte
  revert j
  decide +kernel

theorem byteBit_xor (x y : UInt8) (j : Nat) (byte : j < 8) :
    byteBit (x ^^^ y) j = (byteBit x j ^^ byteBit y j) := by
  simp [byteBit_eq _ _ byte]

theorem byteBit_and_maskbit (s : Nat) (le : s < 9) (x : UInt8) (j : Nat) (byte : j < 8) :
    byteBit (x &&& maskbit.getD s 0) j = (byteBit x j && decide (j < s)) := by
  have mask : byteBit (maskbit.getD s 0) j = decide (j < s) := by
    revert s j
    decide
  simp only [byteBit_eq _ _ byte,UInt8.toBitVec_and,BitVec.getLsbD_and] at mask ⊢
  rw [mask]

theorem byteBit_zero (j : Nat) (byte : j < 8) : byteBit 0 j = false := by
  revert j
  decide

theorem byte_ext (x y : UInt8) (eq : ∀ j < 8, byteBit x j = byteBit y j) : x = y := by
  refine UInt8.eq_of_toBitVec_eq (BitVec.eq_of_getLsbD_eq fun i hb => ?_)
  have hh := eq (7-i) (by omega)
  have back : 7 - (7-i) = i := by omega
  rwa [byteBit_eq _ _ (by omega),byteBit_eq _ _ (by omega),back] at hh

theorem maskbit_and_eq_zero (s : Nat) (le : s < 9) (x : UInt8) :
    maskbit.getD s 0 &&& x = 0 ↔ ∀ j < s, byteBit x j = false := by
  rw [UInt8.and_comm]
  constructor
  · intro none j low
    have bit := byteBit_and_maskbit s le x j (by omega)
    rw [none,byteBit_zero j (by omega)] at bit
    simpa [low] using bit.symm
  · intro none
    refine byte_ext _ _ fun j byte => ?_
    rw [byteBit_and_maskbit s le x j byte,byteBit_zero j byte]
    by_cases low : j < s
    · simp [none j low]
    · simp [low]

theorem byte_eq_iff (m n : List UInt8) (i : Nat) :
    m.getD i 0 = n.getD i 0 ↔ ∀ j < 8, prefixBit m (8*i+j) = prefixBit n (8*i+j) := by
  have idx (j : Nat) (byte : j < 8) : (8*i+j) / 8 = i ∧ (8*i+j) % 8 = j := by omega
  constructor
  · intro eq j byte
    simp only [prefixBit,idx j byte,eq]
  intro eq
  refine byte_ext _ _ fun j byte => ?_
  have hh := eq j byte
  simpa [prefixBit,idx j byte] using hh

theorem bytes_eq_iff (m l : List UInt8) (n : Nat) :
    (∀ i < n, m.getD i 0 = l.getD i 0) ↔ ∀ i < 8*n, prefixBit m i = prefixBit l i := by
  constructor
  · intro eq i hl
    have hh := (byte_eq_iff m l (i/8)).mp (eq _ (by omega)) (i%8) (by omega)
    rwa [Nat.div_add_mod] at hh
  intro eq i hl
  exact (byte_eq_iff m l i).mpr fun j byte => eq _ (by omega)

end Prefix

/-- `struct prefix` with addresses of `width` bytes, the bits after the prefix being zero. -/
structure Prefix (width : Nat) where
  prefixlen : Nat
  val : List UInt8
  size : val.length = width
  short : prefixlen ≤ 8*width
  masked : ∀ i, prefixlen ≤ i → i < 8*width → Prefix.prefixBit val i = false
  deriving DecidableEq

namespace Prefix

variable {width : Nat}

theorem ext_bits {n p : Prefix width} (len : n.prefixlen = p.prefixlen)
    (hs : ∀ i < n.prefixlen, prefixBit n.val i = prefixBit p.val i) : n = p := by
  have all : ∀ i < 8*width, prefixBit n.val i = prefixBit p.val i := fun i hl => by
    by_cases hi : i < n.prefixlen
    · exact hs i hi
    · rw [n.masked i (by omega) hl,p.masked i (by omega) hl]
  have bytes := (bytes_eq_iff n.val p.val width).mpr all
  have eq : n.val = p.val := by
    refine List.ext_getElem (n.size.trans p.size.symm) fun i left right => ?_
    have hh := bytes i (n.size ▸ left)
    simpa [List.getD_eq_getElem?_getD,List.getElem?_eq_getElem left,List.getElem?_eq_getElem right,Option.getD_some] using hh
  obtain ⟨_,_,_,_,_⟩ := n
  obtain ⟨_,_,_,_,_⟩ := p
  cases len
  cases eq
  rfl

/-- `offset` whole bytes and `shift` bits of the next one, as `prefix_match` and `prefix_cmp`
compare. -/
def sameBits (np pp : List UInt8) (len : Nat) : Bool :=
  let offset := len/8
  let shift := len%8
  if shift ≠ 0 ∧ maskbit.getD shift 0 &&& (np.getD offset 0 ^^^ pp.getD offset 0) ≠ 0 then false
  else (List.range offset).all fun i => np.getD i 0 = pp.getD i 0

def prefixMatch (n p : Prefix width) : Bool :=
  if p.prefixlen < n.prefixlen then false else sameBits n.val p.val n.prefixlen

/-- `prefix_cmp`, true for 0. -/
def prefixCmp (n p : Prefix width) : Bool :=
  if n.prefixlen ≠ p.prefixlen then false else sameBits n.val p.val n.prefixlen

theorem sameBits_iff (m l : List UInt8) (len : Nat) :
    sameBits m l len ↔ ∀ i < len, prefixBit m i = prefixBit l i := by
  have mod : len % 8 < 9 := by omega
  have split : (∀ i < len, prefixBit m i = prefixBit l i) ↔
      (∀ i < 8 * (len/8), prefixBit m i = prefixBit l i) ∧
        ∀ j < len%8, prefixBit m (8 * (len/8) + j) = prefixBit l (8 * (len/8) + j) := by
    constructor
    · exact fun all => ⟨fun i hl => all i (by omega),fun j hl => all _ (by omega)⟩
    rintro ⟨hw,part⟩ i hl
    rcases lt_or_ge i (8 * (len/8)) with hi | hb
    · exact hw i hi
    obtain ⟨j,rfl⟩ := Nat.exists_eq_add_of_le hb
    exact part j (by omega)
  have part : maskbit.getD (len%8) 0 &&& (m.getD (len/8) 0 ^^^ l.getD (len/8) 0) = 0 ↔
      ∀ j < len%8, prefixBit m (8 * (len/8) + j) = prefixBit l (8 * (len/8) + j) := by
    rw [maskbit_and_eq_zero _ mod]
    refine forall₂_congr fun j hl => ?_
    have idx : (8 * (len/8) + j) / 8 = len/8 ∧ (8 * (len/8) + j) % 8 = j := by omega
    rw [byteBit_xor _ _ _ (by omega),prefixBit,prefixBit,idx.1,idx.2]
    cases byteBit (m.getD (len/8) 0) j <;> cases byteBit (l.getD (len/8) 0) j <;> decide
  have hw : ((List.range (len/8)).all fun i => m.getD i 0 = l.getD i 0) = true ↔
      ∀ i < 8 * (len/8), prefixBit m i = prefixBit l i := by
    rw [← bytes_eq_iff]
    simp
  rw [split,sameBits]
  split
  · next hd =>
    simp only [Bool.false_eq_true,false_iff,not_and]
    exact fun _ eq => hd.2 (part.mpr eq)
  next agrees =>
  rw [hw]
  refine (and_iff_left ?_).symm
  by_cases none : len % 8 = 0
  · exact fun j hl => absurd hl (by omega)
  · exact part.mp (not_not.mp fun hd => agrees ⟨none,hd⟩)

/-! ### What two prefixes have in common -/

/-- The first loop of `route_common`, from byte `i` on. -/
def commonBytes (np pp : List UInt8) (i : Nat) : Nat → Nat
  | 0 => i
  | left + 1 => if np.getD i 0 = pp.getD i 0 then commonBytes np pp (i+1) left else i

/-- The second loop of `route_common`: how many bits it goes on. -/
def commonBits (diff mask : UInt8) : Nat → Nat
  | 0 => 0
  | left + 1 => if mask &&& diff = 0 then commonBits diff (mask >>> 1) left + 1 else 0

theorem commonBytes_spec (m l : List UInt8) (i left : Nat) :
    i ≤ commonBytes m l i left ∧ commonBytes m l i left ≤ i+left ∧
      (∀ j, i ≤ j → j < commonBytes m l i left → m.getD j 0 = l.getD j 0) ∧
      (commonBytes m l i left < i+left →
        m.getD (commonBytes m l i left) 0 ≠ l.getD (commonBytes m l i left) 0) := by
  induction left generalizing i with
  | zero => exact ⟨le_rfl,le_rfl,fun j from_ hu => absurd hu (by rw [commonBytes]; omega),
      fun hl => absurd hl (by rw [commonBytes]; omega)⟩
  | succ left ih =>
    rw [commonBytes]
    split
    · next same =>
      obtain ⟨hlo,upper,eq,hd⟩ := ih (i+1)
      refine ⟨by omega,by omega,fun j from_ hu => ?_,fun hl => hd (by omega)⟩
      rcases Nat.eq_or_lt_of_le from_ with rfl | hla
      · exact same
      · exact eq j hla hu
    · next hd => exact ⟨le_rfl,by omega,fun j from_ hu => by omega,fun _ => hd⟩

/-- The mask after `j` steps. -/
def maskAt (j : Nat) : UInt8 := (fun x : UInt8 => x >>> 1)^[j] 0x80

theorem maskAt_succ (j : Nat) : maskAt (j+1) = maskAt j >>> 1 := Function.iterate_succ_apply' _ _ _

theorem maskAt_and_eq_zero (j : Nat) (byte : j < 8) (x : UInt8) :
    maskAt j &&& x = 0 ↔ byteBit x j = false := by
  revert x
  apply forall_byte
  revert j
  decide +kernel

theorem commonBits_spec (diff : UInt8) (left j : Nat)
    (he : j + left ≤ 8 ∨ ∃ k, j ≤ k ∧ k < 8 ∧ byteBit diff k) :
    commonBits diff (maskAt j) left ≤ left ∧
      (∀ k, j ≤ k → k < j + commonBits diff (maskAt j) left → k < 8 ∧ byteBit diff k = false) ∧
      (commonBits diff (maskAt j) left < left → j + commonBits diff (maskAt j) left < 8 ∧
        byteBit diff (j + commonBits diff (maskAt j) left)) := by
  induction left generalizing j with
  | zero => exact ⟨le_rfl,fun k from_ hu => absurd hu (by rw [commonBits]; omega),nofun⟩
  | succ left ih =>
    have byte : j < 8 := by
      rcases he with hs | ⟨k,from_,byte,-⟩ <;> omega
    rw [commonBits]
    split
    · next same =>
      rw [maskAt_and_eq_zero j byte] at same
      rw [← maskAt_succ]
      obtain ⟨upper,eq,hd⟩ := ih (j+1) (by
        rcases he with hs | ⟨k,from_,byte,set⟩
        · exact .inl (by omega)
        refine .inr ⟨k,lt_of_le_of_ne from_ ?_,byte,set⟩
        rintro rfl
        exact nomatch same.symm.trans set)
      refine ⟨by omega,fun k from_ hu => ?_,fun hle => ?_⟩
      · rcases Nat.eq_or_lt_of_le from_ with rfl | hl
        · exact ⟨byte,same⟩
        · exact eq k hl (by omega)
      have hl := hd (by omega)
      rwa [add_assoc,add_comm 1] at hl
    · next set =>
      rw [maskAt_and_eq_zero j byte,Bool.not_eq_false] at set
      exact ⟨by omega,fun k from_ hu => by omega,fun _ => ⟨byte,set⟩⟩

section

variable (n p : Prefix width)

/-- The length that `route_common` arrives at. -/
def commonLen : Nat :=
  let i := commonBytes n.val p.val 0 (p.prefixlen/8)
  if i * 8 ≠ p.prefixlen then
    i * 8 + commonBits (n.val.getD i 0 ^^^ p.val.getD i 0) 0x80 (p.prefixlen-i*8)
  else i * 8

theorem commonLen_spec : commonLen n p ≤ p.prefixlen ∧
      (∀ i < commonLen n p, prefixBit n.val i = prefixBit p.val i) ∧
      (commonLen n p < p.prefixlen →
        prefixBit n.val (commonLen n p) ≠ prefixBit p.val (commonLen n p)) ∧
      commonLen n p / 8 = commonBytes n.val p.val 0 (p.prefixlen/8) := by
  obtain ⟨-,upper,equal,hd⟩ := commonBytes_spec n.val p.val 0 (p.prefixlen/8)
  rw [commonLen]
  generalize commonBytes n.val p.val 0 (p.prefixlen/8) = i at *
  have hw : ∀ k < 8*i, prefixBit n.val k = prefixBit p.val k :=
    (bytes_eq_iff _ _ _).mp fun j hl => equal j (Nat.zero_le j) hl
  split
  · next part =>
    generalize split : n.val.getD i 0 ^^^ p.val.getD i 0 = diff
    have bit (j : Nat) (byte : j < 8) : byteBit diff j =
        (prefixBit n.val (8*i+j) ^^ prefixBit p.val (8*i+j)) := by
      have idx : (8*i+j) / 8 = i ∧ (8*i+j) % 8 = j := by omega
      rw [← split,byteBit_xor _ _ _ byte,prefixBit,prefixBit,idx.1,idx.2]
    have he : p.prefixlen - i * 8 < 8 ∨ ∃ k < 8, byteBit diff k := by
      rcases Nat.lt_or_ge i (p.prefixlen/8) with hl | all
      · -- A whole byte differs, so one of its bits does.
        have ho := hd (by omega)
        rw [ne_eq,byte_eq_iff] at ho
        push Not at ho
        obtain ⟨k,byte,ne⟩ := ho
        refine .inr ⟨k,byte,?_⟩
        rw [bit k byte]
        simpa using ne
      · exact .inl (by omega)
    obtain ⟨hf,ha,hs⟩ := commonBits_spec diff (p.prefixlen-i*8) 0
      (he.imp (by omega) fun ⟨k,byte,set⟩ => ⟨k,Nat.zero_le k,byte,set⟩)
    have start : maskAt 0 = 0x80 := rfl
    rw [start] at hf ha hs
    generalize commonBits diff 0x80 (p.prefixlen-i*8) = more at *
    have hsm : more < 8 := by
      rcases he with hsh | ⟨k,byte,set⟩
      · omega
      by_contra large
      exact nomatch (ha k (Nat.zero_le k) (by omega)).2.symm.trans set
    refine ⟨by omega,fun k hl => ?_,fun hl => ?_,by omega⟩
    · rcases Nat.lt_or_ge k (8*i) with hi | hb
      · exact hw k hi
      obtain ⟨j,rfl⟩ := Nat.exists_eq_add_of_le hb
      obtain ⟨byte,eq⟩ := ha j (Nat.zero_le j) (by omega)
      rw [bit j byte] at eq
      simpa using eq
    · obtain ⟨byte,set⟩ := hs (by omega)
      rw [bit _ byte] at set
      have idx : i * 8 + more = 8*i + (0+more) := by omega
      rw [idx]
      simpa using set
  · next exact_ =>
    exact ⟨by omega,fun k hl => hw k (by omega),fun hl => by omega,by omega⟩

/-- Byte `j` that `route_common` leaves in the new prefix, zero before. -/
def commonByte (j : Nat) : UInt8 :=
  let i := commonBytes n.val p.val 0 (p.prefixlen/8)
  if j < i then n.val.getD j 0
  else if j = i ∧ i*8 ≠ p.prefixlen then n.val.getD i 0 &&& maskbit.getD (commonLen n p % 8) 0
  else 0

def commonVal : List UInt8 := (List.range width).map (commonByte n p)

theorem prefixBit_commonVal (i : Nat) (hi : i < 8*width) :
    prefixBit (commonVal n p) i = (prefixBit n.val i && decide (i < commonLen n p)) := by
  obtain ⟨upper,-,-,hw⟩ := commonLen_spec n p
  have byte : (commonVal n p).getD (i/8) 0 = commonByte n p (i/8) := by
    have hl : i / 8 < width := by omega
    simp [commonVal,List.getD_eq_getElem?_getD,hl]
  have zero : byteBit 0 (i%8) = false := byteBit_zero _ (by omega)
  have wholly : commonBytes n.val p.val 0 (p.prefixlen/8) * 8 = p.prefixlen →
      commonLen n p = p.prefixlen := fun he => by
    rw [commonLen,if_neg (not_not.mpr he)]
    exact he
  rw [prefixBit,byte,commonByte]
  generalize commonBytes n.val p.val 0 (p.prefixlen/8) = bytes at *
  split
  · next before =>
    have hl : i < commonLen n p := by omega
    simp [prefixBit,hl]
  split
  · next hh =>
    rw [byteBit_and_maskbit _ (by omega) _ _ (by omega),← hh.1,prefixBit]
    congr 1
    exact decide_eq_decide.mpr ⟨fun hl => by omega,fun hl => by omega⟩
  next after =>
  have hb : ¬ i < commonLen n p := fun hl => after (by
    have hh : i / 8 = bytes := by omega
    refine ⟨hh,fun he => ?_⟩
    have := wholly he
    omega)
  rw [zero]
  simp [hb]

def routeCommon : Prefix width where
  prefixlen := commonLen n p
  val := commonVal n p
  size := by simp [commonVal]
  short := (commonLen_spec n p).1.trans p.short
  masked := fun i beyond inside => by
    rw [prefixBit_commonVal n p i inside]
    simp [Nat.not_lt.mpr beyond]

end

/-! ### The strings of bits -/

def bits (p : Prefix width) : List Bool := (List.range p.prefixlen).map (prefixBit p.val)

@[simp] theorem length_bits (p : Prefix width) : (bits p).length = p.prefixlen := by simp [bits]

theorem getElem?_bits (p : Prefix width) (i : Nat) (hl : i < p.prefixlen) :
    (bits p)[i]? = some (prefixBit p.val i) := by
  simp [bits,hl]

theorem bits_prefix_iff (n p : Prefix width) :
    bits n <+: bits p ↔ n.prefixlen ≤ p.prefixlen ∧
      ∀ i < n.prefixlen, prefixBit n.val i = prefixBit p.val i := by
  constructor
  · intro hc
    have hs : n.prefixlen ≤ p.prefixlen := by simpa using hc.length_le
    refine ⟨hs,fun i hl => ?_⟩
    have hh := List.prefix_iff_getElem?.mp hc i (by simpa using hl)
    rw [getElem?_bits p i (by omega),Option.some.injEq] at hh
    simpa [bits] using hh.symm
  · rintro ⟨hs,eq⟩
    refine List.prefix_iff_getElem?.mpr fun i hl => ?_
    rw [length_bits] at hl
    rw [getElem?_bits p i (by omega),← eq i hl]
    simp [bits]

theorem commonLen_less (n p : Prefix width) (ha : ¬ bits n <+: bits p) :
    commonLen n p < n.prefixlen := by
  obtain ⟨upper,eq,-⟩ := commonLen_spec n p
  by_contra longer
  exact ha ((bits_prefix_iff n p).mpr ⟨by omega,fun i hl => eq i (by omega)⟩)

theorem prefixBit_routeCommon (n p : Prefix width) (i : Nat) (hl : i < commonLen n p) :
    prefixBit (routeCommon n p).val i = prefixBit n.val i := by
  have hi := (commonLen_spec n p).1.trans p.short
  have hh := prefixBit_commonVal n p i (by omega)
  simpa [routeCommon,hl] using hh

instance : RadixTree.Key (Prefix width) where
  bits := bits
  length := prefixlen
  bit := fun p => prefixBit p.val
  covers := prefixMatch
  common := routeCommon
  bits_injective := fun n p same => by
    have both := (bits_prefix_iff n p).mp (same ▸ List.prefix_refl _)
    have len : n.prefixlen = p.prefixlen := by
      have := congrArg List.length same
      simpa using this
    exact ext_bits len both.2
  length_eq := fun p => (length_bits p).symm
  bit_eq := getElem?_bits
  covers_iff := fun n p => by
    rw [bits_prefix_iff,prefixMatch,← sameBits_iff]
    split
    · next longer => simp [longer]
    · next shorter => simp [Nat.not_lt.mp shorter]
  common_left := fun n p apart =>
    (bits_prefix_iff _ _).mpr ⟨(commonLen_less n p apart).le,prefixBit_routeCommon n p⟩
  common_right := fun n p _ => by
    obtain ⟨upper,same,-⟩ := commonLen_spec n p
    exact (bits_prefix_iff _ _).mpr ⟨upper,fun i less =>
      (prefixBit_routeCommon n p i less).trans (same i less)⟩
  common_apart := fun n p _ other => by
    obtain ⟨upper,-,differs,-⟩ := commonLen_spec n p
    exact differs (lt_of_le_of_ne upper other)

theorem prefixCmp_iff (n p : Prefix width) : prefixCmp n p ↔ n = p := by
  rw [prefixCmp]
  split
  · next other => simpa using fun eq : n = p => other (congrArg prefixlen eq)
  next len =>
  rw [sameBits_iff]
  constructor
  · exact ext_bits (not_not.mp len)
  rintro rfl
  exact fun _ _ => rfl

end Prefix

end Frr
