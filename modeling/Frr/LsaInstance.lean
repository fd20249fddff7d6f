import Frr.Lsa
import Frr.Fletcher

/-! Instances of LSAs: checksum, age, and which is more recent. Moments are in microseconds. -/
namespace Frr

namespace Lsa

def summaryLsa : UInt8 := 3
def asbrSummaryLsa : UInt8 := 4
def asExternalLsa : UInt8 := 5
def asNssaLsa : UInt8 := 7
def opaqueLinkLsa : UInt8 := 9
def opaqueAreaLsa : UInt8 := 10
def opaqueAsLsa : UInt8 := 11

/-- `OSPF_MIN_LSA` and `OSPF_MAX_LSA`: the types the database has tables for. -/
def minLsa : UInt8 := 1
def maxLsa : UInt8 := 15

/-- `IS_OPAQUE_LSA`. -/
def isOpaque (type : UInt8) : Bool :=
  type = opaqueLinkLsa ∨ type = opaqueAreaLsa ∨ type = opaqueAsLsa

def initialSequenceNumber : UInt32 := 0x80000001
def maxSequenceNumber : UInt32 := 0x7fffffff

def bytesOf32 (x : UInt32) : List UInt8 :=
  [(x >>> 24).toUInt8, (x >>> 16).toUInt8, (x >>> 8).toUInt8, x.toUInt8]

def bytesOf16 (x : UInt16) : List UInt8 := [(x >>> 8).toUInt8, x.toUInt8]

def fieldBytes (lsa : Lsa) : List UInt8 :=
  [lsa.options, lsa.type] ++ bytesOf32 lsa.id ++ bytesOf32 lsa.advRouter ++
    bytesOf32 lsa.lsSeqnum

def checkedBytes (lsa : Lsa) : List UInt8 :=
  lsa.fieldBytes ++ (bytesOf16 lsa.checksum ++ (bytesOf16 lsa.length ++
    (lsa.body.flatMap bytesOf32).take (lsa.length.toNat-headerSize)))

def checksumValid (lsa : Lsa) : Bool := Fletcher.valid lsa.checkedBytes

def checksumOffset : Nat := 14

/-- `ospf_lsa_checksum`, which writes what it computes into the header. -/
def withChecksum (lsa : Lsa) : Lsa :=
  let c := Fletcher.checksum lsa.checkedBytes checksumOffset
  {lsa with checksum := UInt16.ofNat (c.1.toNat * 256 + c.2.toNat)}

/-- They differ only where a byte is zero in the one and 255 in the other. -/
theorem checksum_le_withChecksum {lsa : Lsa} (ok : lsa.checksumValid) :
    lsa.checksum ≤ lsa.withChecksum.checksum := by
  have off : lsa.fieldBytes.length = checksumOffset := by
    simp [fieldBytes,bytesOf32,checksumOffset]
  have bytes : lsa.checkedBytes = lsa.fieldBytes ++ (lsa.checksum >>> 8).toUInt8 ::
      lsa.checksum.toUInt8 :: (bytesOf16 lsa.length ++
        (lsa.body.flatMap bytesOf32).take (lsa.length.toNat-headerSize)) := rfl
  rw [checksumValid,bytes] at ok
  obtain ⟨fst,snd⟩ := Fletcher.carried_le ok
  obtain ⟨high,high'⟩ := Fletcher.checksum_le lsa.checkedBytes checksumOffset
  rw [off,← bytes] at fst snd
  have parts : lsa.checksum.toNat =
      (lsa.checksum >>> 8).toUInt8.toNat * 256 + lsa.checksum.toUInt8.toNat := by
    have hb := lsa.checksum.toNat_lt
    simp only [UInt16.toNat_toUInt8,UInt16.toNat_shiftRight,Nat.shiftRight_eq_div_pow]
    have eight : (8 : UInt16).toNat % 16 = 8 := rfl
    rw [eight]
    omega
  have range : UInt16.size = 65536 := rfl
  rw [UInt16.le_iff_toNat_le,withChecksum,UInt16.toNat_ofNat_of_lt' (by omega)]
  omega

end Lsa

/-- `struct ospf_lsa` with the flags that decide what becomes of it. An LSA of the whole autonomous
system has no area. -/
structure Instance where
  data : Lsa
  tvRecv : Nat
  tvOrig : Nat
  self : Bool
  selfChecked : Bool
  received : Bool
  localXlt : Bool
  prematureAge : Bool
  area : Option Nat
  oi : Option Nat
  deriving DecidableEq, Inhabited

namespace Instance

variable (now : Nat)

section

variable (lsa : Instance)

def key : LsaKey := lsa.data.key

/-- `ospf_lsa_new` at a moment. -/
def new (data : Lsa) : Instance :=
  { data := data, tvRecv := now, tvOrig := now, self := false, selfChecked := false,
    received := false, localXlt := false, prematureAge := false, area := none, oi := none }

def getAge : Nat := lsa.data.lsAge.toNat + (now-lsa.tvRecv) / 1000000

def lsAge : Nat := min Lsa.maxAge (lsa.getAge now)

/-- `IS_LSA_MAXAGE`. -/
def isMaxAge : Bool := lsa.lsAge now = Lsa.maxAge

def seqnum : Int := lsa.data.lsSeqnum.toInt32.toInt

end

def maxAgeDiff : Nat := 900

/-- `ospf_lsa_more_recent` of two instances: positive if the first is more recent. -/
def moreRecent (l1 l2 : Instance) : Int :=
  if l2.seqnum < l1.seqnum then 1
  else if l1.seqnum < l2.seqnum then -1
  else if l1.data.checksum ≠ l2.data.checksum then
    (l1.data.checksum.toNat : Int) - l2.data.checksum.toNat
  else if l1.isMaxAge now ∧ ¬ l2.isMaxAge now then 1
  else if ¬ l1.isMaxAge now ∧ l2.isMaxAge now then -1
  else if l2.lsAge now + maxAgeDiff < l1.lsAge now then -1
  else if l1.lsAge now + maxAgeDiff < l2.lsAge now then 1
  else 0

/-- `ospf_lsa_more_recent` where the first may be missing. -/
def moreRecentThan (l1 : Option Instance) (l2 : Instance) : Int :=
  match l1 with
  | none => -1
  | some l1 => moreRecent now l1 l2

/-- Same sequence number and checksum, and the second more recent by its age. -/
def NewerByAge (l1 l2 : Instance) : Prop :=
  ¬ l1.isMaxAge now ∧ l2.isMaxAge now ∨
    (l1.isMaxAge now ↔ l2.isMaxAge now) ∧ l2.lsAge now + maxAgeDiff < l1.lsAge now

def Newer (l1 l2 : Instance) : Prop :=
  l1.seqnum < l2.seqnum ∨
    l1.seqnum = l2.seqnum ∧
      (l1.data.checksum < l2.data.checksum ∨
        l1.data.checksum = l2.data.checksum ∧ NewerByAge now l1 l2)

instance (l1 l2 : Instance) : Decidable (NewerByAge now l1 l2) :=
  inferInstanceAs (Decidable (_ ∨ _))

instance (l1 l2 : Instance) : Decidable (Newer now l1 l2) :=
  inferInstanceAs (Decidable (_ ∨ _))

variable {now}

section

variable {l1 l2 l3 : Instance}

theorem newerByAge_iff : NewerByAge now l1 l2 ↔
    l1.lsAge now ≠ Lsa.maxAge ∧ l2.lsAge now = Lsa.maxAge ∨
      (l1.lsAge now = Lsa.maxAge ↔ l2.lsAge now = Lsa.maxAge) ∧
        l2.lsAge now + maxAgeDiff < l1.lsAge now := by
  simp only [NewerByAge,isMaxAge,decide_eq_true_eq]

/-- Sequence number, checksum and age decide, in this order. -/
theorem moreRecent_sign : (moreRecent now l1 l2 < 0 ↔ Newer now l1 l2) ∧
    (0 < moreRecent now l1 l2 ↔ Newer now l2 l1) := by
  simp only [moreRecent,Newer,newerByAge_iff,isMaxAge,decide_eq_true_eq,ne_eq,UInt16.lt_iff_toNat_lt,
    ← UInt16.toNat_inj]
  split_ifs <;> omega

/-- At MaxAge no instance is newer by its age, and below the differences add up. -/
theorem NewerByAge.trans (h : NewerByAge now l1 l2) (h' : NewerByAge now l2 l3) :
    NewerByAge now l1 l3 := by
  rw [newerByAge_iff] at h h' ⊢
  omega

theorem Newer.trans (h : Newer now l1 l2) (h' : Newer now l2 l3) : Newer now l1 l3 := by
  rcases h with hs | ⟨seq,hc | ⟨cks,age⟩⟩
  · exact .inl (hs.trans_le (h'.elim le_of_lt fun h' => h'.1.le))
  · rw [Newer,seq]
    refine h'.imp_right fun ⟨seq,h'⟩ => ⟨seq,.inl ?_⟩
    rcases h' with hc' | ⟨cks,-⟩
    · exact UInt16.lt_trans hc hc'
    · exact cks ▸ hc
  · rw [Newer,seq,cks]
    exact h'.imp_right fun ⟨seq,h'⟩ => ⟨seq,h'.imp_right fun ⟨cks,age'⟩ => ⟨cks,age.trans age'⟩⟩

theorem moreRecent_of_seqnum (hl : l1.seqnum < l2.seqnum) : moreRecent now l1 l2 < 0 :=
  moreRecent_sign.1.mpr (.inl hl)

theorem seqnum_le_of_moreRecent (hr : moreRecent now l1 l2 < 0) : l1.seqnum ≤ l2.seqnum :=
  (moreRecent_sign.1.mp hr).elim le_of_lt fun same => same.1.le

theorem moreRecent_of_checksum (hr : moreRecent now l1 l2 < 0) (seqnum : l3.seqnum = l2.seqnum)
    (age : l3.lsAge now = l2.lsAge now) (cks : l2.data.checksum ≤ l3.data.checksum) :
    moreRecent now l1 l3 < 0 := by
  rw [moreRecent_sign.1] at hr ⊢
  simp only [Newer,newerByAge_iff,seqnum,age,UInt16.lt_iff_toNat_lt,UInt16.le_iff_toNat_le,
    ← UInt16.toNat_inj] at hr cks ⊢
  omega

end

theorem moreRecent_order (now : Nat) (l1 l2 l3 : Instance) :
    (moreRecent now l1 l2).sign = -(moreRecent now l2 l1).sign ∧
    (0 < moreRecent now l1 l2 → 0 < moreRecent now l2 l3 → 0 < moreRecent now l1 l3) ∧
    (moreRecent now l1 l2 = 0 →
      l1.data.lsSeqnum = l2.data.lsSeqnum ∧ l1.data.checksum = l2.data.checksum ∧
      (l1.isMaxAge now ∧ l2.isMaxAge now ∨ l1.getAge now ≤ l2.getAge now + maxAgeDiff ∧
        l2.getAge now ≤ l1.getAge now + maxAgeDiff)) := by
  have sign := @moreRecent_sign now l1 l2
  have swapped := @moreRecent_sign now l2 l1
  refine ⟨?_,fun h h' => ?_,fun eq => ?_⟩
  · rcases lt_trichotomy (moreRecent now l1 l2) 0 with hl | eq | hg
    · rw [Int.sign_eq_neg_one_of_neg hl,Int.sign_eq_one_of_pos (swapped.2.mpr (sign.1.mp hl))]
    · have same : moreRecent now l2 l1 = 0 := by
        have := sign.1.trans swapped.2.symm
        have := sign.2.trans swapped.1.symm
        omega
      rw [eq,same]
      rfl
    · rw [Int.sign_eq_one_of_pos hg,Int.sign_eq_neg_one_of_neg (swapped.1.mpr (sign.2.mp hg))]
      rfl
  · exact moreRecent_sign.2.mpr ((moreRecent_sign.2.mp h').trans (sign.2.mp h))
  · rw [eq] at sign
    simp only [Newer,newerByAge_iff,UInt16.lt_iff_toNat_lt,← UInt16.toNat_inj] at sign
    have seq : l1.seqnum = l2.seqnum := by omega
    refine ⟨congrArg Int32.toUInt32 (Int32.toInt_inj.mp seq),UInt16.toNat_inj.mp (by omega),?_⟩
    simp only [isMaxAge,decide_eq_true_eq]
    unfold lsAge at sign ⊢
    omega

end Instance

end Frr
