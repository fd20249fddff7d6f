import Frr.Packet

/-! The links of a received router-LSA, as the SPF calculation walks over them and looks for a link
back. -/
namespace Frr.Packet

open List

/-- The LSA at an offset of a packet. -/
def lsaAt (wire : Wire) (lsah : Nat) : Lsa where
  lsAge := .ofNat (be16 wire lsah)
  options := wire (lsah+2)
  type := lsaType wire lsah
  id := .ofNat (be32 wire (lsah+4))
  advRouter := .ofNat (be32 wire (lsah+8))
  lsSeqnum := .ofNat (be32 wire (lsah+12))
  checksum := .ofNat (be16 wire (lsah+16))
  length := .ofNat (lsaLength wire lsah)
  body := (range ((lsaLength wire lsah - lsaHeaderSize) / 4)).map fun i =>
    .ofNat (be32 wire (lsah+lsaHeaderSize+4*i))

theorem be16_lt (wire : Wire) (p : Nat) : be16 wire p < 2 ^ 16 := by
  have high := (wire p).toNat_lt
  have low := (wire (p+1)).toNat_lt
  rw [be16]
  omega

theorem lsaAt_length : (lsaAt wire lsah).length.toNat = lsaLength wire lsah :=
  Nat.mod_eq_of_lt (be16_lt wire (lsah+18))

theorem lsaAt_word (hi : lsaHeaderSize + 4 * i + 4 ≤ lsaLength wire lsah) :
    (lsaAt wire lsah).word i = .ofNat (be32 wire (lsah+lsaHeaderSize+4*i)) := by
  have idx : i < (lsaLength wire lsah - lsaHeaderSize) / 4 := by omega
  simp [Lsa.word,lsaAt,idx]

theorem tosCount_eq {lsah p : Nat} (start : Lsa.headerSize ≤ p) (ha : p % 4 = 0)
    (hi : p + 12 ≤ lsaLength wire lsah) :
    linkLength wire (lsah+p) = 12 + ((lsaAt wire lsah).linkAt p).tosCount.toNat * 4 := by
  have place : lsah + lsaHeaderSize + 4 * ((p+8-Lsa.headerSize) / 4) = lsah+p+8 := by
    simp only [Lsa.headerSize,lsaHeaderSize] at *
    omega
  have byte := (wire (lsah+p+9)).toNat_lt
  have split : be16 wire (lsah+p+8) = _*256 + (wire (lsah+p+9)).toNat := rfl
  have high := be16_lt wire (lsah+p+8)
  have low := be16_lt wire (lsah+p+8+2)
  simp only [linkLength,routerLsaLinkSize,Lsa.linkAt,Lsa.wordAt]
  rw [lsaAt_word (by omega),place,be32]
  simp [Nat.shiftRight_eq_div_pow]
  omega

/-- No link before the first that points at `v`, or before the last if none does, has TOS metrics.
-/
def Flat (v : Lsa) : List RouterLink → Prop
  | [] => True
  | l :: rest => rest = [] ∨ l.pointsAt v = true ∨ l.tosCount = 0 ∧ Flat v rest

theorem Links.none_left (hl : Links wire p limit num) (hd : limit ≤ p) : num = 0 := by
  cases hl with
  | nil => rfl
  | cons hf _ =>
    have := linkLength_pos wire p
    omega

theorem linksFrom_nil {lsa : Lsa} (hen : lim < p+fuel) (he : lsa.linksFrom lim fuel p = []) :
    lim ≤ p := by
  cases fuel with
  | zero => omega
  | succ fuel =>
    rw [Lsa.linksFrom] at he
    split at he
    · cases he
    · omega

theorem hasLinkFrom_eq {v : Lsa} {lsah p num fuel i : Nat}
    (hl : Links wire (lsah+p) (lsah + lsaLength wire lsah) num)
    (place : p = Lsa.headerSize+4+i*12) (hen : lsaLength wire lsah < p+fuel)
    (hf : Flat v ((lsaAt wire lsah).linksFrom (lsaLength wire lsah) fuel p)) :
    (lsaAt wire lsah).hasLinkFrom v num i (lsaLength wire lsah - i * 12) =
      (((lsaAt wire lsah).linksFrom (lsaLength wire lsah) fuel p).findIdx?
        (·.pointsAt v)).map (· + i) := by
  induction fuel generalizing p num i with
  | zero =>
    have := hl.le
    omega
  | succ fuel ih =>
    rw [Lsa.linksFrom] at hf ⊢
    generalize lim_eq : lsah + lsaLength wire lsah = lim at hl
    generalize place' : lsah + p = q at hl
    cases hl with
    | nil => simp [Lsa.hasLinkFrom,show ¬p < lsaLength wire lsah by omega]
    | cons hfi rest =>
      subst place' lim_eq
      have hlo := linkLength_pos wire (lsah+p)
      simp only [Lsa.headerSize] at place
      have hi : p + 12 ≤ lsaLength wire lsah := by omega
      have next := tosCount_eq (by simp only [Lsa.headerSize]; omega) (by omega) hi
      have hm : p < lsaLength wire lsah := by omega
      have room : Lsa.routerLsaSize ≤ lsaLength wire lsah - i * 12 := by
        simp only [Lsa.routerLsaSize]
        omega
      simp only [hm,reduceIte,RouterLink.linkSize,RouterLink.tosSize] at hf ⊢
      rw [Lsa.hasLinkFrom,if_pos room,findIdx?_cons,RouterLink.linkSize,Lsa.headerSize,← place]
      split
      · simp
      next other =>
      rw [next,Nat.add_assoc lsah,← Nat.add_assoc p] at rest
      rcases hf with he | hit | ⟨zero,hf⟩
      · have none := rest.none_left (Nat.add_le_add_left (linksFrom_nil (by omega) he) lsah)
        simp [he,none,Lsa.hasLinkFrom]
      · exact absurd hit other
      · rw [zero,UInt8.toNat_zero,Nat.zero_mul,Nat.add_zero] at rest hf ⊢
        have hla := ih rest (i := i+1) (by simp only [Lsa.headerSize]; omega) (by omega) hf
        rw [Nat.sub_sub,show i * 12 + 12 = (i+1) * 12 by omega,hla]
        cases findIdx? _ _ <;> simp [Nat.add_assoc,Nat.add_comm 1]

/-- A router-LSA with point-to-point links to the routers 2 and 3, the first with the given TOS
metrics. -/
def routerLsaWire (metrics : List UInt8) : Wire := fun p =>
  ([0,0,0,1,0,0,0,1,0,0,0,1,0x80,0,0,1,0,0,0,48+metrics.length.toUInt8,0,0,0,2,
    0,0,0,2,0,0,0,0,1,metrics.length.toUInt8/4,0,10] ++ metrics ++
    [0,0,0,3,0,0,0,0,1,0,0,10]).getD p 0

end Frr.Packet
