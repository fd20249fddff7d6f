import Frr.ByteMemory
import Frr.LsaInstance

/-! Received packets: what `ospf_packet_examin` checks, and which bytes the parsers read. Offsets
are from the OSPF header on. -/
namespace Frr.Packet

abbrev Wire := ByteMemory.Memory

section

variable (wire : Wire)

def be16 (p : Nat) : Nat := (wire p).toNat * 256 + (wire (p+1)).toNat

def be32 (p : Nat) : Nat := be16 wire p * 65536 + be16 wire (p+2)

/-- `MSG_OK` and everything else a verdict can be compared to it. -/
inductive Verdict where
  | ok
  | ng
  deriving DecidableEq

/-- The uninitialised `ret` of `ospf_lsa_examin` for the LSA at an offset. -/
abbrev Stack := Nat → Verdict

def headerSize : Nat := 24
def authMd5Size : Nat := 16
def helloMinSize : Nat := 20
def dbDescMinSize : Nat := 8
def lsReqMinSize : Nat := 0
def lsUpdMinSize : Nat := 4
def lsAckMinSize : Nat := 0
def lsaKeySize : Nat := 12
def lsaHeaderSize : Nat := 20
def routerLsaLinkSize : Nat := 12
def routerLsaMinSize : Nat := 4
def networkLsaMinSize : Nat := 8
def summaryLsaMinSize : Nat := 8
def asExternalLsaMinSize : Nat := 16

def ospfVersion : UInt8 := 2
def authCryptographic : Nat := 2

def msgHello : UInt8 := 1
def msgDbDesc : UInt8 := 2
def msgLsReq : UInt8 := 3
def msgLsUpd : UInt8 := 4
def msgLsAck : UInt8 := 5

def packetMinlen : List Nat :=
  [0,helloMinSize,dbDescMinSize,lsReqMinSize,lsUpdMinSize,lsAckMinSize]

def lsaMinlen : List Nat :=
  [0,routerLsaMinSize,networkLsaMinSize,summaryLsaMinSize,summaryLsaMinSize,
    asExternalLsaMinSize,0,asExternalLsaMinSize,0,0,0,0,0,0,0]

def lsaMinlenOf (type : UInt8) : Nat := lsaMinlen.getD type.toNat 0

def lsaType (lsah : Nat) : UInt8 := wire (lsah+3)

def lsaLength (lsah : Nat) : Nat := be16 wire (lsah+18)

/-- The link block at `link` with its TOS entries. -/
def linkLength (link : Nat) : Nat :=
  routerLsaLinkSize + 4 * (wire (link+9)).toNat

/-- The loop of `ospf_router_lsa_links_examin`; none on a length error. -/
def countLinks (wire : Wire) : Nat → Nat → Nat → Option Nat
  | 0, _, _ => none
  | fuel + 1, link, linkbytes =>
    if linkbytes = 0 then some 0
    else if linkbytes < linkLength wire link then none
    else (countLinks wire fuel (link + linkLength wire link)
      (linkbytes - linkLength wire link)).map (· + 1)

def routerLsaLinksExamin (link linkbytes numLinks : Nat) : Verdict :=
  if countLinks wire (linkbytes+1) link linkbytes = some numLinks then .ok else .ng

end

def verdict (good : Prop) [Decidable good] : Verdict := if good then .ok else .ng

section

variable (wire : Wire) (stack : Stack) (lsah lsalen : Nat) (headeronly : Bool)

/-- The `switch` of `ospf_lsa_examin`. An unlisted type leaves `ret` as it was on the stack. -/
def lsaAlignment : Verdict :=
  let type := lsaType wire lsah
  if type = Lsa.routerLsa then
    if headeronly then verdict ((lsalen-lsaHeaderSize-routerLsaMinSize) % 4 = 0)
    else routerLsaLinksExamin wire (lsah+lsaHeaderSize+4) (lsalen-lsaHeaderSize-4)
      (be16 wire (lsah+22))
  else if type = Lsa.asExternalLsa ∨ type = Lsa.asNssaLsa then
    verdict ((lsalen-lsaHeaderSize-asExternalLsaMinSize) % 12 = 0)
  else if type = Lsa.networkLsa ∨ type = Lsa.summaryLsa ∨ type = Lsa.asbrSummaryLsa ∨
      Lsa.isOpaque type then
    verdict (lsalen%4 = 0)
  else stack lsah

def lsaExamin : Verdict :=
  let minlen := lsaMinlenOf (lsaType wire lsah)
  if lsaType wire lsah < Lsa.maxLsa ∧ minlen ≠ 0 ∧ lsalen < lsaHeaderSize+minlen then .ng
  else lsaAlignment wire stack lsah lsalen headeronly

end

/-- The loop of `ospf_lsaseq_examin`; none where it gives up. -/
def countLsas (wire : Wire) (stack : Stack) (headeronly : Bool) : Nat → Nat → Nat → Option Nat
  | 0, _, _ => none
  | fuel + 1, lsah, length =>
    if length = 0 then some 0
    else if length < lsaHeaderSize then none
    else if lsaLength wire lsah < lsaHeaderSize then none
    else if headeronly then
      if lsaExamin wire stack lsah (lsaLength wire lsah) true ≠ .ok then none
      else (countLsas wire stack headeronly fuel (lsah+lsaHeaderSize)
        (length-lsaHeaderSize)).map (· + 1)
    else if length < lsaLength wire lsah then none
    else if lsaExamin wire stack lsah (lsaLength wire lsah) false ≠ .ok then none
    else (countLsas wire stack headeronly fuel (lsah + lsaLength wire lsah)
      (length - lsaLength wire lsah)).map (· + 1)

section

variable (wire : Wire)

def lsaseqExamin (stack : Stack) (lsah length : Nat) (headeronly : Bool)
    (declaredNumLsas : Nat) : Verdict :=
  match countLsas wire stack headeronly (length+1) lsah length with
  | none => .ng
  | some counted => if declaredNumLsas ≠ 0 ∧ counted ≠ declaredNumLsas then .ng else .ok

def packetType : UInt8 := wire 1

def bytesDeclared : Nat := be16 wire 2

def cryptographic : Bool := be16 wire 14 = authCryptographic

def bytesAuth : Nat := if cryptographic wire then authMd5Size else 0

def numLsas : Nat := be32 wire headerSize

/-- The `switch` of `ospf_packet_examin`. -/
def bodyExamin (stack : Stack) : Verdict :=
  if packetType wire = msgHello then
    verdict ((bytesDeclared wire - headerSize - helloMinSize) % 4 = 0)
  else if packetType wire = msgDbDesc then
    lsaseqExamin wire stack (headerSize+dbDescMinSize)
      (bytesDeclared wire - headerSize - dbDescMinSize) true 0
  else if packetType wire = msgLsReq then
    verdict ((bytesDeclared wire - headerSize - lsReqMinSize) % lsaKeySize = 0)
  else if packetType wire = msgLsUpd then
    lsaseqExamin wire stack (headerSize+lsUpdMinSize)
      (bytesDeclared wire - headerSize - lsUpdMinSize) false (numLsas wire)
  else if packetType wire = msgLsAck then
    lsaseqExamin wire stack (headerSize+lsAckMinSize)
      (bytesDeclared wire - headerSize - lsAckMinSize) true 0
  else .ng

def packetExamin (stack : Stack) (bytesonwire : Nat) : Verdict :=
  if bytesonwire < headerSize then .ng
  else if wire 0 ≠ ospfVersion then .ng
  else if cryptographic wire ∧ (wire 19).toNat ≠ authMd5Size then .ng
  else if bytesonwire < bytesDeclared wire + bytesAuth wire then .ng
  else if msgHello ≤ packetType wire ∧ packetType wire ≤ msgLsAck ∧
      bytesDeclared wire < headerSize + packetMinlen.getD (packetType wire).toNat 0 then .ng
  else bodyExamin wire stack

end

/-! ### The grammar -/

inductive Links (wire : Wire) : Nat → Nat → Nat → Prop where
  | nil (p : Nat) : Links wire p p 0
  | cons : p + linkLength wire p ≤ limit → Links wire (p + linkLength wire p) limit count →
      Links wire p limit (count+1)

def Listed (type : UInt8) : Prop :=
  type = Lsa.routerLsa ∨ (type = Lsa.asExternalLsa ∨ type = Lsa.asNssaLsa) ∨
    (type = Lsa.networkLsa ∨ type = Lsa.summaryLsa ∨ type = Lsa.asbrSummaryLsa) ∨
    Lsa.isOpaque type

instance (type : UInt8) : Decidable (Listed type) := by
  unfold Listed
  infer_instance

/-- RFC 2328 A.4, RFC 3101 C and RFC 5250 A.2, for an LSA or its header alone. A type without a
format has a header. -/
structure LsaLayout (wire : Wire) (headeronly : Bool) (lsah lsalen : Nat) : Prop where
  header : lsaHeaderSize ≤ lsalen
  router : lsaType wire lsah = Lsa.routerLsa →
    if headeronly then ∃ words, lsalen = lsaHeaderSize+4+4*words
    else Links wire (lsah+lsaHeaderSize+4) (lsah+lsalen) (be16 wire (lsah+22))
  external : lsaType wire lsah = Lsa.asExternalLsa ∨ lsaType wire lsah = Lsa.asNssaLsa →
    ∃ blocks, 1 ≤ blocks ∧ lsalen = lsaHeaderSize+4+12*blocks
  words : lsaType wire lsah = Lsa.networkLsa ∨ lsaType wire lsah = Lsa.summaryLsa ∨
    lsaType wire lsah = Lsa.asbrSummaryLsa →
    ∃ words, 1 ≤ words ∧ lsalen = lsaHeaderSize+4+4*words
  padded : Lsa.isOpaque (lsaType wire lsah) → ∃ words, lsalen = lsaHeaderSize+4*words

def lsaSpan (wire : Wire) (headeronly : Bool) (lsah : Nat) : Nat :=
  if headeronly then lsaHeaderSize else lsaLength wire lsah

inductive LsaSequence (wire : Wire) (headeronly : Bool) : Nat → Nat → List Nat → Prop where
  | nil (p : Nat) : LsaSequence wire headeronly p p []
  | cons : LsaLayout wire headeronly lsah (lsaLength wire lsah) →
      lsah + lsaSpan wire headeronly lsah ≤ limit →
      LsaSequence wire headeronly (lsah + lsaSpan wire headeronly lsah) limit lsas →
      LsaSequence wire headeronly lsah limit (lsah :: lsas)

inductive Body (wire : Wire) : List Nat → Prop where
  | hello (neighbors : Nat) : packetType wire = msgHello →
      bytesDeclared wire = headerSize+helloMinSize+4*neighbors → Body wire []
  | dbDesc : packetType wire = msgDbDesc →
      LsaSequence wire true (headerSize+dbDescMinSize) (bytesDeclared wire) lsas →
      Body wire lsas
  | lsReq (requests : Nat) : packetType wire = msgLsReq →
      bytesDeclared wire = headerSize+lsaKeySize*requests → Body wire []
  | lsUpd : packetType wire = msgLsUpd →
      LsaSequence wire false (headerSize+lsUpdMinSize) (bytesDeclared wire) lsas →
      Body wire lsas
  | lsAck : packetType wire = msgLsAck →
      LsaSequence wire true headerSize (bytesDeclared wire) lsas → Body wire lsas

/-- A packet, up to the number of LSAs it declares and the types it may contain. -/
structure Layout (wire : Wire) (bytesonwire : Nat) (lsas : List Nat) : Prop where
  header : headerSize ≤ bytesonwire
  version : wire 0 = ospfVersion
  digest : cryptographic wire → (wire 19).toNat = authMd5Size
  declared : bytesDeclared wire + bytesAuth wire ≤ bytesonwire
  body : Body wire lsas

def Grammar (wire : Wire) (bytesonwire : Nat) : Prop :=
  ∃ lsas, Layout wire bytesonwire lsas ∧ (∀ lsah ∈ lsas, Listed (lsaType wire lsah)) ∧
    (packetType wire = msgLsUpd → numLsas wire = lsas.length)

structure Shaped (wire : Wire) (bytesonwire : Nat) (lsas : List Nat) : Prop extends
    Layout wire bytesonwire lsas where
  counted : packetType wire = msgLsUpd → numLsas wire = 0 ∨ numLsas wire = lsas.length

/-! ### The examiner against the grammar -/

theorem linkLength_pos (wire : Wire) (p : Nat) : 12 ≤ linkLength wire p := by
  simp [linkLength,routerLsaLinkSize]

theorem Links.le (h : Links wire p limit count) : p ≤ limit := by
  induction h with
  | nil => exact le_rfl
  | cons _ _ ih => omega

theorem countLinks_iff (he : linkbytes < fuel) (total : link + linkbytes = limit) :
    countLinks wire fuel link linkbytes = some count ↔ Links wire link limit count := by
  induction fuel generalizing link linkbytes count with
  | zero => omega
  | succ fuel ih =>
    have pos := linkLength_pos wire link
    simp only [countLinks]
    split
    · next done =>
      constructor
      · rintro ⟨⟩
        rw [← total,done]
        exact .nil link
      intro h
      cases h with
      | nil => rfl
      | cons hf _ => omega
    · next more =>
      split
      · next short =>
        refine iff_of_false nofun fun h => ?_
        cases h with
        | nil => omega
        | cons hf _ => omega
      · next hf =>
        simp only [Option.map_eq_some_iff]
        constructor
        · rintro ⟨rest,hc,rfl⟩
          exact .cons (by omega) ((ih (by omega) (by omega)).mp hc)
        intro h
        cases h with
        | nil => omega
        | cons _ rest => exact ⟨_,(ih (by omega) (by omega)).mpr rest,rfl⟩

theorem verdict_ok_iff {decidable : Decidable good} : verdict good = .ok ↔ good := by
  simp [verdict]

theorem routerLsaLinksExamin_iff (wire : Wire) (link linkbytes numLinks : Nat) :
    routerLsaLinksExamin wire link linkbytes numLinks = .ok ↔
      Links wire link (link+linkbytes) numLinks := by
  rw [routerLsaLinksExamin,← countLinks_iff (Nat.lt_succ_self linkbytes) rfl]
  simp

theorem lsaMinlenOf_unlisted (hu : ¬ Listed type) : lsaMinlenOf type = 0 := by
  have every : ∀ n < 256, ¬ Listed (UInt8.ofNat n) → lsaMinlen.getD n 0 = 0 := by
    decide +kernel
  exact every type.toNat type.toNat_lt (by simpa using hu)

theorem guarded_ok_iff [Decidable bad] : (if bad then Verdict.ng else v) = .ok ↔ ¬ bad ∧ v = .ok := by
  split <;> simp_all

theorem lsaExamin_router (rtr : lsaType wire lsah = Lsa.routerLsa) :
    lsaExamin wire stack lsah lsalen headeronly = .ok ↔
      if headeronly then ∃ words, lsalen = lsaHeaderSize+4+4*words
      else Links wire (lsah+lsaHeaderSize+4) (lsah+lsalen) (be16 wire (lsah+22)) := by
  have minimum : lsaMinlenOf Lsa.routerLsa = 4 := rfl
  have hk : Lsa.routerLsa < Lsa.maxLsa := by decide
  simp only [lsaExamin,lsaAlignment,rtr,minimum,hk,guarded_ok_iff,reduceIte,true_and,
    ne_eq,OfNat.ofNat_ne_zero,not_false_eq_true,not_lt]
  cases headeronly with
  | true =>
    simp only [reduceIte,verdict_ok_iff]
    simp only [routerLsaMinSize,lsaHeaderSize]
    constructor
    · rintro ⟨hl,multiple⟩
      exact ⟨(lsalen-24) / 4,by omega⟩
    rintro ⟨words,rfl⟩
    omega
  | false =>
    simp only [Bool.false_eq_true,reduceIte,routerLsaLinksExamin_iff]
    constructor
    · rintro ⟨hl,links⟩
      rwa [show lsah + lsaHeaderSize + 4 + (lsalen-lsaHeaderSize-4) = lsah + lsalen by
        omega] at links
    intro links
    have hl := links.le
    refine ⟨by omega,?_⟩
    rwa [show lsah + lsaHeaderSize + 4 + (lsalen-lsaHeaderSize-4) = lsah + lsalen by omega]

theorem lsaExamin_external
    (he : lsaType wire lsah = Lsa.asExternalLsa ∨ lsaType wire lsah = Lsa.asNssaLsa) :
    lsaExamin wire stack lsah lsalen headeronly = .ok ↔
      ∃ blocks, 1 ≤ blocks ∧ lsalen = lsaHeaderSize+4+12*blocks := by
  have minimum : lsaMinlenOf (lsaType wire lsah) = 16 := by
    rcases he with he | he <;> rw [he] <;> rfl
  have hk : lsaType wire lsah < Lsa.maxLsa ∧ lsaType wire lsah ≠ Lsa.routerLsa := by
    rcases he with he | he <;> rw [he] <;> decide
  simp only [lsaExamin,lsaAlignment,he,minimum,hk,guarded_ok_iff,verdict_ok_iff,
    reduceIte,true_and,ne_eq,OfNat.ofNat_ne_zero,not_false_eq_true,not_lt]
  simp only [asExternalLsaMinSize,lsaHeaderSize]
  constructor
  · rintro ⟨hl,multiple⟩
    exact ⟨(lsalen-24) / 12,by omega,by omega⟩
  rintro ⟨blocks,one,rfl⟩
  omega

theorem lsaExamin_words (words : lsaType wire lsah = Lsa.networkLsa ∨
      lsaType wire lsah = Lsa.summaryLsa ∨ lsaType wire lsah = Lsa.asbrSummaryLsa) :
    lsaExamin wire stack lsah lsalen headeronly = .ok ↔
      ∃ words, 1 ≤ words ∧ lsalen = lsaHeaderSize+4+4*words := by
  have minimum : lsaMinlenOf (lsaType wire lsah) = 8 := by
    rcases words with words | words | words <;> rw [words] <;> rfl
  have hk : lsaType wire lsah < Lsa.maxLsa ∧ lsaType wire lsah ≠ Lsa.routerLsa ∧
      ¬ (lsaType wire lsah = Lsa.asExternalLsa ∨ lsaType wire lsah = Lsa.asNssaLsa) := by
    rcases words with words | words | words <;> rw [words] <;> decide
  have ho : lsaType wire lsah = Lsa.networkLsa ∨ lsaType wire lsah = Lsa.summaryLsa ∨
      lsaType wire lsah = Lsa.asbrSummaryLsa ∨ Lsa.isOpaque (lsaType wire lsah) := by
    tauto
  simp only [lsaExamin,lsaAlignment,ho,minimum,hk,guarded_ok_iff,verdict_ok_iff,
    reduceIte,true_and,ne_eq,OfNat.ofNat_ne_zero,not_false_eq_true,not_lt,lsaHeaderSize]
  constructor
  · rintro ⟨hl,multiple⟩
    exact ⟨(lsalen-24) / 4,by omega,by omega⟩
  rintro ⟨words,one,rfl⟩
  omega

theorem lsaExamin_padded (hp : Lsa.isOpaque (lsaType wire lsah))
    (hw : lsaHeaderSize ≤ lsalen) :
    lsaExamin wire stack lsah lsalen headeronly = .ok ↔
      ∃ words, lsalen = lsaHeaderSize+4*words := by
  have cases : lsaType wire lsah = Lsa.opaqueLinkLsa ∨ lsaType wire lsah = Lsa.opaqueAreaLsa ∨
      lsaType wire lsah = Lsa.opaqueAsLsa := by
    simpa [Lsa.isOpaque] using hp
  have minimum : lsaMinlenOf (lsaType wire lsah) = 0 := by
    rcases cases with ty | ty | ty <;> rw [ty] <;> rfl
  have hk : lsaType wire lsah ≠ Lsa.routerLsa ∧
      ¬ (lsaType wire lsah = Lsa.asExternalLsa ∨ lsaType wire lsah = Lsa.asNssaLsa) := by
    rcases cases with ty | ty | ty <;> rw [ty] <;> decide
  simp only [lsaHeaderSize] at hw
  simp only [lsaExamin,lsaAlignment,hp,minimum,hk,verdict_ok_iff,reduceIte,
    not_true_eq_false,false_and,and_false,or_true,ne_eq,lsaHeaderSize]
  constructor
  · intro multiple
    exact ⟨(lsalen-20) / 4,by omega⟩
  rintro ⟨words,rfl⟩
  omega

theorem lsaExamin_unlisted (hu : ¬ Listed (lsaType wire lsah)) :
    lsaExamin wire stack lsah lsalen headeronly = stack lsah := by
  have noMinimum := lsaMinlenOf_unlisted hu
  simp only [Listed,not_or] at hu
  simp [lsaExamin,lsaAlignment,noMinimum,hu]

/-- It has the format of its type, or a type without one while the stack holds `MSG_OK`. -/
theorem lsaExamin_iff (hw : lsaHeaderSize ≤ lsalen) :
    lsaExamin wire stack lsah lsalen headeronly = .ok ↔
      LsaLayout wire headeronly lsah lsalen ∧
        (¬ Listed (lsaType wire lsah) → stack lsah = .ok) := by
  constructor
  · intro ok
    refine ⟨?_,fun hu => (lsaExamin_unlisted hu).symm.trans ok⟩
    exact {
      header := hw
      router := fun rtr => (lsaExamin_router rtr).mp ok
      external := fun he => (lsaExamin_external he).mp ok
      words := fun words => (lsaExamin_words words).mp ok
      padded := fun hp => (lsaExamin_padded hp hw).mp ok}
  · rintro ⟨lay,hu⟩
    by_cases hl : Listed (lsaType wire lsah)
    · rcases hl with rtr | he | words | hp
      · exact (lsaExamin_router rtr).mpr (lay.router rtr)
      · exact (lsaExamin_external he).mpr (lay.external he)
      · exact (lsaExamin_words words).mpr (lay.words words)
      · exact (lsaExamin_padded hp hw).mpr (lay.padded hp)
    · exact (lsaExamin_unlisted hl).trans (hu hl)

def Lucky (wire : Wire) (stack : Stack) (lsas : List Nat) : Prop :=
  ∀ lsah ∈ lsas, ¬ Listed (lsaType wire lsah) → stack lsah = .ok

theorem LsaLayout.span_pos (h : LsaLayout wire headeronly lsah (lsaLength wire lsah)) :
    lsaHeaderSize ≤ lsaSpan wire headeronly lsah := by
  unfold lsaSpan
  split
  · exact le_rfl
  · exact h.header

theorem countLsas_succ (wire : Wire) (stack : Stack) (headeronly : Bool)
    (fuel lsah len : Nat) :
    countLsas wire stack headeronly (fuel+1) lsah len = if len = 0 then some 0
      else if lsaHeaderSize ≤ lsaLength wire lsah ∧ lsaHeaderSize ≤ len ∧
          lsaSpan wire headeronly lsah ≤ len ∧
          lsaExamin wire stack lsah (lsaLength wire lsah) headeronly = .ok then
        (countLsas wire stack headeronly fuel (lsah + lsaSpan wire headeronly lsah)
          (len - lsaSpan wire headeronly lsah)).map (· + 1)
      else none := by
  simp only [countLsas,lsaSpan]
  cases headeronly <;> grind

theorem countLsas_iff (he : length < fuel) (total : lsah + length = limit) :
    countLsas wire stack headeronly fuel lsah length = some count ↔
      ∃ lsas, LsaSequence wire headeronly lsah limit lsas ∧ Lucky wire stack lsas ∧
        lsas.length = count := by
  induction fuel generalizing lsah length count with
  | zero => omega
  | succ fuel ih =>
    rw [countLsas_succ]
    split
    · next done =>
      constructor
      · rintro ⟨⟩
        rw [← total,done]
        exact ⟨[],.nil lsah,nofun,rfl⟩
      rintro ⟨lsas,seq,-,rfl⟩
      cases seq with
      | nil => rfl
      | cons lay hf _ =>
        have pos := lay.span_pos
        simp only [lsaHeaderSize] at pos
        omega
    · next more =>
      split
      · next good =>
        obtain ⟨hw,-,hf,ok⟩ := good
        obtain ⟨lay,hl⟩ := (lsaExamin_iff hw).mp ok
        have pos := lay.span_pos
        simp only [lsaHeaderSize] at pos
        simp only [Option.map_eq_some_iff]
        constructor
        · rintro ⟨rest,hc,rfl⟩
          obtain ⟨lsas,seq,others,rfl⟩ := (ih (by omega) (by omega)).mp hc
          refine ⟨lsah :: lsas,.cons lay (by omega) seq,?_,rfl⟩
          exact List.forall_mem_cons.mpr ⟨hl,others⟩
        rintro ⟨lsas,seq,hl,rfl⟩
        cases seq with
        | nil => omega
        | cons _ _ rest =>
          exact ⟨_,(ih (by omega) (by omega)).mpr ⟨_,rest,(List.forall_mem_cons.mp hl).2,rfl⟩,rfl⟩
      · next bad =>
        refine iff_of_false nofun ?_
        rintro ⟨lsas,seq,hl,-⟩
        cases seq with
        | nil => omega
        | cons lay hf _ =>
          have pos := lay.span_pos
          refine bad ⟨lay.header,by omega,by omega,?_⟩
          exact (lsaExamin_iff lay.header).mpr ⟨lay,(List.forall_mem_cons.mp hl).1⟩

theorem LsaSequence.le (h : LsaSequence wire headeronly p limit lsas) : p ≤ limit := by
  induction h with
  | nil => exact le_rfl
  | cons _ hf _ ih => omega

theorem lsaseqExamin_counted : lsaseqExamin wire stack lsah length headeronly declaredNumLsas = .ok ↔
    ∃ counted, countLsas wire stack headeronly (length+1) lsah length = some counted ∧
      (declaredNumLsas = 0 ∨ declaredNumLsas = counted) := by
  simp only [lsaseqExamin]
  split
  · next failed => simp [failed]
  next counted found =>
  simp only [found,guarded_ok_iff,Option.some.injEq,exists_eq_left',and_true]
  omega

theorem lsaseqExamin_iff (total : lsah + length = limit) :
    lsaseqExamin wire stack lsah length headeronly declaredNumLsas = .ok ↔
      ∃ lsas, LsaSequence wire headeronly lsah limit lsas ∧ Lucky wire stack lsas ∧
        (declaredNumLsas = 0 ∨ declaredNumLsas = lsas.length) := by
  simp only [lsaseqExamin_counted,countLsas_iff (Nat.lt_succ_self length) total]
  constructor
  · rintro ⟨_,⟨lsas,seq,hl,rfl⟩,hd⟩
    exact ⟨lsas,seq,hl,hd⟩
  rintro ⟨lsas,seq,hl,hd⟩
  exact ⟨_,⟨lsas,seq,hl,rfl⟩,hd⟩

theorem Body.long (h : Body wire lsas) :
    headerSize + packetMinlen.getD (packetType wire).toNat 0 ≤ bytesDeclared wire := by
  cases h with
  | hello neighbors ty hd =>
    rw [ty,hd]
    exact Nat.le_add_right ..
  | dbDesc ty seq => exact ty ▸ seq.le
  | lsReq reqs ty hd =>
    rw [ty,hd]
    exact Nat.le_add_right ..
  | lsUpd ty seq => exact ty ▸ seq.le
  | lsAck ty seq => exact ty ▸ seq.le

theorem bodyExamin_hello (ty : packetType wire = msgHello) : bodyExamin wire stack =
    verdict ((bytesDeclared wire - headerSize - helloMinSize) % 4 = 0) := by
  rw [bodyExamin,ty]
  rfl

theorem bodyExamin_dbDesc (ty : packetType wire = msgDbDesc) : bodyExamin wire stack =
    lsaseqExamin wire stack (headerSize+dbDescMinSize)
      (bytesDeclared wire - headerSize - dbDescMinSize) true 0 := by
  rw [bodyExamin,ty]
  rfl

theorem bodyExamin_lsReq (ty : packetType wire = msgLsReq) : bodyExamin wire stack =
    verdict ((bytesDeclared wire - headerSize - lsReqMinSize) % lsaKeySize = 0) := by
  rw [bodyExamin,ty]
  rfl

theorem bodyExamin_lsUpd (ty : packetType wire = msgLsUpd) : bodyExamin wire stack =
    lsaseqExamin wire stack (headerSize+lsUpdMinSize)
      (bytesDeclared wire - headerSize - lsUpdMinSize) false (numLsas wire) := by
  rw [bodyExamin,ty]
  rfl

theorem bodyExamin_lsAck (ty : packetType wire = msgLsAck) : bodyExamin wire stack =
    lsaseqExamin wire stack (headerSize+lsAckMinSize)
      (bytesDeclared wire - headerSize - lsAckMinSize) true 0 := by
  rw [bodyExamin,ty]
  rfl

theorem bodyExamin_other (hello : packetType wire ≠ msgHello)
    (dbDesc : packetType wire ≠ msgDbDesc) (lsReq : packetType wire ≠ msgLsReq)
    (lsUpd : packetType wire ≠ msgLsUpd) (lsAck : packetType wire ≠ msgLsAck) :
    bodyExamin wire stack = .ng := by
  simp [bodyExamin,hello,dbDesc,lsReq,lsUpd,lsAck]

theorem Body.examined (h : Body wire lsas) (hl : Lucky wire stack lsas)
    (hc : packetType wire = msgLsUpd → numLsas wire = 0 ∨ numLsas wire = lsas.length) :
    bodyExamin wire stack = .ok := by
  cases h with
  | hello neighbors ty hd =>
    rw [bodyExamin_hello ty,verdict_ok_iff,hd]
    omega
  | dbDesc ty seq =>
    have hlo := seq.le
    rw [bodyExamin_dbDesc ty]
    exact (lsaseqExamin_iff (by omega)).mpr ⟨lsas,seq,hl,.inl rfl⟩
  | lsReq reqs ty hd =>
    rw [bodyExamin_lsReq ty,verdict_ok_iff,hd]
    simp only [lsReqMinSize,lsaKeySize]
    omega
  | lsUpd ty seq =>
    have hlo := seq.le
    rw [bodyExamin_lsUpd ty]
    exact (lsaseqExamin_iff (by omega)).mpr ⟨lsas,seq,hl,hc ty⟩
  | lsAck ty seq =>
    have hlo := seq.le
    rw [bodyExamin_lsAck ty]
    exact (lsaseqExamin_iff (by simp [lsAckMinSize]; omega)).mpr ⟨lsas,seq,hl,.inl rfl⟩

theorem body_of_examined (ok : bodyExamin wire stack = .ok)
    (hl : msgHello ≤ packetType wire → packetType wire ≤ msgLsAck →
      headerSize + packetMinlen.getD (packetType wire).toNat 0 ≤ bytesDeclared wire) :
    ∃ lsas, Body wire lsas ∧ Lucky wire stack lsas ∧
      (packetType wire = msgLsUpd → numLsas wire = 0 ∨ numLsas wire = lsas.length) := by
  by_cases hello : packetType wire = msgHello
  · rw [bodyExamin_hello hello,verdict_ok_iff] at ok
    rw [hello] at hl ⊢
    have hl : headerSize + helloMinSize ≤ bytesDeclared wire := hl (by decide) (by decide)
    refine ⟨[],.hello ((bytesDeclared wire - headerSize - helloMinSize) / 4) hello ?_,nofun,nofun⟩
    omega
  by_cases dbDesc : packetType wire = msgDbDesc
  · rw [bodyExamin_dbDesc dbDesc] at ok
    rw [dbDesc] at hl ⊢
    have hl : headerSize + dbDescMinSize ≤ bytesDeclared wire := hl (by decide) (by decide)
    have total : headerSize + dbDescMinSize + (bytesDeclared wire - headerSize - dbDescMinSize) =
      bytesDeclared wire := by omega
    obtain ⟨lsas,seq,hlu,-⟩ := (lsaseqExamin_iff total).mp ok
    exact ⟨lsas,.dbDesc dbDesc seq,hlu,nofun⟩
  by_cases lsReq : packetType wire = msgLsReq
  · rw [bodyExamin_lsReq lsReq,verdict_ok_iff] at ok
    rw [lsReq] at hl ⊢
    have hl : headerSize + lsReqMinSize ≤ bytesDeclared wire := hl (by decide) (by decide)
    refine ⟨[],.lsReq ((bytesDeclared wire - headerSize) / lsaKeySize) lsReq ?_,nofun,nofun⟩
    simp only [lsReqMinSize,lsaKeySize] at ok hl ⊢
    omega
  by_cases lsUpd : packetType wire = msgLsUpd
  · rw [bodyExamin_lsUpd lsUpd] at ok
    rw [lsUpd] at hl
    have hl : headerSize + lsUpdMinSize ≤ bytesDeclared wire := hl (by decide) (by decide)
    have total : headerSize + lsUpdMinSize + (bytesDeclared wire - headerSize - lsUpdMinSize) =
      bytesDeclared wire := by omega
    obtain ⟨lsas,seq,hlu,hc⟩ := (lsaseqExamin_iff total).mp ok
    exact ⟨lsas,.lsUpd lsUpd seq,hlu,fun _ => hc⟩
  by_cases lsAck : packetType wire = msgLsAck
  · rw [bodyExamin_lsAck lsAck] at ok
    rw [lsAck] at hl ⊢
    have hl : headerSize + lsAckMinSize ≤ bytesDeclared wire := hl (by decide) (by decide)
    have total : headerSize + lsAckMinSize + (bytesDeclared wire - headerSize - lsAckMinSize) =
      bytesDeclared wire := by omega
    obtain ⟨lsas,seq,hlu,-⟩ := (lsaseqExamin_iff total).mp ok
    exact ⟨lsas,.lsAck lsAck seq,hlu,nofun⟩
  · rw [bodyExamin_other hello dbDesc lsReq lsUpd lsAck] at ok
    contradiction

/-- Its lengths fit the grammar and every LSA of a type without a format is lucky. -/
theorem packetExamin_iff (wire : Wire) (stack : Stack) (bytesonwire : Nat) :
    packetExamin wire stack bytesonwire = .ok ↔
      ∃ lsas, Shaped wire bytesonwire lsas ∧ Lucky wire stack lsas := by
  simp only [packetExamin,guarded_ok_iff,not_lt,not_and,not_not]
  constructor
  · rintro ⟨header,version,digest,declared,long,ok⟩
    obtain ⟨lsas,body,lucky,counted⟩ := body_of_examined ok long
    exact ⟨lsas,{header, version, digest, declared, body, counted},lucky⟩
  rintro ⟨lsas,shaped,lucky⟩
  exact ⟨shaped.header,shaped.version,shaped.digest,shaped.declared,
    fun _ _ => shaped.body.long,shaped.body.examined lucky shaped.counted⟩

end Frr.Packet
