import Frr.Packet

/-! The parsers behind the examiner, as the bytes they read of an accepted packet, and what
the examiner's verdict guarantees. -/
namespace Frr.Packet

open Lsa

abbrev Read := Nat × Nat

/-- What the parsers consult besides the packet, by the offset of an LSA, or its type, id and
advertising router. -/
structure Receiver where
  routerId : Nat
  opaqueCapable : Bool
  stub : Bool
  externalDefault : Bool
  checksumValid : Nat → Bool
  lookup : Nat → Nat → Nat → Bool

def lsaTypeOk (wire : Wire) (lsah : Nat) : Bool :=
  minLsa ≤ lsaType wire lsah ∧ lsaType wire lsah < maxLsa

/-- `ospf_nbr_bidirectional`, over so many entries. -/
def nbrBidirectional (receiver : Receiver) (wire : Wire) : Nat → Nat → List Read
  | 0, _ => []
  | entries + 1, p => (p,4) ::
    if be32 wire p = receiver.routerId then []
    else nbrBidirectional receiver wire entries (p+4)

section

variable (receiver : Receiver)

def hello (wire : Wire) (p size : Nat) : List Read :=
  (p,helloMinSize) :: nbrBidirectional receiver wire ((size-helloMinSize) / 4) (p+helloMinSize)

/-- The loop of `ospf_db_desc_proc` over the LSA headers. -/
def dbDescHeaders (receiver : Receiver) (wire : Wire) (p size : Nat) : List Read :=
  if size < lsaHeaderSize then []
  else (p,lsaHeaderSize) ::
    if lsaTypeOk wire p = false then []
    else if isOpaque (lsaType wire p) ∧ receiver.opaqueCapable = false then []
    else if (lsaType wire p = asExternalLsa ∨ lsaType wire p = opaqueAsLsa) ∧
        receiver.stub then []
    else dbDescHeaders receiver wire (p+lsaHeaderSize) (size-lsaHeaderSize)
termination_by size
decreasing_by simp only [lsaHeaderSize] at *; omega

def dbDesc (wire : Wire) (p size : Nat) : List Read :=
  (p,dbDescMinSize) ::
    dbDescHeaders receiver wire (p+dbDescMinSize) (size-dbDescMinSize)

/-- The loop of `ospf_ls_req`. -/
def lsReq (receiver : Receiver) (wire : Wire) (p size : Nat) : List Read :=
  if size < lsaKeySize then []
  else (p,4) :: (p+4,4) :: (p+8,4) ::
    if be32 wire p < minLsa.toNat ∨ maxLsa.toNat ≤ be32 wire p then []
    else if receiver.lookup (be32 wire p) (be32 wire (p+4)) (be32 wire (p+8)) = false then []
    else lsReq receiver wire (p+lsaKeySize) (size-lsaKeySize)
termination_by size
decreasing_by simp only [lsaKeySize] at *; omega

/-- The checks of `ospf_ls_upd_list_lsa` that pass over an LSA. -/
def takesLsa (wire : Wire) (lsah : Nat) : Bool :=
  receiver.checksumValid lsah && lsaTypeOk wire lsah &&
    if receiver.opaqueCapable then
      !(lsaType wire lsah = opaqueAsLsa && !receiver.externalDefault)
    else !isOpaque (lsaType wire lsah)

/-- The loop of `ospf_ls_upd_list_lsa`, with the offsets it copies from. Checksum and copy read the
whole LSA. -/
def lsUpdListLsa (receiver : Receiver) (wire : Wire) : Nat → Nat → Nat → List Read × List Nat
  | 0, _, _ => ([],[])
  | count + 1, lsah, size =>
    if size < lsaHeaderSize then ([],[])
    else if size < lsaLength wire lsah then ([(lsah,lsaHeaderSize)],[])
    else
      let rest := lsUpdListLsa receiver wire count (lsah + lsaLength wire lsah)
        (size - lsaLength wire lsah)
      ((lsah,lsaHeaderSize) :: (lsah,lsaLength wire lsah) :: rest.1,
        if takesLsa receiver wire lsah then lsah :: rest.2 else rest.2)

/-- The walk of `ospf_get_next_link`, on the bytes the LSA was copied from. -/
def linkWalk (wire : Wire) (p lim : Nat) : List Read :=
  if p < lim then (p,routerLsaLinkSize) :: linkWalk wire (p + linkLength wire p) lim else []
termination_by lim - p
decreasing_by have := linkLength_pos wire p; omega

def walkLinks (wire : Wire) (lsah : Nat) : List Read :=
  if lsaType wire lsah = routerLsa then
    linkWalk wire (lsah+lsaHeaderSize+4) (lsah + lsaLength wire lsah)
  else []

def lsUpd (wire : Wire) (p size : Nat) : List Read :=
  let list := lsUpdListLsa receiver wire (be32 wire p % 65536) (p+lsUpdMinSize)
    (size-lsUpdMinSize)
  (p,lsUpdMinSize) :: list.1 ++ list.2.flatMap (walkLinks wire)

/-- The loop of `ospf_ls_ack`. -/
def lsAck (wire : Wire) (p size : Nat) : List Read :=
  if size < lsaHeaderSize then []
  else (p,lsaHeaderSize) :: lsAck wire (p+lsaHeaderSize) (size-lsaHeaderSize)
termination_by size
decreasing_by simp only [lsaHeaderSize] at *; omega

/-- What is read of a packet after `ospf_read` has accepted it. -/
def laterReads (wire : Wire) : List Read :=
  let size := bytesDeclared wire - headerSize
  if packetType wire = msgHello then hello receiver wire headerSize size
  else if packetType wire = msgDbDesc then dbDesc receiver wire headerSize size
  else if packetType wire = msgLsReq then lsReq receiver wire headerSize size
  else if packetType wire = msgLsUpd then lsUpd receiver wire headerSize size
  else if packetType wire = msgLsAck then lsAck wire headerSize size
  else []

end

def Within (limit : Nat) (reads : List Read) : Prop := ∀ read ∈ reads, read.1 + read.2 ≤ limit

@[simp] theorem within_nil : Within limit [] := nofun

@[simp] theorem within_cons (limit : Nat) (fst : Read) (reads : List Read) :
    Within limit (fst :: reads) ↔ fst.1 + fst.2 ≤ limit ∧ Within limit reads := by
  simp [Within]

@[simp] theorem within_append (limit : Nat) (reads others : List Read) :
    Within limit (reads ++ others) ↔ Within limit reads ∧ Within limit others := by
  simp [Within,List.mem_append,or_imp,forall_and]

theorem within_ite [Decidable stop] {reads : List Read} (hw : ¬ stop → Within limit reads) :
    Within limit (if stop then [] else reads) := by
  split
  · exact within_nil
  · next go => exact hw go

theorem nbrBidirectional_within (hf : p + 4 * ents ≤ limit) :
    Within limit (nbrBidirectional receiver wire ents p) := by
  induction ents generalizing p with
  | zero => exact within_nil
  | succ ents ih =>
    rw [nbrBidirectional,within_cons]
    exact ⟨by omega,within_ite fun _ => ih (by omega)⟩

theorem dbDescHeaders_within (hf : p + sz ≤ limit) :
    Within limit (dbDescHeaders receiver wire p sz) := by
  fun_induction dbDescHeaders receiver wire p sz with
  | case1 => exact within_nil
  | case2 p sz hl ih =>
    rw [within_cons]
    exact ⟨by omega,within_ite fun _ => within_ite fun _ => within_ite fun _ => ih (by omega)⟩

theorem lsReq_within (hf : p + sz ≤ limit) : Within limit (lsReq receiver wire p sz) := by
  fun_induction lsReq receiver wire p sz with
  | case1 => exact within_nil
  | case2 p sz hl ih =>
    have key : lsaKeySize = 12 := rfl
    simp only [within_cons]
    exact ⟨by omega,by omega,by omega,within_ite fun _ => within_ite fun _ => ih (by omega)⟩

theorem lsAck_within (hf : p + sz ≤ limit) : Within limit (lsAck wire p sz) := by
  fun_induction lsAck wire p sz with
  | case1 => exact within_nil
  | case2 p sz hl ih =>
    rw [within_cons]
    exact ⟨by omega,ih (by omega)⟩

theorem Links.linkWalk_within (h : Links wire p lim count) : Within lim (linkWalk wire p lim) := by
  induction h with
  | nil => simp [linkWalk]
  | @cons p lim count hf rest ih =>
    have pos := linkLength_pos wire p
    have block : routerLsaLinkSize = 12 := rfl
    rw [linkWalk,if_pos (by omega),within_cons]
    exact ⟨by omega,ih⟩

/-! ### What the LSAs of an accepted packet look like -/

theorem LsaSequence.layout (h : LsaSequence wire headeronly p limit lsas) (mem : lsah ∈ lsas) :
    LsaLayout wire headeronly lsah (lsaLength wire lsah) ∧
      lsah + lsaSpan wire headeronly lsah ≤ limit := by
  induction h with
  | nil => contradiction
  | cons lay hf _ ih =>
    rcases List.mem_cons.mp mem with rfl | hl
    · exact ⟨lay,hf⟩
    · exact ih hl

theorem LsaSequence.unique (h : LsaSequence wire headeronly p limit lsas)
    (ho : LsaSequence wire headeronly p limit lsas') : lsas' = lsas := by
  induction h generalizing lsas' with
  | nil p =>
    cases ho with
    | nil => rfl
    | cons lay hf _ =>
      have pos := lay.span_pos
      simp only [lsaHeaderSize] at pos
      omega
  | cons lay hf _ ih =>
    have pos := lay.span_pos
    simp only [lsaHeaderSize] at pos
    cases ho with
    | nil => omega
    | cons _ _ rest => rw [ih rest]

theorem lsUpdListLsa_within (h : LsaSequence wire false p limit lsas) (total : p + size = limit)
    (count : Nat) :
    Within limit (lsUpdListLsa receiver wire count p size).1 ∧
      (lsUpdListLsa receiver wire count p size).2 ⊆ lsas := by
  induction h generalizing count size with
  | nil p =>
    cases count with
    | zero => simp [lsUpdListLsa]
    | succ count =>
      have he : size = 0 := by omega
      simp [lsUpdListLsa,he,lsaHeaderSize]
  | @cons lsah limit lsas lay hf _ ih =>
    cases count with
    | zero => simp [lsUpdListLsa]
    | succ count =>
      have hdr := lay.header
      simp only [lsaSpan,Bool.false_eq_true,reduceIte] at hf ih
      obtain ⟨reads,hc⟩ := @ih (size - lsaLength wire lsah) (by omega) count
      rw [lsUpdListLsa,if_neg (by omega),if_neg (by omega)]
      simp only [within_cons]
      refine ⟨⟨by omega,by omega,reads⟩,?_⟩
      split
      · exact List.cons_subset_cons lsah hc
      · exact List.subset_cons_of_subset lsah hc

theorem LsaSequence.walkLinks_within (h : LsaSequence wire false p limit lsas)
    (mem : lsah ∈ lsas) : Within limit (walkLinks wire lsah) := by
  obtain ⟨lay,hf⟩ := h.layout mem
  unfold walkLinks
  split
  · next router =>
    have links := lay.router router
    simp only [lsaSpan,Bool.false_eq_true,reduceIte] at hf links
    exact fun read hfo => (links.linkWalk_within read hfo).trans hf
  · exact within_nil

theorem laterReads_within (h : Body wire lsas) (receiver : Receiver) :
    Within (bytesDeclared wire) (laterReads receiver wire) := by
  cases h with
  | hello neighbors ty hd =>
    rw [laterReads,ty]
    change Within _ (hello ..)
    rw [hello,within_cons,hd]
    exact ⟨by simp only; omega,nbrBidirectional_within (by omega)⟩
  | dbDesc ty seq =>
    have hl := seq.le
    rw [laterReads,ty]
    change Within _ (dbDesc ..)
    rw [dbDesc,within_cons]
    exact ⟨hl,dbDescHeaders_within (by omega)⟩
  | lsReq reqs ty hd =>
    rw [laterReads,ty]
    change Within _ (lsReq ..)
    exact lsReq_within (by omega)
  | lsUpd ty seq =>
    have hl := seq.le
    rw [laterReads,ty]
    change Within _ (lsUpd ..)
    obtain ⟨reads,hco⟩ := @lsUpdListLsa_within _ _ _ _ (bytesDeclared wire - headerSize -
      lsUpdMinSize) receiver seq (by omega) (be32 wire headerSize % 65536)
    simp only [lsUpd,List.cons_append,within_cons,within_append]
    refine ⟨hl,reads,?_⟩
    intro read hf
    obtain ⟨lsah,hc,hw⟩ := List.mem_flatMap.mp hf
    exact seq.walkLinks_within (hco hc) read hw
  | lsAck ty seq =>
    have hl := seq.le
    rw [laterReads,ty]
    change Within _ (lsAck ..)
    exact lsAck_within (by omega)

/-! ### The verdict depends on the packet's own bytes, lucky LSAs apart -/

section

variable {wire wire' : Wire} (same : ∀ i < limit, wire' i = wire i)
include same

theorem be16_agrees (hi : p + 2 ≤ limit) : be16 wire' p = be16 wire p := by
  rw [be16,be16,same p (by omega),same (p+1) (by omega)]

theorem be32_agrees (hi : p + 4 ≤ limit) : be32 wire' p = be32 wire p := by
  rw [be32,be32,be16_agrees same (by omega),be16_agrees same (by omega)]

theorem lsaType_agrees (hi : lsah + lsaHeaderSize ≤ limit) :
    lsaType wire' lsah = lsaType wire lsah :=
  same _ (by simp only [lsaHeaderSize] at hi; omega)

theorem lsaLength_agrees (hi : lsah + lsaHeaderSize ≤ limit) :
    lsaLength wire' lsah = lsaLength wire lsah :=
  be16_agrees same (by simp only [lsaHeaderSize] at hi; omega)

theorem Links.agrees (h : Links wire p lim count) (hi : lim ≤ limit) :
    Links wire' p lim count := by
  induction h with
  | nil p => exact .nil p
  | @cons p lim count hf rest ih =>
    have pos := linkLength_pos wire p
    have len : linkLength wire' p = linkLength wire p := by
      rw [linkLength,linkLength,same (p+9) (by omega)]
    exact .cons (by omega) (len ▸ ih hi)

theorem LsaLayout.agrees (h : LsaLayout wire headeronly lsah lsalen)
    (hdr : lsah + lsaHeaderSize ≤ limit)
    (hi : headeronly = false → lsah+lsalen ≤ limit) :
    LsaLayout wire' headeronly lsah lsalen := by
  have ty := lsaType_agrees same hdr
  refine {
    header := h.header
    router := fun rtr => ?_
    external := fun he => h.external (ty ▸ he)
    words := fun words => h.words (ty ▸ words)
    padded := fun hp => h.padded (ty ▸ hp)}
  have format := h.router (ty ▸ rtr)
  cases headeronly with
  | true => exact format
  | false =>
    have hl := format.le
    rw [be16_agrees same (by simp only [lsaHeaderSize] at hl; have := hi rfl; omega)]
    exact format.agrees same (hi rfl)

theorem LsaSequence.agrees (h : LsaSequence wire headeronly p lim lsas) (hi : lim ≤ limit) :
    LsaSequence wire' headeronly p lim lsas := by
  induction h with
  | nil p => exact .nil p
  | @cons lsah lim lsas lay hf _ ih =>
    have pos := lay.span_pos
    have len : lsaLength wire' lsah = lsaLength wire lsah := lsaLength_agrees same (by omega)
    have span : lsaSpan wire' headeronly lsah = lsaSpan wire headeronly lsah := by
      rw [lsaSpan,lsaSpan,len]
    refine .cons ?_ (by rw [span]; exact hf) (by rw [span]; exact ih hi)
    rw [len]
    refine lay.agrees same (by omega) ?_
    rintro rfl
    exact hf.trans hi

theorem Body.agrees (h : Body wire lsas) (hdr : headerSize ≤ limit)
    (hi : bytesDeclared wire ≤ limit) : Body wire' lsas := by
  simp only [headerSize] at hdr
  have ty : packetType wire' = packetType wire := same 1 (by omega)
  have hd : bytesDeclared wire' = bytesDeclared wire := be16_agrees same (by omega)
  cases h with
  | hello neighbors kind len =>
    exact .hello neighbors (ty.trans kind) (hd.trans len)
  | dbDesc kind seq =>
    exact .dbDesc (ty.trans kind) (by rw [hd]; exact seq.agrees same hi)
  | lsReq reqs kind len =>
    exact .lsReq reqs (ty.trans kind) (hd.trans len)
  | lsUpd kind seq =>
    exact .lsUpd (ty.trans kind) (by rw [hd]; exact seq.agrees same hi)
  | lsAck kind seq =>
    exact .lsAck (ty.trans kind) (by rw [hd]; exact seq.agrees same hi)

theorem Shaped.agrees (h : Shaped wire limit lsas) : Shaped wire' limit lsas := by
  have hdr := h.header
  have hi : bytesDeclared wire ≤ limit := (Nat.le_add_right ..).trans h.declared
  simp only [headerSize] at hdr
  have ty : packetType wire' = packetType wire := same 1 (by omega)
  have hd : bytesDeclared wire' = bytesDeclared wire := be16_agrees same (by omega)
  have crypt : cryptographic wire' = cryptographic wire := by
    rw [cryptographic,cryptographic,be16_agrees same (by omega)]
  have auth : bytesAuth wire' = bytesAuth wire := by rw [bytesAuth,bytesAuth,crypt]
  refine {
    header := h.header
    version := (same 0 (by omega)).trans h.version
    digest := fun set => ?_
    declared := by rw [hd,auth]; exact h.declared
    body := h.body.agrees same h.header hi
    counted := fun upd => ?_}
  · rw [same 19 (by omega)]
    exact h.digest (crypt ▸ set)
  have hl := h.body.long
  rw [← ty,upd] at hl
  have count : numLsas wire' = numLsas wire := be32_agrees same (hl.trans hi)
  rw [count]
  exact h.counted (ty ▸ upd)

end

theorem Body.inside (h : Body wire lsas) (mem : lsah ∈ lsas) :
    lsah + lsaHeaderSize ≤ bytesDeclared wire := by
  have hb : ∀ {headeronly p}, LsaSequence wire headeronly p (bytesDeclared wire) lsas →
      lsah + lsaHeaderSize ≤ bytesDeclared wire := by
    intro headeronly p seq
    obtain ⟨lay,hf⟩ := seq.layout mem
    have pos := lay.span_pos
    omega
  cases h with
  | hello => contradiction
  | dbDesc _ seq => exact hb seq
  | lsReq => contradiction
  | lsUpd _ seq => exact hb seq
  | lsAck _ seq => exact hb seq

theorem Body.unique (h : Body wire lsas) (ho : Body wire lsas') : lsas' = lsas := by
  cases h <;> cases ho <;> first
    | rfl
    | exact LsaSequence.unique ‹_› ‹_›
    | simp_all [msgHello,msgDbDesc,msgLsReq,msgLsUpd,msgLsAck]

/-! ### What the verdict is worth -/

/-- What the examiner accepts is in the grammar, its verdict depends on the packet alone, and the
parsers stay inside the packet. -/
structure Trustworthy (wire : Wire) (bytesonwire : Nat) : Prop where
  grammar : ∀ stack, packetExamin wire stack bytesonwire = .ok → Grammar wire bytesonwire
  bytesAlone : ∀ stack stack' wire', (∀ i < bytesonwire, wire' i = wire i) →
    packetExamin wire' stack' bytesonwire = packetExamin wire stack bytesonwire
  inside : ∀ stack receiver, packetExamin wire stack bytesonwire = .ok →
    Within (bytesDeclared wire) (laterReads receiver wire) ∧ bytesDeclared wire ≤ bytesonwire

def Plain (wire : Wire) (lsas : List Nat) : Prop :=
  (∀ lsah ∈ lsas, Listed (lsaType wire lsah)) ∧
    (packetType wire = msgLsUpd → numLsas wire = 0 → lsas = [])

theorem Shaped.inside (h : Shaped wire bytesonwire lsas) : bytesDeclared wire ≤ bytesonwire :=
  (Nat.le_add_right ..).trans h.declared

theorem Shaped.grammar (h : Shaped wire bytesonwire lsas) (plain : Plain wire lsas) :
    Grammar wire bytesonwire := by
  refine ⟨lsas,h.toLayout,plain.1,fun upd => ?_⟩
  rcases h.counted upd with none | count
  · rw [none,plain.2 upd none]
    rfl
  · exact count

theorem lucky_of_listed (hl : ∀ lsah ∈ lsas, Listed (lsaType wire lsah)) :
    Lucky wire stack lsas :=
  fun lsah mem hu => absurd (hl lsah mem) hu

theorem packetExamin_plain (hp : ∀ lsas, Shaped wire bytesonwire lsas → Plain wire lsas)
    (same : ∀ i < bytesonwire, wire' i = wire i) (stack : Stack) :
    packetExamin wire' stack bytesonwire = .ok ↔ ∃ lsas, Shaped wire bytesonwire lsas := by
  rw [packetExamin_iff]
  constructor
  · rintro ⟨lsas,hs,-⟩
    exact ⟨lsas,hs.agrees fun i hi => (same i hi).symm⟩
  rintro ⟨lsas,hs⟩
  refine ⟨lsas,hs.agrees same,lucky_of_listed fun lsah mem => ?_⟩
  have hi := (hs.body.inside mem).trans hs.inside
  rw [lsaType_agrees same hi]
  exact (hp lsas hs).1 lsah mem

theorem Verdict.eq_of_ok_iff {v v' : Verdict} (h : v = .ok ↔ v' = .ok) : v = v' := by
  cases v <;> cases v' <;> simp_all

/-- Exactly for the packets that, if their lengths are right, have no LSA of a type without a format
and do not declare zero LSAs while having some. -/
theorem examin_trustworthy_iff (wire : Wire) (bytesonwire : Nat) :
    Trustworthy wire bytesonwire ↔ ∀ lsas, Shaped wire bytesonwire lsas → Plain wire lsas := by
  constructor
  · intro trust lsas hs
    have ha : packetExamin wire (fun _ => .ok) bytesonwire = .ok :=
      (packetExamin_iff ..).mpr ⟨lsas,hs,fun _ _ _ => rfl⟩
    constructor
    · -- The verdict must stay the same when the stack is against every unlisted type.
      have rejecting := trust.bytesAlone (fun _ => .ok) (fun _ => .ng) wire fun _ _ => rfl
      obtain ⟨lsas',hs',hl⟩ := (packetExamin_iff ..).mp (rejecting.trans ha)
      intro lsah mem
      by_contra unlisted
      rw [← hs.body.unique hs'.body] at mem
      exact nomatch hl lsah mem unlisted
    · intro upd none
      obtain ⟨lsas',lay,-,count⟩ := trust.grammar _ ha
      rw [← hs.body.unique lay.body]
      exact List.length_eq_zero_iff.mp ((count upd).symm.trans none)
  · intro hp
    refine ⟨fun stack ok => ?_,fun stack stack' wire' same => ?_,fun stack receiver ok => ?_⟩
    · obtain ⟨lsas,hs,-⟩ := (packetExamin_iff ..).mp ok
      exact hs.grammar (hp lsas hs)
    · exact Verdict.eq_of_ok_iff ((packetExamin_plain hp same stack').trans
        (packetExamin_plain hp (fun _ _ => rfl) stack).symm)
    obtain ⟨lsas,hs,-⟩ := (packetExamin_iff ..).mp ok
    exact ⟨laterReads_within hs.body receiver,hs.inside⟩

def oneLsaUpdate (length count type lsalen : UInt8) : Wire := fun i =>
  ([2,4,0,length] ++ List.replicate 20 0 ++ [0,0,0,count] ++ [0,0,2,type] ++
    List.replicate 14 0 ++ [0,lsalen]).getD i 0

/-- An LSA of type 13 is accepted depending on the stack, and an update that declares no LSAs with a
router-LSA in it. -/
theorem examin_untrustworthy :
    (packetExamin (oneLsaUpdate 48 1 13 20) (fun _ => .ok) 48 = .ok ∧
      packetExamin (oneLsaUpdate 48 1 13 20) (fun _ => .ng) 48 = .ng) ∧
    packetExamin (oneLsaUpdate 52 0 1 24) (fun _ => .ng) 52 = .ok ∧
      ¬ Grammar (oneLsaUpdate 52 0 1 24) 52 := by
  refine ⟨by decide +kernel,by decide +kernel,?_⟩
  rintro ⟨lsas,lay,-,count⟩
  have none : lsas = [] := List.length_eq_zero_iff.mp (count (by decide)).symm
  subst none
  cases lay.body with
  | hello _ type => exact absurd type (by decide)
  | dbDesc type => exact absurd type (by decide)
  | lsReq _ type => exact absurd type (by decide)
  | lsUpd _ seq =>
    have hd : bytesDeclared (oneLsaUpdate 52 0 1 24) = 52 := by decide
    rw [hd] at seq
    exact nomatch seq
  | lsAck type => exact absurd type (by decide)

end Frr.Packet
