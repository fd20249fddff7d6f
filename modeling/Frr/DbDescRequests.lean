import Frr.Adjacency

/-! The request list of a neighbor that describes its database. Packets may have any headers, and
several for one LSA. -/
namespace Frr

open List Instance

namespace Instance

variable (now : Nat)

def NewerByOne (l1 l2 : Instance) : Prop :=
  l1.seqnum < l2.seqnum ∨
    l1.seqnum = l2.seqnum ∧
      (l1.data.checksum.toNat+1 = l2.data.checksum.toNat ∨
        l1.data.checksum = l2.data.checksum ∧ NewerByAge now l1 l2)

instance (l1 l2 : Instance) : Decidable (NewerByOne now l1 l2) :=
  inferInstanceAs (Decidable (_ ∨ _))

theorem moreRecent_eq_neg_one_iff {l1 l2 : Instance} :
    moreRecent now l1 l2 = -1 ↔ NewerByOne now l1 l2 := by
  simp only [moreRecent,NewerByOne,newerByAge_iff,isMaxAge,decide_eq_true_eq,ne_eq,
    ← UInt16.toNat_inj]
  repeat' split
  all_goals omega

end Instance

namespace Adjacency
open DbDesc (Peer Packet Config refused takeHeader takeHeaders)

section

variable (c : Config)

/-- The loop of `ospf_db_desc_proc` with the request list. -/
def askHeaders (p : Peer) (lsReq : List Instance) : List Lsa → List Instance
  | [] => lsReq
  | h :: rest =>
    if refused c p h then lsReq
    else
      let lsReq := if DbDesc.compare p h = -1 then lsRequestAdd lsReq (new p.db.now h) else lsReq
      askHeaders (takeHeader p h) lsReq rest

/-- `ospf_db_desc_proc` with the request list. The Link State Request at its end leaves the list as
it is. -/
def dbDescProc (a : Nbr) (dd : Packet) : Nbr × List Packet :=
  let (q,sent) := DbDesc.dbDescProc c a.toPeer dd
  ({a with toPeer := q, lsReq := askHeaders c a.toPeer a.lsReq dd.headers},sent)

end

/-- `ospf_ls_request_lookup` finds something for a header. -/
def requested (lsReq : List Instance) (h : Lsa) : Bool := lsReq.any fun req => req.key = h.key

def Wanted (p : Peer) (h : Lsa) : Prop :=
  match p.db.lookup h.key with
  | none => True
  | some r => Newer p.db.now (p.db.lsas r) (new p.db.now h)

def Noticed (p : Peer) (h : Lsa) : Prop :=
  match p.db.lookup h.key with
  | none => True
  | some r => NewerByOne p.db.now (p.db.lsas r) (new p.db.now h)

def taken (c : Config) (p : Peer) (headers : List Lsa) : List Lsa :=
  headers.takeWhile fun h => !refused c p h

/-- The loop decides as it should: a wanted LSA is on the list already or a header taken for it is
noticed, one not wanted is neither. -/
structure Discerned (c : Config) (a : Nbr) (headers : List Lsa) : Prop where
  wanted : ∀ h ∈ headers, Wanted a.toPeer h →
    requested a.lsReq h ∨ ∃ g ∈ taken c a.toPeer headers, g.key = h.key ∧ Noticed a.toPeer g
  unwanted : ∀ h ∈ headers, ¬ Wanted a.toPeer h →
    ¬ requested a.lsReq h ∧ ∀ g ∈ taken c a.toPeer headers, g.key = h.key → ¬ Noticed a.toPeer g

section

variable {c : Config} {p : Peer} {lsReq : List Instance} {h : Lsa}

theorem compare_eq_neg_one_iff : DbDesc.compare p h = -1 ↔ Noticed p h := by
  unfold DbDesc.compare Noticed
  cases p.db.lookup h.key with
  | none => simp [moreRecentThan]
  | some r => exact moreRecent_eq_neg_one_iff _

theorem requested_iff : requested lsReq h ↔ ∃ req ∈ lsReq, req.key = h.key := by
  simp [requested]

theorem requested_lsRequestAdd (lsa : Instance) :
    requested (lsRequestAdd lsReq lsa) h ↔ requested lsReq h ∨ lsa.key = h.key := by
  simp only [requested_iff,lsRequestAdd,mem_append,mem_filter,mem_singleton,
    decide_eq_true_eq]
  constructor
  · rintro ⟨req,⟨mem,-⟩ | rfl,key⟩
    · exact .inl ⟨req,mem,key⟩
    · exact .inr key
  rintro (⟨req,mem,key⟩ | key)
  · by_cases eq : req.key = lsa.key
    · exact ⟨lsa,.inr rfl,eq.symm.trans key⟩
    · exact ⟨req,.inl ⟨mem,eq⟩,key⟩
  · exact ⟨lsa,.inr rfl,key⟩

theorem takeHeader_decides (c : Config) (p : Peer) (h : Lsa) :
    refused c (takeHeader p h) = refused c p ∧ DbDesc.compare (takeHeader p h) = DbDesc.compare p := by
  have frm := (DbDesc.takeHeader_took p h).frame
  constructor <;> rw [frm] <;> rfl

theorem askHeaders_eq (hdrs : List Lsa) :
    askHeaders c p lsReq hdrs = ((taken c p hdrs).filter fun h => DbDesc.compare p h = -1).foldl
      (fun lsReq h => lsRequestAdd lsReq (new p.db.now h)) lsReq := by
  induction hdrs generalizing p lsReq with
  | nil => rfl
  | cons h rest ih =>
    obtain ⟨refuses,compares⟩ := takeHeader_decides c p h
    have now : (takeHeader p h).db.now = p.db.now := by rw [(DbDesc.takeHeader_took p h).frame]
    rw [askHeaders]
    by_cases hg : refused c p h
    · simp [taken,hg]
    rw [if_neg hg,ih,taken,refuses,compares,now]
    by_cases ha : DbDesc.compare p h = -1 <;> simp [taken,hg,ha]

theorem requested_askHeaders (hdrs : List Lsa) :
    requested (askHeaders c p lsReq hdrs) h ↔
      requested lsReq h ∨ ∃ g ∈ taken c p hdrs, g.key = h.key ∧ Noticed p g := by
  have folded (asked : List Lsa) (lsReq : List Instance) :
      requested (asked.foldl (fun lsReq h => lsRequestAdd lsReq (new p.db.now h)) lsReq) h
        ↔ requested lsReq h ∨ ∃ g ∈ asked, g.key = h.key := by
    induction asked generalizing lsReq with
    | nil => simp
    | cons g rest ih =>
      rw [foldl_cons,ih,requested_lsRequestAdd,or_assoc,exists_mem_cons_iff]
      exact Iff.rfl
  rw [askHeaders_eq,folded]
  simp only [mem_filter,decide_eq_true_eq,compare_eq_neg_one_iff,and_assoc]
  exact or_congr_right (exists_congr fun g => and_congr_right fun _ => and_comm)

end

theorem requests_exact_iff (c : Config) (a : Nbr) (dd : Packet) :
    (∀ h ∈ dd.headers, requested (dbDescProc c a dd).1.lsReq h ↔ Wanted a.toPeer h) ↔
      Discerned c a dd.headers := by
  have spec (h : Lsa) : requested (dbDescProc c a dd).1.lsReq h ↔ _ :=
    requested_askHeaders dd.headers
  constructor
  · intro exact
    refine ⟨fun h mem wanted => (spec h).mp ((exact h mem).mpr wanted),fun h mem unwanted => ?_⟩
    have ha := mt (spec h).mpr (mt (exact h mem).mp unwanted)
    exact ⟨fun hl => ha (.inl hl),fun g mem key noticed =>
      ha (.inr ⟨g,mem,key,noticed⟩)⟩
  · intro discerned h mem
    constructor
    · intro hl
      by_contra unwanted
      obtain ⟨hb,hi⟩ := discerned.unwanted h mem unwanted
      rcases (spec h).mp hl with hl | ⟨g,ht,key,noticed⟩
      · exact hb hl
      · exact hi g ht key noticed
    · exact fun wanted => (spec h).mpr (discerned.wanted h mem wanted)

def copyLsa : Lsa :=
  { lsAge := 1, options := 2, type := 1, id := 1, advRouter := 1, lsSeqnum := 0x80000001,
    checksum := 16, length := 20, body := [] }

def copyNbr : Nbr :=
  let db : DbDesc.Database :=
    {now := 0, lsas := fun _ => new 0 copyLsa, held := [0], discarded := fun _ => false}
  {nbrNew db [] with state := .exchange}

def copyConfig : Config :=
  { routerId := 2, mtu := 1500, mtuIgnore := false, packetMax := 1472, virtualLink := false,
    options := 2, opaqueCapable := false, externalRouting := .default }

/-- The instance with a checksum larger by two is more recent, and not requested. -/
theorem larger_checksum_not_requested :
    let described : Lsa := {copyLsa with checksum := 18}
    let dd : Packet :=
      {flags := ⟨true,true,false⟩, seqnum := 1, headers := [described], mtu := 1500, options := 2}
    Wanted copyNbr.toPeer described ∧
      requested (dbDescProc copyConfig copyNbr dd).1.lsReq described = false := by
  refine ⟨?_,by decide +kernel⟩
  show Newer 0 (new 0 copyLsa) _
  decide +kernel

end Adjacency

end Frr
