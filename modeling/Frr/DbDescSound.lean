import Frr.DbDesc

/-! One side of a Database Description exchange: its role, the rounds so far, and what became of
every LSA of its summary list. -/
namespace Frr.DbDesc

open List
open Ospf (NsmState NsmEvent ExternalRouting optionO optionNp)

def bare (lsa : Lsa) : Lsa := {lsa with lsAge := 0, body := []}

def Describes (h : Lsa) (p : Peer) (r : Nat) : Prop := bare h = bare (p.db.lsas r).data

/-- The neighbor described the same or a more recent instance, when compared with the database copy.
-/
def Covered (p : Peer) (r : Nat) : Prop :=
  ∃ h ∈ p.received, h.key = (p.db.lsas r).key ∧ ∃ now lsa,
    bare lsa.data = bare (p.db.lsas r).data ∧
    (Instance.moreRecent now lsa (Instance.new now h) = -1 ∨
      Instance.moreRecent now lsa (Instance.new now h) = 0)

theorem bare_header (db : Database) (r : Nat) : bare (header db r) = bare (db.lsas r).data := rfl

section

theorem sentOptions_capable {c : Config} (hc : c.opaqueCapable) :
    sentOptions c &&& optionO ≠ 0 := by
  have absorbed : ∀ x : UInt8, (x ||| optionO) &&& optionO = optionO := by
    intro x
    rw [← UInt8.toBitVec_inj]
    ext i h
    simp
    grind
  rw [sentOptions,if_pos hc,absorbed]
  decide

theorem correctOptions_capable {c : Config} (p : Peer) (dd : Packet)
    (takes : (correctOptions c p dd).options &&& optionO ≠ 0) : c.opaqueCapable = true := by
  have hc : ∀ x : UInt8, x &&& ~~~ optionO &&& optionO = 0 := by
    intro x
    rw [← UInt8.toBitVec_inj]
    ext i h
    simp
  by_contra incapable
  simp only [correctOptions,if_neg incapable,hc] at takes
  exact takes rfl

end

/-- What becomes of an LSA in the walk: it stays in the list, is dropped as discarded, or is
described. -/
def Walked (db : Database) (result : List Lsa × List Nat) (r : Nat) : Prop :=
  r ∈ result.2 ∨ db.discarded r ∨ header db r ∈ result.1

theorem Walked.mono (h : Walked db result r) (hdrs : result.1 ⊆ result'.1)
    (hk : result.2 ⊆ result'.2) : Walked db result' r :=
  h.imp (fun hs => hk hs) (Or.imp_right fun ht => hdrs ht)

theorem describe_spec {c : Config} {db : Database} (len : Nat) (full : Option UInt8)
    (l : List Nat) (ha : ∀ r ∈ l, Lsa.isOpaque (db.lsas r).data.type → c.opaqueCapable) :
    (describe c db len full l).2 ⊆ l ∧ ∀ r ∈ l, Walked db (describe c db len full l) r := by
  induction l generalizing len full with
  | nil => simp [describe]
  | cons fst rest ih =>
    have hl := fun len full => ih len full fun r mem =>
      ha r (.tail _ mem)
    simp only [mem_cons,forall_eq_or_imp]
    rw [describe]
    split
    · obtain ⟨hk,each⟩ := hl len full
      refine ⟨cons_subset_cons fst hk,.inl (.head _),fun r mem => ?_⟩
      exact (each r mem).mono (List.Subset.refl _) (subset_cons_self ..)
    split
    · next suppressed =>
      exact absurd suppressed.2 (sentOptions_capable (ha fst (.head _) suppressed.1))
    split
    · next gone =>
      obtain ⟨hk,each⟩ := hl len full
      exact ⟨subset_cons_of_subset fst hk,.inr (.inl gone),each⟩
    split
    · obtain ⟨hk,each⟩ := hl len (some (db.lsas fst).data.type)
      refine ⟨cons_subset_cons fst hk,.inl (.head _),fun r mem => ?_⟩
      exact (each r mem).mono (List.Subset.refl _) (subset_cons_self ..)
    obtain ⟨hk,each⟩ := hl (len+20) full
    refine ⟨subset_cons_of_subset fst hk,.inr (.inr (.head _)),fun r mem => ?_⟩
    exact (each r mem).mono (subset_cons_self ..) (List.Subset.refl _)

/-! ### The invariant of one side -/

def closing (round : Content × Content) : Bool := !round.1.flags.m && !round.2.flags.m

def Peer.finished (p : Peer) : Bool := p.rounds.getLast?.any closing

def masters (p : Peer) (out inc : List Packet) : List Packet := if p.flags.ms then out else inc
def slaves (p : Peer) (out inc : List Packet) : List Packet := if p.flags.ms then inc else out

def Peer.own (p : Peer) (round : Content × Content) : Content :=
  if p.flags.ms then round.1 else round.2
def Peer.theirs (p : Peer) (round : Content × Content) : Content :=
  if p.flags.ms then round.2 else round.1

/-- A position of an exchange that began with a sequence number. The first packet is the claim to be
master. -/
structure Round (start : UInt32) (masters slaves : List Packet) (k : Nat)
    (round : Content × Content) : Prop where
  master : round.1 ∈ masters.map Packet.toContent
  slave : round.2 ∈ slaves.map Packet.toContent
  masterSeqnum : round.1.seqnum = start + UInt32.ofNat k
  slaveSeqnum : round.2.seqnum = start + UInt32.ofNat k
  claim : k = 0 → round.1.flags.m = true ∧ round.1.headers = []
  noClaim : k ≠ 0 → round.1.flags.i = false
  answer : round.2.flags.i = false

structure Pending (p : Peer) (last : Packet) : Prop where
  sent : p.lastSend = some last
  seqnum : last.seqnum = p.seqnum
  more : last.flags.m = p.flags.m
  claim : p.rounds = [] → last.flags.m = true ∧ last.headers = []
  noClaim : p.rounds ≠ [] → last.flags.i = false

def Accounted (p : Peer) (r : Nat) : Prop :=
  r ∈ p.dbSum ∨ p.db.discarded r ∨ Covered p r ∨
    ∃ h, Describes h p r ∧ ((∃ round ∈ p.rounds, h ∈ (p.own round).headers) ∨
      (p.finished = false ∧ p.flags.ms = true ∧ ∃ last, p.lastSend = some last ∧
        h ∈ last.headers))

structure Negotiated (c : Config) (n : UInt32) (p : Peer) (out inc : List Packet) : Prop where
  ids : c.routerId ≠ n
  role : p.flags.ms = decide (n < c.routerId)
  noClaim : p.flags.i = false
  more : p.flags.m = false → p.dbSum = []
  allowed : ∀ r ∈ p.dbSum, Lsa.isOpaque (p.db.lsas r).data.type → c.opaqueCapable
  rounds : ∀ k round, p.rounds[k]? = some round →
    Round p.start (masters p out inc) (slaves p out inc) k round
  goesOn : ∀ k round, p.rounds[k]? = some round → k+1 < p.rounds.length →
    closing round = false
  taken : ∀ round ∈ p.rounds, (p.theirs round).headers ⊆ p.received
  accounted : ∀ r ∈ p.summary, Accounted p r

structure Exchanging (c : Config) (n : UInt32) (p : Peer) (out inc : List Packet) : Prop extends
    Negotiated c n p out inc where
  master : p.flags.ms = true → p.seqnum = p.start + UInt32.ofNat p.rounds.length ∧
    (p.finished = false → ∃ last, Pending p last)
  slave : p.flags.ms = false → p.rounds ≠ [] ∧
    p.seqnum + 1 = p.start + UInt32.ofNat p.rounds.length
  told : p.finished = true → p.flags.m = false
  ends : p.state = .exchange → (p.finished = true ↔ .exchangeDone ∈ p.scheduled)
  ended : .exchange < p.state → p.finished = true

structure Sound (c : Config) (n : UInt32) (p : Peer) (out inc : List Packet) : Prop where
  sent : ∀ last, p.lastSend = some last → last ∈ out
  low : p.state ≤ .exStart → p.dbSum = []
  claims : p.state = .exStart → p.flags = .all ∧ ∃ first, p.lastSend = some first ∧
    first.flags = .all ∧ first.seqnum = p.seqnum ∧ first.headers = []
  exchanging : .exchange ≤ p.state → Exchanging c n p out inc

/-! ### More packets do no harm -/

theorem Round.mono {round : Content × Content} (h : Round start ms ss k round) (m : ms ⊆ ms')
    (s : ss ⊆ ss') : Round start ms' ss' k round :=
  {h with
    master := map_subset _ m h.master
    slave := map_subset _ s h.slave}

theorem masters_mono (p : Peer) (o : out ⊆ out') (i : inc ⊆ inc') :
    masters p out inc ⊆ masters p out' inc' := by
  unfold masters
  split <;> assumption

theorem slaves_mono (p : Peer) (o : out ⊆ out') (i : inc ⊆ inc') :
    slaves p out inc ⊆ slaves p out' inc' := by
  unfold slaves
  split <;> assumption

theorem Negotiated.mono (h : Negotiated c n p out inc) (o : out ⊆ out') (i : inc ⊆ inc') :
    Negotiated c n p out' inc' :=
  {h with
    rounds := fun k round hf =>
      (h.rounds k round hf).mono (masters_mono p o i) (slaves_mono p o i)}

theorem Exchanging.mono (h : Exchanging c n p out inc) (o : out ⊆ out') (i : inc ⊆ inc') :
    Exchanging c n p out' inc' :=
  {h with toNegotiated := h.toNegotiated.mono o i}

theorem Sound.mono (h : Sound c n p out inc) (o : out ⊆ out') (i : inc ⊆ inc') :
    Sound c n p out' inc' :=
  {h with
    sent := fun last hf => o (h.sent last hf)
    exchanging := fun state => (h.exchanging state).mono o i}

/-! ### A round of the exchange -/

theorem getElem?_append_one {l : List α} (hf : (l ++ [x])[k]? = some y) :
    l[k]? = some y ∨ k = l.length ∧ y = x := by
  rcases Nat.lt_trichotomy k l.length with hl | eq | hm
  · rw [getElem?_append_left hl] at hf
    exact .inl hf
  · subst eq
    simp at hf
    exact .inr ⟨rfl,hf.symm⟩
  rw [getElem?_eq_none (by simp; omega)] at hf
  contradiction

theorem finished_append (p : Peer) (round : Content × Content) (rounds : p.rounds = l ++ [round]) :
    p.finished = closing round := by
  simp [Peer.finished,rounds]

theorem last_open (p : Peer) {round : Content × Content} (hg : p.finished = false)
    (hf : p.rounds[k]? = some round) (last : k + 1 = p.rounds.length) : closing round = false := by
  have isLast : p.rounds.getLast? = some round := by
    rw [getLast?_eq_getElem?,← last]
    exact hf
  rw [Peer.finished,isLast] at hg
  exact hg

theorem Negotiated.addRound (h : Negotiated c n p out inc) (hgo : p.finished = false)
    (x : UInt32) (round : Content × Content)
    (hfi : Round p.start (masters p out inc) (slaves p out inc) p.rounds.length round)
    (ht : (p.theirs round).headers ⊆ p.received)
    (hs : p.flags.ms → ∀ last, p.lastSend = some last →
      last.headers ⊆ round.1.headers) :
    Negotiated c n {p with seqnum := x, rounds := p.rounds ++ [round]} out inc := by
  refine {h with
    rounds := fun k ho hf => ?_
    goesOn := fun k ho hf he => ?_
    taken := fun ho mem => ?_
    accounted := fun r mem => ?_}
  · rcases getElem?_append_one hf with old | ⟨rfl,rfl⟩
    · exact h.rounds k ho old
    · exact hfi
  · simp only [length_append,length_singleton] at he
    rcases getElem?_append_one hf with old | ⟨rfl,rfl⟩
    · by_cases inner : k + 1 < p.rounds.length
      · exact h.goesOn k ho old inner
      · exact last_open p hgo old (by omega)
    · omega
  · rcases mem_append.mp mem with old | new
    · exact h.taken ho old
    rw [mem_singleton.mp new]
    exact ht
  · rcases h.accounted r mem with hst | hg | hc | ⟨hdr,hd,hto⟩
    · exact .inl hst
    · exact .inr (.inl hg)
    · exact .inr (.inr (.inl hc))
    refine .inr (.inr (.inr ⟨hdr,hd,.inl ?_⟩))
    rcases hto with ⟨ho,old,hi⟩ | ⟨-,master,last,hse,hi⟩
    · exact ⟨ho,mem_append_left _ old,hi⟩
    refine ⟨round,mem_append_right _ (mem_singleton_self _),?_⟩
    simp only [Peer.own,master,reduceIte]
    exact hs master last hse hi

section

variable (c : Config) (p : Peer)

@[simp] theorem dbDescSend_ms : (dbDescSend c p).flags.ms = p.flags.ms := by
  simp only [dbDescSend,moreBit]
  split <;> rfl

@[simp] theorem dbDescSend_i : (dbDescSend c p).flags.i = p.flags.i := by
  simp only [dbDescSend,moreBit]
  split <;> rfl

@[simp] theorem dbDescSend_lastSend : (dbDescSend c p).lastSend = some (makeDbDesc c p) := rfl

@[simp] theorem dbDescSend_finished : (dbDescSend c p).finished = p.finished := rfl

@[simp] theorem dbDescSend_own : (dbDescSend c p).own = p.own := by
  funext round
  simp [Peer.own]

@[simp] theorem dbDescSend_theirs : (dbDescSend c p).theirs = p.theirs := by
  funext round
  simp [Peer.theirs]

end

/-- The next packet: its headers are accounted for by a round, or by its being the master's last. -/
theorem Negotiated.send (h : Negotiated c n p out inc)
    (hse : p.flags.ms → ∀ last, p.lastSend = some last →
      ∀ hdr ∈ last.headers, ∃ round ∈ p.rounds, hdr ∈ (p.own round).headers)
    (ht : p.flags.ms = false → ∃ round ∈ p.rounds, (makeDbDesc c p).headers ⊆ (p.own round).headers)
    (hgo : p.flags.ms → p.finished = false) :
    Negotiated c n (dbDescSend c p) out inc := by
  obtain ⟨hk,each⟩ := describe_spec 8 none p.dbSum h.allowed
  refine {h with
    role := (dbDescSend_ms c p).trans h.role
    noClaim := (dbDescSend_i c p).trans h.noClaim
    more := fun none => ?_
    allowed := fun r mem => h.allowed r (hk mem)
    rounds := fun k round hf => ?_
    taken := fun round mem => ?_
    accounted := fun r mem => ?_}
  · simp only [dbDescSend,moreBit] at none ⊢
    split at none
    · next all => exact all.1
    · exact subset_nil.mp (h.more none ▸ hk)
  · simp only [masters,slaves,dbDescSend_ms]
    exact h.rounds k round hf
  · rw [dbDescSend_theirs]
    exact h.taken round mem
  rw [Accounted,dbDescSend_own,dbDescSend_finished,dbDescSend_ms]
  rcases h.accounted r mem with hs | hg | hc | ⟨hdr,hd,ht⟩
  · rcases each r hs with hs | hg | hi
    · exact .inl hs
    · exact .inr (.inl hg)
    refine .inr (.inr (.inr ⟨_,bare_header p.db r,?_⟩))
    cases ms : p.flags.ms with
    | false =>
      obtain ⟨round,mem,all⟩ := ht ms
      exact .inl ⟨round,mem,all hi⟩
    | true => exact .inr ⟨hgo ms,rfl,_,rfl,hi⟩
  · exact .inr (.inl hg)
  · exact .inr (.inr (.inl hc))
  · refine .inr (.inr (.inr ⟨hdr,hd,.inl ?_⟩))
    rcases ht with old | ⟨-,master,last,sent,hi⟩
    · exact old
    · exact hse master last sent hdr hi

theorem Negotiated.schedule (h : Negotiated c n p out inc) (ev : Scheduled) :
    Negotiated c n (schedule p ev) out inc := {h with}

theorem Negotiated.saveCurrent (h : Negotiated c n p out inc) (dd : Packet) :
    Negotiated c n (saveCurrent p dd) out inc := {h with}

theorem Exchanging.saveCurrent (h : Exchanging c n p out inc) (dd : Packet) :
    Exchanging c n (saveCurrent p dd) out inc :=
  {h with
    toNegotiated := h.toNegotiated.saveCurrent dd
    master := fun ms => ⟨(h.master ms).1,fun hg =>
      (h.master ms).2 hg |>.imp fun _ hp => {hp with}⟩}

structure Awaited (p : Peer) (inc : List Packet) (dd : Packet) : Prop where
  got : dd.toContent ∈ inc.map Packet.toContent
  seqnum : dd.seqnum = p.start + UInt32.ofNat p.rounds.length
  taken : dd.headers ⊆ p.received

structure Waiting (c : Config) (n : UInt32) (p : Peer) (out inc : List Packet) : Prop extends
    Negotiated c n p out inc where
  state : p.state = .exchange
  goes : p.finished = false
  quiet : .exchangeDone ∉ p.scheduled
  sent : ∀ last, p.lastSend = some last → last ∈ out
  master : p.flags.ms = true →
    p.seqnum = p.start + UInt32.ofNat p.rounds.length ∧ ∃ last, Pending p last

theorem ofNat_succ (start : UInt32) (k : Nat) :
    start + UInt32.ofNat k + 1 = start + UInt32.ofNat (k+1) := by
  rw [UInt32.ofNat_add,UInt32.add_assoc]
  rfl

theorem Waiting.exchanging (h : Waiting c n p out inc)
    (slave : p.flags.ms = false → p.rounds ≠ [] ∧
      p.seqnum + 1 = p.start + UInt32.ofNat p.rounds.length) : Exchanging c n p out inc where
  toNegotiated := h.toNegotiated
  master := fun ms => ⟨(h.master ms).1,fun _ => (h.master ms).2⟩
  slave := slave
  told := fun he => nomatch h.goes.symm.trans he
  ends := fun _ => ⟨fun he => (nomatch h.goes.symm.trans he), fun hd => absurd hd h.quiet⟩
  ended := fun hl => absurd (h.state ▸ hl) (lt_irrefl _)

theorem masterTurn_sound (h : Waiting c n p out inc) (ms : p.flags.ms)
    (dd : Packet) (ha : Awaited p inc dd) (answer : dd.flags.i = false) :
    Exchanging c n (masterTurn c p dd).1 (out ++ (masterTurn c p dd).2) inc ∧
      ∀ last, (masterTurn c p dd).1.lastSend = some last → last ∈ out ++ (masterTurn c p dd).2 := by
  obtain ⟨seqnum,last,hp⟩ := h.master ms
  have rounds : p.rounds ++ (p.lastSend.toList.map fun last => (last.toContent,dd.toContent)) =
      p.rounds ++ [(last.toContent,dd.toContent)] := by
    rw [hp.sent]
    rfl
  generalize round : (last.toContent,dd.toContent) = newest at rounds
  let q : Peer := {p with seqnum := p.seqnum+1, rounds := p.rounds ++ [newest]}
  have turn : masterTurn c p dd = if ¬ dd.flags.m ∧ ¬ p.flags.m then
      (schedule q .exchangeDone,[]) else (dbDescSend c q,[makeDbDesc c q]) := by
    simp only [masterTurn,rounds]
    rfl
  have hf : Round p.start (masters p out inc) (slaves p out inc) p.rounds.length newest := by
    subst round
    simp only [masters,slaves,ms,reduceIte]
    exact {
      master := mem_map_of_mem (h.sent last hp.sent)
      slave := ha.got
      masterSeqnum := hp.seqnum.trans seqnum
      slaveSeqnum := ha.seqnum
      claim := fun none => hp.claim (length_eq_zero_iff.mp none)
      noClaim := fun some => hp.noClaim fun none => some (by rw [none]; rfl)
      answer := answer}
  have had : Negotiated c n q out inc := by
    refine h.addRound h.goes _ newest hf ?_ ?_
    · subst round
      simp only [Peer.theirs,ms,reduceIte]
      exact ha.taken
    intro _ ho hs
    rw [hp.sent] at hs
    cases hs
    subst round
    exact List.Subset.refl _
  have hc : q.finished = closing newest := finished_append q _ rfl
  have next : q.seqnum = q.start + UInt32.ofNat q.rounds.length := by
    simp only [q,length_append,length_singleton,seqnum]
    exact ofNat_succ ..
  rw [turn]
  split
  · next none =>
    have he : q.finished := by
      subst round
      simpa [hc,closing,hp.more] using none.symm
    rw [append_nil]
    refine ⟨?_,h.sent⟩
    exact {
      toNegotiated := had.schedule _
      master := fun _ => ⟨next,fun hg => nomatch he.symm.trans hg⟩
      slave := fun not => nomatch ms.symm.trans not
      told := fun _ => Bool.eq_false_iff.mpr none.2
      ends := fun _ => ⟨fun _ => mem_append_right _ (mem_singleton_self _),fun _ => he⟩
      ended := fun hl => absurd (h.state ▸ hl) (lt_irrefl _)}
  · next some =>
    have hg : q.finished = false := by
      subst round
      simpa [hc,closing,hp.more,imp_iff_not_or,or_comm] using some
    have ht : Negotiated c n (dbDescSend c q) out inc := by
      refine had.send (fun _ ho hs hdr hi => ?_)
        (fun not => nomatch ms.symm.trans not) fun _ => hg
      refine ⟨newest,mem_append_right _ (mem_singleton_self _),?_⟩
      rw [show ho = last from Option.some.inj (hs.symm.trans hp.sent)] at hi
      subst round
      simpa [q,Peer.own,ms,reduceIte] using hi
    have pendingNext : Pending (dbDescSend c q) (makeDbDesc c q) := {
      sent := rfl
      seqnum := rfl
      more := rfl
      claim := fun none => absurd none (by simp [q,dbDescSend])
      noClaim := fun _ => ht.noClaim}
    have waits : Waiting c n (dbDescSend c q) (out ++ [makeDbDesc c q]) inc := {h with
      toNegotiated := ht.mono (subset_append_left ..) (List.Subset.refl _)
      goes := hg
      sent := fun _ hs => by cases hs; exact mem_append_right _ (mem_singleton_self _)
      master := fun _ => ⟨next,_,pendingNext⟩}
    have sms := dbDescSend_ms c q
    exact ⟨waits.exchanging fun not => (nomatch ms.symm.trans (sms.symm.trans not)),waits.sent⟩

theorem slaveTurn_sound (h : Waiting c n p out inc) (ms : p.flags.ms = false)
    (dd : Packet) (ha : Awaited p inc dd)
    (claim : p.rounds = [] → dd.flags.m ∧ dd.headers = [])
    (hn : p.rounds ≠ [] → dd.flags.i = false) :
    Exchanging c n (slaveTurn c p dd).1 (out ++ (slaveTurn c p dd).2) inc ∧
      ∀ last, (slaveTurn c p dd).1.lastSend = some last → last ∈ out ++ (slaveTurn c p dd).2 := by
  generalize answer : makeDbDesc c {p with seqnum := dd.seqnum} = reply
  generalize round : (dd.toContent,reply.toContent) = newest
  let q : Peer := {p with seqnum := dd.seqnum, rounds := p.rounds ++ [newest]}
  have turn : slaveTurn c p dd = if ¬ dd.flags.m ∧ ¬ (dbDescSend c q).flags.m then
      (schedule (dbDescSend c q) .exchangeDone,[reply]) else (dbDescSend c q,[reply]) := by
    subst round answer
    rfl
  have hh : reply ∈ out ++ [reply] := mem_append_right _ (mem_singleton_self _)
  have base : Negotiated c n p (out ++ [reply]) inc :=
    h.mono (subset_append_left ..) (List.Subset.refl _)
  have hsi : reply.flags.i = false := by
    subst answer
    exact (dbDescSend_i c _).trans h.noClaim
  have hf : Round p.start (masters p (out ++ [reply]) inc) (slaves p (out ++ [reply]) inc)
      p.rounds.length newest := by
    subst round
    simp only [masters,slaves,ms,Bool.false_eq_true,reduceIte]
    exact {
      master := ha.got
      slave := mem_map_of_mem hh
      masterSeqnum := ha.seqnum
      slaveSeqnum := by subst answer; exact ha.seqnum
      claim := fun none => claim (length_eq_zero_iff.mp none)
      noClaim := fun some => hn fun none => some (by rw [none]; rfl)
      answer := hsi}
  have had : Negotiated c n q (out ++ [reply]) inc := by
    refine base.addRound h.goes _ newest hf ?_ fun not => nomatch ms.symm.trans not
    subst round
    simp only [Peer.theirs,ms,Bool.false_eq_true,reduceIte]
    exact ha.taken
  have ht : Negotiated c n (dbDescSend c q) (out ++ [reply]) inc := by
    refine had.send (fun not => nomatch ms.symm.trans not) (fun _ => ?_)
      fun not => nomatch ms.symm.trans not
    refine ⟨newest,mem_append_right _ (mem_singleton_self _),?_⟩
    subst round answer
    simp only [q,Peer.own,ms,Bool.false_eq_true,reduceIte]
    exact List.Subset.refl _
  have hc : (dbDescSend c q).finished = closing newest := finished_append q _ rfl
  have slave : q.rounds ≠ [] ∧ q.seqnum + 1 = q.start + UInt32.ofNat q.rounds.length := by
    refine ⟨append_ne_nil_of_right_ne_nil _ (cons_ne_nil _ _),?_⟩
    simp only [q,length_append,length_singleton,ha.seqnum]
    exact ofNat_succ ..
  have sent : ∀ last, (dbDescSend c q).lastSend = some last → last ∈ out ++ [reply] := by
    subst answer
    rintro _ ⟨⟩
    exact hh
  have hm : reply.flags.m = (dbDescSend c q).flags.m := by
    subst answer
    rfl
  have sms := dbDescSend_ms c q
  rw [turn]
  split
  · next none =>
    have he : (dbDescSend c q).finished := by
      subst round
      simpa [hc,closing,hm] using none
    refine ⟨?_,sent⟩
    exact {
      toNegotiated := ht.schedule _
      master := fun not => nomatch ms.symm.trans (sms.symm.trans not)
      slave := fun _ => slave
      told := fun _ => Bool.eq_false_iff.mpr none.2
      ends := fun _ => ⟨fun _ => mem_append_right _ (mem_singleton_self _), fun _ => he⟩
      ended := fun hl => absurd (h.state ▸ hl) (lt_irrefl _)}
  · next some =>
    have hg : (dbDescSend c q).finished = false := by
      subst round
      simpa [hc,closing,hm,imp_iff_not_or] using some
    have waits : Waiting c n (dbDescSend c q) (out ++ [reply]) inc := {h with
      toNegotiated := ht
      goes := hg
      sent := sent
      master := fun not => nomatch ms.symm.trans (sms.symm.trans not)}
    exact ⟨waits.exchanging fun _ => slave,sent⟩

/-! ### The headers of a packet -/

structure Took (p q : Peer) : Prop where
  frame : q = {p with dbSum := q.dbSum, received := q.received, scheduled := q.scheduled}
  shrinks : q.dbSum ⊆ p.dbSum
  dropped : ∀ r ∈ p.dbSum, r ∈ q.dbSum ∨ Covered q r
  received : p.received ⊆ q.received
  scheduled : p.scheduled ⊆ q.scheduled
  mismatch : ∀ event ∈ q.scheduled, event ∈ p.scheduled ∨ event = .seqNumberMismatch

theorem Covered.mono (h : Covered p r) (db : q.db = p.db) (hr : p.received ⊆ q.received) :
    Covered q r := by
  obtain ⟨hdr,mem,rest⟩ := h
  rw [← db] at rest
  exact ⟨hdr,hr mem,rest⟩

theorem Took.trans (fst : Took p q) (snd : Took q o) : Took p o where
  frame := by rw [snd.frame,fst.frame]
  shrinks := List.Subset.trans snd.shrinks fst.shrinks
  dropped := fun r mem => by
    rcases fst.dropped r mem with hs | hc
    · exact snd.dropped r hs
    · exact .inr (hc.mono (by rw [snd.frame]) snd.received)
  received := List.Subset.trans fst.received snd.received
  scheduled := List.Subset.trans fst.scheduled snd.scheduled
  mismatch := fun ev mem => by
    rcases snd.mismatch ev mem with old | rfl
    · exact fst.mismatch ev old
    · exact .inr rfl

theorem lookup_key {db : Database} (hf : db.lookup key = some r) : (db.lsas r).key = key := by
  have hn := find?_some hf
  simpa using hn

theorem takeHeader_took (p : Peer) (h : Lsa) : Took p (takeHeader p h) := by
  unfold takeHeader
  extract_lets q
  split
  · next known =>
    refine ⟨rfl,filter_subset_self _,fun r mem => ?_,subset_append_left ..,
      List.Subset.refl _,fun _ => .inl⟩
    by_cases hf : p.db.lookup h.key = some r
    · refine .inr ⟨h,mem_append_right _ (mem_singleton_self _),?_,p.db.now,p.db.lsas r,rfl,?_⟩
      · exact (lookup_key hf).symm
      · simpa [compare,q,hf,Option.map_some,Instance.moreRecentThan] using known
    · exact .inl (mem_filter.mpr ⟨mem,by simpa using hf⟩)
  · exact ⟨rfl,List.Subset.refl _,fun _ => .inl,subset_append_left ..,
      List.Subset.refl _,fun _ => .inl⟩

theorem takeHeader_received (p : Peer) (h : Lsa) : h ∈ (takeHeader p h).received := by
  unfold takeHeader
  extract_lets q
  split <;> exact mem_append_right _ (mem_singleton_self _)

theorem takeHeaders_took (c : Config) (p : Peer) (hdrs : List Lsa) :
    Took p (takeHeaders c p hdrs).1 ∧
      ((takeHeaders c p hdrs).2 → hdrs ⊆ (takeHeaders c p hdrs).1.received) := by
  induction hdrs generalizing p with
  | nil =>
    exact ⟨⟨rfl,List.Subset.refl _,fun _ => .inl,List.Subset.refl _,List.Subset.refl _,
      fun _ => .inl⟩,fun _ => nil_subset _⟩
  | cons h rest ih =>
    rw [takeHeaders]
    split
    · refine ⟨⟨rfl,List.Subset.refl _,fun _ => .inl,List.Subset.refl _,
        subset_append_left ..,fun ev mem => ?_⟩,nofun⟩
      simpa [schedule] using mem
    obtain ⟨ht,all⟩ := ih (takeHeader p h)
    refine ⟨(takeHeader_took p h).trans ht,fun hf => ?_⟩
    exact cons_subset.mpr ⟨ht.received (takeHeader_received p h),all hf⟩

theorem Took.accounted (ht : Took p q) (h : Accounted p r) : Accounted q r := by
  rcases h with hs | hg | hc | ⟨hdr,hd,hto⟩
  · rcases ht.dropped r hs with hs | hc
    · exact .inl hs
    · exact .inr (.inr (.inl hc))
  · refine .inr (.inl ?_)
    rw [ht.frame]
    exact hg
  · exact .inr (.inr (.inl (hc.mono (by rw [ht.frame]) ht.received)))
  rw [ht.frame]
  exact .inr (.inr (.inr ⟨hdr,hd,hto⟩))

theorem Took.negotiated (ht : Took p q) (h : Negotiated c n p out inc) :
    Negotiated c n q out inc := by
  have accounted := fun r mem => ht.accounted (h.accounted r mem)
  have hr := ht.received
  have hs := ht.shrinks
  rw [ht.frame] at accounted ⊢
  exact {h with
    more := fun none => subset_nil.mp (h.more none ▸ hs)
    allowed := fun r mem => h.allowed r (hs mem)
    taken := fun round mem => List.Subset.trans (h.taken round mem) hr
    accounted := accounted}

theorem Took.waiting (ht : Took p q) (h : Waiting c n p out inc) : Waiting c n q out inc := by
  have base := ht.negotiated h.toNegotiated
  have hq : .exchangeDone ∉ q.scheduled := fun mem => by
    rcases ht.mismatch _ mem with old | wrong
    · exact h.quiet old
    · contradiction
  rw [ht.frame] at base hq ⊢
  exact {h with
    toNegotiated := base
    quiet := hq
    master := fun ms => ⟨(h.master ms).1,(h.master ms).2.imp fun _ hp => {hp with}⟩}

structure Fitting (p : Peer) (inc : List Packet) (dd : Packet) : Prop where
  got : dd.toContent ∈ inc.map Packet.toContent
  seqnum : dd.seqnum = p.start + UInt32.ofNat p.rounds.length
  claim : p.flags.ms = false → p.rounds = [] → dd.flags.m = true ∧ dd.headers = []
  answer : p.flags.ms = true → dd.flags.i = false
  noClaim : p.rounds ≠ [] → dd.flags.i = false
  slave : p.flags.ms = false → p.rounds ≠ [] →
    p.seqnum + 1 = p.start + UInt32.ofNat p.rounds.length

/-- What a side does with the next packet of its exchange, whether or not it refuses a header
in it. -/
theorem dbDescProc_sound (h : Waiting c n p out inc) (dd : Packet) (fitting : Fitting p inc dd) :
    Exchanging c n (dbDescProc c p dd).1 (out ++ (dbDescProc c p dd).2) inc ∧
      ∀ last, (dbDescProc c p dd).1.lastSend = some last → last ∈ out ++ (dbDescProc c p dd).2 := by
  obtain ⟨ht,all⟩ := takeHeaders_took c p dd.headers
  have hw := ht.waiting h
  have hfi : Fitting (takeHeaders c p dd.headers).1 inc dd := by
    rw [ht.frame]
    exact {fitting with}
  simp only [dbDescProc]
  cases hf : (takeHeaders c p dd.headers).2 with
  | true =>
    have ha : Awaited (takeHeaders c p dd.headers).1 inc dd := ⟨hfi.got,hfi.seqnum,all hf⟩
    simp only [reduceIte]
    cases ms : (takeHeaders c p dd.headers).1.flags.ms with
    | true =>
      obtain ⟨hs,hse⟩ := masterTurn_sound hw ms dd ha (hfi.answer ms)
      exact ⟨hs.saveCurrent dd,hse⟩
    | false =>
      obtain ⟨hs,hse⟩ := slaveTurn_sound hw ms dd ha (hfi.claim ms) hfi.noClaim
      exact ⟨hs.saveCurrent dd,hse⟩
  | false =>
    simp only [Bool.false_eq_true,reduceIte,append_nil]
    refine ⟨hw.exchanging fun ms => ?_,hw.sent⟩
    have begun : (takeHeaders c p dd.headers).1.rounds ≠ [] := by
      -- The claim to be master has no headers that could be refused.
      intro none
      rw [(hfi.claim ms none).2] at hf
      exact nomatch hf
    exact ⟨begun,hfi.slave ms begun⟩

/-! ### Events -/

theorem nsmNext_spec (env : Env) (p : Peer) (ev : NsmEvent) (ho : ev ≠ .negotiationDone) :
    (nsmNext env p ev).1 = p ∧
      ((nsmNext env p ev).2 = p.state ∨ (nsmNext env p ev).2 ≤ .exStart ∨
        (.exchange < (nsmNext env p ev).2 ∧
          (.exchange < p.state ∨ p.state = .exchange ∧ ev = .exchangeDone))) := by
  generalize state : p.state = old
  cases old <;> cases ev <;> first
    | contradiction
    | (simp only [nsmNext,state,Ospf.nsm,nsmAct,true_and]
       generalize env.adjacent = adjacent
       generalize env.requestsEmpty = requestsEmpty
       revert adjacent requestsEmpty
       decide)

def Taken (p : Peer) (event : NsmEvent) (rest : List Scheduled) : Prop :=
  (∃ first, p.scheduled = first :: rest ∧ first.event = event) ∨
    p.scheduled = rest ∧ event ≠ .exchangeDone

theorem Taken.mem_iff (h : Taken p event rest) (ho : event ≠ .exchangeDone) :
    .exchangeDone ∈ p.scheduled ↔ .exchangeDone ∈ rest := by
  rcases h with ⟨fst,pops,rfl⟩ | ⟨eq,-⟩
  · rw [pops,mem_cons]
    exact or_iff_right fun hd => ho (hd ▸ rfl)
  · rw [eq]

theorem Exchanging.withState (h : Exchanging c n p out inc) (rest : List Scheduled)
    (state : NsmState) (hen : state = .exchange → (p.finished ↔ .exchangeDone ∈ rest))
    (he : .exchange < state → p.finished) :
    Exchanging c n {p with scheduled := rest, state := state} out inc where
  __ := h
  master := fun ms => ⟨(h.master ms).1,fun hg =>
    ((h.master ms).2 hg).imp fun _ hp => {hp with}⟩
  ends := hen
  ended := he

theorem Sound.popped (h : Sound c n p out inc) (ht : Taken p event rest)
    (ho : event = .exchangeDone → p.state ≠ .exchange) :
    Sound c n {p with scheduled := rest} out inc where
  __ := h
  exchanging := fun hl => by
    have old := h.exchanging hl
    refine old.withState rest p.state (fun state => ?_) old.ended
    rw [old.ends state]
    exact ht.mem_iff fun hd => ho hd state

theorem Sound.later (h : Sound c n p out inc) (ht : Taken p event rest)
    (from_ : .exchange < p.state ∨ p.state = .exchange ∧ event = .exchangeDone)
    (state : NsmState) (hb : .exchange < state) :
    Sound c n {p with scheduled := rest, state := state} out inc where
  sent := h.sent
  low := fun low => absurd (hb.trans_le low) (by decide)
  claims := fun hc => absurd (lt_of_lt_of_eq hb hc) (by decide)
  exchanging := fun _ => by
    have hr : .exchange ≤ p.state := by
      rcases from_ with hl | ⟨now,-⟩
      · exact hl.le
      · exact now.ge
    have old := h.exchanging hr
    refine old.withState rest state (fun now => absurd (now ▸ hb) (lt_irrefl _)) fun _ => ?_
    rcases from_ with hl | ⟨now,hd⟩
    · exact old.ended hl
    refine (old.ends now).mpr ?_
    rcases ht with ⟨fst,pops,eq⟩ | ⟨-,ho⟩
    · have isDone : fst = .exchangeDone := by
        cases fst <;> simp_all [Scheduled.event]
      rw [pops,isDone]
      exact .head _
    · exact absurd hd ho

theorem startExchange_claims (c : Config) (env : Env) (p : Peer) (state : p.state = .exStart)
    (he : p.dbSum = []) :
    (startExchange c env p).state = .exStart ∧ (startExchange c env p).dbSum = [] ∧
      (startExchange c env p).flags = .all ∧
      ∃ first, (startExchange c env p).lastSend = some first ∧ first.flags = .all ∧
        first.seqnum = (startExchange c env p).seqnum ∧ first.headers = [] := by
  have hea : ¬ NsmState.exchange ≤ .exStart := by decide
  simp [startExchange,dbDescSend,makeDbDesc,moreBit,state,he,describe,hea]

theorem Sound.of_low (hs : ∀ last, p.lastSend = some last → last ∈ out)
    (low : p.state ≤ .exStart) (he : p.dbSum = [])
    (hc : p.state = .exStart → p.flags = .all ∧ ∃ first, p.lastSend = some first ∧
      first.flags = .all ∧ first.seqnum = p.seqnum ∧ first.headers = []) :
    Sound c n p out inc where
  sent := hs
  low := fun _ => he
  claims := hc
  exchanging := fun hl => absurd (hl.trans low) (by decide)

theorem Sound.fallBack (h : Sound c n p out inc) (env : Env) (state : NsmState)
    (low : state ≤ .exStart) :
    Sound c n (nsmChangeState c env p state).1 (out ++ (nsmChangeState c env p state).2) inc ∧
      (nsmChangeState c env p state).1.state = state := by
  unfold nsmChangeState
  extract_lets q0 q r
  have eq : q.state = state ∧ q.lastSend = p.lastSend := by
    simp only [q]
    split <;> exact ⟨rfl,rfl⟩
  have he : q.dbSum = [] := by
    simp only [q]
    split
    · rfl
    · next stays => exact h.low (not_lt.mp fun higher => stays ⟨higher,low⟩)
  split
  · next hc =>
    obtain ⟨now,none,all,fst,hs,rest⟩ := startExchange_claims c env q (eq.1.trans hc) he
    refine ⟨.of_low (fun last hf => ?_) now.le none fun _ => ⟨all,fst,hs,rest⟩,now.trans hc.symm⟩
    rw [hf]
    exact mem_append_right _ (mem_singleton_self _)
  · next lower =>
    refine ⟨.of_low (fun last hf => ?_) (eq.1.trans_le low) he
      fun hc => absurd (eq.1.symm.trans hc) lower,eq.1⟩
    rw [append_nil]
    exact h.sent last (eq.2 ▸ hf)

theorem nsmEvent_sound (h : Sound c n p out inc) (ht : Taken p event rest)
    (ho : event ≠ .negotiationDone) (env : Env) :
    Sound c n (nsmEvent c env {p with scheduled := rest} event).1
      (out ++ (nsmEvent c env {p with scheduled := rest} event).2) inc := by
  generalize popped : ({p with scheduled := rest} : Peer) = q
  have state : q.state = p.state := by rw [← popped]
  obtain ⟨eq,next⟩ := nsmNext_spec env q event ho
  generalize hr : (nsmNext env q event).2 = s at next
  have res : nsmNext env q event = (q,s) := Prod.ext eq hr
  have inExchange : event = .exchangeDone → q.state = .exchange → .exchange < s := by
    rintro rfl now
    rw [← hr]
    simp only [nsmNext,now,Ospf.nsm,nsmAct]
    cases env.requestsEmpty <;> decide
  have hst : (q.state = .exchange → s ≤ .exchange) → Sound c n q out inc := fun low => by
    rw [← popped]
    refine h.popped ht fun hd now => ?_
    have hb := state.trans now
    exact absurd ((inExchange hd hb).trans_le (low hb)) (lt_irrefl _)
  simp only [nsmEvent,res]
  split
  · next none =>
    rw [append_nil]
    exact hst fun _ => none ▸ by decide
  split
  · next eq =>
    rw [append_nil]
    exact hst fun now => (eq.trans now).le
  rcases next with eq | low | ⟨hbe,hb⟩
  · contradiction
  · obtain ⟨hso,now⟩ := (hst fun _ => low.trans (by decide)).fallBack env s low
    split
    · next deleted =>
      have hg : (nsmChangeState c env q s).1.state = .deleted := now.trans deleted
      exact .of_low hso.sent (now.trans_le low) (hso.low (now.trans_le low))
        fun hc => nomatch hg.symm.trans hc
    · exact hso
  · have hm : nsmChangeState c env q s = ({q with state := s},[]) := by
      have high : ¬ s ≤ .exStart := fun low => absurd (hbe.trans_le low) (by decide)
      have hn : s ≠ .exStart := fun now => high now.le
      simp [nsmChangeState,high,and_false,hn,reduceIte]
    have hk : s ≠ .deleted := fun hg => absurd (hg ▸ hbe) (by decide)
    rw [hm,if_neg hk,append_nil,← popped]
    exact h.later ht (state ▸ hb) s hbe

theorem Sound.schedule (h : Sound c n p out inc) (ho : event ≠ .exchangeDone) :
    Sound c n (schedule p event) out inc where
  __ := h
  exchanging := fun hl => by
    have old := h.exchanging hl
    refine old.withState _ p.state (fun state => ?_) old.ended
    rw [old.ends state,mem_append,mem_singleton]
    exact (or_iff_left ho.symm).symm

/-! ### Packets -/

theorem dbDescProc_state (c : Config) (p : Peer) (dd : Packet) :
    (dbDescProc c p dd).1.state = p.state := by
  have ht := (takeHeaders_took c p dd.headers).1.frame
  have state : (takeHeaders c p dd.headers).1.state = p.state := by rw [ht]
  simp only [dbDescProc]
  split
  · split
    · simp only [masterTurn]
      split <;> exact state
    simp only [slaveTurn]
    split <;> exact state
  · exact state

theorem Waiting.sound (h : Waiting c n p out inc) (dd : Packet) (fitting : Fitting p inc dd) :
    Sound c n (dbDescProc c p dd).1 (out ++ (dbDescProc c p dd).2) inc := by
  obtain ⟨he,hs⟩ := dbDescProc_sound h dd fitting
  have state := (dbDescProc_state c p dd).trans h.state
  exact {
    sent := hs
    low := fun low => absurd (state.symm.trans_le low) (by decide)
    claims := fun hc => nomatch state.symm.trans hc
    exchanging := fun _ => he}

structure Agreed (c : Config) (n : UInt32) (p : Peer) (out : List Packet) : Prop where
  state : p.state = .exStart
  empty : p.dbSum = []
  sent : ∀ last, p.lastSend = some last → last ∈ out
  quiet : .exchangeDone ∉ p.scheduled
  ids : c.routerId ≠ n
  role : p.flags.ms = decide (n < c.routerId)
  noClaim : p.flags.i = false
  more : p.flags.m = true
  allowed : p.options &&& optionO ≠ 0 → c.opaqueCapable = true
  master : p.flags.ms = true → ∃ last, p.lastSend = some last ∧ last.flags.m = true ∧
    last.seqnum = p.seqnum ∧ last.headers = []

theorem nsmEvent_negotiationDone (c : Config) (env : Env) (p : Peer) (state : p.state = .exStart) :
    nsmEvent c env p .negotiationDone =
      ({nsmNegotiationDone env p with state := .exchange},[]) := by
  have low : ¬ NsmState.exchange ≤ .exStart := by decide
  simp [nsmEvent,nsmNext,state,Ospf.nsm,nsmAct,nsmChangeState,low]

theorem Agreed.waiting (h : Agreed c n p out) (env : Env) :
    Waiting c n {nsmNegotiationDone env p with state := .exchange} out inc where
  __ := h
  more := fun none => nomatch h.more.symm.trans none
  allowed := fun r mem isOpaque => by
    simp only [nsmNegotiationDone,h.empty,nil_append,mem_filter,decide_eq_true_eq] at mem
    exact h.allowed (mem.2.resolve_left fun hp => hp isOpaque)
  rounds := nofun
  goesOn := nofun
  taken := nofun
  accounted := fun r mem => .inl mem
  state := rfl
  goes := rfl
  master := fun ms => by
    obtain ⟨last,hs,hm,seqnum,hdrs⟩ := h.master ms
    refine ⟨(UInt32.add_zero _).symm,last,hs,seqnum,hm.trans h.more.symm,fun _ => ⟨hm,hdrs⟩,?_⟩
    exact fun some => absurd rfl some

theorem Agreed.sound (h : Agreed c n {p with options := dd.options} out) (env : Env)
    (got : dd.toContent ∈ inc.map Packet.toContent) (seqnum : dd.seqnum = p.seqnum)
    (claim : p.flags.ms = false → dd.flags.m ∧ dd.headers = [])
    (answer : p.flags.ms → dd.flags.i = false) :
    Sound c n (negotiated c env p dd).1 (out ++ (negotiated c env p dd).2) inc := by
  simp only [negotiated,nsmEvent_negotiationDone c env _ h.state,nil_append]
  refine (h.waiting env).sound dd {
    got := got
    seqnum := seqnum.trans (UInt32.add_zero _).symm
    claim := fun ms _ => claim ms
    answer := answer
    noClaim := fun some => absurd rfl some
    slave := fun _ some => absurd rfl some}

theorem nsmChangeState_scheduled (c : Config) (env : Env) (p : Peer) (state : NsmState) :
    (nsmChangeState c env p state).1.scheduled = p.scheduled := by
  simp only [nsmChangeState]
  split <;> split <;> rfl

theorem nsmEvent_scheduled (c : Config) (env : Env) (p : Peer) (ev : NsmEvent)
    (ho : ev ≠ .negotiationDone) :
    (nsmEvent c env p ev).1.scheduled ⊆ p.scheduled := by
  simp only [nsmEvent,(nsmNext_spec env p ev ho).1]
  split
  · exact List.Subset.refl _
  split
  · exact List.Subset.refl _
  split
  · exact nil_subset _
  rw [nsmChangeState_scheduled]
  exact List.Subset.refl _

structure Arrived (c : Config) (inc : List Packet) (dd : Packet) : Prop where
  got : dd.toContent ∈ inc.map Packet.toContent
  allowed : dd.options &&& optionO ≠ 0 → c.opaqueCapable = true

section

variable (h : Sound c n p out inc)

include h

theorem dbDescExStart_sound (state : p.state = .exStart)
    (hq : .exchangeDone ∉ p.scheduled) (ha : Arrived c inc dd) (env : Env) :
    Sound c n (dbDescExStart c n env p dd).1 (out ++ (dbDescExStart c n env p dd).2) inc := by
  obtain ⟨all,fst,hs,flags,seqnum,hdrs⟩ := h.claims state
  have hi : Sound c n p (out ++ []) inc := by
    rw [append_nil]
    exact h
  unfold dbDescExStart
  split
  · next claim =>
    split
    · next less =>
      refine Agreed.sound ?_ env ha.got rfl (fun _ => ⟨by rw [claim.1]; rfl,claim.2⟩) nofun
      exact {
        state := state
        empty := h.low state.le
        sent := h.sent
        quiet := hq
        ids := UInt32.ne_of_lt less
        role := (decide_eq_false (UInt32.lt_asymm less)).symm
        noClaim := rfl
        more := by simp [all,Flags.all]
        allowed := ha.allowed
        master := nofun}
    · exact hi
  split
  · next answer =>
    obtain ⟨-,hn,han,hg⟩ := answer
    refine Agreed.sound ?_ env ha.got han
      (fun slave => absurd slave (by simp [all,Flags.all])) fun _ => by simpa using hn
    exact {
      state := state
      empty := h.low state.le
      sent := h.sent
      quiet := hq
      ids := (UInt32.ne_of_lt hg).symm
      role := by simp [all,Flags.all,hg]
      noClaim := rfl
      more := by simp [all,Flags.all]
      allowed := ha.allowed
      master := fun _ => ⟨fst,hs,by rw [flags]; rfl,seqnum,hdrs⟩}
  · exact hi

theorem resend_sound : Sound c n p (out ++ dbDescResend p) inc :=
  h.mono (subset_append_left ..) (List.Subset.refl _)

theorem dbDescExchange_sound (state : p.state = .exchange)
    (hq : .exchangeDone ∉ p.scheduled) (ha : Arrived c inc dd) :
    Sound c n (dbDescExchange c p dd).1 (out ++ (dbDescExchange c p dd).2) inc := by
  have old := h.exchanging state.ge
  have hg : p.finished = false := by
    cases hf : p.finished with
    | false => rfl
    | true => exact absurd ((old.ends state).mp hf) hq
  unfold dbDescExchange
  split
  · split
    · rw [append_nil]
      exact h
    · exact resend_sound h
  split
  · rw [append_nil]
    exact h.schedule nofun
  next expected =>
  simp only [not_or,ne_eq,not_not,Bool.not_eq_true] at expected
  obtain ⟨-,hn,-,seqnum⟩ := expected
  have hw : Waiting c n p out inc := {
    toNegotiated := old.toNegotiated
    state := state
    goes := hg
    quiet := hq
    sent := h.sent
    master := fun ms => ⟨(old.master ms).1,(old.master ms).2 hg⟩}
  refine hw.sound dd {
    got := ha.got
    seqnum := ?_
    claim := fun ms none => absurd none (old.slave ms).1
    answer := fun _ => hn
    noClaim := fun _ => hn
    slave := fun ms _ => (old.slave ms).2}
  rw [seqnum,expectedSeqnum]
  split
  · next ms => exact (old.master ms).1
  · next ms => exact (old.slave (Bool.eq_false_iff.mpr ms)).2

theorem dbDescLater_sound (env : Env) (dd : Packet) :
    Sound c n (dbDescLater env p dd).1 (out ++ (dbDescLater env p dd).2) inc := by
  unfold dbDescLater
  split
  · rw [append_nil]
    exact h
  split
  · exact resend_sound h
  rw [append_nil]
  exact h.schedule nofun

theorem outside_sound (ev : NsmEvent) (env : Env)
    (ho : ev ≠ .negotiationDone) (another : ev ≠ .exchangeDone) :
    Sound c n (nsmEvent c env p ev).1 (out ++ (nsmEvent c env p ev).2) inc :=
  nsmEvent_sound h (.inr ⟨rfl,another⟩) ho env

theorem dbDescInit_sound (hq : .exchangeDone ∉ p.scheduled)
    (har : Arrived c inc dd) (env : Env) :
    Sound c n (dbDescInit c n env p dd).1 (out ++ (dbDescInit c n env p dd).2) inc := by
  have ha := outside_sound h .twoWayReceived env nofun nofun
  have hs := nsmEvent_scheduled c env p .twoWayReceived nofun
  simp only [dbDescInit]
  split
  · next start =>
    simp only [← append_assoc]
    exact dbDescExStart_sound ha start (fun mem => hq (hs mem)) har env
  · exact ha

theorem dbDesc_sound (hq : p.scheduled = []) (env : Env) (got : received ∈ inc) :
    Sound c n (dbDesc c n env p received).1 (out ++ (dbDesc c n env p received).2) inc := by
  have ha : Arrived c inc (correctOptions c p received) := by
    refine ⟨?_,correctOptions_capable p received⟩
    exact mem_map.mpr ⟨received,got,rfl⟩
  have hs : Sound c n (schedule p .packetReceived) out inc := h.schedule nofun
  have hsi : .exchangeDone ∉ (schedule p .packetReceived).scheduled := by
    simp [schedule,hq]
  unfold dbDesc
  split
  · rw [append_nil]
    exact h
  extract_lets dd q
  split
  · exact dbDescInit_sound hs hsi ha env
  · next state => exact dbDescExStart_sound hs state hsi ha env
  · next state => exact dbDescExchange_sound hs state hsi ha
  · exact dbDescLater_sound hs env dd
  · exact dbDescLater_sound hs env dd
  all_goals
    rw [append_nil]
    exact hs

end

end Frr.DbDesc
