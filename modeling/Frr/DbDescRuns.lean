import Frr.DbDescSound

/-! Two routers and the channel between them: who is the master, and what they have told each other
when both are done. -/
namespace Frr.DbDesc

open List Function
open Ospf (NsmState NsmEvent)

/-! ### Both sides keep the invariant -/

section

variable {config : Side → Config}

def SystemSound (config : Side → Config) (s : System) : Prop :=
  ∀ side, Sound (config side) (config side.other).routerId (s.peer side) (s.sent side)
    (s.sent side.other)

section

variable (db : Database) (change : Change) (r : Nat)

theorem change_bare : bare ((db.change change).lsas r).data = bare (db.lsas r).data := by
  cases change with
  | age ho age =>
    by_cases eq : r = ho
    · subst eq
      simp [Database.change,bare]
    · simp [Database.change,update_of_ne eq]
  | clock => rfl
  | hold => rfl
  | discard => rfl

theorem change_discarded (hg : db.discarded r) : (db.change change).discarded r := by
  cases change with
  | discard ho =>
    by_cases eq : r = ho
    · simp [Database.change,eq]
    · simpa [Database.change,update_of_ne eq] using hg
  | clock => exact hg
  | hold => exact hg
  | age => exact hg

theorem change_type : ((db.change change).lsas r).data.type = (db.lsas r).data.type := by
  have eq := congrArg Lsa.type (change_bare db change r)
  exact eq

theorem change_key : ((db.change change).lsas r).key = (db.lsas r).key := by
  have eq := congrArg Lsa.key (change_bare db change r)
  exact eq

end

theorem Accounted.database (h : Accounted p r) (change : Change) :
    Accounted {p with db := p.db.change change} r := by
  rcases h with hs | hg | ⟨hdr,mem,key,now,lsa,eq,hk⟩ | ⟨hdr,hd,ht⟩
  · exact .inl hs
  · exact .inr (.inl (change_discarded p.db change r hg))
  · exact .inr (.inr (.inl ⟨hdr,mem,key.trans (change_key p.db change r).symm,now,lsa,
      eq.trans (change_bare p.db change r).symm,hk⟩))
  · exact .inr (.inr (.inr ⟨hdr,hd.trans (change_bare p.db change r).symm,ht⟩))

theorem Sound.database (h : Sound c n p out inc) (change : Change) :
    Sound c n {p with db := p.db.change change} out inc where
  __ := h
  exchanging := fun hl => by
    have old := h.exchanging hl
    exact {old with
      allowed := fun r mem isOpaque => old.allowed r mem (change_type p.db change r ▸ isOpaque)
      accounted := fun r mem => (old.accounted r mem).database change
      master := fun ms => ⟨(old.master ms).1,fun hg =>
        ((old.master ms).2 hg).imp fun _ hp => {hp with}⟩}

theorem Sound.options (h : Sound c n p out inc) (opts : UInt8) :
    Sound c n {p with options := opts} out inc where
  __ := h
  exchanging := fun hl => by
    have old := h.exchanging hl
    exact {old with
      master := fun ms => ⟨(old.master ms).1,fun hg =>
        ((old.master ms).2 hg).imp fun _ hp => {hp with}⟩}

theorem nbrNew_sound (db : Database) (received : List Lsa) :
    Sound c n (nbrNew db received) out inc :=
  .of_low nofun (show NsmState.down ≤ .exStart by decide) rfl nofun

theorem act_sound (h : SystemSound config s) (action : Action) :
    Sound (config (act config s action).1) (config (act config s action).1.other).routerId
      (act config s action).2.1 (s.sent (act config s action).1 ++ (act config s action).2.2)
      (s.sent (act config s action).1.other) := by
  have hn : ∀ {side p}, Sound (config side) (config side.other).routerId p (s.sent side)
      (s.sent side.other) → Sound (config side) (config side.other).routerId p
      (s.sent side ++ []) (s.sent side.other) := fun sound => by
    rw [append_nil]
    exact sound
  cases action with
  | deliver side env dd =>
    simp only [act]
    split
    · next ready => exact dbDesc_sound (h side) ready.2 env ready.1
    · exact hn (h side)
  | dispatch side env =>
    simp only [act]
    split
    · exact hn (h side)
    next ev rest scheduled =>
    refine nsmEvent_sound (h side) (.inl ⟨ev,scheduled,rfl⟩) ?_ env
    cases ev <;> nofun
  | event side env ev =>
    simp only [act]
    split
    · exact hn (h side)
    next others =>
    exact outside_sound (h side) ev env (fun one => others (.inl one)) fun one => others (.inr one)
  | timer side =>
    exact (h side).mono (subset_append_left ..) (List.Subset.refl _)
  | hello side opts => exact hn ((h side).options _)
  | database side change => exact hn ((h side).database change)
  | create side =>
    simp only [act]
    split
    · exact hn (nbrNew_sound _ _)
    · exact hn (h side)

theorem step_sound (h : SystemSound config s) (action : Action) :
    SystemSound config (step config s action) := by
  have acts := act_sound h action
  intro side
  simp only [step]
  by_cases eq : side = (act config s action).1
  · subst eq
    have ha : (act config s action).1.other ≠ (act config s action).1 := by
      cases (act config s action).1 <;> nofun
    rw [update_self,update_self,update_of_ne ha]
    exact acts
  · have opposite : side.other = (act config s action).1 := by
      generalize (act config s action).1 = actor at eq
      cases side <;> cases actor <;> first | rfl | contradiction
    rw [update_of_ne eq,update_of_ne eq,opposite,update_self]
    have sound := h side
    rw [opposite] at sound
    exact sound.mono (List.Subset.refl _) (subset_append_left ..)

theorem run_sound (config : Side → Config) (db : Side → Database) (acts : List Action) :
    SystemSound config (Trace.run (step config) acts (initial db)) := by
  generalize start : initial db = s
  have sound : SystemSound config s := by
    subst start
    exact fun side => nbrNew_sound _ _
  clear start
  induction acts generalizing s with
  | nil => exact sound
  | cons act rest ih => exact ih _ (step_sound sound act)

end

/-! ### Two exchanges that are one -/

/-- Both sides began with one sequence number, and neither sent two different packets under one,
claims to be master apart. -/
structure SameHistory (s : System) : Prop where
  start : (s.peer .one).start = (s.peer .two).start
  unambiguous : ∀ side, ∀ p ∈ s.sent side, ∀ q ∈ s.sent side, p.flags.i = false →
    q.flags.i = false → p.seqnum = q.seqnum → p.toContent = q.toContent

def Unambiguous (packets : List Packet) : Prop :=
  ∀ p ∈ packets.map Packet.toContent, ∀ q ∈ packets.map Packet.toContent,
    p.flags.i = false → q.flags.i = false → p.seqnum = q.seqnum → p = q

theorem SameHistory.contents (h : SameHistory s) (side : Side) : Unambiguous (s.sent side) := by
  intro _ pSent _ qSent
  obtain ⟨p,fst,rfl⟩ := mem_map.mp pSent
  obtain ⟨q,snd,rfl⟩ := mem_map.mp qSent
  exact h.unambiguous side p fst q snd

theorem finished_last (p : Peer) (hd : p.finished) :
    ∃ k round, p.rounds[k]? = some round ∧ k+1 = p.rounds.length ∧ closing round := by
  rw [Peer.finished,Option.any_eq_true] at hd
  obtain ⟨round,last,hc⟩ := hd
  have some := length_pos_iff.mpr (ne_nil_of_mem (mem_of_getLast? last))
  rw [getLast?_eq_getElem?] at last
  exact ⟨p.rounds.length-1,round,last,by omega,hc⟩

theorem closing_agrees {x y : Content × Content} (ha : x.2 = y.2) (packets : k ≠ 0 → x.1 = y.1)
    (claim : k = 0 → x.1.flags.m) (hc : closing x) : closing y := by
  have hl : k ≠ 0 := by
    intro fst
    simp [closing,claim fst] at hc
  rwa [← Prod.ext (packets hl) ha]

section

variable {a b : Peer} {ab ba : List Packet}
  (master : Exchanging c n a ab ba) (slave : Exchanging c' n' b ba ab)
  (ams : a.flags.ms = true) (bms : b.flags.ms = false) (start : a.start = b.start)
  (ho : Unambiguous ab) (answered : Unambiguous ba)
include master slave ams bms start ho answered

theorem rounds_agree (mine : a.rounds[k]? = some x) (ht : b.rounds[k]? = some y) :
    x.2 = y.2 ∧ (k ≠ 0 → x.1 = y.1) := by
  have fst := master.rounds k x mine
  have snd := slave.rounds k y ht
  simp only [masters,slaves,ams,bms,Bool.false_eq_true,reduceIte] at fst snd
  refine ⟨?_,fun hl => ?_⟩
  · exact answered _ fst.slave _ snd.slave fst.answer snd.answer
      (by rw [fst.slaveSeqnum,snd.slaveSeqnum,start])
  exact ho _ fst.master _ snd.master (fst.noClaim hl) (snd.noClaim hl)
    (by rw [fst.masterSeqnum,snd.masterSeqnum,start])

theorem lengths_agree (aDone : a.finished) (bDone : b.finished) :
    a.rounds.length = b.rounds.length := by
  obtain ⟨k,x,mine,aLast,aCloses⟩ := finished_last a aDone
  obtain ⟨l,y,hth,bLast,bCloses⟩ := finished_last b bDone
  rcases Nat.lt_trichotomy a.rounds.length b.rounds.length with hle | eq | hm
  · have ht : b.rounds[k]? = some b.rounds[k] := getElem?_eq_getElem (by omega)
    obtain ⟨ha,packets⟩ := rounds_agree master slave ams bms start ho answered mine ht
    have hc := closing_agrees ha packets (fun fst => ((master.rounds k x mine).claim fst).1) aCloses
    have goesOn := slave.goesOn k _ ht (by omega)
    exact nomatch hc.symm.trans goesOn
  · exact eq
  · have ht : a.rounds[l]? = some a.rounds[l] := getElem?_eq_getElem (by omega)
    obtain ⟨ha,packets⟩ := rounds_agree master slave ams bms start ho answered ht hth
    have hc := closing_agrees ha.symm (fun hl => (packets hl).symm)
      (fun fst => ((slave.rounds l y hth).claim fst).1) bCloses
    have goesOn := master.goesOn l _ ht (by omega)
    exact nomatch hc.symm.trans goesOn

variable (aDone : a.finished = true) (bDone : b.finished = true)
include aDone bDone

theorem slave_heard {round : Content × Content} (mem : round ∈ b.rounds) : (b.own round).headers ⊆ a.received := by
  have lengths := lengths_agree master slave ams bms start ho answered aDone bDone
  obtain ⟨k,hi,rfl⟩ := getElem_of_mem mem
  have mine : a.rounds[k]? = some a.rounds[k] := getElem?_eq_getElem (by omega)
  obtain ⟨ha,-⟩ := rounds_agree master slave ams bms start ho answered mine (getElem?_eq_getElem hi)
  have ht := master.taken _ (getElem_mem (by omega : k < a.rounds.length))
  simp only [Peer.theirs,Peer.own,ams,bms,Bool.false_eq_true,reduceIte] at ht ⊢
  rwa [← ha]

theorem master_heard {round : Content × Content} (mem : round ∈ a.rounds) : (a.own round).headers ⊆ b.received := by
  have lengths := lengths_agree master slave ams bms start ho answered aDone bDone
  obtain ⟨k,hi,rfl⟩ := getElem_of_mem mem
  have mine : a.rounds[k]? = some a.rounds[k] := getElem?_eq_getElem hi
  have ht : b.rounds[k]? = some b.rounds[k] := getElem?_eq_getElem (by omega)
  obtain ⟨-,packets⟩ := rounds_agree master slave ams bms start ho answered mine ht
  have hta := slave.taken _ (getElem_mem (by omega : k < b.rounds.length))
  simp only [Peer.theirs,Peer.own,ams,bms,Bool.false_eq_true,reduceIte] at hta ⊢
  by_cases fst : k = 0
  · -- The claim to be master describes nothing.
    rw [((master.rounds k _ mine).claim fst).2]
    exact nil_subset _
  · rwa [packets fst]

end

theorem Exchanging.complete {other : Peer} (h : Exchanging c n p out inc) (hdo : p.finished)
    (hh : ∀ round ∈ p.rounds, (p.own round).headers ⊆ other.received) (mem : r ∈ p.summary) :
    (∃ hdr ∈ other.received, Describes hdr p r) ∨ p.db.discarded r ∨ Covered p r := by
  rcases h.accounted r mem with hs | hg | hc | ⟨hdr,hd,ht⟩
  · rw [h.more (h.told hdo)] at hs
    contradiction
  · exact .inr (.inl hg)
  · exact .inr (.inr hc)
  rcases ht with ⟨round,mem,hi⟩ | ⟨hgo,-⟩
  · exact .inl ⟨hdr,hh round mem hi,hd⟩
  · exact nomatch hdo.symm.trans hgo

@[simp] theorem other_other (side : Side) : side.other.other = side := by
  cases side <;> rfl

def Complete (s : System) (side : Side) : Prop :=
  ∀ r ∈ (s.peer side).summary,
    (∃ header ∈ (s.peer side.other).received, Describes header (s.peer side) r) ∨
      (s.peer side).db.discarded r ∨ Covered (s.peer side) r

section

variable {config : Side → Config} (sound : SystemSound config s)
include sound

theorem roles (hr : ∀ side, .exchange ≤ (s.peer side).state) (side : Side) :
    (s.peer side).flags.ms = !(s.peer side.other).flags.ms := by
  have mine := (sound side).exchanging (hr side)
  have ht := (sound side.other).exchanging (hr side.other)
  have role := ht.role
  rw [other_other] at role
  rw [mine.role,role]
  by_cases hg : (config side.other).routerId < (config side).routerId
  · simp [hg,UInt32.lt_asymm hg]
  have hl := UInt32.lt_of_le_of_ne (UInt32.not_lt.mp hg) mine.ids
  simp [hg,hl]

theorem complete_of_master (hd : ∀ side, .exchange < (s.peer side).state)
    (eq : SameHistory s) (side : Side) (ms : (s.peer side).flags.ms) :
    Complete s side ∧ Complete s side.other := by
  have mine := (sound side).exchanging (hd side).le
  have ht := (sound side.other).exchanging (hd side.other).le
  have slave : (s.peer side.other).flags.ms = false := by
    simpa [ms] using roles sound (fun side => (hd side).le) side
  have start : (s.peer side).start = (s.peer side.other).start := by
    cases side with
    | one => exact eq.start
    | two => exact eq.start.symm
  have aDone := mine.ended (hd side)
  have bDone := ht.ended (hd side.other)
  rw [other_other] at ht
  refine ⟨fun r mem => mine.complete aDone (fun round mem => ?_) mem,fun r mem => ?_⟩
  · exact master_heard mine ht ms slave start (eq.contents _) (eq.contents _) aDone bDone mem
  rw [other_other]
  refine ht.complete bDone (fun round mem => ?_) mem
  exact slave_heard mine ht ms slave start (eq.contents _) (eq.contents _) aDone bDone mem

end

section

def plainConfig (side : Side) : Config where
  routerId := match side with
    | .one => 2
    | .two => 1
  mtu := 1500
  mtuIgnore := false
  packetMax := 1400
  virtualLink := false
  options := 2
  opaqueCapable := false
  externalRouting := .default

def plainDb (_ : Side) : Database where
  now := 0
  lsas := fun r => Instance.new 0
    { lsAge := 1, options := 2, type := 1, id := 8 + UInt32.ofNat r,
      advRouter := 8 + UInt32.ofNat r, lsSeqnum := 0x80000001, checksum := 7, length := 24,
      body := [0] }
  held := [0]
  discarded := fun _ => false

def plainEnv (summary : List Nat) (random : UInt32) : Env := ⟨true,true,true,random,summary⟩

def packet (flags : Flags) (seqnum : UInt32) (headers : List Lsa) : Packet :=
  {flags := flags, seqnum := seqnum, headers := headers, mtu := 1500, options := 2}

def seen (side : Side) (random : UInt32) : List Action :=
  [.event side (plainEnv [] random) .packetReceived,
    .event side (plainEnv [] random) .twoWayReceived]

def receive (side : Side) (summary : List Nat) (dd : Packet) : List Action :=
  [.deliver side (plainEnv summary 0) dd,.dispatch side (plainEnv [] 0),
    .dispatch side (plainEnv [] 0)]

def claimPacket : Packet := packet .all 5 []
def answerPacket : Packet := packet ⟨false,false,false⟩ 5 [header (plainDb .one) 0]
def lastPacket : Packet := packet ⟨true,false,false⟩ 6 []
def lastAnswer : Packet := packet ⟨false,false,false⟩ 6 []

def plainExchange : List Action :=
  seen .one 5 ++ seen .two 9 ++ receive .two [0] claimPacket ++ receive .one [0] answerPacket ++
    receive .two [] lastPacket ++ receive .one [] lastAnswer

abbrev plainEnd : System := Trace.run (step plainConfig) plainExchange (initial plainDb)

theorem plainEnd_full (side : Side) : .exchange < (plainEnd.peer side).state := by
  cases side <;> decide +kernel

theorem plainEnd_same : SameHistory plainEnd := by
  refine ⟨by decide +kernel,fun side => ?_⟩
  cases side <;> decide +kernel

/-- The slave falls back and gets another LSA. Its new claim is lost; the master's old one,
duplicated, starts it again with the same sequence number, and its second answer is lost too. -/
def restartedExchange : List Action :=
  seen .one 5 ++ seen .two 9 ++ receive .two [0] claimPacket ++ receive .one [0] answerPacket ++
    [.event .two (plainEnv [] 0) .oneWayReceived,.event .two (plainEnv [] 0) .twoWayReceived,
      .database .two (.hold [0,1])] ++
    receive .two [0,1] claimPacket ++ receive .two [] lastPacket ++ receive .one [] lastAnswer

abbrev restartedEnd : System :=
  Trace.run (step plainConfig) restartedExchange (initial plainDb)

end

end Frr.DbDesc
