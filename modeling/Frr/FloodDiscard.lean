import Frr.LsUpdateRuns

/-! What `ospf_flood` leaves behind when it discards an LSA. It goes out of the interfaces before
the database has accepted it; the theorem tells for which LSAs this does no harm. -/
namespace Frr.Ospf

open List Function Lsa Instance Net

section

variable (env : Env)

/-- `ospf_flood` with the value it returns. -/
def floodReturning (s : State) (n : Nat) (current : Option Nat) (r : Nat) : State × Int :=
  if current.any fun c => arrivedRecently s.core c then (s,-1)
  else
    let oi := (s.net.neighbor n).oi
    let (net,ack) := floodThrough s.core (some n) r s.net
    let net := sweepCurrent s.core net n current
    match lsaInstall env ⟨markReceived s.core r,net⟩ (some oi) r with
    | (s,none) => (s,-1)
    | (s,some new) =>
      let s := if ack then {s with net := floodDelayedLsaAck s.core new s.net n} else s
      if lsaIsSelfOriginated s.core (s.core.lsas new) then
        (processSelfOriginatedLsa env s new (s.core.interface oi).area,0)
      else (s,0)

end

def Output.passesOn : Output → Bool
  | .delayedAck _ _ => true
  | .lsUpd _ _ => true
  | .lsUpdIndirect _ _ => true
  | .lsAck _ _ => false
  | .lsReq _ => false
  | .nsmEvent _ _ => false
  | .flushArea _ _ => false
  | .abrTask => false
  | .opaqueRefresh _ => false

/-- No list has changed, no acknowledgment is delayed and no update was sent. -/
structure Net.Unmoved (net net' : Net) : Prop where
  lsReq : ∀ m, (net'.neighbor m).lsReq = (net.neighbor m).lsReq
  lsRxmt : ∀ m, (net'.neighbor m).lsRxmt = (net.neighbor m).lsRxmt
  output : net'.output.filter Output.passesOn = net.output.filter Output.passesOn

structure Untouched (s s' : State) : Prop where
  lsdb : ∀ db key, s'.core.lookup db key = s.core.lookup db key
  net : s.net.Unmoved s'.net

section

variable (core : Core) (inbr : Option Nat) (r : Nat) (net : Net)

def pendingRequest (m : Nat) : Option Nat :=
  if (net.neighbor m).state < .full then lsRequestLookup core net m r else none

def answers (m : Nat) : Bool :=
  (pendingRequest core r net m).any fun req =>
    moreRecent core.now (core.lsas req) (core.lsas r) ≤ 0 ∧
      (net.neighbor m).lsReq.lookup (core.lsas req).key = some req

def offered (m : Nat) : Bool :=
  .exchange ≤ (net.neighbor m).state ∧
    ((pendingRequest core r net m).all fun req =>
      moreRecent core.now (core.lsas req) (core.lsas r) < 0) ∧
    ¬ (isOpaque (core.lsas r).data.type ∧ (net.neighbor m).options &&& optionO = 0) ∧
    ¬ comesFrom core inbr r net m

def lacks (m : Nat) : Bool :=
  moreRecentThan core.now ((lsRetransmitLookup core net m r).map core.lsas)
    (core.lsas r) < 0

def disturbs (m : Nat) : Bool :=
  if (net.neighbor m).state < .exchange then
    (core.lsas r).data.type = linkColourLsa ∧ lacks core r net m
  else answers core r net m ∨ offered core inbr r net m ∧ lacks core r net m

def sends (oi : Nat) : Bool :=
  (net.nbrs oi).any (offered core inbr r net) ∧
    ¬ (cameIn inbr net oi ∧
      (inbr.any (fun i => (net.neighbor i).isDr || (net.neighbor i).isBdr) ∨
        (core.interface oi).state = .backup)) ∧
    ((core.interface oi).type = .nbma → (net.nbrs oi).any fun m =>
      m ≠ (core.interface oi).nbrSelf ∧ .exchange ≤ (net.neighbor m).state)

def disturbsInterface (oi : Nat) : Bool :=
  (core.interface oi).enabled ∧ ((net.nbrs oi).any (disturbs core inbr r net) ∨
    sends core inbr r net oi)

/-- The interfaces `ospf_flood_through` comes to. -/
def scopeInterfaces : List Nat :=
  if (core.lsas r).data.type = asExternalLsa ∨ (core.lsas r).data.type = opaqueAsLsa then
    asInterfaces core r
  else
    match (core.lsas r).area with
    | some area => areaInterfaces core r area
    | none => []

end

/-- Flooding only takes requests away, puts the LSA on retransmission lists, and sends. -/
structure Net.Advances (core : Core) (r : Nat) (net net' : Net) : Prop where
  alike : net.Alike net'
  lsReq : ∀ m, (net'.neighbor m).lsReq = (net.neighbor m).lsReq ∨
    (net'.neighbor m).lsReq.entries.length < (net.neighbor m).lsReq.entries.length
  lsRxmt : ∀ m, (net'.neighbor m).lsRxmt = (net.neighbor m).lsRxmt ∨
    lsRetransmitLookup core net m r ≠ some r ∧ lsRetransmitLookup core net' m r = some r
  output : net.output <+: net'.output

namespace Net

variable {core : Core} {inbr : Option Nat} {r : Nat} {net net' net'' : Net}

theorem Unmoved.refl (net : Net) : net.Unmoved net := ⟨fun _ => rfl,fun _ => rfl,rfl⟩

theorem Unmoved.trans (fst : net.Unmoved net') (snd : net'.Unmoved net'') : net.Unmoved net'' where
  lsReq m := (snd.lsReq m).trans (fst.lsReq m)
  lsRxmt m := (snd.lsRxmt m).trans (fst.lsRxmt m)
  output := snd.output.trans fst.output

theorem Unmoved.symm (hu : net.Unmoved net') : net'.Unmoved net where
  lsReq m := (hu.lsReq m).symm
  lsRxmt m := (hu.lsRxmt m).symm
  output := hu.output.symm

theorem lsRetransmitLookup_congr {m : Nat}
    (eq : (net'.neighbor m).lsRxmt = (net.neighbor m).lsRxmt) :
    lsRetransmitLookup core net' m r = lsRetransmitLookup core net m r := by
  rw [lsRetransmitLookup,eq]
  rfl

namespace Advances

theorem refl (net : Net) : Advances core r net net :=
  ⟨Alike.refl net,fun _ => .inl rfl,fun _ => .inl rfl,prefix_rfl⟩

theorem trans (fst : Advances core r net net') (snd : Advances core r net' net'') :
    Advances core r net net'' where
  alike := fst.alike.trans snd.alike
  lsReq m := by
    rcases fst.lsReq m with eq | hf
    · rw [← eq]
      exact snd.lsReq m
    rcases snd.lsReq m with eq | hf'
    · rw [eq]
      exact .inr hf
    · exact .inr (hf'.trans hf)
  lsRxmt m := by
    rcases fst.lsRxmt m with eq | ⟨hb,ha⟩
    · rw [← eq,← lsRetransmitLookup_congr eq]
      exact snd.lsRxmt m
    rcases snd.lsRxmt m with eq | ⟨hab,-⟩
    · rw [lsRetransmitLookup_congr eq]
      exact .inr ⟨hb,ha⟩
    · exact absurd ha hab
  output := fst.output.trans snd.output

theorem squeeze (fst : Advances core r net net') (snd : Advances core r net' net'')
    (hu : net.Unmoved net'') : net.Unmoved net' where
  lsReq m := by
    rcases fst.lsReq m with eq | hf
    · exact eq
    have len := congrArg (·.entries.length) (hu.lsReq m)
    rcases snd.lsReq m with eq | hf'
    · rw [eq] at len
      omega
    · omega
  lsRxmt m := by
    rcases fst.lsRxmt m with eq | ⟨hb,ha⟩
    · exact eq
    have lookup := @lsRetransmitLookup_congr core r net net'' m (hu.lsRxmt m)
    rcases snd.lsRxmt m with eq | ⟨hab,-⟩
    · rw [lsRetransmitLookup_congr eq] at lookup
      exact absurd (lookup.symm.trans ha) hb
    · exact absurd ha hab
  output := by
    obtain ⟨hs,fst⟩ := fst.output
    obtain ⟨hs',snd⟩ := snd.output
    have output := hu.output
    rw [← snd,← fst] at output
    rw [← fst]
    simp only [filter_append,append_assoc,append_right_eq_self,append_eq_nil_iff] at output ⊢
    exact output.1

theorem foldl_unmoved_iff {α : Type} {f : Net → α → Net} {quiet : Net → α → Prop}
    (ha : ∀ net a, Advances core r net (f net a))
    (eq : ∀ {net net' a}, net.Alike net' → net.Unmoved net' → (quiet net' a ↔ quiet net a))
    (hu : ∀ net a, net.Unmoved (f net a) ↔ quiet net a) (items : List α) (net : Net) :
    Advances core r net (items.foldl f net) ∧
      (net.Unmoved (items.foldl f net) ↔ ∀ a ∈ items, quiet net a) := by
  induction items generalizing net with
  | nil => exact ⟨refl net,by simpa using Unmoved.refl net⟩
  | cons a items ih =>
    obtain ⟨hl,rest⟩ := ih (f net a)
    have fst := ha net a
    refine ⟨fst.trans hl,?_⟩
    rw [foldl_cons,forall_mem_cons,← hu]
    constructor
    · intro hs
      have ho := fst.squeeze hl hs
      refine ⟨ho,fun b mem => (eq fst.alike ho).mp ?_⟩
      exact rest.mp (ho.symm.trans hs) b mem
    rintro ⟨ho,others⟩
    exact ho.trans (rest.mpr fun b mem => (eq fst.alike ho).mpr (others b mem))

end Advances

end Net

section

variable {core : Core} {inbr : Option Nat} {r : Nat} {net net' : Net} {m : Nat}

theorem moreRecent_self (now : Nat) (lsa : Instance) : moreRecent now lsa lsa = 0 := by
  simp [moreRecent]

theorem lsRetransmitReplace_frame (old : Option Nat) :
    (∀ k, ((lsRetransmitReplace core net m old).neighbor k).lsReq = (net.neighbor k).lsReq) ∧
      (∀ k, k ≠ m → (lsRetransmitReplace core net m old).neighbor k = net.neighbor k) ∧
      (lsRetransmitReplace core net m old).output = net.output := by
  cases old with
  | none => exact ⟨fun _ => rfl,fun _ _ => rfl,rfl⟩
  | some old =>
    refine ⟨fun k => ?_,fun k ne => ?_,rfl⟩
    · by_cases eq : k = m
      · subst eq
        simp [lsRetransmitReplace,setNbr,Net.count]
      · simp [lsRetransmitReplace,setNbr,Net.count,eq]
    · simp [lsRetransmitReplace,setNbr,Net.count,ne]

theorem lsRetransmitAdd_unmoved_iff : Advances core r net (lsRetransmitAdd core net m r) ∧
    (net.Unmoved (lsRetransmitAdd core net m r) ↔ lacks core r net m = false) := by
  by_cases lack : lacks core r net m
  · have hab : lsRetransmitLookup core net m r ≠ some r := by
      intro hh
      simp [lacks,hh,moreRecentThan,moreRecent_self] at lack
    obtain ⟨reqs,others,output⟩ :=
      @lsRetransmitReplace_frame core net m (lsRetransmitLookup core net m r)
    have ha : lsRetransmitAdd core net m r = _ := if_pos (of_decide_eq_true lack)
    have hp : lsRetransmitLookup core (lsRetransmitAdd core net m r) m r = some r := by
      rw [ha]
      simp [lsRetransmitLookup,setNbr]
    have hk (k : Nat) : ((lsRetransmitAdd core net m r).neighbor k).lsReq =
        (net.neighbor k).lsReq := by
      rw [ha]
      by_cases eq : k = m
      · subst eq
        simp only [setNbr,update_self]
        exact reqs k
      simp only [setNbr,update_of_ne eq]
      exact reqs k
    have ho (k : Nat) (ne : k ≠ m) : (lsRetransmitAdd core net m r).neighbor k =
        net.neighbor k := by
      rw [ha]
      simp only [setNbr,update_of_ne ne]
      exact others k ne
    have hs : (lsRetransmitAdd core net m r).output = net.output := by
      rw [ha]
      exact output
    refine ⟨⟨Alike.lsRetransmitAdd,fun k => .inl (hk k),fun k => ?_,?_⟩,?_⟩
    · by_cases eq : k = m
      · subst eq
        exact .inr ⟨hab,hp⟩
      · exact .inl (by rw [ho k eq])
    · rw [hs]
    simp only [lack,Bool.true_eq_false,iff_false]
    intro hu
    exact hab ((lsRetransmitLookup_congr (hu.lsRxmt m)).symm.trans hp)
  · have eq : lsRetransmitAdd core net m r = net := if_neg (by simpa [lacks] using lack)
    rw [eq]
    exact ⟨Advances.refl net,by simpa [Unmoved.refl] using lack⟩

theorem lsdbDelete_shrinks (table : Table) (req : Nat) :
    if table.lookup (core.lsas req).key = some req then
      (lsdbDelete core req table).entries.length < table.entries.length
    else lsdbDelete core req table = table := by
  unfold lsdbDelete
  split
  · next found =>
    have mem : (core.lsas req).key ∈ table.entries.keys :=
      AList.lookup_isSome.mp (by rw [found]; rfl)
    obtain ⟨b,hb,ha,-,all,rest⟩ := exists_of_kerase mem
    change (kerase _ table.entries).length < table.entries.length
    rw [rest,all]
    simp
  · rfl

theorem checkNbrLoading_unmoved : Advances core r net (checkNbrLoading net m) ∧
    net.Unmoved (checkNbrLoading net m) := by
  have ev (out : Output) (hs : out.passesOn = false) :
      Advances core r net (net.emit out) ∧ net.Unmoved (net.emit out) :=
    ⟨⟨Alike.emit,fun _ => .inl rfl,fun _ => .inl rfl,prefix_append ..⟩,
      fun _ => rfl,fun _ => rfl,by simp [emit,hs]⟩
  simp only [checkNbrLoading]
  split
  · split
    · exact ev _ rfl
    split
    · exact ev _ rfl
    · exact ⟨Advances.refl net,Unmoved.refl net⟩
  · exact ⟨Advances.refl net,Unmoved.refl net⟩

theorem lsRequestDelete_unmoved_iff (req : Nat) :
    Advances core r net (lsRequestDelete core net m req) ∧
      (net.Unmoved (lsRequestDelete core net m req) ↔
        (net.neighbor m).lsReq.lookup (core.lsas req).key ≠ some req) ∧
      ∀ k, ((lsRequestDelete core net m req).neighbor k).lsRxmt = (net.neighbor k).lsRxmt := by
  have hs := @lsdbDelete_shrinks core (net.neighbor m).lsReq req
  have hh : ((lsRequestDelete core net m req).neighbor m).lsReq =
      lsdbDelete core req (net.neighbor m).lsReq := by
    simp [lsRequestDelete,setNbr]
  have ho (k : Nat) (ne : k ≠ m) : ((lsRequestDelete core net m req).neighbor k).lsReq =
      (net.neighbor k).lsReq := by
    simp [lsRequestDelete,setNbr,ne]
  have rxmt (k : Nat) : ((lsRequestDelete core net m req).neighbor k).lsRxmt =
      (net.neighbor k).lsRxmt := by
    by_cases eq : k = m
    · subst eq
      simp [lsRequestDelete,setNbr]
    · simp [lsRequestDelete,setNbr,eq]
  refine ⟨⟨Alike.lsRequestDelete,fun k => ?_,fun k => .inl (rxmt k),prefix_rfl⟩,?_,rxmt⟩
  · by_cases eq : k = m
    · subst eq
      rw [hh]
      split at hs
      · exact .inr hs
      · exact .inl hs
    · exact .inl (ho k eq)
  · constructor
    · intro hu hf
      rw [if_pos hf,← hh,hu.lsReq m] at hs
      exact lt_irrefl _ hs
    intro ha
    rw [if_neg ha,← hh] at hs
    refine ⟨fun k => ?_,rxmt,rfl⟩
    by_cases eq : k = m
    · rw [eq,hs]
    · exact ho k eq

theorem examineRequest_unmoved_iff : Advances core r net (examineRequest core r net m).1 ∧
    (net.Unmoved (examineRequest core r net m).1 ↔ answers core r net m = false) ∧
    (∀ k, ((examineRequest core r net m).1.neighbor k).lsRxmt = (net.neighbor k).lsRxmt) ∧
    (examineRequest core r net m).2 = (pendingRequest core r net m).all fun req =>
      moreRecent core.now (core.lsas req) (core.lsas r) < 0 := by
  have eq : Advances core r net net ∧ (net.Unmoved net ↔ False = False) :=
    ⟨Advances.refl net,by simp [Unmoved.refl]⟩
  unfold examineRequest answers pendingRequest
  by_cases hw : (net.neighbor m).state < .full
  · rw [if_pos hw,if_pos hw]
    cases lsRequestLookup core net m r with
    | none => simpa using eq
    | some req =>
      simp only [Option.any_some,Option.all_some]
      generalize moreRecent core.now (core.lsas req) (core.lsas r) = ret
      by_cases ho : 0 < ret
      · simpa [if_pos ho,ho,not_le.mpr ho,not_lt.mpr ho.le] using eq
      obtain ⟨deletes,hk,rxmt⟩ := @lsRequestDelete_unmoved_iff core r net m req
      obtain ⟨checks,hs⟩ := @checkNbrLoading_unmoved core r (lsRequestDelete core net m req) m
      rw [if_neg ho]
      refine ⟨deletes.trans checks,?_,fun k => (hs.lsRxmt k).trans (rxmt k),?_⟩
      · have eq : net.Unmoved (checkNbrLoading (lsRequestDelete core net m req) m) ↔
            net.Unmoved (lsRequestDelete core net m req) :=
          ⟨fun hu => hu.trans hs.symm,fun hu => hu.trans hs⟩
        rw [eq,hk]
        simp [not_lt.mp ho]
      · simp only [decide_eq_decide]
        omega
  · rw [if_neg hw,if_neg hw]
    simpa using eq

theorem comesFrom_congr (ha : net.Alike net') :
    comesFrom core inbr r net' m = comesFrom core inbr r net m := by
  have routerId (k : Nat) : (net'.neighbor k).routerId = (net.neighbor k).routerId := by
    have eq := congrArg Neighbor.routerId (ha.bare k)
    exact eq
  cases inbr <;> simp only [comesFrom,routerId]

theorem lacks_congr (eq : (net'.neighbor m).lsRxmt = (net.neighbor m).lsRxmt) :
    lacks core r net' m = lacks core r net m := by
  rw [lacks,lsRetransmitLookup_congr eq]
  rfl

theorem offered_congr (ha : net.Alike net') (hu : net.Unmoved net') :
    offered core inbr r net' m = offered core inbr r net m := by
  have opts : (net'.neighbor m).options = (net.neighbor m).options := by
    have eq := congrArg Neighbor.options (ha.bare m)
    exact eq
  unfold offered pendingRequest lsRequestLookup
  rw [ha.state m,opts,hu.lsReq m,comesFrom_congr ha]

theorem disturbs_congr (ha : net.Alike net') (hu : net.Unmoved net') :
    disturbs core inbr r net' m = disturbs core inbr r net m := by
  unfold disturbs answers pendingRequest lsRequestLookup
  rw [ha.state m,hu.lsReq m,offered_congr ha hu,lacks_congr (hu.lsRxmt m)]

theorem floodToNeighbor_unmoved_iff (retx : Bool) :
    Advances core r net (floodToNeighbor core inbr r (net,retx) m).1 ∧
      (net.Unmoved (floodToNeighbor core inbr r (net,retx) m).1 ↔
        disturbs core inbr r net m = false) ∧
      (floodToNeighbor core inbr r (net,retx) m).2 = (retx || offered core inbr r net m) := by
  unfold floodToNeighbor disturbs
  by_cases he : (net.neighbor m).state < .exchange
  · have far : offered core inbr r net m = false := by simp [offered,he]
    simp only [if_pos he,far,Bool.or_false]
    by_cases colour : (core.lsas r).data.type = linkColourLsa
    · rw [if_pos colour]
      obtain ⟨had,hk⟩ := @lsRetransmitAdd_unmoved_iff core r net m
      exact ⟨had,by simpa [colour] using hk,trivial⟩
    rw [if_neg colour]
    exact ⟨Advances.refl net,by simp [colour,Unmoved.refl],trivial⟩
  · obtain ⟨examines,hk,rxmt,hn⟩ := @examineRequest_unmoved_iff core r net m
    simp only [if_neg he]
    have skip (far : offered core inbr r net m = false) :
        (net.Unmoved (examineRequest core r net m).1 ↔
          decide (answers core r net m = true ∨ offered core inbr r net m = true ∧
            lacks core r net m) = false) := by
      simpa [far] using hk
    cases ha : (examineRequest core r net m).2 with
    | false =>
      have far : offered core inbr r net m = false := by
        rw [hn] at ha
        simp [offered,ha]
      simp only [Bool.false_eq_true,not_false_eq_true,if_true]
      exact ⟨examines,skip far,by simp [far]⟩
    | true =>
      rw [hn] at ha
      simp only [not_true_eq_false,if_false,comesFrom_congr examines.alike]
      by_cases excluded : isOpaque (core.lsas r).data.type ∧
          (net.neighbor m).options &&& optionO = 0
      · have far : offered core inbr r net m = false := by simp [offered,excluded]
        rw [if_pos excluded]
        exact ⟨examines,skip far,by simp [far]⟩
      rw [if_neg excluded]
      by_cases from' : comesFrom core inbr r net m = true
      · have far : offered core inbr r net m = false := by simp [offered,from']
        rw [if_pos from']
        exact ⟨examines,skip far,by simp [far]⟩
      rw [if_neg from']
      have hne : offered core inbr r net m := by
        simp only [offered,decide_eq_true_eq]
        exact ⟨not_lt.mp he,ha,excluded,from'⟩
      obtain ⟨adds,hk'⟩ := @lsRetransmitAdd_unmoved_iff core r (examineRequest core r net m).1 m
      rw [lacks_congr (rxmt m)] at hk'
      refine ⟨examines.trans adds,?_,by simp [hne]⟩
      have hb : net.Unmoved (lsRetransmitAdd core (examineRequest core r net m).1 m r) ↔
          answers core r net m = false ∧ lacks core r net m = false := by
        rw [← hk,← hk']
        constructor
        · intro hu
          have fst := examines.squeeze adds hu
          exact ⟨fst,fst.symm.trans hu⟩
        · exact fun ⟨fst,snd⟩ => fst.trans snd
      rw [hb]
      simp [hne]

theorem floodToNeighbor_fst (retx : Bool) : (floodToNeighbor core inbr r (net,retx) m).1 =
    (floodToNeighbor core inbr r (net,false) m).1 := by
  simp only [floodToNeighbor]
  split_ifs <;> rfl

end

section

variable {core : Core} {inbr : Option Nat} {r : Nat} {net net' : Net} {oi : Nat}

theorem foldl_floodToNeighbor_fst (items : List Nat) (retx : Bool) (net : Net) :
    (items.foldl (floodToNeighbor core inbr r) (net,retx)).1 =
      items.foldl (fun net m => (floodToNeighbor core inbr r (net,false) m).1) net := by
  induction items generalizing net retx with
  | nil => rfl
  | cons m items ih =>
    rw [foldl_cons,foldl_cons,← floodToNeighbor_fst retx]
    exact ih _ _

theorem foldl_floodToNeighbor_unmoved_iff (items : List Nat) (net : Net) :
    Advances core r net (items.foldl (floodToNeighbor core inbr r) (net,false)).1 ∧
      (net.Unmoved (items.foldl (floodToNeighbor core inbr r) (net,false)).1 ↔
        items.any (disturbs core inbr r net) = false) := by
  rw [foldl_floodToNeighbor_fst,any_eq_false]
  simp only [Bool.not_eq_true]
  exact Advances.foldl_unmoved_iff
    (fun net m => (@floodToNeighbor_unmoved_iff core inbr r net m false).1)
    (fun ha hu => by rw [disturbs_congr ha hu])
    (fun net m => (@floodToNeighbor_unmoved_iff core inbr r net m false).2.1) items net

theorem foldl_floodToNeighbor_retx (items : List Nat) (retx : Bool) (net : Net)
    (hq : items.any (disturbs core inbr r net) = false) :
    (items.foldl (floodToNeighbor core inbr r) (net,retx)).2 =
      (retx || items.any (offered core inbr r net)) := by
  induction items generalizing net retx with
  | nil => simp
  | cons m items ih =>
    obtain ⟨ha,hs,flag⟩ := @floodToNeighbor_unmoved_iff core inbr r net m retx
    rw [any_cons,Bool.or_eq_false_iff] at hq
    have hu := hs.mpr hq.1
    have congr (k : Nat) := @disturbs_congr core inbr r net _ k ha.alike hu
    have congr' (k : Nat) := @offered_congr core inbr r net _ k ha.alike hu
    rw [foldl_cons,any_cons,← Bool.or_assoc,← flag]
    rw [← funext congr] at hq
    rw [← funext congr']
    exact ih _ _ hq.2

theorem sendUpdates_unmoved_iff : Advances core r net (sendUpdates core r net oi) ∧
    (net.Unmoved (sendUpdates core r net oi) ↔
      ¬ ((core.interface oi).type = .nbma → (net.nbrs oi).any (fun m =>
        m ≠ (core.interface oi).nbrSelf ∧ .exchange ≤ (net.neighbor m).state))) := by
  have emitted (items : List Nat) (net : Net) :
      items.foldl (fun net m => net.emit (.lsUpd m r)) net =
        {net with output := net.output ++ items.map (.lsUpd · r)} := by
    induction items generalizing net with
    | nil => simp
    | cons m items ih =>
      rw [foldl_cons,ih]
      simp [emit]
  unfold sendUpdates
  by_cases nbma : (core.interface oi).type = .nbma
  · simp only [if_pos nbma,emitted]
    refine ⟨⟨⟨rfl,fun _ => rfl⟩,fun _ => .inl rfl,fun _ => .inl rfl,prefix_append ..⟩,?_⟩
    generalize (fun m => decide (m ≠ (core.interface oi).nbrSelf ∧
      NsmState.exchange ≤ (net.neighbor m).state)) = recipient
    have hs : net.Unmoved {net with
        output := net.output ++ ((net.nbrs oi).filter recipient).map (.lsUpd · r)} ↔
        (net.nbrs oi).filter recipient = [] := by
      constructor
      · intro hu
        have output := hu.output
        rw [filter_append,append_right_eq_self,filter_map] at output
        simpa [comp_def,Output.passesOn] using output
      intro none
      rw [none]
      exact ⟨fun _ => rfl,fun _ => rfl,by simp⟩
    rw [hs]
    simp [nbma,filter_eq_nil_iff]
  · simp only [if_neg nbma]
    refine ⟨⟨Alike.emit,fun _ => .inl rfl,fun _ => .inl rfl,prefix_append ..⟩,?_⟩
    simp only [nbma,false_imp_iff,not_true_eq_false,iff_false]
    intro hu
    have output := hu.output
    simp [emit,Output.passesOn] at output

theorem sends_congr (ha : net.Alike net') (hu : net.Unmoved net') :
    sends core inbr r net' oi = sends core inbr r net oi := by
  have field {α : Type} (f : Neighbor → α) (bare : ∀ nbr : Neighbor, f nbr.bare = f nbr) (k : Nat) :
      f (net'.neighbor k) = f (net.neighbor k) := by
    rw [← bare,ha.bare k,bare]
  have came : cameIn inbr net' oi = cameIn inbr net oi := by
    unfold cameIn
    simp [field Neighbor.oi fun _ => rfl]
  have dr (k : Nat) := field Neighbor.isDr (fun _ => rfl) k
  have bdr (k : Nat) := field Neighbor.isBdr (fun _ => rfl) k
  have state (k : Nat) := ha.state k
  unfold sends
  simp [ha.nbrs,came,dr,bdr,state,funext fun k => @offered_congr core inbr r _ _ k ha hu]

theorem disturbsInterface_congr (ha : net.Alike net') (hu : net.Unmoved net') :
    disturbsInterface core inbr r net' oi = disturbsInterface core inbr r net oi := by
  have eq : disturbs core inbr r net' = disturbs core inbr r net :=
    funext fun k => disturbs_congr ha hu
  unfold disturbsInterface
  rw [ha.nbrs,sends_congr ha hu,eq]

theorem floodThroughInterface_unmoved_iff :
    Advances core r net (floodThroughInterface core inbr r net oi).1 ∧
      (net.Unmoved (floodThroughInterface core inbr r net oi).1 ↔
        disturbsInterface core inbr r net oi = false) := by
  unfold floodThroughInterface
  by_cases enabled : (core.interface oi).enabled
  · obtain ⟨ha,hst⟩ := @foldl_floodToNeighbor_unmoved_iff core inbr r (net.nbrs oi) net
    have flag := @foldl_floodToNeighbor_retx core inbr r (net.nbrs oi) false net
    simp only [if_pos enabled]
    generalize (net.nbrs oi).foldl (floodToNeighbor core inbr r) (net,false) = result at *
    obtain ⟨net',retx⟩ := result
    have hal := ha.alike
    have goal : disturbsInterface core inbr r net oi = false ↔
        net.Unmoved net' ∧ sends core inbr r net' oi = false := by
      rw [hst]
      constructor
      · intro hq
        simp only [disturbsInterface,enabled,true_and,decide_eq_false_iff_not,not_or,
          Bool.not_eq_true] at hq
        exact ⟨hq.1,(sends_congr hal (hst.mpr hq.1)).trans hq.2⟩
      rintro ⟨hq,hs⟩
      rw [sends_congr hal (hst.mpr hq)] at hs
      simp [disturbsInterface,hq,hs]
    have meant (hu : net.Unmoved net') : (net'.nbrs oi).any (offered core inbr r net') = retx := by
      have eq : offered core inbr r net' = offered core inbr r net :=
        funext fun k => offered_congr hal hu
      rw [eq,hal.nbrs]
      exact (flag (hst.mp hu)).symm
    simp only [goal]
    by_cases several : retx
    · rw [if_neg (not_not_intro several)]
      by_cases back : cameIn inbr net' oi ∧
          (inbr.any (fun i => (net'.neighbor i).isDr || (net'.neighbor i).isBdr) = true ∨
            (core.interface oi).state = .backup)
      · rw [if_pos back]
        refine ⟨ha,iff_self_and.mpr fun _ => ?_⟩
        simp only [sends,decide_eq_false_iff_not]
        exact fun ⟨_,forth,_⟩ => forth back
      rw [if_neg back]
      obtain ⟨hse,hs⟩ := @sendUpdates_unmoved_iff core r net' oi
      refine ⟨ha.trans hse,?_⟩
      constructor
      · intro hu
        have fst := ha.squeeze hse hu
        refine ⟨fst,?_⟩
        simp only [sends,decide_eq_false_iff_not]
        exact fun ⟨_,_,recipients⟩ => hs.mp (fst.symm.trans hu) recipients
      · rintro ⟨fst,hq⟩
        refine fst.trans (hs.mpr fun recipients => ?_)
        simp only [sends,decide_eq_false_iff_not,meant fst] at hq
        exact hq ⟨several,back,recipients⟩
    · rw [if_pos several]
      refine ⟨ha,iff_self_and.mpr fun hu => ?_⟩
      simp [sends,meant hu,several]
  · rw [if_neg enabled]
    exact ⟨Advances.refl net,by simp [disturbsInterface,enabled,Unmoved.refl]⟩

theorem floodThrough_scope : (floodThrough core inbr r net).1 = (scopeInterfaces core r).foldl
      (fun net oi => (floodThroughInterface core inbr r net oi).1) net := by
  have folded (ifs : List Nat) (acc : Net × Bool) : (ifs.foldl (fun acc oi =>
        let (net,ack) := floodThroughInterface core inbr r acc.1 oi
        (net,acc.2 || ack)) acc).1 =
      ifs.foldl (fun net oi => (floodThroughInterface core inbr r net oi).1) acc.1 := by
    induction ifs generalizing acc with
    | nil => rfl
    | cons oi rest ih => exact ih _
  unfold floodThrough scopeInterfaces
  split
  · exact folded _ (net,false)
  cases (core.lsas r).area with
  | some area => exact folded _ (net,false)
  | none => rfl

/-- `ospf_flood_through` has no effect just if it has none on any of the interfaces. -/
theorem floodThrough_unmoved_iff : net.Unmoved (floodThrough core inbr r net).1 ↔
    ∀ oi ∈ scopeInterfaces core r, disturbsInterface core inbr r net oi = false := by
  rw [floodThrough_scope]
  exact (Advances.foldl_unmoved_iff
    (fun net oi => (@floodThroughInterface_unmoved_iff core inbr r net oi).1)
    (fun ha hu => by rw [disturbsInterface_congr ha hu])
    (fun net oi => (@floodThroughInterface_unmoved_iff core inbr r net oi).2) _ net).2

end

section

variable (env : Env) (s : State) (n : Nat) (current : Option Nat) (r : Nat)

def linked (core : Core) (oi r : Nat) : Core :=
  let lsa := core.lsas r
  if lsa.data.type = opaqueLinkLsa ∧ lsa.self then core.setLsa r {lsa with oi := some oi}
  else core

def storedCore : Core :=
  let core := markReceived s.core r
  let db := lookupDb (core.lsas r).data.type (receivingArea s n)
  linked (store ⟨unwrapped core r,s.net⟩ db r).core (s.net.neighbor n).oi r

def registrable : Bool := env.registerOpaqueLsa (storedCore s n r) ((storedCore s n r).lsas r)

/-- A received LSA that is accepted, or discarded without harm: the database copy is too recent, or
the number is the reserved one and flooding has no effect. An own opaque LSA must find a module. -/
def Discardable : Prop :=
  (current.any fun c => arrivedRecently s.core c) = true ∨
    if (s.core.lsas r).data.lsSeqnum = wrapped ∧ ¬ ownReceived s r then
      current.isSome = true ∨
        ∀ oi ∈ scopeInterfaces s.core r, disturbsInterface s.core (some n) r s.net oi = false
    else isOpaque (s.core.lsas r).data.type → ownReceived s r → registrable env s n r

variable {env s n current r}

theorem storedCore_eq : storedCore s n r = linked (store ⟨unwrapped (markReceived s.core r) r,s.net⟩
      (lookupDb (s.core.lsas r).data.type (receivingArea s n)) r).core (s.net.neighbor n).oi r := by
  rw [storedCore,markReceived_lsa]

theorem store_core_net (core : Core) (net net' : Net) (db : Db) :
    (store ⟨core,net⟩ db r).core = (store ⟨core,net'⟩ db r).core := by
  simp only [store]
  cases core.lookup db (core.lsas r).key <;> rfl

theorem installType_refuses_iff (oi : Nat) : (installType env s (some oi) r).2 = false ↔
    isOpaque (s.core.lsas r).data.type ∧ (s.core.lsas r).self ∧
      env.registerOpaqueLsa (linked s.core oi r) ((linked s.core oi r).lsas r) = false := by
  by_cases rtr : (s.core.lsas r).data.type = routerLsa
  · have hn : isOpaque routerLsa = false := by decide
    simp [installType,rtr,hn]
  by_cases nw : (s.core.lsas r).data.type = networkLsa
  · have hn : isOpaque networkLsa = false := by decide
    have ho : networkLsa ≠ routerLsa := by decide
    simp [installType,nw,hn,ho]
  unfold installType
  simp only [if_neg rtr,if_neg nw]
  by_cases hc : isOpaque (s.core.lsas r).data.type
  · simp [hc,linked]
  simp only [if_neg hc]
  split_ifs <;> simp [hc]

theorem lsaInstall_refuses_iff {net : Net} {oi : Nat} {db : Db} (hu : s.core.Unheld r)
    (hf : installDb (s.core.lsas r).data.type (s.core.lsas r).area = some db)
    (hpl : (s.core.lsas r).data.lsSeqnum = wrapped → ownReceived s r) :
    let res := lsaInstall env ⟨markReceived s.core r,net⟩ (some oi) r
    let core := linked (store ⟨unwrapped (markReceived s.core r) r,s.net⟩ db r).core oi r
    (res.2 = none ↔ isOpaque (s.core.lsas r).data.type ∧ ownReceived s r ∧
        env.registerOpaqueLsa core (core.lsas r) = false) ∧
      (res.2 = none → res.1.core.lookup db (s.core.lsas r).key = some r) := by
  intro res core
  have lsa := @markReceived_lsa s r
  have hf' : installDb ((markReceived s.core r).lsas r).data.type
      ((markReceived s.core r).lsas r).area = some db := by
    rw [lsa]
    exact hf
  have hk : ((markReceived s.core r).lsas r).data.lsSeqnum = wrapped →
      lsaIsSelfOriginated (markReceived s.core r) ((markReceived s.core r).lsas r) := by
    rw [markReceived_own,lsa]
    exact hpl
  have stages := @lsaInstall_eq env ⟨markReceived s.core r,net⟩ (some oi) db r hf' hk
  have hr : res.2 = none ↔ (installType env
      (store ⟨unwrapped (markReceived s.core r) r,net⟩ db r) (some oi) r).2 = false := by
    rw [show res = _ from stages]
    generalize installType env _ (some oi) r = typed
    obtain ⟨t,_ | _⟩ := typed <;> simp
  have hs : (store ⟨unwrapped (markReceived s.core r) r,net⟩ db r).core.lsas r = _ :=
    @store_unwrapped_lsa ⟨markReceived s.core r,net⟩ db r
  obtain ⟨ty,self,-,-⟩ := @installed_fields r (markReceived s.core r)
  have hr' := hr.trans (installType_refuses_iff oi)
  rw [hs,ty,self,lsa,store_core_net _ net s.net] at hr'
  refine ⟨hr',fun none => ?_⟩
  -- An LSA that is refused is opaque, so that nothing was translated.
  have unrelated : Plain ((markReceived s.core r).lsas r) := by
    intro hn
    have hc := (hr'.mp none).1
    rw [lsa] at hn
    rw [show (s.core.lsas r).data.type = asNssaLsa from hn] at hc
    exact absurd hc (by decide)
  have hp := @lsaInstall_placed env ⟨markReceived s.core r,net⟩ (some oi) db r hu hf' hk unrelated
  rw [hp.lookup,installed_key,lsa]
  exact if_pos ⟨rfl,rfl⟩

theorem lsaInstall_reserved {net : Net} {oi : Nat} {db : Db}
    (hf : installDb (s.core.lsas r).data.type (s.core.lsas r).area = some db)
    (hr : (s.core.lsas r).data.lsSeqnum = wrapped ∧ ¬ ownReceived s r) :
    lsaInstall env ⟨markReceived s.core r,net⟩ (some oi) r =
      (⟨markReceived s.core r,net⟩,s.core.lookup db (s.core.lsas r).key) := by
  have lsa := @markReceived_lsa s r
  have own := @markReceived_own s r
  have hf' : installDb ((markReceived s.core r).lsas r).data.type
      ((markReceived s.core r).lsas r).area = some db := by
    rw [lsa]
    exact hf
  have hw : ((markReceived s.core r).lsas r).data.lsSeqnum = wrapped := by
    rw [lsa]
    exact hr.1
  have key : ((markReceived s.core r).lsas r).key = (s.core.lsas r).key := by rw [lsa]; rfl
  simp only [lsaInstall,hf',hw,own,hr.2,key]
  rfl

theorem floodReturning_discards_iff
    (hl : ¬ (current.any fun c => arrivedRecently s.core c) = true) :
    let net := sweepCurrent s.core (floodThrough s.core (some n) r s.net).1 n current
    let hi := lsaInstall env ⟨markReceived s.core r,net⟩ (some (s.net.neighbor n).oi) r
    ((floodReturning env s n current r).2 = -1 ↔ hi.2 = none) ∧
      (hi.2 = none → (floodReturning env s n current r).1 = hi.1) := by
  intro net hi
  have hr : floodReturning env s n current r = _ := if_neg hl
  simp only [hr]
  change (Prod.snd (match hi with
    | (s,none) => (s,-1)
    | (s,some new) => _) = -1 ↔ _) ∧ (_ → Prod.fst (match hi with
    | (s,none) => (s,-1)
    | (s,some new) => _) = hi.1)
  obtain ⟨t,_ | new⟩ := hi
  · simp
  simp only
  split_ifs <;> simp

end

/-- A discarded LSA leaves databases and lists as before, with nothing sent on, if and only if it
can be discarded without harm. -/
theorem discarded_untouched_iff (env : Env) (s : State) (n : Nat) (lsa : Lsa)
    (bounded : s.core.Bounded) :
    let t := arrival s n lsa
    let current := lsaLookupByHeader t.core (receivingArea t n) lsa
    let res := floodReturning env t n current s.core.next
    (res.2 = -1 → Untouched t res.1) ↔ Discardable env t n current s.core.next := by
  intro t current res
  have hfo := @arrival_db n s lsa
  have hun : t.core.Unheld s.core.next := bounded.unheld
  have data : (t.core.lsas s.core.next).key = lsa.key ∧
      (t.core.lsas s.core.next).data.type = lsa.type := by
    simp [t,arrival,receivedLsa,new,Instance.key,Lsa.key]
  have copy : current = t.core.lookup
      (lookupDb (t.core.lsas s.core.next).data.type (receivingArea t n))
      (t.core.lsas s.core.next).key := by
    rw [data.1,data.2]
    rfl
  by_cases he : (current.any fun c => arrivedRecently t.core c) = true
  · have hunc : res = (t,-1) := if_pos he
    refine ⟨fun _ => .inl he,fun _ _ => ?_⟩
    rw [hunc]
    exact ⟨fun _ _ => rfl,Unmoved.refl _⟩
  obtain ⟨discards,left⟩ := @floodReturning_discards_iff env t n current s.core.next he
  unfold Discardable
  rw [or_iff_right he,show res.2 = -1 ↔ _ from discards]
  by_cases hre : (t.core.lsas s.core.next).data.lsSeqnum = wrapped ∧
      ¬ ownReceived t s.core.next
  · rw [if_pos hre]
    rw [lsaInstall_reserved hfo hre,← copy] at discards left ⊢
    cases ha : current with
    | some c => simp
    | none =>
      have net : res.1 = ⟨markReceived t.core s.core.next,
          (floodThrough t.core (some n) s.core.next t.net).1⟩ := by
        rw [show res.1 = _ from left ha,ha]
        rfl
      rw [net,← floodThrough_unmoved_iff]
      simp only [Option.isSome_none,Bool.false_eq_true,false_or,forall_const]
      exact ⟨fun hu => hu.net,fun hunm => ⟨fun _ _ => rfl,hunm⟩⟩
  · rw [if_neg hre]
    have hp : (t.core.lsas s.core.next).data.lsSeqnum = wrapped →
        ownReceived t s.core.next := by
      intro hw
      by_contra foreign
      exact hre ⟨hw,foreign⟩
    obtain ⟨refuses,hs⟩ := @lsaInstall_refuses_iff env t s.core.next
      (sweepCurrent t.core (floodThrough t.core (some n) s.core.next t.net).1 n current)
      (t.net.neighbor n).oi _ hun hfo hp
    rw [← storedCore_eq] at refuses
    constructor
    · intro hu hc own
      by_contra hf
      have hr := refuses.mpr ⟨hc,own,Bool.eq_false_iff.mpr hf⟩
      have eq := (hu hr).lsdb (lookupDb (t.core.lsas s.core.next).data.type (receivingArea t n))
        (t.core.lsas s.core.next).key
      rw [show res.1 = _ from left hr,hs hr] at eq
      exact hun _ _ eq.symm
    · intro regs hr
      obtain ⟨hc,own,hf⟩ := refuses.mp hr
      exact absurd (regs hc own) (Bool.eq_false_iff.mp hf)

/-- The only neighbor sends a router-LSA with the reserved number: nothing happens. -/
theorem border_untouched :
    let t := arrival border 0 (linkless 2 wrapped)
    let current := lsaLookupByHeader t.core (receivingArea t 0) (linkless 2 wrapped)
    let res := floodReturning quietEnv t 0 current 0
    res.2 = -1 ∧ Untouched t res.1 := by
  intro t current res
  have hr : res.2 = -1 := by decide +kernel
  have hb : border.core.Bounded := by
    intro db key r hf
    simp [border,Core.lookup] at hf
  have hh : Discardable quietEnv t 0 current 0 := by
    unfold Discardable
    decide +kernel
  exact ⟨hr,(discarded_untouched_iff quietEnv border 0 (linkless 2 wrapped) hb).mpr hh hr⟩

def lan : State :=
  {border with
    net := {border.net with
      nbrs := fun _ => [0,1]
      neighbor := fun m =>
        if m = 0 then border.net.neighbor 0
        else {border.net.neighbor 0 with routerId := 3, address := 0x0a000003}}}

/-- A router-LSA with the reserved number and no copy is discarded, and is on the retransmission
list of the second neighbor. -/
theorem reserved_number_left_waiting :
    let t := arrival lan 0 (linkless 4 wrapped)
    let current := lsaLookupByHeader t.core (receivingArea t 0) (linkless 4 wrapped)
    let res := floodReturning quietEnv t 0 current 0
    res.2 = -1 ∧ (t.net.neighbor 1).lsRxmt.lookup ⟨routerLsa,4,4⟩ = none ∧
      (res.1.net.neighbor 1).lsRxmt.lookup ⟨routerLsa,4,4⟩ = some 0 := by
  decide +kernel

end Frr.Ospf
