import Frr.LsUpdateSteady

/-! What the router originates when an own LSA comes back. It goes on from the received number, and
is more recent than what it replaces only as long as nothing with a higher number is there. -/
namespace Frr.Ospf

open List Option Lsa

section

theorem signed_succ {seqnum : UInt32} (ne : seqnum ≠ maxSequenceNumber) :
    signed (seqnum+1) = signed seqnum + 1 := by
  have ne' : seqnum.toNat ≠ 2147483647 := fun eq => ne (UInt32.toNat_inj.mp eq)
  have hb := seqnum.toNat_lt
  have val (x : UInt32) : signed x =
      if 2 * x.toNat < 2 ^ 32 then (x.toNat : Int) else x.toNat - 2 ^ 32 := by
    rw [signed]
    exact BitVec.toInt_eq_toNat_cond _
  have next : (seqnum+1).toNat = (seqnum.toNat+1) % 2 ^ 32 := UInt32.toNat_add seqnum 1
  rw [val,val,next]
  split <;> split <;> omega

def Fresh (seqnum : UInt32) : Prop := seqnum ≠ maxSequenceNumber ∧ seqnum ≠ wrapped

theorem Fresh.lt {seqnum : UInt32} (fresh : Fresh seqnum) : signed seqnum < signed (seqnum+1) := by
  rw [signed_succ fresh.1]
  omega

theorem Fresh.succ_ne {seqnum : UInt32} (fresh : Fresh seqnum) : seqnum + 1 ≠ wrapped := by
  intro eq
  exact fresh.1 ((UInt32.add_left_inj 1).mp eq)

theorem wrapped_le (seqnum : UInt32) : signed wrapped ≤ signed seqnum := by
  have low : signed wrapped = -2 ^ 31 := by decide
  rw [low]
  exact BitVec.le_toInt seqnum.toInt32.toBitVec

theorem signed_injective {x y : UInt32} (eq : signed x = signed y) : x = y := by
  have hs : x.toInt32.toBitVec = y.toInt32.toBitVec := BitVec.eq_of_toInt_eq eq
  exact UInt32.toBitVec_inj.mp hs

end

section

variable (env : Env) (s : State)

def receivingArea (n : Nat) : Nat := (s.core.interface (s.net.neighbor n).oi).area

def Taken (n r : Nat) : Prop :=
  ∀ c, lsaLookupByHeader s.core (receivingArea s n) (s.core.lsas r).data = some c →
    Instance.moreRecent s.core.now (s.core.lsas c) (s.core.lsas r) < 0

/-- An own network-LSA where the router is designated: it remembers the LSA of the address, or has
none and goes on above the received number. -/
def NetworkClear (oi r : Nat) : Prop :=
  let i := s.core.interface oi
  let lsa := (s.core.lsas r).data
  Fresh lsa.lsSeqnum ∧
    match i.networkLsaSelf with
    | some own => (s.core.lsas own).data.id = lsa.id
    | none => i.fullNbrs = 0 ∨
      nextNetworkSeqnum i ≠ wrapped ∧ signed lsa.lsSeqnum < signed (nextNetworkSeqnum i) ∧
        s.core.Above (.area i.area) ⟨networkLsa,lsa.id,s.core.routerId⟩ (nextNetworkSeqnum i)

def OpaqueClear (r : Nat) : Prop :=
  let lsa := (s.core.lsas r).data
  ∀ key area content, env.opaqueRefresher lsa.key = .originate key area content →
    Fresh lsa.lsSeqnum ∧
      ∀ db, installDb key.type area = some db → s.core.Above db key (lsa.lsSeqnum+1)

/-- An own external LSA, originated again as type 5 and as type 7 in every NSSA: none is stored with
a higher number. -/
def ExternalClear (r : Nat) : Prop :=
  let lsa := (s.core.lsas r).data
  env.externalInfoCheck lsa.key (lsa.word 0) = true →
    env.redistributeCheck lsa.key (lsa.word 0) = true →
    Fresh lsa.lsSeqnum ∧
      s.core.Above .as ⟨asExternalLsa,lsa.id,s.core.routerId⟩ (lsa.lsSeqnum+1) ∧
      ∀ a ∈ s.core.areas, (s.core.area a).externalRouting = .nssa →
        s.core.Above (.area a) ⟨asNssaLsa,lsa.id,s.core.routerId⟩ (lsa.lsSeqnum+1)

/-- The type-7 LSA of another router: a kept translation of its prefix has a lower number. -/
def TranslationClear (r : Nat) : Prop :=
  let lsa := (s.core.lsas r).data
  ∀ type5, externalInfoFindLsa s.core lsa.id (lsa.word 0) = some type5 →
    (s.core.lsas type5).localXlt = true →
    s.core.Above .as ⟨asExternalLsa,lsa.id,s.core.routerId⟩ lsa.lsSeqnum

/-- The numbers allow what an own LSA that comes back makes the router originate. -/
structure Clear (area r : Nat) : Prop where
  router : (s.core.lsas r).data.type = routerLsa →
    (s.core.area area).routerLsaSelf.isSome ∧ Fresh (s.core.lsas r).data.lsSeqnum
  network : (s.core.lsas r).data.type = networkLsa →
    ∀ oi, ownInterface s.core (s.core.lsas r).data.id = some oi → isDrOf s oi area = true →
      NetworkClear s oi r
  link : (s.core.lsas r).data.type = opaqueLinkLsa →
    ∀ oi, ownInterface s.core (s.core.lsas r).data.id = some oi → isDrOf s oi area = true →
      OpaqueClear env s r
  wide : (s.core.lsas r).data.type = opaqueAreaLsa ∨
    (s.core.lsas r).data.type = opaqueAsLsa → OpaqueClear env s r
  external : (s.core.lsas r).data.type = asExternalLsa ∨
    (s.core.lsas r).data.type = asNssaLsa → ExternalClear env s r

def Harmless (n r : Nat) : Prop :=
  Taken s n r →
    if lsaIsSelfOriginated s.core (s.core.lsas r) then Clear env s (receivingArea s n) r
    else (s.core.lsas r).data.type = asNssaLsa → TranslationClear s r

end

section

variable {env : Env} {core : Core} {net : Net} {r : Nat}

section

variable {key : LsaKey} {seqnum : UInt32} {content : Content} {area : Option Nat}

theorem ownLsa_own (hp : seqnum ≠ wrapped) : Own (ownLsa core key seqnum content area) :=
  ⟨rfl,rfl,hp⟩

theorem ownLsa_logs {oi : Option Nat} {cfg : Core} (hb : core.Bounded) (hp : seqnum ≠ wrapped)
    (ha : ∀ db, installDb key.type area = some db → core.Above db key seqnum) :
    Logs core (lsaInstall env ⟨core.alloc (ownLsa cfg key seqnum content area),net⟩ oi
      core.next).1.core :=
  @Own.logs env ⟨core,net⟩ oi _ (ownLsa_own hp) hb net ha

end

theorem setSeqnum_above {own : Nat} {db : Db} {key : LsaKey} {seqnum above : UInt32}
    (hl : signed seqnum < signed above) (start : core.Above db key above) :
    (setSeqnum core own seqnum).Above db key above := by
  intro old hs
  obtain ⟨hh,hf,rfl⟩ := map_eq_some_iff.mp hs
  by_cases eq : hh = own
  · rw [eq,setSeqnum,Core.setLsa_same]
    exact hl
  rw [setSeqnum,Core.setLsa_other eq]
  exact start _ (map_eq_some_iff.mpr ⟨hh,hf,rfl⟩)

theorem routerLsaRefresh_logs {area own : Nat} (hb : core.Bounded)
    (owner : (core.lsas own).area = some area) (hp : (core.lsas own).data.lsSeqnum + 1 ≠ wrapped)
    (ha : core.Above (.area area) ⟨routerLsa,core.routerId,core.routerId⟩
      ((core.lsas own).data.lsSeqnum + 1)) :
    Logs core (routerLsaRefresh env ⟨core,net⟩ own).core := by
  simp only [routerLsaRefresh,owner]
  apply ownLsa_logs hb hp
  intro db hf
  cases some.inj hf
  exact ha

theorem networkLsaNew_logs {oi area : Nat} {seqnum : UInt32} {s : State} {new : Instance}
    (hb : core.Bounded) (hp : seqnum ≠ wrapped)
    (ha : core.Above (.area (core.interface oi).area)
      ⟨networkLsa,dr ⟨core,net⟩ oi,core.routerId⟩ seqnum)
    (hm : networkLsaNew env ⟨core,net⟩ oi seqnum = some (s,new)) :
    Logs core (installFloodArea env s (some oi) new area).core := by
  simp only [networkLsaNew] at hm
  split at hm
  · cases hm
  cases hm
  have start (i : Interface) : Logs core (core.setInterface oi i) := Logs.of_eq rfl
  have hb' (i : Interface) : (core.setInterface oi i).Bounded := hb
  apply (start _).trans
  apply ownLsa_logs (hb' _) hp
  intro db hf
  cases some.inj hf
  exact ha

theorem lsaFlushArea_replaced {area : Nat} :
    (lsaFlushArea ⟨core,net⟩ r area).core.replaced = core.replaced := by
  obtain ⟨maxage,eq⟩ := @lsaMaxage_core r (agedOut ⟨core,net⟩ r)
  rw [lsaFlushArea,eq]
  rfl

theorem lsaFlushAs_replaced : (lsaFlushAs ⟨core,net⟩ r).core.replaced = core.replaced := by
  obtain ⟨maxage,eq⟩ := @lsaMaxage_core r (agedOut ⟨core,net⟩ r)
  rw [lsaFlushAs,eq]
  rfl

theorem lsaFlush_replaced : (lsaFlush ⟨core,net⟩ r).core.replaced = core.replaced := by
  simp only [lsaFlush]
  split
  · exact lsaFlushAs_replaced
  split
  · split
    · exact lsaFlushArea_replaced
    · rfl
  · rfl

theorem nssaLsaFlush_replaced (s : State) (addr : UInt32) :
    (nssaLsaFlush s addr).core.replaced = s.core.replaced := by
  simp only [nssaLsaFlush]
  generalize s.core.areas = areas
  induction areas generalizing s with
  | nil => rfl
  | cons a areas ih =>
    rw [foldl_cons,ih]
    split
    · split
      · rfl
      split
      · rfl
      · exact lsaFlushArea_replaced
    · rfl

theorem externalLsaFlush_replaced {addr mask : UInt32} :
    (externalLsaFlush ⟨core,net⟩ addr mask).core.replaced = core.replaced := by
  simp only [externalLsaFlush]
  have hs := nssaLsaFlush_replaced ⟨core,net⟩ addr
  split
  · rfl
  split
  · split
    · exact hs
    · exact lsaFlushAs_replaced.trans hs
  split
  · rfl
  · exact lsaFlushAs_replaced

theorem nssaCopy_spec {lsa copy : Instance} {area : Nat} (hm : nssaCopy core lsa area = some copy) :
    copy.self = lsa.self ∧ copy.selfChecked = lsa.selfChecked ∧ copy.area = some area ∧
      copy.key = ⟨asNssaLsa,lsa.data.id,lsa.data.advRouter⟩ ∧
      copy.data.lsSeqnum = lsa.data.lsSeqnum := by
  simp only [nssaCopy] at hm
  generalize (if lsa.data.word 2 = 0 then getNssaIp core area else lsa.data.word 2) = address at hm
  split at hm
  · cases hm
    exact ⟨rfl,rfl,rfl,rfl,rfl⟩
  split at hm
  · cases hm
  cases hm
  exact ⟨rfl,rfl,rfl,rfl,rfl⟩

theorem installFloodNssa_logs {lsa : Instance} (own : Own lsa) (areas : List Nat)
    (hd : areas.Nodup) (s : State) (hb : s.core.Bounded)
    (ha : ∀ a ∈ areas, (s.core.area a).externalRouting = .nssa →
      s.core.Above (.area a) ⟨asNssaLsa,lsa.data.id,lsa.data.advRouter⟩ lsa.data.lsSeqnum) :
    Logs s.core (installFloodNssa env lsa areas s).core := by
  induction areas generalizing s with
  | nil => exact Logs.of_eq rfl
  | cons a areas ih =>
    obtain ⟨hfr,hd'⟩ := nodup_cons.mp hd
    simp only [installFloodNssa]
    split
    · rename_i hn
      split
      · exact Logs.of_eq rfl
      rename_i copy hm
      obtain ⟨self,hc,area,key,num⟩ := nssaCopy_spec hm
      have ty : copy.data.type = asNssaLsa := congrArg LsaKey.type key
      have ownCopy : Own copy := ⟨self.trans own.self,hc.trans own.checked,num ▸ own.plain⟩
      have hf : installDb copy.data.type copy.area = some (.area a) := by
        rw [ty,area]
        rfl
      have logs : Logs s.core (installFloodAs env s copy).core := by
        apply ownCopy.logs hb
        intro db hf'
        cases some.inj (hf.symm.trans hf')
        rw [key,num]
        exact ha a (.head _) hn
      have hp := @Own.placed env s none copy ownCopy hb s.net (.area a) hf
      have cfg := @Own.config env s none copy ownCopy s.net (.area a) hf (by rw [ty]; decide)
      apply logs.trans
      apply ih hd' (installFloodAs env s copy)
      · exact hp.bounded hb.alloc (Nat.lt_succ_self _)
      intro b mem hn'
      have hap : ¬ (Db.area b = Db.area a ∧
          ⟨asNssaLsa,lsa.data.id,lsa.data.advRouter⟩ = (sealed copy).key) := by
        rintro ⟨eq,-⟩
        cases eq
        exact hfr mem
      apply hp.above_other hb.unheld hap
      rw [hb.alloc_above]
      apply ha b (mem_cons_of_mem a mem)
      rw [← cfg.area]
      exact hn'
    · apply ih hd' s hb
      intro b mem
      exact ha b (mem_cons_of_mem a mem)

theorem installFloodExternal_logs {lsa : Instance} (own : Own lsa)
    (ty : lsa.data.type = asExternalLsa) (hb : core.Bounded)
    (ha : core.Above .as lsa.key lsa.data.lsSeqnum)
    (hco : ∀ a ∈ core.areas, (core.area a).externalRouting = .nssa →
      core.Above (.area a) ⟨asNssaLsa,lsa.data.id,lsa.data.advRouter⟩ lsa.data.lsSeqnum) :
    let s := installFloodAs env ⟨core,net⟩ lsa
    Logs core (installFloodNssa env (s.core.lsas core.next) s.core.areas s).core := by
  intro s
  have hf : installDb lsa.data.type lsa.area = some .as := by
    rw [ty]
    rfl
  have hp := @Own.placed env ⟨core,net⟩ none lsa own hb net .as hf
  have cfg := @Own.config env ⟨core,net⟩ none lsa own net .as hf (by rw [ty]; decide)
  obtain ⟨data,self,hc⟩ := hp.same
  have logs : Logs core s.core := by
    apply @Own.logs env ⟨core,net⟩ none lsa own hb net
    intro db hf'
    cases some.inj (hf.symm.trans hf')
    exact ha
  have fields : (sealed lsa).data.id = lsa.data.id ∧
      (sealed lsa).data.advRouter = lsa.data.advRouter := by
    unfold sealed
    split <;> exact ⟨rfl,rfl⟩
  apply logs.trans
  apply installFloodNssa_logs
  · refine ⟨self.trans ?_,hc.trans ?_,?_⟩
    · rw [sealed_self,own.self]
    · rw [sealed_selfChecked,own.checked]
    rw [show (s.core.lsas core.next).data = (sealed lsa).data from data,sealed_lsSeqnum]
    exact own.plain
  · exact s.core.distinct
  · exact hp.bounded hb.alloc (Nat.lt_succ_self _)
  · intro a mem hn
    rw [show (s.core.lsas core.next).data = (sealed lsa).data from data,sealed_lsSeqnum,fields.1,
      fields.2]
    apply hp.above_other hb.unheld
    · rintro ⟨eq,-⟩
      cases eq
    rw [hb.alloc_above]
    apply hco a (cfg.areas ▸ mem)
    rw [← cfg.area]
    exact hn

theorem externalLsaRefresh_logs (hb : core.Bounded) (hp : (core.lsas r).data.lsSeqnum + 1 ≠ wrapped)
    (type5 : core.Above .as ⟨asExternalLsa,(core.lsas r).data.id,core.routerId⟩
      ((core.lsas r).data.lsSeqnum + 1))
    (type7 : ∀ a ∈ core.areas, (core.area a).externalRouting = .nssa →
      core.Above (.area a) ⟨asNssaLsa,(core.lsas r).data.id,core.routerId⟩
        ((core.lsas r).data.lsSeqnum + 1)) :
    Logs core (externalLsaRefresh env ⟨core,net⟩ r).core := by
  simp only [externalLsaRefresh]
  split
  · exact installFloodExternal_logs (ownLsa_own hp) rfl hb type5 type7
  · exact Logs.of_eq externalLsaFlush_replaced

theorem opaqueLsaRefresh_logs (hb : core.Bounded)
    (hc : ∀ key area content, env.opaqueRefresher (core.lsas r).key = .originate key area content →
      (core.lsas r).data.lsSeqnum + 1 ≠ wrapped ∧
        ∀ db, installDb key.type area = some db →
          core.Above db key ((core.lsas r).data.lsSeqnum + 1)) :
    Logs core (opaqueLsaRefresh env ⟨core,net⟩ r).core := by
  simp only [opaqueLsaRefresh]
  split
  · exact Logs.of_eq lsaFlush_replaced
  · exact Logs.of_eq rfl
  rename_i key area content refresh
  obtain ⟨hp,ha⟩ := hc key area content refresh
  have logs : Logs core (lsaInstall env ⟨core.alloc (ownLsa core key
      ((core.lsas r).data.lsSeqnum + 1) content area),net⟩ none core.next).1.core :=
    ownLsa_logs hb hp ha
  split
  · rename_i eq
    rw [eq] at logs
    exact logs
  rename_i eq
  rw [eq] at logs
  exact logs

theorem ifLookupByLocalAddr_own {id : UInt32} {oi : Nat} (hf : ownInterface core id = some oi)
    (hr : (core.interface oi).type ≠ .virtualLink) : ifLookupByLocalAddr core id = some oi := by
  obtain ⟨addr,hb,haf,split,he⟩ := find?_eq_some_iff_append.mp hf
  apply find?_eq_some_iff_append.mpr
  refine ⟨by simpa [hr] using addr,hb,haf,split,fun ho mem => ?_⟩
  have ha := he ho mem
  simp only [Bool.not_eq_true',decide_eq_false_iff_not] at ha ⊢
  exact fun hbo => ha hbo.2

theorem networkLsaRefresh_logs {oi own : Nat} (hb : core.Bounded)
    (hf : ifLookupByLocalAddr core (core.lsas own).data.id = some oi)
    (hp : (core.lsas own).data.lsSeqnum + 1 ≠ wrapped)
    (ha : core.Above (.area (core.interface oi).area)
      ⟨networkLsa,dr ⟨core,net⟩ oi,core.routerId⟩ ((core.lsas own).data.lsSeqnum + 1)) :
    Logs core (networkLsaRefresh env ⟨core,net⟩ own).core := by
  simp only [networkLsaRefresh,hf]
  cases (core.lsas own).area with
  | none => exact Logs.of_eq rfl
  | some area =>
    simp only
    split
    · rename_i hm
      have eq : dr ⟨core,lsRetransmitDeleteNbrArea core own net area⟩ oi = dr ⟨core,net⟩ oi :=
        Net.Alike.lsRetransmitDeleteNbrArea.dRouter _
      exact networkLsaNew_logs hb hp (eq ▸ ha) hm
    · exact Logs.of_eq rfl

end

section

/-- A received LSA is in its place, and all but its number is as before. -/
structure InPlace (s s' : State) (area r : Nat) : Prop where
  config : SameConfig s.core s'.core
  alike : Net.Alike s.net s'.net
  wf : Wf s'.core
  key : (s'.core.lsas r).key = (s.core.lsas r).key
  mask : (s'.core.lsas r).data.word 0 = (s.core.lsas r).data.word 0
  ids : ∀ o, (s'.core.lsas o).data.id = (s.core.lsas o).data.id
  number : (s.core.lsas r).data.lsSeqnum ≠ wrapped →
    (s'.core.lsas r).data.lsSeqnum = (s.core.lsas r).data.lsSeqnum
  above : (s.core.lsas r).data.lsSeqnum ≠ wrapped → ∀ db key seqnum,
    signed (s.core.lsas r).data.lsSeqnum < signed seqnum →
      s.core.Above db key seqnum → s'.core.Above db key seqnum
  slot : ∀ seqnum, signed (s.core.lsas r).data.lsSeqnum < signed seqnum →
    s.core.Above (lookupDb (s.core.lsas r).data.type area) (s.core.lsas r).key seqnum

namespace InPlace

variable {env : Env} {s s' : State} {area r : Nat}

section

variable (place : InPlace s s' area r)

include place

theorem own_slot (fresh : Fresh (s.core.lsas r).data.lsSeqnum)
    {db : Db} {key : LsaKey} (slot : lookupDb (s.core.lsas r).data.type area = db)
    (own : (s.core.lsas r).key = key) :
    s'.core.Above db key ((s.core.lsas r).data.lsSeqnum + 1) := by
  apply place.above fresh.2 _ _ _ fresh.lt
  rw [← slot,← own]
  exact place.slot _ fresh.lt

theorem router_logs (ty : (s.core.lsas r).data.type = routerLsa)
    (own : (s.core.lsas r).key = ⟨routerLsa,s.core.routerId,s.core.routerId⟩)
    (hc : (s.core.area area).routerLsaSelf.isSome ∧ Fresh (s.core.lsas r).data.lsSeqnum) :
    Logs s'.core (routerLsaUpdateArea env
      (catchUp s' (s'.core.area area).routerLsaSelf r) area).core := by
  obtain ⟨hk,hf⟩ := hc
  obtain ⟨o,own'⟩ := isSome_iff_exists.mp hk
  rw [← place.config.area] at own'
  have num := place.number hf.2
  have caught : Logs s'.core (setSeqnum s'.core o (s'.core.lsas r).data.lsSeqnum) := Logs.of_eq rfl
  have self : ((setSeqnum s'.core o (s'.core.lsas r).data.lsSeqnum).area area).routerLsaSelf =
      some o := own'
  simp only [own',catchUp,routerLsaUpdateArea,self]
  apply caught.trans
  have obj : (setSeqnum s'.core o (s'.core.lsas r).data.lsSeqnum).lsas o =
      {s'.core.lsas o with
        data := {(s'.core.lsas o).data with lsSeqnum := (s'.core.lsas r).data.lsSeqnum}} := by
    rw [setSeqnum,Core.setLsa_same]
  have hb : (setSeqnum s'.core o (s'.core.lsas r).data.lsSeqnum).Bounded := place.wf.bounded
  apply routerLsaRefresh_logs hb
  · rw [obj]
    exact (place.wf.router area o own').2
  · rw [obj,num]
    exact hf.succ_ne
  rw [obj,num]
  apply setSeqnum_above hf.lt
  apply place.own_slot hf
  · rw [ty]
    rfl
  rw [own]
  exact congrArg (fun id => LsaKey.mk routerLsa id id) place.config.routerId.symm

theorem congr {s'' : State} (core : s''.core = s'.core)
    (hal : Net.Alike s'.net s''.net) : InPlace s s'' area r := by
  obtain ⟨cfg,ha',wf,key,mask,ids,num,ha,slot⟩ := place
  rw [← core] at cfg wf key mask ids num ha
  exact ⟨cfg,ha'.trans hal,wf,key,mask,ids,num,ha,slot⟩

theorem dr_eq (oi : Nat) : dr s' oi = dr s oi := by
  rw [dr,dr,place.config.interface,place.alike.dRouter]

theorem isDrOf_eq (oi a : Nat) : isDrOf s' oi a = isDrOf s oi a := by
  simp [isDrOf,place.dr_eq,place.config.interface]

theorem ownInterface_eq (id : UInt32) : ownInterface s'.core id = ownInterface s.core id := by
  simp [ownInterface,place.config.oiflist,place.config.interface]

end

theorem designated {oi : Nat} (hf : ownInterface s.core (s.core.lsas r).data.id = some oi)
    (dr' : isDrOf s oi area) :
    (s.core.interface oi).area = area ∧ (s.core.interface oi).type = .broadcast ∧
      dr s oi = (s.core.lsas r).data.id := by
  obtain ⟨hh,broadcast,addr⟩ : (s.core.interface oi).area = area ∧
      (s.core.interface oi).type = .broadcast ∧ (s.core.interface oi).address = dr s oi := by
    simpa [isDrOf] using dr'
  have id : (s.core.interface oi).address = (s.core.lsas r).data.id := by
    simpa using find?_some hf
  exact ⟨hh,broadcast,addr ▸ id⟩

section

variable (place : InPlace s s' area r)

include place

theorem networkRefresh_logs {oi o : Nat} (ty : (s.core.lsas r).data.type = Lsa.networkLsa)
    (own : (s.core.lsas r).data.advRouter = s.core.routerId)
    (fresh : Fresh (s.core.lsas r).data.lsSeqnum)
    (hf : ownInterface s.core (s.core.lsas r).data.id = some oi)
    (dr' : isDrOf s oi area)
    (hr : (s.core.lsas o).data.id = (s.core.lsas r).data.id) :
    Logs s'.core (networkLsaRefresh env
      ⟨setSeqnum s'.core o (s'.core.lsas r).data.lsSeqnum,s'.net⟩ o).core := by
  obtain ⟨hh,broadcast,addr⟩ := designated hf dr'
  have num := place.number fresh.2
  have caught : Logs s'.core (setSeqnum s'.core o (s'.core.lsas r).data.lsSeqnum) := Logs.of_eq rfl
  have obj : (setSeqnum s'.core o (s'.core.lsas r).data.lsSeqnum).lsas o =
      {s'.core.lsas o with
        data := {(s'.core.lsas o).data with lsSeqnum := (s'.core.lsas r).data.lsSeqnum}} := by
    rw [setSeqnum,Core.setLsa_same]
  have hb : (setSeqnum s'.core o (s'.core.lsas r).data.lsSeqnum).Bounded := place.wf.bounded
  have ifc : (setSeqnum s'.core o (s'.core.lsas r).data.lsSeqnum).interface =
      s.core.interface := place.config.interface
  have dr_eq : dr ⟨setSeqnum s'.core o (s'.core.lsas r).data.lsSeqnum,s'.net⟩ oi =
      (s.core.lsas r).data.id := (place.dr_eq oi).trans addr
  apply caught.trans
  apply networkLsaRefresh_logs hb
  · rw [obj]
    apply ifLookupByLocalAddr_own
    · change ownInterface s'.core (s'.core.lsas o).data.id = some oi
      rw [place.ids,hr,place.ownInterface_eq]
      exact hf
    rw [ifc,broadcast]
    decide
  · rw [obj,num]
    exact fresh.succ_ne
  · rw [obj,ifc,hh,dr_eq,num]
    apply setSeqnum_above fresh.lt
    apply place.own_slot fresh
    · rw [ty]
      rfl
    rw [Instance.key,Lsa.key,ty,own]
    exact congrArg (LsaKey.mk Lsa.networkLsa _) place.config.routerId.symm

theorem network_logs {oi : Nat} (ty : (s.core.lsas r).data.type = networkLsa)
    (own : (s.core.interface oi).networkLsaSelf.isSome →
      (s.core.lsas r).data.advRouter = s.core.routerId)
    (hfo : ownInterface s.core (s.core.lsas r).data.id = some oi)
    (dr' : isDrOf s oi area) (hc : NetworkClear s oi r) :
    Logs s'.core (networkLsaUpdate env
      (catchUp s' (s'.core.interface oi).networkLsaSelf r) oi).core := by
  obtain ⟨hf,hc⟩ := hc
  rw [place.config.interface]
  cases hr : (s.core.interface oi).networkLsaSelf with
  | some o =>
    simp only [hr] at hc
    have self : ((setSeqnum s'.core o (s'.core.lsas r).data.lsSeqnum).interface
        oi).networkLsaSelf = some o := by
      rw [← hr,← place.config.interface]
      rfl
    simp only [catchUp,networkLsaUpdate,self]
    exact place.networkRefresh_logs ty (own (by rw [hr]; rfl)) hf hfo dr' hc
  | none =>
    simp only [hr] at hc
    obtain ⟨hh,-,addr⟩ := designated hfo dr'
    simp only [catchUp,networkLsaUpdate,place.config.interface,hr]
    split
    · rename_i new hm
      cases hc with
      | inl ha => simp [networkLsaNew,place.config.interface,ha] at hm
      | inr hc =>
        obtain ⟨hp,higher,hab⟩ := hc
        apply networkLsaNew_logs place.wf.bounded hp _ hm
        rw [place.config.interface,place.config.routerId,
          show dr ⟨s'.core,s'.net⟩ oi = _ from (place.dr_eq oi).trans addr]
        exact place.above hf.2 _ _ _ higher hab
    · exact Logs.of_eq rfl

theorem opaque_logs (hc : OpaqueClear env s r) : Logs s'.core (opaqueLsaRefresh env s' r).core := by
  apply opaqueLsaRefresh_logs place.wf.bounded
  intro key a content refresh
  rw [place.key] at refresh
  obtain ⟨hf,ha⟩ := hc key a content refresh
  rw [place.number hf.2]
  refine ⟨hf.succ_ne,fun db hfo => ?_⟩
  exact place.above hf.2 _ _ _ hf.lt (ha db hfo)

theorem external_logs (hc : ExternalClear env s r)
    (info : env.externalInfoCheck (s'.core.lsas r).key ((s'.core.lsas r).data.word 0)) :
    Logs s'.core (externalLsaRefresh env s' r).core := by
  rw [place.key,place.mask] at info
  by_cases redistributed : env.redistributeCheck (s.core.lsas r).key
      ((s.core.lsas r).data.word 0)
  · obtain ⟨hf,type5,type7⟩ := hc info redistributed
    apply externalLsaRefresh_logs place.wf.bounded
    · rw [place.number hf.2]
      exact hf.succ_ne
    · rw [place.number hf.2,place.ids,place.config.routerId]
      exact place.above hf.2 _ _ _ hf.lt type5
    intro a mem hn
    rw [place.number hf.2,place.ids,place.config.routerId]
    apply place.above hf.2 _ _ _ hf.lt
    rw [place.config.areas] at mem
    rw [place.config.area] at hn
    exact type7 a mem hn
  · have key : (s'.core.lsas r).data.key = (s.core.lsas r).key := place.key
    simp only [externalLsaRefresh,key,place.mask,redistributed]
    exact Logs.of_eq externalLsaFlush_replaced

/-- What an own LSA makes the router originate is more recent than what is there. -/
theorem process_logs (hc : Clear env s area r) (rtr : (s.core.lsas r).data.type = routerLsa →
      (s.core.lsas r).key = ⟨routerLsa,s.core.routerId,s.core.routerId⟩)
    (nw : (s.core.lsas r).data.type = networkLsa → ∀ oi,
      ownInterface s.core (s.core.lsas r).data.id = some oi →
      (s.core.interface oi).networkLsaSelf.isSome →
      (s.core.lsas r).data.advRouter = s.core.routerId) :
    Logs s'.core (processSelfOriginatedLsa env s' r area).core := by
  have ty : (s'.core.lsas r).data.type = (s.core.lsas r).data.type := congrArg LsaKey.type place.key
  simp only [processSelfOriginatedLsa,ty,place.ids r,place.ownInterface_eq]
  split
  · rename_i kind
    exact place.router_logs kind (rtr kind) (hc.router kind)
  split
  · rename_i kind
    split
    · exact Logs.of_eq rfl
    rename_i oi hf
    split
    · exact Logs.of_eq rfl
    rename_i hd
    rw [place.isDrOf_eq,not_not] at hd
    split
    · rename_i link
      exact place.opaque_logs (hc.link link oi hf hd)
    rename_i ho
    have kind := kind.resolve_right ho
    exact place.network_logs kind (nw kind oi hf) hf hd (hc.network kind oi hf hd)
  split
  · exact Logs.of_eq rfl
  split
  · rename_i kind
    split
    · rename_i info
      exact place.external_logs (hc.external kind) info
    · exact Logs.of_eq lsaFlushAs_replaced
  split
  · rename_i kind
    exact place.opaque_logs (hc.wide kind)
  · exact Logs.of_eq rfl

end

end InPlace

end

end Frr.Ospf
