import Frr.Moves

/-! Every link state procedure is a sequence of moves. -/
namespace Frr.Ospf.Moves

open List

section

variable {p : Policy} {core : Core} {net : Net} {inbr : Option Nat} {n r : Nat}

theorem foldl {α : Type} {f : Net → α → Net}
    (step : ∀ net a, Moves p ⟨core,net⟩ ⟨core,f net a⟩) (items : List α) (net : Net) :
    Moves p ⟨core,net⟩ ⟨core,items.foldl f net⟩ := by
  induction items generalizing net with
  | nil => exact .refl
  | cons a items ih => exact (step net a).trans (ih (f net a))

theorem lsRequestDelete : Moves p ⟨core,net⟩ ⟨core,lsRequestDelete core net n r⟩ := .single .lists

theorem checkNbrLoading : Moves p ⟨core,net⟩ ⟨core,checkNbrLoading net n⟩ := by
  simp only [Ospf.checkNbrLoading]
  split
  · split
    · exact emit
    split
    · exact emit
    · exact .refl
  · exact .refl

theorem lsRetransmitDeleteNbr :
    Moves p ⟨core,net⟩ ⟨core,lsRetransmitDeleteNbr core r net n⟩ := by
  simp only [Ospf.lsRetransmitDeleteNbr]
  split
  · exact .refl
  rename_i lsr hh
  split
  · exact .single (.delete hh)
  · exact .refl

theorem lsRetransmitDeleteNbrIf {oi : Nat} :
    Moves p ⟨core,net⟩ ⟨core,lsRetransmitDeleteNbrIf core r net oi⟩ := by
  simp only [Ospf.lsRetransmitDeleteNbrIf]
  split
  · exact foldl (fun _ _ => lsRetransmitDeleteNbr) _ net
  · exact .refl

theorem lsRetransmitDeleteNbrArea {area : Nat} :
    Moves p ⟨core,net⟩ ⟨core,lsRetransmitDeleteNbrArea core r net area⟩ :=
  foldl (fun _ _ => lsRetransmitDeleteNbrIf) _ net

theorem lsRetransmitDeleteNbrAs :
    Moves p ⟨core,net⟩ ⟨core,lsRetransmitDeleteNbrAs core r net⟩ :=
  foldl (fun _ _ => lsRetransmitDeleteNbrIf) _ net

end

section

variable {p : Policy} {core : Core} {net : Net} {inbr : Option Nat} {n r : Nat}

theorem examineRequest : Moves p ⟨core,net⟩ ⟨core,(examineRequest core r net n).1⟩ := by
  simp only [Ospf.examineRequest]
  split
  · split
    · exact .refl
    split
    · exact .refl
    · exact lsRequestDelete.trans checkNbrLoading
  · exact .refl

theorem floodToNeighbor (lt : r < core.next) (ha : p.adds r) {acc : Net × Bool}
    (hl : ∃ oi, n ∈ acc.1.nbrs oi) :
    Moves p ⟨core,acc.1⟩ ⟨core,(floodToNeighbor core inbr r acc n).1⟩ := by
  have he := @examineRequest p core acc.1 n r
  simp only [Ospf.floodToNeighbor]
  split
  · split
    · rename_i colour
      exact .single (.add lt ha (.inr ⟨hl,.inr colour⟩))
    · exact .refl
  rename_i hr
  split
  · exact he
  split
  · exact he
  split
  · exact he
  apply he.tail
  refine .add lt ha (.inr ⟨?_,.inl ?_⟩)
  · rw [he.alike.nbrs]
    exact hl
  rw [he.alike.state]
  exact not_lt.mp hr

theorem floodNeighbors (lt : r < core.next) (ha : p.adds r) {items : List Nat} {acc : Net × Bool}
    (hl : ∀ n ∈ items, ∃ oi, n ∈ acc.1.nbrs oi) :
    Moves p ⟨core,acc.1⟩ ⟨core,(items.foldl (Ospf.floodToNeighbor core inbr r) acc).1⟩ := by
  induction items generalizing acc with
  | nil => exact .refl
  | cons n items ih =>
    have fst := @floodToNeighbor p core inbr n r lt ha acc (hl n (.head _))
    apply fst.trans
    apply ih
    intro ho mem
    rw [fst.alike.nbrs]
    exact hl ho (.tail _ mem)

theorem sendUpdates {oi : Nat} : Moves p ⟨core,net⟩ ⟨core,sendUpdates core r net oi⟩ := by
  simp only [Ospf.sendUpdates]
  split
  · exact foldl (fun _ _ => emit) _ net
  · exact emit

theorem floodThroughInterface (lt : r < core.next) (ha : p.adds r) {oi : Nat} :
    Moves p ⟨core,net⟩ ⟨core,(floodThroughInterface core inbr r net oi).1⟩ := by
  simp only [Ospf.floodThroughInterface]
  split
  · have hf := @floodNeighbors p core inbr r lt ha (net.nbrs oi) (net,false) fun n mem => ⟨oi,mem⟩
    split
    · exact hf
    split
    · exact hf
    · exact hf.trans sendUpdates
  · exact .refl

theorem floodInterfaces (lt : r < core.next) (ha : p.adds r) (ifs : List Nat)
    (acc : Net × Bool) :
    Moves p ⟨core,acc.1⟩ ⟨core,(ifs.foldl (fun acc oi =>
        let (net,ack) := Ospf.floodThroughInterface core inbr r acc.1 oi
        (net,acc.2 || ack)) acc).1⟩ := by
  induction ifs generalizing acc with
  | nil => exact .refl
  | cons oi ifs ih =>
    have fst := @floodThroughInterface p core acc.1 inbr r lt ha oi
    have rest := ih ((Ospf.floodThroughInterface core inbr r acc.1 oi).1,
      acc.2 || (Ospf.floodThroughInterface core inbr r acc.1 oi).2)
    exact fst.trans rest

theorem floodThroughArea (lt : r < core.next) (ha : p.adds r) {area : Nat} :
    Moves p ⟨core,net⟩ ⟨core,(floodThroughArea core inbr r area net).1⟩ :=
  floodInterfaces lt ha _ (net,false)

theorem floodThroughAs (lt : r < core.next) (ha : p.adds r) :
    Moves p ⟨core,net⟩ ⟨core,(floodThroughAs core inbr r net).1⟩ :=
  floodInterfaces lt ha _ (net,false)

theorem floodThrough (lt : r < core.next) (ha : p.adds r) :
    Moves p ⟨core,net⟩ ⟨core,(floodThrough core inbr r net).1⟩ := by
  simp only [Ospf.floodThrough]
  split
  · exact floodThroughAs lt ha
  split
  · exact floodThroughArea lt ha
  · exact .refl

theorem floodDelayedLsaAck : Moves p ⟨core,net⟩ ⟨core,floodDelayedLsaAck core r net n⟩ := by
  simp only [Ospf.floodDelayedLsaAck]
  split
  · exact .refl
  · exact emit

end

section

variable {p : Policy} {env : Env} {s : State} {r : Nat} {oi : Option Nat}

theorem lsaFlushArea (lt : r < s.core.next) (ha : p.adds r) {area : Nat} :
    Moves p s (lsaFlushArea s r area) := by
  have old : Moves p s ⟨agedOut s r,s.net⟩ := core Kept.agedOut
  have lt' : r < (agedOut s r).next := lt
  exact (old.trans (floodThroughArea lt' ha)).trans (core (Kept.lsaMaxage lt'))

theorem lsaFlushAs (lt : r < s.core.next) (ha : p.adds r) : Moves p s (lsaFlushAs s r) := by
  have old : Moves p s ⟨agedOut s r,s.net⟩ := core Kept.agedOut
  have lt' : r < (agedOut s r).next := lt
  exact (old.trans (floodThroughAs lt' ha)).trans (core (Kept.lsaMaxage lt'))

theorem lsaFlush (lt : r < s.core.next) (ha : p.adds r) : Moves p s (lsaFlush s r) := by
  simp only [Ospf.lsaFlush]
  split
  · exact lsaFlushAs lt ha
  split
  · split
    · exact lsaFlushArea lt ha
    · exact .refl
  · exact core (Kept.setLsa rfl rfl fun _ => Kept.maxAge_isMaxAge _ _ rfl)

theorem discardSweep : Moves p s ⟨s.core,(discardFromDb s r).net⟩ := by
  simp only [Ospf.discardFromDb]
  split
  · exact lsRetransmitDeleteNbrAs
  split
  · exact lsRetransmitDeleteNbrArea
  · exact .refl

theorem discardFromDb (hs : p.stores r) : Moves p s (discardFromDb s r) :=
  discardSweep.trans (core (Kept.lsaMaxageDelete hs))

theorem store {db : Db} (lt : r < s.core.next) (hs : p.stores r)
    (hh : installDb (s.core.lsas r).data.type (s.core.lsas r).area = some db) :
    Moves p s (store s db r) := by
  have key : (sealed (s.core.lsas r)).key = (s.core.lsas r).key := sealed_key _
  have obj : Kept p s.core (s.core.setLsa r (sealed (s.core.lsas r))) := by
    apply Kept.setLsa key (sealed_area _)
    rw [Kept.sealed_isMaxAge]
    exact id
  have hh' : installDb ((s.core.setLsa r (sealed (s.core.lsas r))).lsas r).key.type
      ((s.core.setLsa r (sealed (s.core.lsas r))).lsas r).area = some db := by
    rw [Core.setLsa_same,key,sealed_area]
    exact hh
  -- What was stored is swept from the retransmission lists; the rest changes at once.
  cases hf : s.core.lookup db (s.core.lsas r).key with
  | none =>
    have hi := @Kept.insert p (s.core.setLsa r (sealed (s.core.lsas r))) db r
      s.core.replaced s.core.maxageLsa lt hs hh' (fun _ => id) fun o mem hg =>
        absurd mem hg
    rw [Core.setLsa_same,key] at hi
    simp only [Ospf.store,hf]
    exact core (obj.trans hi)
  | some old =>
    have hi := @Kept.insert p (s.core.setLsa r (sealed (s.core.lsas r))) db r
      (⟨db,(s.core.lsas r).key,s.core.lsas old,sealed (s.core.lsas r),s.core.now⟩ ::
        s.core.replaced)
      (s.core.maxageLsa.filter (· ≠ old)) lt hs hh' (fun _ => mem_of_mem_filter)
      fun o mem hg => by
        have eq : o = old := by
          by_contra ne
          exact hg (mem_filter.mpr ⟨mem,decide_eq_true ne⟩)
        rw [Core.setLsa_same,key,eq]
        exact hf
    rw [Core.setLsa_same,key] at hi
    have hsw := @discardSweep p s old
    simp only [Ospf.store,hf]
    exact hsw.trans (core (obj.trans hi))

theorem finishInstall (lt : r < s.core.next) : Moves p s (finishInstall s r) := by
  simp only [Ospf.finishInstall]
  split
  · exact core (Kept.lsaMaxage lt)
  · exact .refl

theorem unwrapped_home {core : Core} :
    ((unwrapped core r).lsas r).data.type = (core.lsas r).data.type ∧
      ((unwrapped core r).lsas r).area = (core.lsas r).area := by
  simp only [unwrapped]
  split
  · rw [Core.setLsa_same]
    exact ⟨rfl,rfl⟩
  · exact ⟨rfl,rfl⟩

theorem storeUnwrapped {db : Db} (lt : r < s.core.next) (hs : p.stores r)
    (hh : installDb (s.core.lsas r).data.type (s.core.lsas r).area = some db) :
    Moves p s (Ospf.store ⟨unwrapped s.core r,s.net⟩ db r) := by
  have start : Moves p s ⟨unwrapped s.core r,s.net⟩ := core Kept.unwrapped
  apply start.trans
  apply store (lt_of_lt_of_le lt start.kept.next) hs
  rw [unwrapped_home.1,unwrapped_home.2]
  exact hh

theorem installExternal (lt : r < s.core.next) (hst : p.stores r)
    (he : (s.core.lsas r).data.type = Lsa.asExternalLsa) :
    Moves p s (installExternal s r) := by
  have hs := @storeUnwrapped p s r .as lt hst (by simp [installDb,he])
  exact hs.trans (finishInstall (lt_of_lt_of_le lt hs.kept.next))

section

variable (fit : Fit p s.core)

include fit

theorem translated {lsa : Lsa} : Moves p s (let new := s.core.next
      let s := Ospf.installExternal ⟨s.core.alloc (lsaTranslatedNssaNew env s.core lsa),s.net⟩ new
      {s with net := (Ospf.floodThroughAs s.core none new s.net).1}) := by
  have hm : Moves p s ⟨s.core.alloc (lsaTranslatedNssaNew env s.core lsa),s.net⟩ :=
    core (Kept.alloc (by simp [lsaTranslatedNssaNew,ownLsa,Instance.new,Instance.key,Lsa.key,
      Lsa.asExternalLsa,linkColourLsa]))
  have lt : s.core.next < (s.core.alloc (lsaTranslatedNssaNew env s.core lsa)).next :=
    Nat.lt_succ_self _
  have ha := fit.loose _ (.inl (Nat.le_refl _))
  have hs := @installExternal p ⟨s.core.alloc (lsaTranslatedNssaNew env s.core lsa),s.net⟩ _ lt
    (fit.fresh _ (Nat.le_refl _)) (by rw [Core.alloc_new]; rfl)
  exact (hm.trans hs).trans (floodThroughAs (Nat.lt_of_lt_of_le lt hs.kept.next) ha)

theorem translatedNssaRefresh : Moves p s (translatedNssaRefresh env s r) := by
  simp only [Ospf.translatedNssaRefresh]
  split
  · exact .refl
  split
  · rename_i type5 hf own
    have hs := @lsRetransmitDeleteNbrAs p s.core s.net type5
    exact hs.trans (translated (fit.moves hs))
  · exact .refl

theorem translatedNssaOriginate : Moves p s (translatedNssaOriginate env s r) := translated fit

theorem installType (lt : r < s.core.next) : Moves p s (installType env s oi r).1 := by
  simp only [Ospf.installType]
  split
  · exact core Kept.routerLsaInstall
  split
  · cases oi with
    | none => exact .refl
    | some oi => exact core (Kept.networkLsaInstall lt)
  split
  · split
    · exact core (Kept.setLsa rfl rfl id)
    · exact .refl
  split
  · exact (translatedNssaRefresh fit).trans emit
  · exact .refl

theorem lsaInstall (lt : r < s.core.next) (hst : p.stores r) :
    Moves p s (lsaInstall env s oi r).1 := by
  simp only [Ospf.lsaInstall]
  split
  · exact .refl
  rename_i db hf
  split
  · exact .refl
  have hs := @storeUnwrapped p s r db lt hst hf
  have ht : Moves p s _ := hs.trans (@installType p env _ r oi (fit.moves hs)
    (lt_of_lt_of_le lt hs.kept.next))
  split
  · exact ht.trans (finishInstall (lt_of_lt_of_le lt ht.kept.next))
  · exact ht

theorem installed {lsa : Instance} (hp : lsa.key.type = linkColourLsa → p.coloured) :
    Moves p s (Ospf.lsaInstall env ⟨s.core.alloc lsa,s.net⟩ oi s.core.next).1 ∧
      s.core.next < (Ospf.lsaInstall env ⟨s.core.alloc lsa,s.net⟩ oi s.core.next).1.core.next := by
  have hm : Moves p s ⟨s.core.alloc lsa,s.net⟩ := core (Kept.alloc hp)
  have lt : s.core.next < (s.core.alloc lsa).next := Nat.lt_succ_self _
  have hs := @lsaInstall p env ⟨s.core.alloc lsa,s.net⟩ s.core.next oi (fit.moves hm) lt
    (fit.fresh _ (Nat.le_refl _))
  exact ⟨hm.trans hs,Nat.lt_of_lt_of_le lt hs.kept.next⟩

theorem installFloodArea {lsa : Instance} {area : Nat}
    (hp : lsa.key.type = linkColourLsa → p.coloured) :
    Moves p s (installFloodArea env s oi lsa area) := by
  obtain ⟨hs,lt⟩ := @installed p env s oi fit lsa hp
  exact hs.trans (floodThroughArea lt (fit.loose _ (.inl (le_rfl))))

theorem installFloodAs {lsa : Instance} (hp : lsa.key.type = linkColourLsa → p.coloured) :
    Moves p s (installFloodAs env s lsa) := by
  obtain ⟨hs,lt⟩ := @installed p env s none fit lsa hp
  exact hs.trans (floodThroughAs lt (fit.loose _ (.inl (le_rfl))))

end

end

section

variable {p : Policy} {env : Env} {s : State} {r : Nat} {oi : Option Nat}

theorem standard {lsa : Instance} {ty : UInt8} (eq : lsa.data.type = ty)
    (ne : ty ≠ linkColourLsa) : lsa.key.type = linkColourLsa → p.coloured :=
  fun colour => absurd (eq.symm.trans colour) ne

theorem routerLsaOriginate (fit : Fit p s.core) {area : Nat} :
    Moves p s (routerLsaOriginate env s area) := by
  simp only [Ospf.routerLsaOriginate]
  split
  · exact .refl
  · exact installFloodArea fit (@standard p _ Lsa.routerLsa rfl (by decide))

theorem routerLsaRefresh (fit : Fit p s.core) : Moves p s (routerLsaRefresh env s r) := by
  simp only [Ospf.routerLsaRefresh]
  split
  · rename_i area owner
    have hs : Moves p s ⟨s.core,_⟩ := @lsRetransmitDeleteNbrArea p s.core s.net r area
    exact hs.trans (installFloodArea (fit.moves hs) (@standard p _ Lsa.routerLsa rfl (by decide)))
  · exact .refl

theorem routerLsaUpdateArea (fit : Fit p s.core) {area : Nat} :
    Moves p s (routerLsaUpdateArea env s area) := by
  simp only [Ospf.routerLsaUpdateArea]
  split
  · exact routerLsaRefresh fit
  · exact routerLsaOriginate fit

theorem installFloodNew (fit : Fit p s.core) {i : Nat} {seqnum : UInt32} {t : State}
    {new : Instance} {area : Nat} (hm : networkLsaNew env s i seqnum = some (t,new)) :
    Moves p s (Ospf.installFloodArea env t (some i) new area) := by
  simp only [networkLsaNew] at hm
  split at hm
  · cases hm
  cases hm
  have hr : Moves p s ⟨s.core.setInterface i
      {s.core.interface i with networkLsaSeqnum := some seqnum},s.net⟩ := by
    apply core
    apply Kept.setInterface
    · exact ⟨rfl,rfl,rfl,rfl⟩
    · exact fun start r own => start.network i r own
  exact hr.trans (installFloodArea (fit.moves hr) (@standard p _ Lsa.networkLsa rfl (by decide)))

theorem networkLsaRefresh (fit : Fit p s.core) : Moves p s (networkLsaRefresh env s r) := by
  simp only [Ospf.networkLsaRefresh]
  split
  · rename_i i area local_ owner
    have hs : Moves p s ⟨s.core,_⟩ := @lsRetransmitDeleteNbrArea p s.core s.net r area
    split
    · rename_i hm
      exact hs.trans (installFloodNew (fit.moves hs) hm)
    · exact hs
  · exact .refl

theorem networkLsaUpdate (fit : Fit p s.core) {i : Nat} : Moves p s (networkLsaUpdate env s i) := by
  simp only [Ospf.networkLsaUpdate]
  split
  · exact networkLsaRefresh fit
  split
  · rename_i hm
    exact installFloodNew fit hm
  · exact .refl

theorem states {α : Type} {f : State → α → State}
    (step : ∀ s a, Fit p s.core → Moves p s (f s a)) (items : List α) {s : State}
    (fit : Fit p s.core) : Moves p s (items.foldl f s) := by
  induction items generalizing s with
  | nil => exact .refl
  | cons a items ih => exact (step s a fit).trans (ih (fit.moves (step s a fit)))

theorem nssaLsaFlush (fit : Fit p s.core) {addr : UInt32} : Moves p s (nssaLsaFlush s addr) := by
  apply states _ _ fit
  intro s a fit
  simp only
  split
  · split
    · exact .refl
    rename_i r hf
    have hs : Moves p s ⟨s.core,_⟩ := @lsRetransmitDeleteNbrArea p s.core s.net r a
    split
    · exact hs
    rename_i hy
    have lt := (fit.refers.stored _ _ _ hf).1
    have ha := fit.loose r (.inr (Bool.eq_false_iff.mpr hy))
    exact hs.trans (@lsaFlushArea p
      ⟨s.core,Ospf.lsRetransmitDeleteNbrArea s.core r s.net a⟩ r lt ha a)
  · exact .refl

theorem externalInfoFindLsa_stored {core : Core} {addr mask : UInt32}
    (hf : externalInfoFindLsa core addr mask = some r) :
    ∃ db key, core.lookup db key = some r := by
  simp only [externalInfoFindLsa] at hf
  split at hf
  · cases hf
  rename_i hh lookup
  split at hf
  · cases hf
    exact ⟨_,_,lookup⟩
  · exact ⟨_,_,hf⟩

theorem externalLsaFlush (fit : Fit p s.core) {addr mask : UInt32} :
    Moves p s (externalLsaFlush s addr mask) := by
  simp only [Ospf.externalLsaFlush]
  split
  · exact .refl
  rename_i r hf
  obtain ⟨db,key,hst⟩ := externalInfoFindLsa_stored hf
  have lt := (fit.refers.stored db key r hst).1
  have hn : Moves p s (if (s.core.lsas r).self ∧ ¬ (s.core.lsas r).localXlt then
      Ospf.nssaLsaFlush s addr else s) := by
    split
    · exact nssaLsaFlush fit
    · exact .refl
  generalize (if (s.core.lsas r).self ∧ ¬ (s.core.lsas r).localXlt then
    Ospf.nssaLsaFlush s addr else s) = t at hn
  have hs : Moves p s ⟨t.core,_⟩ := hn.trans (@lsRetransmitDeleteNbrAs p t.core t.net r)
  split
  · exact hs
  rename_i hy
  apply hs.trans
  apply lsaFlushAs (lt_of_lt_of_le lt hs.kept.next)
  exact (fit.moves hs).loose r (.inr (Bool.eq_false_iff.mpr hy))

theorem nssaCopy_type {core : Core} {lsa copy : Instance} {area : Nat}
    (hm : nssaCopy core lsa area = some copy) : copy.data.type = Lsa.asNssaLsa := by
  simp only [nssaCopy] at hm
  split at hm
  · cases hm
    rfl
  generalize (if lsa.data.word 2 = 0 then getNssaIp core area else lsa.data.word 2) = address
    at hm
  split at hm
  · cases hm
  cases hm
  rfl

theorem installFloodNssa {lsa : Instance} (areas : List Nat) {s : State} (fit : Fit p s.core) :
    Moves p s (installFloodNssa env lsa areas s) := by
  induction areas generalizing s with
  | nil => exact .refl
  | cons a areas ih =>
    simp only [Ospf.installFloodNssa]
    split
    · split
      · exact .refl
      rename_i copy hm
      have hi : Moves p s (Ospf.installFloodAs env s copy) :=
        installFloodAs fit (standard (nssaCopy_type hm) (by decide))
      exact hi.trans (ih (fit.moves hi))
    · exact ih fit

theorem externalLsaRefresh (fit : Fit p s.core) : Moves p s (externalLsaRefresh env s r) := by
  simp only [Ospf.externalLsaRefresh]
  split
  · have hs : Moves p s ⟨s.core,_⟩ := @lsRetransmitDeleteNbrAs p s.core s.net r
    have he := hs.trans (@installFloodAs p env ⟨s.core,_⟩ (fit.moves hs)
      (ownLsa s.core ⟨Lsa.asExternalLsa,(s.core.lsas r).data.id,s.core.routerId⟩
        ((s.core.lsas r).data.lsSeqnum + 1) (env.content s.core
          ⟨Lsa.asExternalLsa,(s.core.lsas r).data.id,s.core.routerId⟩) none)
      (@standard p _ Lsa.asExternalLsa rfl (by decide)))
    exact he.trans (installFloodNssa _ (fit.moves he))
  · exact externalLsaFlush fit

theorem opaqueLsaRefresh (fit : Fit p s.core) (plain : env.Plain p.coloured)
    (lt : r < s.core.next) (ha : p.adds r) : Moves p s (opaqueLsaRefresh env s r) := by
  simp only [Ospf.opaqueLsaRefresh]
  split
  · exact lsaFlush lt ha
  · exact .refl
  rename_i key area content refresh
  obtain ⟨hs,lt'⟩ := @installed p env s none fit
    (ownLsa s.core key ((s.core.lsas r).data.lsSeqnum + 1) content area)
    fun colour => plain _ key area content refresh colour
  split
  · rename_i eq
    rw [eq] at hs
    exact hs
  rename_i eq
  rw [eq] at hs lt'
  exact hs.trans (floodThrough lt' (fit.loose _ (.inl (le_rfl))))

theorem opaqueLsaRefreshSchedule {core : Core} {net : Net} :
    Moves p ⟨core,net⟩ ⟨core,opaqueLsaRefreshSchedule env core r net⟩ := by
  simp only [Ospf.opaqueLsaRefreshSchedule]
  split
  · exact .refl
  split
  · exact lsRetransmitDeleteNbrAs.trans emit
  split
  · exact lsRetransmitDeleteNbrArea.trans emit
  · exact emit

end

section

variable {p : Policy} {env : Env} {s : State} {n r : Nat}

theorem catchUp {own : Option Nat} : Moves p s (catchUp s own r) := by
  cases own with
  | none => exact .refl
  | some o => exact core Kept.setSeqnum

theorem processSelfOriginatedLsa (fit : Fit p s.core) (plain : env.Plain p.coloured)
    (lt : r < s.core.next) (ha : p.adds r) {area : Nat} :
    Moves p s (processSelfOriginatedLsa env s r area) := by
  simp only [Ospf.processSelfOriginatedLsa]
  split
  · have caught := @catchUp p s r (s.core.area area).routerLsaSelf
    exact caught.trans (routerLsaUpdateArea (fit.moves caught))
  split
  · split
    · exact .refl
    split
    · exact emit
    split
    · exact opaqueLsaRefresh fit plain lt ha
    rename_i oi hf hd ty
    have caught := @catchUp p s r (s.core.interface oi).networkLsaSelf
    exact caught.trans (networkLsaUpdate (fit.moves caught))
  split
  · exact emit
  split
  · split
    · exact externalLsaRefresh fit
    · exact lsaFlushAs lt ha
  split
  · exact opaqueLsaRefresh fit plain lt ha
  · exact .refl

theorem sweepCurrent {core : Core} {net : Net} {cur : Option Nat} :
    Moves p ⟨core,net⟩ ⟨core,sweepCurrent core net n cur⟩ := by
  cases cur with
  | none => exact .refl
  | some c =>
    simp only [Ospf.sweepCurrent]
    split
    · exact lsRetransmitDeleteNbrAs
    · exact lsRetransmitDeleteNbrArea

theorem lsaInstall_result {oi : Option Nat} (fit : Fit p s.core) (lt : r < s.core.next)
    (hs : p.stores r) {t : State} {new : Nat} (eq : Ospf.lsaInstall env s oi r = (t,some new)) :
    new < t.core.next ∧ (new = r ∨ ∃ db key, s.core.lookup db key = some new) := by
  have hk := (@lsaInstall p env s r oi fit lt hs).kept.next
  rw [eq] at hk
  simp only [Ospf.lsaInstall] at eq
  split at eq
  · cases eq
  rename_i db hf
  split at eq
  · obtain ⟨rfl,lookup⟩ := Prod.mk.inj eq
    exact ⟨(fit.refers.stored _ _ _ lookup).1,.inr ⟨_,_,lookup⟩⟩
  split at eq
  · obtain ⟨-,he⟩ := Prod.mk.inj eq
    cases he
    exact ⟨lt_of_lt_of_le lt hk,.inl rfl⟩
  · cases eq

theorem flood (free : p.Free) (fit : Fit p s.core) (plain : env.Plain p.coloured)
    (lt : r < s.core.next) {cur : Option Nat} : Moves p s (flood env s n cur r) := by
  simp only [Ospf.flood]
  split
  · exact .refl
  generalize (s.net.neighbor n).oi = oi
  have hf : Moves p s ⟨s.core,_⟩ := @floodThrough p s.core s.net (some n) r lt (free.adds r)
  have hsw : Moves p s ⟨s.core,_⟩ := hf.trans (@sweepCurrent p n s.core _ cur)
  have hm : Moves p s ⟨Ospf.markReceived s.core r,_⟩ := hsw.trans (core Kept.markReceived)
  have lt' : r < (Ospf.markReceived s.core r).next := lt
  have hs : Moves p s _ := hm.trans (@lsaInstall p env _ r (some oi) (fit.moves hm) lt'
    (free.stores r))
  split
  · rename_i eq
    rw [eq] at hs
    exact hs
  rename_i t new eq
  rw [eq] at hs
  have lt'' := (lsaInstall_result (fit.moves hm) lt' (free.stores r) eq).1
  have acked : Moves p s (if (Ospf.floodThrough s.core (some n) r s.net).2 = true then
      {t with net := Ospf.floodDelayedLsaAck t.core new t.net n} else t) := by
    split
    · exact hs.trans floodDelayedLsaAck
    · exact hs
  have he : (if (Ospf.floodThrough s.core (some n) r s.net).2 = true then
      {t with net := Ospf.floodDelayedLsaAck t.core new t.net n} else t).core = t.core := by
    split <;> rfl
  generalize (if (Ospf.floodThrough s.core (some n) r s.net).2 = true then
      {t with net := Ospf.floodDelayedLsaAck t.core new t.net n} else t) = u at acked he
  split
  · apply acked.trans
    apply processSelfOriginatedLsa (fit.moves acked) plain _ (free.adds new)
    rw [he]
    exact lt''
  · exact acked

theorem notMoreRecent {cur : Nat} {ret : Int} : Moves p s (notMoreRecent s n cur r ret).1 := by
  simp only [Ospf.notMoreRecent]
  split
  · exact emit
  split
  · split
    · rename_i lsr hh
      have hd : Moves p s ⟨s.core,_⟩ := .single (.delete hh)
      split
      · exact hd.trans emit
      · exact hd
    · exact emit
  split
  · exact .refl
  split
  · exact emit
  · exact .refl

theorem compareWithCopy (free : p.Free) (fit : Fit p s.core) (plain : env.Plain p.coloured)
    (lt : r < s.core.next) {cur : Option Nat} :
    Moves p s (compareWithCopy env s n cur r).1 := by
  simp only [Ospf.compareWithCopy]
  split
  · change Moves p s (Ospf.flood env s n none r)
    exact flood free fit plain lt
  split
  · split
    · exact .refl
    · exact flood free fit plain lt
  · exact notMoreRecent

theorem lsUpdTurn (free : p.Free) (fit : Fit p s.core) (plain : env.Plain p.coloured)
    (lt : r < s.core.next) : Moves p s (lsUpdTurn env s n r).1 := by
  simp only [Ospf.lsUpdTurn]
  split
  · exact .refl
  split
  · exact emit
  split
  · split
    · split
      · exact emit
      · exact emit.trans opaqueLsaRefreshSchedule
    · exact emit
  split
  · simp only [opaqueSelfOriginatedLsaReceived]
    have old : Moves p s ⟨s.core.setLsa r {s.core.lsas r with
        self := true
        data := {(s.core.lsas r).data with lsAge := UInt16.ofNat Lsa.maxAge}},s.net⟩ :=
      core (Kept.setLsa rfl rfl fun _ => Kept.maxAge_isMaxAge _ _ rfl)
    have lt' : r < (s.core.setLsa r {s.core.lsas r with
        self := true
        data := {(s.core.lsas r).data with lsAge := UInt16.ofNat Lsa.maxAge}}).next := lt
    split
    · exact (old.trans (floodThroughAs lt' (free.adds r))).trans emit
    · exact (old.trans (floodThroughArea lt' (free.adds r))).trans emit
  split
  · exact lsaFlushArea lt (free.adds r)
  · exact compareWithCopy free fit plain lt

theorem lsUpdLsa (free : p.Free) (fit : Fit p s.core) (plain : env.Plain p.coloured) {lsa : Lsa}
    (hu : lsa.type = linkColourLsa → p.coloured) :
    Moves p s (lsUpdLsa env s n lsa).1 := by
  have hm : Moves p s ⟨s.core.alloc (receivedLsa s n lsa),s.net⟩ := core (Kept.alloc hu)
  exact hm.trans (lsUpdTurn free (fit.moves hm) plain (Nat.lt_succ_self _))

theorem lsUpdLoop (free : p.Free) (plain : env.Plain p.coloured) {lsas : List Lsa}
    (hu : ∀ lsa ∈ lsas, lsa.type = linkColourLsa → p.coloured) {s : State}
    (fit : Fit p s.core) : Moves p s (lsUpdLoop env n lsas s) := by
  induction lsas generalizing s with
  | nil => exact .refl
  | cons lsa rest ih =>
    have fst := @lsUpdLsa p env s n free fit plain lsa (hu lsa (.head _))
    simp only [Ospf.lsUpdLoop]
    split
    · rename_i eq
      rw [eq] at fst
      exact fst
    rename_i eq
    rw [eq] at fst
    apply fst.trans
    apply ih _ (fit.moves fst)
    exact fun ho mem => hu ho (.tail _ mem)

theorem lsUpd (free : p.Free) (plain : env.Plain p.coloured) {pkt : List Lsa}
    (hu : ∀ lsa ∈ pkt, lsa.type = linkColourLsa → p.coloured)
    (fit : Fit p s.core) : Moves p s (lsUpd env s n pkt) := by
  simp only [Ospf.lsUpd]
  have hr : Moves p s ⟨s.core,s.net.emit (.nsmEvent n .packetReceived)⟩ := emit
  split
  · exact hr
  apply hr.trans
  apply lsUpdLoop free plain _ (fit.moves hr)
  exact fun lsa mem => hu lsa (mem_of_mem_filter mem)

end

end Frr.Ospf.Moves
