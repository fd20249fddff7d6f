import Frr.LsUpdateRecent

/-! A received LSA only takes the place of a less recent instance, and what follows from its
installation does so under the conditions on the numbers. One that is not more recent leaves no
trace in the database. -/
namespace Frr.Ospf

open Option Lsa Instance Net

variable {env : Env} {s : State} {n r : Nat}

structure Arrived (s : State) (n r : Nat) : Prop where
  lt : r < s.core.next
  unheld : s.core.Unheld r
  self : (s.core.lsas r).self = false
  unchecked : (s.core.lsas r).selfChecked = false
  valid : (s.core.lsas r).data.checksumValid = true
  db : installDb (s.core.lsas r).data.type (s.core.lsas r).area =
    some (lookupDb (s.core.lsas r).data.type (receivingArea s n))

abbrev ownReceived (s : State) (r : Nat) : Bool := lsaIsSelfOriginated s.core (s.core.lsas r)

theorem markReceived_lsa : (markReceived s.core r).lsas r =
    {s.core.lsas r with received := true, self := ownReceived s r, selfChecked := true} := by
  simp only [markReceived,selfCheck,Core.setLsa_same]
  rfl

theorem markReceived_other {other : Nat} (ne : other ≠ r) :
    (markReceived s.core r).lsas other = s.core.lsas other := by
  simp [markReceived,selfCheck,ne]

theorem markReceived_own :
    lsaIsSelfOriginated (markReceived s.core r) ((markReceived s.core r).lsas r) =
      ownReceived s r := by
  rw [markReceived_lsa]
  rfl

theorem Arrived.stored (har : Arrived s n r) (db : Db) (key : LsaKey) :
    (markReceived s.core r).stored db key = s.core.stored db key := by
  change (s.core.lookup db key).map (markReceived s.core r).lsas = _
  rw [Core.stored]
  cases hf : s.core.lookup db key with
  | none => rfl
  | some hh =>
    have ne : hh ≠ r := fun eq => har.unheld db key (eq ▸ hf)
    exact congrArg some (markReceived_other ne)

theorem Taken.stored (hta : Taken s n r) {old : Instance}
    (hs : s.core.stored (lookupDb (s.core.lsas r).data.type (receivingArea s n))
      (s.core.lsas r).key = some old) :
    moreRecent s.core.now old (s.core.lsas r) < 0 := by
  obtain ⟨c,hf,rfl⟩ := map_eq_some_iff.mp hs
  exact hta c hf

theorem Arrived.recent (har : Arrived s n r) (hta : Taken s n r) {old : Instance}
    (hs : s.core.stored (lookupDb (s.core.lsas r).data.type (receivingArea s n))
      (s.core.lsas r).key = some old) :
    moreRecent s.core.now old (installed (markReceived s.core r) r) < 0 := by
  have hr := hta.stored hs
  by_cases hw : (s.core.lsas r).data.lsSeqnum = wrapped
  · -- The router keeps its own LSA at the last number, which is above that of any copy.
    apply moreRecent_of_seqnum
    have low := seqnum_le_of_moreRecent hr
    have high : (installed (markReceived s.core r) r).seqnum = signed maxSequenceNumber := by
      rw [installed,sealed_seqnum,unwrapped_lsa,markReceived_lsa,if_pos hw]
      rfl
    have num : (s.core.lsas r).seqnum = signed wrapped := congrArg signed hw
    rw [high]
    rw [num] at low
    exact lt_of_le_of_lt low (by decide)
  · have hp : ((markReceived s.core r).lsas r).data.lsSeqnum ≠ wrapped := by
      rw [markReceived_lsa]
      exact hw
    rw [installed_of_ne hp]
    apply moreRecent_of_checksum hr
    · rw [sealed_seqnum,markReceived_lsa]
      rfl
    · rw [sealed_lsAge,markReceived_lsa]
      rfl
    rw [markReceived_lsa,sealed]
    split
    · exact checksum_le_withChecksum har.valid
    · exact UInt16.le_refl _

theorem installed_received : (installed (markReceived s.core r) r).key = (s.core.lsas r).key := by
  rw [installed_key,markReceived_lsa]
  rfl

theorem installed_body_received :
    (installed (markReceived s.core r) r).data.body = (s.core.lsas r).data.body := by
  obtain ⟨seqnum,age,premature,eq⟩ := @unwrapped_fields r (markReceived s.core r)
  rw [installed,sealed_body,eq,markReceived_lsa]

theorem installed_number_received (hp : (s.core.lsas r).data.lsSeqnum ≠ wrapped) :
    (installed (markReceived s.core r) r).data.lsSeqnum = (s.core.lsas r).data.lsSeqnum := by
  rw [installed_of_ne (by rw [markReceived_lsa]; exact hp),sealed_lsSeqnum,markReceived_lsa]

section

variable (har : Arrived s n r)

include har

theorem Arrived.placed_logs (hta : Taken s n r) {c : Core} (hp : Placed (markReceived s.core r) c
      (lookupDb (s.core.lsas r).data.type (receivingArea s n)) r
      (installed (markReceived s.core r) r)) : Logs s.core c := by
  have start : Logs s.core (markReceived s.core r) := Logs.of_eq rfl
  apply start.trans
  apply hp.logs
  intro old hs
  rw [installed_received,har.stored] at hs
  exact har.recent hta hs

theorem Arrived.found :
    installDb ((markReceived s.core r).lsas r).data.type ((markReceived s.core r).lsas r).area =
      some (lookupDb (s.core.lsas r).data.type (receivingArea s n)) := by
  rw [markReceived_lsa]
  exact har.db

theorem Arrived.refused (hta : Taken s n r) (wf : Wf s.core)
    (hw : (s.core.lsas r).data.lsSeqnum = wrapped) (hfo : ownReceived s r = false)
    (net : Net) (oi : Option Nat) :
    lsaInstall env ⟨markReceived s.core r,net⟩ oi r = (⟨markReceived s.core r,net⟩,none) := by
  have hn : s.core.lookup (lookupDb (s.core.lsas r).data.type (receivingArea s n))
      (s.core.lsas r).key = none := by
    cases hf : s.core.lookup (lookupDb (s.core.lsas r).data.type (receivingArea s n))
      (s.core.lsas r).key with
    | none => rfl
    | some c =>
      have low := seqnum_le_of_moreRecent (hta c hf)
      have num : (s.core.lsas r).seqnum = signed wrapped := congrArg signed hw
      have eq := le_antisymm (low.trans_eq num) (wrapped_le _)
      exact absurd (signed_injective eq) (wf.numbered _ _ _ hf)
  have num : ((markReceived s.core r).lsas r).data.lsSeqnum = wrapped := by
    rw [markReceived_lsa]
    exact hw
  have own := (@markReceived_own s r).trans hfo
  have key : ((markReceived s.core r).lsas r).key = (s.core.lsas r).key := by
    rw [markReceived_lsa]
    rfl
  simp only [lsaInstall,har.found,num,own,key]
  simp only [Bool.false_eq_true,not_false_eq_true,and_self,if_true]
  exact congrArg (Prod.mk _) hn

theorem Arrived.inPlace (hta : Taken s n r) (wf : Wf s.core)
    (hk : (s.core.lsas r).data.lsSeqnum = wrapped → ownReceived s r)
    (hp : (s.core.lsas r).data.type = asNssaLsa → ownReceived s r)
    {net : Net} (hal : Alike s.net net) (oi : Option Nat) :
    Placed (markReceived s.core r) (lsaInstall env ⟨markReceived s.core r,net⟩ oi r).1.core
        (lookupDb (s.core.lsas r).data.type (receivingArea s n)) r
        (installed (markReceived s.core r) r) ∧
      InPlace s (lsaInstall env ⟨markReceived s.core r,net⟩ oi r).1 (receivingArea s n) r := by
  have hu : (markReceived s.core r).Unheld r := har.unheld
  have hk' : ((markReceived s.core r).lsas r).data.lsSeqnum = wrapped →
      lsaIsSelfOriginated (markReceived s.core r) ((markReceived s.core r).lsas r) := by
    rw [markReceived_own,markReceived_lsa]
    exact hk
  have hp' : Plain ((markReceived s.core r).lsas r) := by
    rw [markReceived_lsa]
    exact hp
  have hr : ((markReceived s.core r).lsas r).received := by rw [markReceived_lsa]
  have hpl := @lsaInstall_placed env ⟨markReceived s.core r,net⟩ oi _ r hu har.found hk' hp'
  have cfg := @lsaInstall_config env ⟨markReceived s.core r,net⟩ oi _ r har.found hk'
    hp' (Or.inl hr)
  have hst := Steady.markReceived.trans
    (@Steady.lsaInstall env (markReceived s.core r) net oi r har.lt)
  have ha' := hal.trans (@lsaInstall_alike env ⟨markReceived s.core r,net⟩ oi r)
  generalize (lsaInstall env ⟨markReceived s.core r,net⟩ oi r).1 = s' at *
  have data := hpl.same.1
  refine ⟨hpl,⟨?_,ha',hst.wf wf,?_,?_,?_,?_,?_,?_⟩⟩
  · have start : SameConfig s.core (markReceived s.core r) := ⟨rfl,rfl,rfl,rfl,rfl,rfl,rfl⟩
    exact start.trans cfg
  · rw [Instance.key,data]
    exact installed_received
  · rw [data]
    exact congrArg (fun body => List.getD body 0 0) installed_body_received
  · intro o
    by_cases eq : o = r
    · rw [eq,data]
      exact congrArg LsaKey.id installed_received
    · rw [hpl.others o eq,markReceived_other eq]
  · intro hp
    rw [data]
    exact installed_number_received hp
  · intro hp db key seqnum hl ha
    apply hpl.above hu
    · exact (congrArg signed (installed_number_received hp)).trans_lt hl
    intro old hs
    rw [har.stored] at hs
    exact ha old hs
  · intro seqnum hl old hs
    exact (seqnum_le_of_moreRecent (hta.stored hs)).trans_lt hl

end

theorem translatedNssaRefresh_logs {core : Core} {net : Net} (hb : core.Bounded)
    (hpl : (core.lsas r).data.lsSeqnum ≠ wrapped)
    (ha : ∀ type5, externalInfoFindLsa core (core.lsas r).data.id ((core.lsas r).data.word 0) =
      some type5 → (core.lsas type5).localXlt →
      core.Above .as ⟨asExternalLsa,(core.lsas r).data.id,core.routerId⟩
        (core.lsas r).data.lsSeqnum) :
    Logs core (translatedNssaRefresh env ⟨core,net⟩ r).core := by
  simp only [translatedNssaRefresh]
  split
  · exact Logs.of_eq rfl
  rename_i type5 hf
  split
  · rename_i ht
    generalize new : lsaTranslatedNssaNew env core (core.lsas r).data = lsa
    have key : lsa.key = ⟨asExternalLsa,(core.lsas r).data.id,core.routerId⟩ := new ▸ rfl
    have num : lsa.data.lsSeqnum = (core.lsas r).data.lsSeqnum := new ▸ rfl
    have start : Logs core (core.alloc lsa) := Logs.of_eq rfl
    apply start.trans
    have hu : (core.alloc lsa).Unheld core.next := hb.unheld
    have hp (net : Net) := (@store_unwrapped_placed ⟨core.alloc lsa,net⟩ .as core.next
      hu).touched finishInstall_touches
    apply (hp _).logs
    intro old hs
    have eq : installed (core.alloc lsa) core.next = sealed lsa := by
      rw [installed_of_ne (by rw [Core.alloc_new,num]; exact hpl),Core.alloc_new]
    rw [eq,sealed_key,key,hb.alloc_stored] at hs
    apply moreRecent_of_seqnum
    rw [eq,sealed_seqnum]
    exact (ha type5 hf ht old hs).trans_eq (congrArg signed num.symm)
  · exact Logs.of_eq rfl

theorem externalInfoFindLsa_congr {c c' : Core} (routerId : c'.routerId = c.routerId)
    (lookup : ∀ key, c'.lookup .as key = c.lookup .as key)
    (eq : ∀ key o, c.lookup .as key = some o → c'.lsas o = c.lsas o) (addr mask : UInt32) :
    externalInfoFindLsa c' addr mask = externalInfoFindLsa c addr mask := by
  simp only [externalInfoFindLsa,routerId,lookup]
  split
  · rfl
  rename_i hf
  rw [eq _ _ hf]

theorem externalInfoFindLsa_held {core : Core} {addr mask : UInt32} {type5 : Nat}
    (hf : externalInfoFindLsa core addr mask = some type5) :
    ∃ key, core.lookup .as key = some type5 := by
  simp only [externalInfoFindLsa] at hf
  split at hf
  · cases hf
  rename_i hh
  split at hf
  · cases hf
    exact ⟨_,hh⟩
  · exact ⟨_,hf⟩

theorem Arrived.translated_logs (har : Arrived s n r) (hta : Taken s n r) (wf : Wf s.core)
    (ty : (s.core.lsas r).data.type = asNssaLsa) (hfo : ownReceived s r = false)
    (hpl : (s.core.lsas r).data.lsSeqnum ≠ wrapped) (hc : TranslationClear s r) (net : Net)
    (oi : Option Nat) :
    Logs s.core (lsaInstall env ⟨markReceived s.core r,net⟩ oi r).1.core := by
  have hu : (markReceived s.core r).Unheld r := har.unheld
  have db : lookupDb (s.core.lsas r).data.type (receivingArea s n) = .area (receivingArea s n) := by
    rw [ty]
    rfl
  have hk : ((markReceived s.core r).lsas r).data.lsSeqnum = wrapped →
      lsaIsSelfOriginated (markReceived s.core r) ((markReceived s.core r).lsas r) := by
    rw [markReceived_lsa]
    exact fun hw => absurd hw hpl
  rw [lsaInstall_eq har.found hk]
  have hp := @store_unwrapped_placed ⟨markReceived s.core r,net⟩
    (lookupDb (s.core.lsas r).data.type (receivingArea s n)) r hu
  have hst := @Steady.storeUnwrapped (markReceived s.core r) net r
    (lookupDb (s.core.lsas r).data.type (receivingArea s n)) har.lt
  have cfg := @store_unwrapped_config ⟨markReceived s.core r,net⟩
    (lookupDb (s.core.lsas r).data.type (receivingArea s n)) r
  have obj := @store_unwrapped_lsa ⟨markReceived s.core r,net⟩
    (lookupDb (s.core.lsas r).data.type (receivingArea s n)) r
  generalize store ⟨unwrapped (markReceived s.core r) r,net⟩
    (lookupDb (s.core.lsas r).data.type (receivingArea s n)) r = s' at *
  have logs := har.placed_logs hta hp
  have num : (s'.core.lsas r).data.lsSeqnum = (s.core.lsas r).data.lsSeqnum := by
    rw [obj,installed_number_received hpl]
  have key : (s'.core.lsas r).key = (s.core.lsas r).key := by rw [obj,installed_received]
  have id : (s'.core.lsas r).data.id = (s.core.lsas r).data.id := congrArg LsaKey.id key
  have mask : (s'.core.lsas r).data.word 0 = (s.core.lsas r).data.word 0 := by
    rw [obj]
    exact congrArg (fun body => List.getD body 0 0) installed_body_received
  have he (o : Nat) (ne : o ≠ r) : s'.core.lsas o = s.core.lsas o :=
    (hp.others o ne).trans (markReceived_other ne)
  have lookup (key : LsaKey) : s'.core.lookup .as key = s.core.lookup .as key := by
    rw [hp.lookup,db]
    rfl
  have hh (key : LsaKey) (o : Nat) (hf : s.core.lookup .as key = some o) :
      s'.core.lsas o = s.core.lsas o := he o fun eq => har.unheld .as key (eq ▸ hf)
  have routerId : s'.core.routerId = s.core.routerId := cfg.routerId
  have ht : Logs s'.core (translatedNssaRefresh env s' r).core := by
    apply translatedNssaRefresh_logs (hst.wf (Steady.markReceived.wf wf)).bounded
    · rw [num]
      exact hpl
    intro type5 hf xlt
    rw [id,mask,externalInfoFindLsa_congr routerId lookup hh] at hf
    obtain ⟨key,hs⟩ := externalInfoFindLsa_held hf
    rw [hh key type5 hs] at xlt
    rw [id,num,routerId]
    intro old hs
    obtain ⟨o,hf',rfl⟩ := map_eq_some_iff.mp hs
    rw [lookup] at hf'
    rw [hh _ o hf']
    exact hc type5 hf xlt _ (map_eq_some_iff.mpr ⟨o,hf',rfl⟩)
  have hty : (installType env s' oi r).1.core = (translatedNssaRefresh env s' r).core := by
    have self : (s'.core.lsas r).self = false := by
      rw [obj,(installed_fields _).2.1,markReceived_lsa,hfo]
    have ty' : (s'.core.lsas r).data.type = asNssaLsa := (congrArg LsaKey.type key).trans ty
    simp only [installType,ty',self]
    rfl
  simp only
  split
  · obtain ⟨maxage,eq⟩ := @finishInstall_core (installType env s' oi r).1 r
    rw [eq,hty]
    exact (logs.trans ht).trans (Logs.of_eq rfl)
  rw [hty]
  exact logs.trans ht

theorem own_router (har : Arrived s n r) (own : ownReceived s r)
    (hf : misplaced s n (s.core.lsas r).data = false)
    (ty : (s.core.lsas r).data.type = routerLsa) :
    (s.core.lsas r).key = ⟨routerLsa,s.core.routerId,s.core.routerId⟩ := by
  have eq : (s.core.lsas r).data.id = (s.core.lsas r).data.advRouter := by
    by_contra ne
    simp [misplaced,ty,ne] at hf
  have ho : routerLsa ≠ networkLsa := by decide
  have self : (s.core.lsas r).data.advRouter = s.core.routerId := by
    simpa [ownReceived,lsaIsSelfOriginated,har.self,har.unchecked,ty,eq,ho] using own
  rw [Instance.key,Lsa.key,ty,eq,self]

theorem own_network {oi : Nat} (local' : foreignNetwork s.core (s.core.lsas r).data = none)
    (ty : (s.core.lsas r).data.type = networkLsa)
    (hf : ownInterface s.core (s.core.lsas r).data.id = some oi)
    (hr : (s.core.interface oi).networkLsaSelf.isSome) :
    (s.core.lsas r).data.advRouter = s.core.routerId := by
  by_contra ne
  obtain ⟨o,eq⟩ := isSome_iff_exists.mp hr
  simp [foreignNetwork,ty,ne,hf,eq] at local'

theorem sweepCurrent_alike {core : Core} {net : Net} {cur : Option Nat} :
    Alike net (sweepCurrent core net n cur) := by
  simp only [sweepCurrent]
  split
  · exact Alike.refl net
  split
  · exact Alike.lsRetransmitDeleteNbrAs
  · exact Alike.lsRetransmitDeleteNbrArea

section

variable (har : Arrived s n r) (hta : Taken s n r) (wf : Wf s.core)

include har hta wf

theorem Arrived.install_logs
    (hc : Harmless env s n r) {net : Net} (ha : Alike s.net net) (oi : Option Nat) :
    Logs s.core (lsaInstall env ⟨markReceived s.core r,net⟩ oi r).1.core := by
  have hc := hc hta
  cases own : ownReceived s r with
  | true => exact har.placed_logs hta (har.inPlace hta wf (fun _ => own) (fun _ => own) ha oi).1
  | false =>
    rw [if_neg (by rw [show lsaIsSelfOriginated s.core (s.core.lsas r) = false from own]; decide)]
      at hc
    by_cases hw : (s.core.lsas r).data.lsSeqnum = wrapped
    · rw [har.refused hta wf hw own]
      exact Logs.of_eq rfl
    by_cases ty : (s.core.lsas r).data.type = asNssaLsa
    · exact har.translated_logs hta wf ty own hw (hc ty) net oi
    exact har.placed_logs hta (har.inPlace hta wf (fun h => absurd h hw)
      (fun h => absurd h ty) ha oi).1

theorem Arrived.result {net : Net} {oi : Option Nat} {s' : State} {new : Nat}
    (eq : lsaInstall env ⟨markReceived s.core r,net⟩ oi r = (s',some new)) :
    new = r ∧ lsaIsSelfOriginated s'.core (s'.core.lsas r) = ownReceived s r ∧
      ((s.core.lsas r).data.lsSeqnum = wrapped → ownReceived s r) := by
  have hk : (s.core.lsas r).data.lsSeqnum = wrapped → ownReceived s r := by
    intro hw
    by_contra foreign
    rw [har.refused hta wf hw (Bool.eq_false_iff.mpr foreign)] at eq
    cases eq
  have hk' : ((markReceived s.core r).lsas r).data.lsSeqnum = wrapped →
      lsaIsSelfOriginated (markReceived s.core r) ((markReceived s.core r).lsas r) := by
    rw [markReceived_own,markReceived_lsa]
    exact hk
  obtain ⟨-,self,hc⟩ := @lsaInstall_same env ⟨markReceived s.core r,net⟩ oi _ r har.lt har.found hk'
  rw [eq] at self hc
  have own : (installed (markReceived s.core r) r).self = ownReceived s r := by
    rw [(installed_fields _).2.1,markReceived_lsa]
  have hc' : (installed (markReceived s.core r) r).selfChecked := by
    obtain ⟨seqnum,age,premature,fields⟩ := @unwrapped_fields r (markReceived s.core r)
    rw [installed,sealed_selfChecked,fields,markReceived_lsa]
  refine ⟨?_,?_,hk⟩
  · rw [lsaInstall_eq har.found hk'] at eq
    simp only at eq
    split at eq
    · cases eq
      rfl
    · cases eq
  · rw [lsaIsSelfOriginated,if_pos (hc.trans hc'),self,own]

theorem Arrived.flood_logs
    (hc : Harmless env s n r) (hfi : misplaced s n (s.core.lsas r).data = false)
    (local' : foreignNetwork s.core (s.core.lsas r).data = none) (cur : Option Nat) :
    Logs s.core (flood env s n cur r).core := by
  simp only [flood]
  split
  · exact Logs.of_eq rfl
  have ha : Alike s.net (sweepCurrent s.core (floodThrough s.core (some n) r s.net).1 n
      cur) := Alike.floodThrough.trans sweepCurrent_alike
  generalize sweepCurrent s.core (floodThrough s.core (some n) r s.net).1 n cur = net at *
  have logs := har.install_logs hta wf hc ha (some (s.net.neighbor n).oi)
  split
  · rename_i s' eq
    rw [eq] at logs
    exact logs
  rename_i s' new eq
  obtain ⟨rfl,own,hk⟩ := har.result hta wf eq
  have place (own : ownReceived s new) := (@Arrived.inPlace env s n new har hta wf
    hk (fun _ => own) net ha (some (s.net.neighbor n).oi)).2
  rw [eq] at logs place
  have step (s'' : State) (core : s''.core = s'.core) (net : Alike s'.net s''.net) :
      Logs s.core (if lsaIsSelfOriginated s''.core (s''.core.lsas new) = true then
        processSelfOriginatedLsa env s'' new (s''.core.interface (s.net.neighbor n).oi).area
        else s'').core := by
    rw [core,own]
    split
    · rename_i own
      have place' := (place own).congr core net
      have ifc : s'.core.interface = s.core.interface := (place own).config.interface
      have hc := hc hta
      rw [if_pos own] at hc
      rw [ifc]
      apply logs.trans
      rw [← core]
      exact place'.process_logs hc (own_router har own hfi)
        (fun ty oi hf => own_network local' ty hf)
    · rw [core]
      exact logs
  split
  · exact step _ rfl Alike.floodDelayedLsaAck
  · exact step s' rfl (Alike.refl _)

end

theorem Arrived.turn_logs (har : Arrived s n r) (wf : Wf s.core) (hc : Harmless env s n r) :
    Logs s.core (lsUpdTurn env s n r).1.core := by
  simp only [lsUpdTurn]
  split
  · exact Logs.of_eq rfl
  rename_i hfi
  rw [Bool.not_eq_true] at hfi
  split
  · exact Logs.of_eq rfl
  split
  · exact Logs.of_eq rfl
  split
  · exact Logs.of_eq rfl
  split
  · exact Logs.of_eq lsaFlushArea_replaced
  rename_i local'
  simp only [compareWithCopy]
  split
  · rename_i missing
    have hta : Taken s n r := fun c hf => absurd (missing.symm.trans hf) (by simp)
    exact har.flood_logs hta wf hc hfi local' none
  rename_i c hf
  split
  · rename_i hr
    have hta : Taken s n r := by
      intro c' hf'
      cases some.inj (hf.symm.trans hf')
      exact hr
    split
    · exact Logs.of_eq rfl
    rw [hf]
    exact har.flood_logs hta wf hc hfi local' (some c)
  · rw [Steady.notMoreRecent]
    exact Logs.of_eq rfl

theorem Arrived.turn_stale (har : Arrived s n r) {c : Nat}
    (hf : lsaLookupByHeader s.core (receivingArea s n) (s.core.lsas r).data = some c)
    (hs : 0 ≤ moreRecent s.core.now (s.core.lsas c) (s.core.lsas r)) (db : Db)
    (key : LsaKey) : (lsUpdTurn env s n r).1.core.stored db key = s.core.stored db key := by
  have hf' : lsaLookupByHeader s.core (s.core.interface (s.net.neighbor n).oi).area
      (s.core.lsas r).data = some c := hf
  simp only [lsUpdTurn,hf',reduceCtorEq,and_false,false_and,if_false]
  split
  · rfl
  split
  · rfl
  split
  · -- The received object itself is flooded as it is flushed; no database holds it.
    rename_i area hfo
    obtain ⟨maxage,eq⟩ := @lsaMaxage_core r (agedOut s r)
    rw [lsaFlushArea,eq]
    change (s.core.lookup db key).map (agedOut s r).lsas = (s.core.lookup db key).map s.core.lsas
    cases hh : s.core.lookup db key with
    | none => rfl
    | some o =>
      have ne : o ≠ r := fun he => har.unheld db key (he ▸ hh)
      exact congrArg some (Core.setLsa_other ne _)
  · simp only [compareWithCopy]
    rw [if_neg (Int.not_lt.mpr hs),Steady.notMoreRecent]

end Frr.Ospf
