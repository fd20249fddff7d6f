import Frr.LsUpdate

/-! An installation puts one object under one key, and records which instance it replaces. -/
namespace Frr.Ospf

open Function Net Ospf.Core

def signed (seqnum : UInt32) : Int := seqnum.toInt32.toInt

def Replacement.Recent (e : Replacement) : Prop := Instance.moreRecent e.now e.old e.new < 0

/-- Whatever is stored under a key has a number below `seqnum`. -/
def Core.Above (core : Core) (db : Db) (key : LsaKey) (seqnum : UInt32) : Prop :=
  ∀ old, core.stored db key = some old → old.seqnum < signed seqnum

def Logs (c c' : Core) : Prop :=
  ∃ added, c'.replaced = added ++ c.replaced ∧ ∀ e ∈ added, e.Recent

theorem Logs.of_eq {c c' : Core} (eq : c'.replaced = c.replaced) : Logs c c' :=
  ⟨[],eq,fun _ mem => absurd mem List.not_mem_nil⟩

theorem Logs.trans {c c' c'' : Core} (fst : Logs c c') (snd : Logs c' c'') : Logs c c'' := by
  obtain ⟨ha,eq,hr⟩ := fst
  obtain ⟨hm,eq',hr'⟩ := snd
  refine ⟨hm ++ ha,?_,?_⟩
  · rw [eq',eq,List.append_assoc]
  intro e mem
  cases List.mem_append.mp mem with
  | inl inMore => exact hr' e inMore
  | inr inAdded => exact hr e inAdded

structure SameConfig (c c' : Core) : Prop where
  routerId : c'.routerId = c.routerId
  abr : c'.abr = c.abr
  now : c'.now = c.now
  areas : c'.areas = c.areas
  area : c'.area = c.area
  oiflist : c'.oiflist = c.oiflist
  interface : c'.interface = c.interface

theorem SameConfig.refl (c : Core) : SameConfig c c := ⟨rfl,rfl,rfl,rfl,rfl,rfl,rfl⟩

theorem SameConfig.trans {c c' c'' : Core} (fst : SameConfig c c') (snd : SameConfig c' c'') :
    SameConfig c c'' where
  routerId := snd.routerId.trans fst.routerId
  abr := snd.abr.trans fst.abr
  now := snd.now.trans fst.now
  areas := snd.areas.trans fst.areas
  area := snd.area.trans fst.area
  oiflist := snd.oiflist.trans fst.oiflist
  interface := snd.interface.trans fst.interface

def SameLsa (a b : Instance) : Prop :=
  a.data = b.data ∧ a.self = b.self ∧ a.selfChecked = b.selfChecked

theorem SameLsa.trans {a b c : Instance} (fst : SameLsa a b) (snd : SameLsa b c) :
    SameLsa a c :=
  ⟨fst.1.trans snd.1,fst.2.1.trans snd.2.1,fst.2.2.trans snd.2.2⟩

theorem SameLsa.of_eq {a b : Instance} (eq : a = b) : SameLsa a b := eq ▸ ⟨rfl,rfl,rfl⟩

structure Touches (r : Nat) (c c' : Core) : Prop where
  lsdb : c'.lsdb = c.lsdb
  replaced : c'.replaced = c.replaced
  next : c'.next = c.next
  now : c'.now = c.now
  others : ∀ other, other ≠ r → c'.lsas other = c.lsas other
  same : SameLsa (c'.lsas r) (c.lsas r)

/-- An object was put under its key, as the instance `lsa`. -/
structure Placed (c c' : Core) (db : Db) (r : Nat) (lsa : Instance) : Prop where
  lookup : ∀ db' key, c'.lookup db' key =
    if db' = db ∧ key = lsa.key then some r else c.lookup db' key
  others : ∀ other, other ≠ r → c'.lsas other = c.lsas other
  same : SameLsa (c'.lsas r) lsa
  replaced : c'.replaced =
    ((c.stored db lsa.key).map fun old => Replacement.mk db lsa.key old lsa c.now).toList ++
      c.replaced
  next : c'.next = c.next

namespace Placed

variable {c c' c'' : Core} {db : Db} {r : Nat} {lsa : Instance}

section

variable (hp : Placed c c' db r lsa)

include hp

theorem touched (touches : Touches r c' c'') : Placed c c'' db r lsa where
  lookup db' key := by
    rw [Core.lookup,touches.lsdb]
    exact hp.lookup db' key
  others ho ne := (touches.others ho ne).trans (hp.others ho ne)
  same := touches.same.trans hp.same
  replaced := touches.replaced.trans hp.replaced
  next := touches.next.trans hp.next

theorem logs
    (hr : ∀ old, c.stored db lsa.key = some old → Instance.moreRecent c.now old lsa < 0) :
    Logs c c' := by
  refine ⟨_,hp.replaced,fun e mem => ?_⟩
  obtain ⟨old,hs,rfl⟩ := Option.map_eq_some_iff.mp (Option.mem_toList.mp mem)
  exact hr old hs

theorem stored_other (hu : ∀ db key, c.lookup db key ≠ some r) {db' : Db} {key : LsaKey}
    (ho : ¬ (db' = db ∧ key = lsa.key)) : c'.stored db' key = c.stored db' key := by
  rw [stored,hp.lookup,if_neg ho,stored]
  cases hf : c.lookup db' key with
  | none => rfl
  | some hh =>
    have ne : hh ≠ r := fun eq => hu db' key (eq ▸ hf)
    exact congrArg some (hp.others hh ne)

theorem stored_self : ∃ new, c'.stored db lsa.key = some new ∧ new.data = lsa.data := by
  refine ⟨c'.lsas r,?_,hp.same.1⟩
  rw [stored,hp.lookup,if_pos ⟨rfl,rfl⟩]
  rfl

section

variable (hu : ∀ db key, c.lookup db key ≠ some r) {db' : Db} {key : LsaKey} {seqnum : UInt32}

include hu

theorem above (hl : lsa.seqnum < signed seqnum)
    (ha : c.Above db' key seqnum) : c'.Above db' key seqnum := by
  intro old hs
  by_cases eq : db' = db ∧ key = lsa.key
  · obtain ⟨new,hs',data⟩ := hp.stored_self
    rw [eq.1,eq.2,hs'] at hs
    cases hs
    rw [Instance.seqnum,data]
    exact hl
  · rw [hp.stored_other hu eq] at hs
    exact ha old hs

theorem above_other (ho : ¬ (db' = db ∧ key = lsa.key))
    (ha : c.Above db' key seqnum) : c'.Above db' key seqnum := by
  intro old hs
  rw [hp.stored_other hu ho] at hs
  exact ha old hs

end

end

end Placed

section

variable (lsa : Instance)

@[simp] theorem sealed_key : (sealed lsa).key = lsa.key := by
  unfold sealed
  split <;> rfl

@[simp] theorem sealed_seqnum : (sealed lsa).seqnum = lsa.seqnum := by
  unfold sealed
  split <;> rfl

@[simp] theorem sealed_lsSeqnum : (sealed lsa).data.lsSeqnum = lsa.data.lsSeqnum := by
  unfold sealed
  split <;> rfl

@[simp] theorem sealed_type : (sealed lsa).data.type = lsa.data.type := by
  unfold sealed
  split <;> rfl

@[simp] theorem sealed_body : (sealed lsa).data.body = lsa.data.body := by
  unfold sealed
  split <;> rfl

@[simp] theorem sealed_self : (sealed lsa).self = lsa.self := by
  unfold sealed
  split <;> rfl

@[simp] theorem sealed_selfChecked : (sealed lsa).selfChecked = lsa.selfChecked := by
  unfold sealed
  split <;> rfl

@[simp] theorem sealed_received : (sealed lsa).received = lsa.received := by
  unfold sealed
  split <;> rfl

@[simp] theorem sealed_area : (sealed lsa).area = lsa.area := by
  unfold sealed
  split <;> rfl

@[simp] theorem sealed_lsAge (now : Nat) : (sealed lsa).lsAge now = lsa.lsAge now := by
  unfold sealed
  split <;> rfl

end

section

variable {env : Env} {s : State} {oi : Option Nat} {db : Db} {r : Nat}

def Core.Unheld (core : Core) (r : Nat) : Prop := ∀ db key, core.lookup db key ≠ some r

def installed (core : Core) (r : Nat) : Instance := sealed ((unwrapped core r).lsas r)

/-- The object, its table and the record change, and the old LSA leaves the MaxAge list. -/
theorem store_core : ∃ maxage, (store s db r).core =
    {s.core with
      lsas := update s.core.lsas r (sealed (s.core.lsas r))
      lsdb := update s.core.lsdb db ((s.core.lsdb db).insert (s.core.lsas r).key r)
      maxageLsa := maxage
      replaced := ((s.core.stored db (s.core.lsas r).key).map fun old =>
        Replacement.mk db (s.core.lsas r).key old (sealed (s.core.lsas r)) s.core.now).toList ++
          s.core.replaced} := by
  simp only [store,stored]
  cases s.core.lookup db (s.core.lsas r).key with
  | none => exact ⟨_,rfl⟩
  | some old => exact ⟨_,rfl⟩

theorem lookup_insert {core : Core} (key : LsaKey) (db' : Db) (key' : LsaKey) :
    (update core.lsdb db ((core.lsdb db).insert key r) db').lookup key' =
      if db' = db ∧ key' = key then some r else core.lookup db' key' := by
  by_cases eq : db' = db
  · subst eq
    rw [update_self]
    by_cases hh : key' = key
    · rw [if_pos ⟨rfl,hh⟩,hh,AList.lookup_insert]
    rw [if_neg fun hb => hh hb.2,AList.lookup_insert_ne hh]
    rfl
  · rw [update_of_ne eq,if_neg fun hb => eq hb.1]
    rfl

theorem store_placed : Placed s.core (store s db r).core db r (sealed (s.core.lsas r)) := by
  obtain ⟨maxage,eq⟩ := @store_core s db r
  rw [eq]
  refine ⟨fun db' key => ?_,fun ho ne => ?_,?_,?_,rfl⟩
  · rw [sealed_key]
    exact lookup_insert _ db' key
  · exact update_of_ne ne _ _
  · exact SameLsa.of_eq (update_self r _ _)
  · rw [sealed_key]

theorem store_config : SameConfig s.core (store s db r).core := by
  obtain ⟨maxage,eq⟩ := @store_core s db r
  rw [eq]
  exact ⟨rfl,rfl,rfl,rfl,rfl,rfl,rfl⟩

section

variable (core : Core)

theorem unwrapped_lookup (db : Db) (key : LsaKey) :
    (unwrapped core r).lookup db key = core.lookup db key := by
  unfold unwrapped
  split <;> rfl

theorem unwrapped_others {other : Nat} (ne : other ≠ r) :
    (unwrapped core r).lsas other = core.lsas other := by
  unfold unwrapped
  split
  · exact update_of_ne ne _ _
  · rfl

theorem unwrapped_config : SameConfig core (unwrapped core r) := by
  unfold unwrapped
  split <;> exact ⟨rfl,rfl,rfl,rfl,rfl,rfl,rfl⟩

theorem store_unwrapped_config :
    SameConfig s.core (store ⟨unwrapped s.core r,s.net⟩ db r).core :=
  (@unwrapped_config r s.core).trans (@store_config ⟨unwrapped s.core r,s.net⟩ db r)

theorem unwrapped_lsa : (unwrapped core r).lsas r =
    if (core.lsas r).data.lsSeqnum = wrapped then prematurelyAged core.now (core.lsas r)
    else core.lsas r := by
  unfold unwrapped
  split
  · exact update_self _ _ _
  · rfl

theorem unwrapped_fields : ∃ seqnum age premature, (unwrapped core r).lsas r = {core.lsas r with
      prematureAge := premature
      data := {(core.lsas r).data with lsSeqnum := seqnum, lsAge := age}} := by
  rw [unwrapped_lsa]
  split
  · exact ⟨_,_,_,rfl⟩
  · exact ⟨_,_,_,rfl⟩

theorem installed_key : (installed core r).key = (core.lsas r).key := by
  obtain ⟨seqnum,age,premature,eq⟩ := @unwrapped_fields r core
  rw [installed,sealed_key,eq]
  rfl

end

theorem installed_of_ne {core : Core} (hp : (core.lsas r).data.lsSeqnum ≠ wrapped) :
    installed core r = sealed (core.lsas r) := by
  rw [installed,unwrapped_lsa,if_neg hp]

theorem unwrapped_stored {core : Core} (hu : core.Unheld r) (db : Db) (key : LsaKey) :
    (unwrapped core r).stored db key = core.stored db key := by
  rw [stored,unwrapped_lookup,stored]
  cases hf : core.lookup db key with
  | none => rfl
  | some hh =>
    have ne : hh ≠ r := fun eq => hu db key (eq ▸ hf)
    exact congrArg some (unwrapped_others core ne)

theorem store_unwrapped_placed (hu : s.core.Unheld r) :
    Placed s.core (store ⟨unwrapped s.core r,s.net⟩ db r).core db r (installed s.core r) := by
  have hp : Placed (unwrapped s.core r) _ db r (installed s.core r) :=
    @store_placed ⟨unwrapped s.core r,s.net⟩ db r
  have cfg := @unwrapped_config r s.core
  have eq : (unwrapped s.core r).replaced = s.core.replaced ∧
      (unwrapped s.core r).next = s.core.next := by
    unfold unwrapped
    split <;> exact ⟨rfl,rfl⟩
  refine ⟨fun db' key => ?_,fun ho ne => ?_,hp.same,?_,hp.next.trans eq.2⟩
  · rw [hp.lookup,unwrapped_lookup]
  · rw [hp.others ho ne,unwrapped_others _ ne]
  · rw [hp.replaced,unwrapped_stored hu,cfg.now,eq.1]

theorem lsaMaxage_core (core : Core) : ∃ maxage, lsaMaxage core r =
    {core with maxageLsa := maxage} := by
  unfold lsaMaxage
  split
  · exact ⟨_,rfl⟩
  · exact ⟨_,rfl⟩

theorem finishInstall_core : ∃ maxage, (finishInstall s r).core =
    {s.core with maxageLsa := maxage} := by
  unfold finishInstall
  split
  · exact lsaMaxage_core s.core
  · exact ⟨_,rfl⟩

theorem finishInstall_touches : Touches r s.core (finishInstall s r).core := by
  obtain ⟨maxage,eq⟩ := @finishInstall_core s r
  rw [eq]
  exact ⟨rfl,rfl,rfl,rfl,fun _ _ => rfl,⟨rfl,rfl,rfl⟩⟩

theorem Touches.setLsa {core : Core} {lsa : Instance} (eq : SameLsa lsa (core.lsas r)) :
    Touches r core (core.setLsa r lsa) :=
  ⟨rfl,rfl,rfl,rfl,fun _ ne => setLsa_other ne lsa,by rw [setLsa_same]; exact eq⟩

def Plain (lsa : Instance) : Prop := lsa.data.type = Lsa.asNssaLsa → lsa.self = true

theorem routerLsaInstall_touches (core : Core) : Touches r core (routerLsaInstall core r) := by
  simp only [routerLsaInstall]
  split
  · split <;> exact ⟨rfl,rfl,rfl,rfl,fun _ _ => rfl,⟨rfl,rfl,rfl⟩⟩
  · exact ⟨rfl,rfl,rfl,rfl,fun _ _ => rfl,⟨rfl,rfl,rfl⟩⟩

theorem networkLsaInstall_touches (core : Core) (oi : Nat) :
    Touches r core (networkLsaInstall core oi r) := by
  simp only [networkLsaInstall]
  split <;> exact ⟨rfl,rfl,rfl,rfl,fun _ _ => rfl,⟨rfl,rfl,rfl⟩⟩

theorem installType_touches (plain : Plain (s.core.lsas r)) :
    Touches r s.core (installType env s oi r).1.core := by
  have eq : Touches r s.core s.core := ⟨rfl,rfl,rfl,rfl,fun _ _ => rfl,⟨rfl,rfl,rfl⟩⟩
  simp only [installType]
  split
  · exact routerLsaInstall_touches s.core
  split
  · cases oi with
    | none => exact eq
    | some oi => exact networkLsaInstall_touches s.core oi
  split
  · split
    · exact Touches.setLsa ⟨rfl,rfl,rfl⟩
    · exact eq
  split
  · rename_i hn
    exact absurd (plain hn.1) hn.2
  · exact eq

theorem installType_config (plain : Plain (s.core.lsas r))
    (hf : (s.core.lsas r).received ∨
      (s.core.lsas r).data.type ≠ Lsa.routerLsa ∧ (s.core.lsas r).data.type ≠ Lsa.networkLsa) :
    SameConfig s.core (installType env s oi r).1.core := by
  simp only [installType]
  split
  · rename_i rtr
    have hr : (s.core.lsas r).received := hf.resolve_right fun h => h.1 rtr
    simp [routerLsaInstall,hr,SameConfig.refl]
  split
  · rename_i nw
    have hr : (s.core.lsas r).received := hf.resolve_right fun h => h.2 nw
    cases oi <;> simp [networkLsaInstall,hr,SameConfig.refl]
  split
  · split <;> exact ⟨rfl,rfl,rfl,rfl,rfl,rfl,rfl⟩
  split
  · rename_i hn
    exact absurd (plain hn.1) hn.2
  · exact SameConfig.refl _

theorem store_unwrapped_lsa : (store ⟨unwrapped s.core r,s.net⟩ db r).core.lsas r =
    installed s.core r := by
  obtain ⟨maxage,eq⟩ := @store_core ⟨unwrapped s.core r,s.net⟩ db r
  rw [eq]
  simp [installed]

theorem installed_fields (core : Core) : (installed core r).data.type = (core.lsas r).data.type ∧
    (installed core r).self = (core.lsas r).self ∧
    (installed core r).received = (core.lsas r).received ∧
    (installed core r).area = (core.lsas r).area := by
  obtain ⟨seqnum,age,premature,eq⟩ := @unwrapped_fields r core
  simp [installed,eq]

theorem installed_plain {core : Core} (plain : Plain (core.lsas r)) : Plain (installed core r) := by
  obtain ⟨ty,self,-,-⟩ := @installed_fields r core
  rw [Plain,ty,self]
  exact plain

theorem lsaInstall_eq (hf : installDb (s.core.lsas r).data.type (s.core.lsas r).area = some db)
    (hk : (s.core.lsas r).data.lsSeqnum = wrapped →
      lsaIsSelfOriginated s.core (s.core.lsas r)) :
    lsaInstall env s oi r =
      (let (s,ok) := installType env (store ⟨unwrapped s.core r,s.net⟩ db r) oi r
      if ok then (finishInstall s r,some r) else (s,none)) := by
  have hs : ¬ ((s.core.lsas r).data.lsSeqnum = wrapped ∧
      ¬ lsaIsSelfOriginated s.core (s.core.lsas r)) := fun hb => hb.2 (hk hb.1)
  simp only [lsaInstall,hf,if_neg hs]

theorem lsaInstall_placed (hu : s.core.Unheld r)
    (hf : installDb (s.core.lsas r).data.type (s.core.lsas r).area = some db)
    (hk : (s.core.lsas r).data.lsSeqnum = wrapped →
      lsaIsSelfOriginated s.core (s.core.lsas r))
    (plain : Plain (s.core.lsas r)) :
    Placed s.core (lsaInstall env s oi r).1.core db r (installed s.core r) := by
  have hp := (@store_unwrapped_placed s db r hu).touched (@installType_touches env _ oi r
    (by rw [store_unwrapped_lsa]; exact installed_plain plain))
  rw [lsaInstall_eq hf hk]
  simp only
  split
  · exact hp.touched finishInstall_touches
  · exact hp

theorem translatedNssaRefresh_other {other : Nat} (lt : other < s.core.next) :
    (translatedNssaRefresh env s r).core.lsas other = s.core.lsas other := by
  have ne := ne_of_lt lt
  simp only [translatedNssaRefresh]
  split
  · rfl
  split
  · generalize lsaTranslatedNssaNew env s.core (s.core.lsas r).data = lsa
    simp only [installExternal]
    rw [finishInstall_touches.others other ne,store_placed.others other ne,unwrapped_others _ ne,
      alloc_other ne]
  · rfl

theorem installType_same (lt : r < s.core.next) :
    SameLsa ((installType env s oi r).1.core.lsas r) (s.core.lsas r) := by
  by_cases hp : Plain (s.core.lsas r)
  · exact (installType_touches hp).same
  obtain ⟨ty,hf⟩ := Classical.not_imp.mp hp
  have core : (installType env s oi r).1.core = (translatedNssaRefresh env s r).core := by
    simp only [installType,ty,hf]
    rfl
  rw [core]
  exact SameLsa.of_eq (translatedNssaRefresh_other lt)

theorem lsaInstall_same (lt : r < s.core.next)
    (hf : installDb (s.core.lsas r).data.type (s.core.lsas r).area = some db)
    (hk : (s.core.lsas r).data.lsSeqnum = wrapped →
      lsaIsSelfOriginated s.core (s.core.lsas r)) :
    SameLsa ((lsaInstall env s oi r).1.core.lsas r) (installed s.core r) := by
  have lt' : r < (store ⟨unwrapped s.core r,s.net⟩ db r).core.next := by
    rw [(@store_placed ⟨unwrapped s.core r,s.net⟩ db r).next]
    unfold unwrapped
    split <;> exact lt
  have ht := @installType_same env _ oi r lt'
  rw [store_unwrapped_lsa] at ht
  rw [lsaInstall_eq hf hk]
  simp only
  split
  · exact finishInstall_touches.same.trans ht
  · exact ht

theorem lsaInstall_config (hfo : installDb (s.core.lsas r).data.type (s.core.lsas r).area = some db)
    (hk : (s.core.lsas r).data.lsSeqnum = wrapped →
      lsaIsSelfOriginated s.core (s.core.lsas r))
    (plain : Plain (s.core.lsas r))
    (hf : (s.core.lsas r).received ∨
      (s.core.lsas r).data.type ≠ Lsa.routerLsa ∧ (s.core.lsas r).data.type ≠ Lsa.networkLsa) :
    SameConfig s.core (lsaInstall env s oi r).1.core := by
  obtain ⟨ty,-,hr,-⟩ := @installed_fields r s.core
  have cfg := (@store_unwrapped_config s db r).trans
      (@installType_config env _ oi r (by rw [store_unwrapped_lsa]; exact installed_plain plain)
        (by rw [store_unwrapped_lsa,ty,hr]; exact hf))
  rw [lsaInstall_eq hfo hk]
  simp only
  split
  · obtain ⟨maxage,eq⟩ := @finishInstall_core _ r
    rw [eq]
    exact cfg.trans ⟨rfl,rfl,rfl,rfl,rfl,rfl,rfl⟩
  · exact cfg

end

section

variable {env : Env} {core : Core} {net : Net} {oi : Option Nat} {r : Nat}

section

variable (s : State)

theorem discardFromDb_alike (old : Nat) : Alike s.net (discardFromDb s old).net := by
  simp only [discardFromDb]
  split
  · exact Alike.lsRetransmitDeleteNbrAs
  split
  · exact Alike.lsRetransmitDeleteNbrArea
  · exact Alike.refl s.net

theorem store_alike (db : Db) (r : Nat) : Alike s.net (store s db r).net := by
  simp only [store]
  cases s.core.lookup db (s.core.lsas r).key with
  | none => exact Alike.refl s.net
  | some old => exact discardFromDb_alike s old

theorem finishInstall_net (r : Nat) : (finishInstall s r).net = s.net := by
  unfold finishInstall
  split <;> rfl

theorem translatedNssaRefresh_alike (r : Nat) :
    Alike s.net (translatedNssaRefresh env s r).net := by
  simp only [translatedNssaRefresh]
  split
  · exact Alike.refl s.net
  split
  · apply Alike.trans _ Alike.floodInterfaces
    rw [installExternal,finishInstall_net]
    apply Alike.trans _ (store_alike _ _ _)
    exact Alike.lsRetransmitDeleteNbrAs
  · exact Alike.refl s.net

theorem installType_alike (oi : Option Nat) (r : Nat) :
    Alike s.net (installType env s oi r).1.net := by
  have eq := Alike.refl s.net
  simp only [installType]
  split
  · exact eq
  split
  · cases oi <;> exact eq
  split
  · exact eq
  split
  · exact (translatedNssaRefresh_alike s r).trans Alike.emit
  · exact eq

theorem lsaInstall_alike (oi : Option Nat) (r : Nat) :
    Alike s.net (lsaInstall env s oi r).1.net := by
  simp only [lsaInstall]
  split
  · exact Alike.refl s.net
  split
  · exact Alike.refl s.net
  rename_i db hf hs
  have ht : Alike s.net (installType env (store ⟨unwrapped s.core r,s.net⟩ db r) oi r).1.net :=
    (store_alike ⟨unwrapped s.core r,s.net⟩ db r).trans (installType_alike _ oi r)
  split
  · rw [finishInstall_net]
    exact ht
  · exact ht

end

end

section

variable {env : Env} {s : State} {oi : Option Nat} {lsa : Instance}

def Core.Bounded (core : Core) : Prop := ∀ db key r, core.lookup db key = some r → r < core.next

theorem Placed.bounded {c c' : Core} {db : Db} {r : Nat} (hp : Placed c c' db r lsa)
    (hb : c.Bounded) (lt : r < c.next) : c'.Bounded := by
  intro db' key hh hf
  rw [hp.lookup] at hf
  rw [hp.next]
  split at hf
  · cases hf
    exact lt
  · exact hb db' key hh hf

section

variable {core : Core} (hb : core.Bounded)

include hb

theorem Core.Bounded.unheld : core.Unheld core.next :=
  fun db key eq => absurd (hb db key _ eq) (lt_irrefl _)

theorem Core.Bounded.alloc : (core.alloc lsa).Bounded :=
  fun db key r hf => Nat.lt_succ_of_lt (hb db key r hf)

theorem Core.Bounded.alloc_stored (db : Db) (key : LsaKey) :
    (core.alloc lsa).stored db key = core.stored db key := by
  change (core.lookup db key).map (core.alloc lsa).lsas = (core.lookup db key).map core.lsas
  cases hf : core.lookup db key with
  | none => rfl
  | some hh =>
    have ne : hh ≠ core.next := ne_of_lt (hb db key hh hf)
    exact congrArg some (alloc_other ne lsa)

theorem Core.Bounded.alloc_above {db : Db} {key : LsaKey}
    {seqnum : UInt32} : (core.alloc lsa).Above db key seqnum ↔ core.Above db key seqnum := by
  rw [Above,hb.alloc_stored]
  rfl

end

structure Own (lsa : Instance) : Prop where
  self : lsa.self = true
  checked : lsa.selfChecked = true
  plain : lsa.data.lsSeqnum ≠ wrapped

theorem Own.placed (own : Own lsa) (hb : s.core.Bounded) {net : Net} {db : Db}
    (hf : installDb lsa.data.type lsa.area = some db) :
    Placed (s.core.alloc lsa) (lsaInstall env ⟨s.core.alloc lsa,net⟩ oi s.core.next).1.core db
      s.core.next (sealed lsa) := by
  have eq : installed (s.core.alloc lsa) s.core.next = sealed lsa := by
    rw [installed_of_ne (by simpa using own.plain),alloc_new]
  rw [← eq]
  have hu : (s.core.alloc lsa).Unheld s.core.next := hb.unheld
  apply @lsaInstall_placed env ⟨s.core.alloc lsa,net⟩ oi db s.core.next hu
  · simpa using hf
  · intro hw
    exact absurd (by simpa using hw) own.plain
  · simp [Plain,own.self]

theorem Own.config (own : Own lsa) {net : Net} {db : Db}
    (hf : installDb lsa.data.type lsa.area = some db)
    (ho : lsa.data.type ≠ Lsa.routerLsa ∧ lsa.data.type ≠ Lsa.networkLsa) :
    SameConfig s.core (lsaInstall env ⟨s.core.alloc lsa,net⟩ oi s.core.next).1.core := by
  have start : SameConfig s.core (s.core.alloc lsa) := ⟨rfl,rfl,rfl,rfl,rfl,rfl,rfl⟩
  apply start.trans
  apply @lsaInstall_config env ⟨s.core.alloc lsa,net⟩ oi db s.core.next
  · simpa using hf
  · intro hw
    exact absurd (by simpa using hw) own.plain
  · simp [Plain,own.self]
  · exact Or.inr (by simpa using ho)

theorem Own.logs (own : Own lsa) (hb : s.core.Bounded) {net : Net}
    (ha : ∀ db, installDb lsa.data.type lsa.area = some db → s.core.Above db lsa.key lsa.data.lsSeqnum) :
    Logs s.core (lsaInstall env ⟨s.core.alloc lsa,net⟩ oi s.core.next).1.core := by
  cases hf : installDb lsa.data.type lsa.area with
  | none =>
    have hn : lsaInstall env ⟨s.core.alloc lsa,net⟩ oi s.core.next =
        (⟨s.core.alloc lsa,net⟩,none) := by simp [lsaInstall,hf]
    rw [hn]
    exact Logs.of_eq rfl
  | some db =>
    have start : Logs s.core (s.core.alloc lsa) := Logs.of_eq rfl
    apply start.trans
    apply (own.placed hb hf).logs
    intro old hs
    rw [sealed_key,hb.alloc_stored] at hs
    apply Instance.moreRecent_of_seqnum
    rw [sealed_seqnum]
    exact ha db hf old hs

end

end Frr.Ospf
