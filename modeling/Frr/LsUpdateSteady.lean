import Frr.LsaInstalled

/-! The objects in databases, and those remembered as the router's own, stay created and in their
areas, and none that is stored gets the number after the last one. -/
namespace Frr.Ospf

open Ospf.Core

structure Wf (core : Core) : Prop where
  bounded : core.Bounded
  numbered : ∀ db key r, core.lookup db key = some r → (core.lsas r).data.lsSeqnum ≠ wrapped
  router : ∀ a r, (core.area a).routerLsaSelf = some r →
    r < core.next ∧ (core.lsas r).area = some a

structure Steady (c c' : Core) : Prop where
  next : c.next ≤ c'.next
  owner : ∀ r, r < c.next → (c'.lsas r).area = (c.lsas r).area
  number : ∀ r, r < c.next → (c.lsas r).data.lsSeqnum ≠ wrapped →
    (c'.lsas r).data.lsSeqnum ≠ wrapped
  held : ∀ db key r, c'.lookup db key = some r →
    c.lookup db key = some r ∨ r < c'.next ∧ (c'.lsas r).data.lsSeqnum ≠ wrapped
  router : ∀ a r, (c'.area a).routerLsaSelf = some r →
    (c.area a).routerLsaSelf = some r ∨ r < c'.next ∧ (c'.lsas r).area = some a

namespace Steady

variable {c c' c'' : Core}

theorem refl (c : Core) : Steady c c :=
  ⟨le_rfl,fun _ _ => rfl,fun _ _ => id,fun _ _ _ hf => Or.inl hf, fun _ _ own => Or.inl own⟩

theorem trans (fst : Steady c c') (snd : Steady c' c'') : Steady c c'' where
  next := le_trans fst.next snd.next
  owner r lt := (snd.owner r (lt_of_lt_of_le lt fst.next)).trans (fst.owner r lt)
  number r lt hp := snd.number r (lt_of_lt_of_le lt fst.next) (fst.number r lt hp)
  held db key r hf := by
    cases snd.held db key r hf with
    | inl hb =>
      cases fst.held db key r hb with
      | inl start => exact Or.inl start
      | inr new =>
        exact Or.inr ⟨lt_of_lt_of_le new.1 snd.next,snd.number r new.1 new.2⟩
    | inr new => exact Or.inr new
  router a r own := by
    cases snd.router a r own with
    | inl hb =>
      cases fst.router a r hb with
      | inl start => exact Or.inl start
      | inr new =>
        refine Or.inr ⟨lt_of_lt_of_le new.1 snd.next,?_⟩
        rw [snd.owner r new.1,new.2]
    | inr new => exact Or.inr new

theorem wf (hs : Steady c c') (wf : Wf c) : Wf c' where
  bounded db key r hf := by
    cases hs.held db key r hf with
    | inl hb => exact lt_of_lt_of_le (wf.bounded db key r hb) hs.next
    | inr new => exact new.1
  numbered db key r hf := by
    cases hs.held db key r hf with
    | inl hb =>
      exact hs.number r (wf.bounded db key r hb) (wf.numbered db key r hb)
    | inr new => exact new.2
  router a r own := by
    cases hs.router a r own with
    | inl hb =>
      obtain ⟨lt,area⟩ := wf.router a r hb
      exact ⟨lt_of_lt_of_le lt hs.next,by rw [hs.owner r lt,area]⟩
    | inr new => exact new

theorem of_same (next : c'.next = c.next) (lsas : c'.lsas = c.lsas) (lsdb : c'.lsdb = c.lsdb)
    (area : c'.area = c.area) : Steady c c' where
  next := Nat.le_of_eq next.symm
  owner r _ := by rw [lsas]
  number r _ hp := by rwa [lsas]
  held db key r hf := by
    rw [lookup,lsdb] at hf
    exact Or.inl hf
  router a r own := by
    rw [area] at own
    exact Or.inl own

theorem setLsa {core : Core} {r : Nat} {lsa : Instance} (area : lsa.area = (core.lsas r).area)
    (num : (core.lsas r).data.lsSeqnum ≠ wrapped → lsa.data.lsSeqnum ≠ wrapped) :
    Steady core (core.setLsa r lsa) where
  next := le_rfl
  owner ho _ := by
    by_cases eq : ho = r
    · rw [eq,setLsa_same,area]
    · rw [setLsa_other eq]
  number ho _ hp := by
    by_cases eq : ho = r
    · rw [eq,setLsa_same]
      exact num (eq ▸ hp)
    · rwa [setLsa_other eq]
  held _ _ _ hf := Or.inl hf
  router _ _ own := Or.inl own

theorem alloc {core : Core} {lsa : Instance} : Steady core (core.alloc lsa) where
  next := Nat.le_succ _
  owner r lt := by rw [alloc_other (ne_of_lt lt)]
  number r lt hp := by rwa [alloc_other (ne_of_lt lt)]
  held _ _ _ hf := Or.inl hf
  router _ _ own := Or.inl own

theorem lsaMaxage (core : Core) (r : Nat) : Steady core (lsaMaxage core r) := by
  obtain ⟨maxage,eq⟩ := @lsaMaxage_core r core
  rw [eq]
  exact of_same rfl rfl rfl rfl

theorem finishInstall (s : State) (r : Nat) : Steady s.core (finishInstall s r).core := by
  obtain ⟨maxage,eq⟩ := @finishInstall_core s r
  rw [eq]
  exact of_same rfl rfl rfl rfl

theorem last_ne_wrapped : Lsa.maxSequenceNumber ≠ wrapped := by decide

theorem unwrapped (core : Core) (r : Nat) : Steady core (unwrapped core r) := by
  simp only [Ospf.unwrapped]
  split
  · exact setLsa rfl fun _ => last_ne_wrapped
  · exact refl core

theorem unwrapped_number (core : Core) (r : Nat) :
    ((Ospf.unwrapped core r).lsas r).data.lsSeqnum ≠ wrapped := by
  rw [unwrapped_lsa]
  split
  · exact last_ne_wrapped
  · assumption

theorem store {core : Core} {net : Net} {db : Db} {r : Nat} (lt : r < core.next)
    (hp : (core.lsas r).data.lsSeqnum ≠ wrapped) :
    Steady core (store ⟨core,net⟩ db r).core := by
  obtain ⟨maxage,eq⟩ := @store_core ⟨core,net⟩ db r
  rw [eq]
  have hp' : (sealed (core.lsas r)).data.lsSeqnum ≠ wrapped := by rwa [sealed_lsSeqnum]
  have obj := setLsa (sealed_area (core.lsas r)) fun _ => hp'
  refine ⟨le_rfl,obj.owner,obj.number,fun db' key ho hf => ?_,obj.router⟩
  rw [lookup,lookup_insert] at hf
  split at hf
  · cases hf
    exact Or.inr ⟨lt,by simpa using hp'⟩
  · exact Or.inl hf

theorem routerLsaInstall {core : Core} {r : Nat} (lt : r < core.next) :
    Steady core (routerLsaInstall core r) := by
  simp only [Ospf.routerLsaInstall]
  split
  · split
    · rename_i a area
      refine ⟨le_rfl,fun _ _ => rfl,fun _ _ => id,fun _ _ _ hf => Or.inl hf,
        fun ho r' own => ?_⟩
      by_cases eq : ho = a
      · subst eq
        simp only [Core.setArea,Function.update_self] at own
        cases own
        exact Or.inr ⟨lt,area⟩
      simp only [Core.setArea,Function.update_of_ne eq] at own
      exact Or.inl own
    · exact refl core
  · exact refl core

theorem networkLsaInstall {core : Core} {oi r : Nat} :
    Steady core (networkLsaInstall core oi r) := by
  simp only [Ospf.networkLsaInstall]
  split
  · exact of_same rfl rfl rfl rfl
  · exact refl core

section

variable {env : Env} {core : Core} {net : Net} {oi : Option Nat} {r : Nat}

theorem storeUnwrapped {db : Db} (lt : r < core.next) :
    Steady core (Ospf.store ⟨Ospf.unwrapped core r,net⟩ db r).core :=
  (unwrapped core r).trans (store (lt_of_lt_of_le lt (unwrapped core r).next)
    (unwrapped_number core r))

theorem installExternal {new : Instance} :
    Steady core (installExternal ⟨core.alloc new,net⟩ core.next).core := by
  have hs := @storeUnwrapped (core.alloc new) net core.next .as (Nat.lt_succ_self _)
  exact (alloc.trans hs).trans (finishInstall _ _)

theorem translatedNssaRefresh : Steady core (translatedNssaRefresh env ⟨core,net⟩ r).core := by
  simp only [Ospf.translatedNssaRefresh]
  split
  · exact refl core
  split
  · exact installExternal
  · exact refl core

theorem installType (lt : r < core.next) :
    Steady core (installType env ⟨core,net⟩ oi r).1.core := by
  simp only [Ospf.installType]
  split
  · exact routerLsaInstall lt
  split
  · cases oi with
    | none => exact refl core
    | some oi => exact networkLsaInstall
  split
  · split
    · exact setLsa rfl id
    · exact refl core
  split
  · exact translatedNssaRefresh
  · exact refl core

theorem storedType {db : Db} (lt : r < core.next) :
    Steady core (Ospf.installType env (Ospf.store ⟨Ospf.unwrapped core r,net⟩ db r) oi r).1.core ∧
    ((Ospf.installType env (Ospf.store ⟨Ospf.unwrapped core r,net⟩ db r) oi r).1.core.lsas
      r).data.lsSeqnum ≠ wrapped := by
  have hs := @storeUnwrapped core net r db lt
  have lt' := lt_of_lt_of_le lt hs.next
  have ht := @installType env _ (Ospf.store ⟨Ospf.unwrapped core r,net⟩ db r).net oi r lt'
  refine ⟨hs.trans ht,ht.number r lt' ?_⟩
  rw [@store_unwrapped_lsa ⟨core,net⟩ db r,installed,sealed_lsSeqnum]
  exact unwrapped_number core r

theorem lsaInstall (lt : r < core.next) : Steady core (lsaInstall env ⟨core,net⟩ oi r).1.core := by
  simp only [Ospf.lsaInstall]
  split
  · exact refl core
  rename_i db hf
  split
  · exact refl core
  have ht := (@storedType env core net oi r db lt).1
  split
  · exact ht.trans (finishInstall _ r)
  · exact ht

theorem lsaInstall_number (lt : r < core.next) (wf : Wf core) {s : State} {new : Nat}
    (eq : Ospf.lsaInstall env ⟨core,net⟩ oi r = (s,some new)) :
    (s.core.lsas new).data.lsSeqnum ≠ wrapped := by
  simp only [Ospf.lsaInstall] at eq
  split at eq
  · cases eq
  rename_i db hf
  split at eq
  · obtain ⟨rfl,hf⟩ := Prod.mk.inj eq
    exact wf.numbered _ _ _ hf
  obtain ⟨hs,hp⟩ := @storedType env core net oi r db lt
  split at eq
  · cases eq
    exact (finishInstall _ r).number r (lt_of_lt_of_le lt hs.next) hp
  · cases eq

theorem lsaInstall_alloc {lsa : Instance} :
    Steady core (Ospf.lsaInstall env ⟨core.alloc lsa,net⟩ oi core.next).1.core :=
  alloc.trans (lsaInstall (Nat.lt_succ_self _))

theorem agedOut : Steady core (agedOut ⟨core,net⟩ r) := setLsa rfl id

theorem lsaFlushArea {area : Nat} : Steady core (lsaFlushArea ⟨core,net⟩ r area).core :=
  agedOut.trans (lsaMaxage (Ospf.agedOut ⟨core,net⟩ r) r)

theorem lsaFlushAs : Steady core (lsaFlushAs ⟨core,net⟩ r).core :=
  agedOut.trans (lsaMaxage (Ospf.agedOut ⟨core,net⟩ r) r)

theorem lsaFlush : Steady core (lsaFlush ⟨core,net⟩ r).core := by
  simp only [Ospf.lsaFlush]
  split
  · exact lsaFlushAs
  split
  · split
    · exact lsaFlushArea
    · exact refl core
  · exact setLsa rfl id

theorem routerLsaRefresh : Steady core (routerLsaRefresh env ⟨core,net⟩ r).core := by
  simp only [Ospf.routerLsaRefresh]
  split
  · exact lsaInstall_alloc
  · exact refl core

theorem routerLsaUpdateArea {area : Nat} :
    Steady core (routerLsaUpdateArea env ⟨core,net⟩ area).core := by
  simp only [Ospf.routerLsaUpdateArea]
  split
  · exact routerLsaRefresh
  simp only [routerLsaOriginate]
  split
  · exact refl core
  · exact lsaInstall_alloc

theorem installFloodNew {oi : Nat} {seqnum : UInt32} {s : State} {new : Instance} {area : Nat}
    (hm : networkLsaNew env ⟨core,net⟩ oi seqnum = some (s,new)) :
    Steady core (installFloodArea env s (some oi) new area).core := by
  simp only [networkLsaNew] at hm
  split at hm
  · cases hm
  cases hm
  have hr : Steady core (core.setInterface oi
      {core.interface oi with networkLsaSeqnum := some seqnum}) := of_same rfl rfl rfl rfl
  apply hr.trans
  exact lsaInstall_alloc

theorem networkLsaRefresh : Steady core (networkLsaRefresh env ⟨core,net⟩ r).core := by
  simp only [Ospf.networkLsaRefresh]
  split
  · split
    · rename_i hm
      exact installFloodNew hm
    · exact refl core
  · exact refl core

theorem networkLsaUpdate {oi : Nat} : Steady core (networkLsaUpdate env ⟨core,net⟩ oi).core := by
  simp only [Ospf.networkLsaUpdate]
  split
  · exact networkLsaRefresh
  split
  · rename_i hm
    exact installFloodNew hm
  · exact refl core

theorem foldl {α : Type} {f : State → α → State} (step : ∀ s a, Steady s.core (f s a).core)
    (items : List α) (s : State) : Steady s.core (items.foldl f s).core := by
  induction items generalizing s with
  | nil => exact refl s.core
  | cons a items ih => exact (step s a).trans (ih (f s a))

theorem nssaLsaFlush (s : State) (addr : UInt32) : Steady s.core (nssaLsaFlush s addr).core := by
  apply foldl
  intro s a
  simp only
  split
  · split
    · exact refl s.core
    split
    · exact refl s.core
    · exact lsaFlushArea
  · exact refl s.core

theorem externalLsaFlush {addr mask : UInt32} :
    Steady core (externalLsaFlush ⟨core,net⟩ addr mask).core := by
  simp only [Ospf.externalLsaFlush]
  split
  · exact refl core
  have hs := nssaLsaFlush ⟨core,net⟩ addr
  split
  · split
    · exact hs
    · exact hs.trans lsaFlushAs
  split
  · exact refl core
  · exact lsaFlushAs

theorem installFloodNssa {lsa : Instance} (areas : List Nat) (s : State) :
    Steady s.core (installFloodNssa env lsa areas s).core := by
  induction areas generalizing s with
  | nil => exact refl s.core
  | cons a areas ih =>
    simp only [Ospf.installFloodNssa]
    split
    · split
      · exact refl s.core
      rename_i copy hm
      have hi : Steady s.core (installFloodAs env s copy).core := lsaInstall_alloc
      exact hi.trans (ih _)
    · exact ih s

theorem externalLsaRefresh : Steady core (externalLsaRefresh env ⟨core,net⟩ r).core := by
  simp only [Ospf.externalLsaRefresh]
  split
  · apply Steady.trans _ (installFloodNssa _ _)
    exact lsaInstall_alloc
  · exact externalLsaFlush

theorem opaqueLsaRefresh : Steady core (opaqueLsaRefresh env ⟨core,net⟩ r).core := by
  simp only [Ospf.opaqueLsaRefresh]
  split
  · exact lsaFlush
  · exact refl core
  rename_i key area content refresh
  have hi : Steady core (Ospf.lsaInstall env ⟨core.alloc (ownLsa core key
      ((core.lsas r).data.lsSeqnum + 1) content area),net⟩ none core.next).1.core :=
    lsaInstall_alloc
  split
  · rename_i eq
    rw [eq] at hi
    exact hi
  rename_i eq
  rw [eq] at hi
  exact hi

theorem catchUp {own : Option Nat} (hp : (core.lsas r).data.lsSeqnum ≠ wrapped) :
    Steady core (catchUp ⟨core,net⟩ own r).core := by
  cases own with
  | none => exact refl core
  | some o => exact setLsa rfl fun _ => hp

theorem processSelfOriginatedLsa {area : Nat} (hp : (core.lsas r).data.lsSeqnum ≠ wrapped) :
    Steady core (processSelfOriginatedLsa env ⟨core,net⟩ r area).core := by
  simp only [Ospf.processSelfOriginatedLsa]
  split
  · exact (catchUp hp).trans routerLsaUpdateArea
  split
  · split
    · exact refl core
    split
    · exact refl core
    split
    · exact opaqueLsaRefresh
    · exact (catchUp hp).trans networkLsaUpdate
  split
  · exact refl core
  split
  · split
    · exact externalLsaRefresh
    · exact lsaFlushAs
  split
  · exact opaqueLsaRefresh
  · exact refl core

theorem markReceived : Steady core (markReceived core r) := by
  have hm : Steady core (core.setLsa r {core.lsas r with received := true}) := setLsa rfl id
  exact hm.trans (setLsa rfl id)

theorem flood {n : Nat} {cur : Option Nat} (lt : r < core.next) (wf : Wf core) :
    Steady core (flood env ⟨core,net⟩ n cur r).core := by
  simp only [Ospf.flood]
  split
  · exact refl core
  have hi (net : Net) (oi : Option Nat) :
      Steady core (Ospf.lsaInstall env ⟨Ospf.markReceived core r,net⟩ oi r).1.core :=
    markReceived.trans (lsaInstall lt)
  split
  · rename_i eq
    rw [← congrArg (·.1.core) eq]
    exact hi _ _
  rename_i s new eq
  have start : Steady core s.core := by
    rw [← congrArg (·.1.core) eq]
    exact hi _ _
  have hp : (s.core.lsas new).data.lsSeqnum ≠ wrapped :=
    @lsaInstall_number env (Ospf.markReceived core r) _ _ r lt (markReceived.wf wf) s new eq
  split
  · split
    · exact start.trans (processSelfOriginatedLsa hp)
    · exact start
  split
  · exact start.trans (processSelfOriginatedLsa hp)
  · exact start

theorem notMoreRecent {n cur : Nat} {ret : Int} :
    (notMoreRecent ⟨core,net⟩ n cur r ret).1.core = core := by
  simp only [Ospf.notMoreRecent]
  split
  · rfl
  split
  · split <;> rfl
  split
  · rfl
  split <;> rfl

theorem lsUpdTurn {n : Nat} (lt : r < core.next) (wf : Wf core) :
    Steady core (lsUpdTurn env ⟨core,net⟩ n r).1.core := by
  simp only [Ospf.lsUpdTurn]
  split
  · exact refl core
  split
  · exact refl core
  split
  · exact refl core
  split
  · exact setLsa rfl id
  split
  · exact lsaFlushArea
  simp only [compareWithCopy]
  split
  · exact flood lt wf
  split
  · split
    · exact refl core
    · exact flood lt wf
  rw [notMoreRecent]
  exact refl core

theorem lsUpdLsa {n : Nat} {lsa : Lsa} (wf : Wf core) :
    Steady core (lsUpdLsa env ⟨core,net⟩ n lsa).1.core :=
  alloc.trans (lsUpdTurn (Nat.lt_succ_self _) (alloc.wf wf))

end

end Steady

end Frr.Ospf
