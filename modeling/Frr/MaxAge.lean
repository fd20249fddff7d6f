import Frr.LsUpdateMoves

/-! The walker that puts LSAs of MaxAge on the MaxAge list, the remover that takes them out of the
databases, and the refresh of an LSA that was aged prematurely. -/
namespace Frr.Ospf

open List Lsa

section

variable (core : Core)

def lsaMaxageWalkerRemover (r : Nat) : Core :=
  let lsa := core.lsas r
  if lsa.localXlt then core
  else if lsa.isMaxAge core.now then
    let checked := selfCheck core r
    if lsaIsSelfOriginated core lsa then checked else lsaMaxage checked r
  else core

/-- `LSDB_LOOP` over the table of a type. -/
def lsdbLoop (db : Db) (type : UInt8) : List Nat :=
  ((core.lsdb db).entries.filter fun entry => entry.1.type = type).map (·.2)

/-- The tables the walker goes through, in an area and in the autonomous system. -/
def areaTypes : List UInt8 :=
  [routerLsa,networkLsa,summaryLsa,asbrSummaryLsa,opaqueAreaLsa,
    opaqueLinkLsa,asNssaLsa]

def asTypes : List UInt8 := [asExternalLsa,opaqueAsLsa]

def walkedLsas : List Nat :=
  (core.areas.flatMap fun a => areaTypes.flatMap fun type => lsdbLoop core (.area a) type) ++
    asTypes.flatMap fun type => lsdbLoop core .as type

/-- `ospf_lsa_maxage_walker`. It changes no database on its way. -/
def lsaMaxageWalker : Core := (walkedLsas core).foldl lsaMaxageWalkerRemover core

end

section

variable (env : Env)

/-- `ospf_summary_lsa_refresh` and `ospf_summary_asbr_lsa_refresh`. -/
def summaryRefresh (type : UInt8) (s : State) (r : Nat) : State :=
  let lsa := s.core.lsas r
  if lsa.data.id = 0xffffffff then s
  else
    match lsa.area with
    | some area =>
      let key := ⟨type,lsa.data.id,s.core.routerId⟩
      installFloodArea env s none
        (ownLsa s.core key (lsa.data.lsSeqnum+1) (env.content s.core key) (some area)) area
    | none => s

def summaryLsaRefresh : State → Nat → State := summaryRefresh env summaryLsa

def summaryAsbrLsaRefresh : State → Nat → State := summaryRefresh env asbrSummaryLsa

def lsaRefresh (s : State) (r : Nat) : State :=
  let lsa := s.core.lsas r
  let type := lsa.data.type
  if type = routerLsa then routerLsaRefresh env s r
  else if type = networkLsa then networkLsaRefresh env s r
  else if type = summaryLsa then summaryLsaRefresh env s r
  else if type = asbrSummaryLsa then summaryAsbrLsaRefresh env s r
  else if type = asExternalLsa then
    if lsa.localXlt then s
    else if env.externalInfoCheck lsa.key (lsa.data.word 0) then externalLsaRefresh env s r
    else lsaFlushAs s r
  else if isOpaque type then opaqueLsaRefresh env s r
  else s

end

section

variable (env : Env) (lsdb : Nat → Option Db)

/-- `ospf_lsdb_delete` from a database. -/
def lsdbRemove (core : Core) (db : Db) (r : Nat) : Core :=
  {core with lsdb := Function.update core.lsdb db (lsdbDelete core r (core.lsdb db))}

/-- The end of a turn of the remover: it discards what the database holds under the key. -/
def removeFromDb (s : State) (db : Db) (r : Nat) : State :=
  let s := (s.core.lookup db (s.core.lsas r).key).elim s (discardFromDb s)
  ⟨lsdbRemove s.core db r,s.net⟩

/-- One turn of the loop in `ospf_maxage_lsa_remover`. -/
def maxageLsaTurn (s : State) (r : Nat) : State :=
  if r ∈ s.core.maxageLsa then
    if 0 < s.net.retransmitCounter r then s
    else
      let s := if (s.core.lsas r).prematureAge then lsaRefresh env s r else s
      (lsdb r).elim s fun db => removeFromDb s db r
  else s

/-- The objects in the order of their addresses, up to where the thread has to yield. -/
def maxageLsaRemover (visit : List Nat) (s : State) : State :=
  if checkNbrStatus s then visit.foldl (maxageLsaTurn env lsdb) s else s

end

section

theorem mem_lsdbLoop {core : Core} {db : Db} {ty : UInt8} {r : Nat} :
    r ∈ lsdbLoop core db ty ↔ ∃ key, key.type = ty ∧ core.lookup db key = some r := by
  simp only [lsdbLoop,mem_map,mem_filter,decide_eq_true_eq]
  constructor
  · rintro ⟨⟨key,hh⟩,⟨mem,eq⟩,rfl⟩
    exact ⟨key,eq,AList.mem_lookup_iff.mpr mem⟩
  rintro ⟨key,eq,hf⟩
  exact ⟨⟨key,r⟩,⟨AList.mem_lookup_iff.mp hf,eq⟩,rfl⟩

def Core.Walked (core : Core) (type : UInt8) : Db → Prop
  | .area a => a ∈ core.areas ∧ type ∈ areaTypes
  | .as => type ∈ asTypes

theorem mem_walkedLsas {core : Core} {r : Nat} :
    r ∈ walkedLsas core ↔ ∃ db key, core.lookup db key = some r ∧ core.Walked key.type db := by
  simp only [walkedLsas,mem_append,mem_flatMap,mem_lsdbLoop]
  constructor
  · rintro (⟨a,area,type,hw,key,rfl,hf⟩ | ⟨type,hw,key,rfl,hf⟩)
    · exact ⟨.area a,key,hf,area,hw⟩
    · exact ⟨.as,key,hf,hw⟩
  rintro ⟨db,key,hf,hw⟩
  cases db with
  | area a => exact .inl ⟨a,hw.1,key.type,hw.2,key,rfl,hf⟩
  | as => exact .inr ⟨key.type,hw,key,rfl,hf⟩

section

variable {p : Policy} {c : Core}

theorem Kept.lsaMaxageWalkerRemover {r : Nat} (lt : r < c.next) :
    Kept p c (lsaMaxageWalkerRemover c r) := by
  simp only [Ospf.lsaMaxageWalkerRemover]
  split
  · exact refl c
  split
  · split
    · exact selfCheck
    have hc : Kept p c (Ospf.selfCheck c r) := selfCheck
    exact hc.trans (lsaMaxage (lt_of_lt_of_le lt hc.next))
  · exact refl c

theorem Kept.walk {lsas : List Nat} (lt : ∀ r ∈ lsas, r < c.next) :
    Kept p c (lsas.foldl Ospf.lsaMaxageWalkerRemover c) := by
  induction lsas generalizing c with
  | nil => exact refl c
  | cons r rest ih =>
    have fst : Kept p c (Ospf.lsaMaxageWalkerRemover c r) :=
      lsaMaxageWalkerRemover (lt r (.head _))
    apply fst.trans
    apply ih
    exact fun ho mem =>
      lt_of_lt_of_le (lt ho (.tail _ mem)) fst.next

theorem Kept.lsaMaxageWalker (hr : c.Refers) : Kept p c (lsaMaxageWalker c) := by
  apply walk
  intro r mem
  obtain ⟨db,key,hf,-⟩ := mem_walkedLsas.mp mem
  exact (hr.stored db key r hf).1

theorem Kept.lsdbRemove {db : Db} {r : Nat} : Kept p c (lsdbRemove c db r) := by
  simp only [Ospf.lsdbRemove,lsdbDelete]
  split
  · exact erase
  rw [Function.update_eq_self]
  exact refl c

end

namespace Moves

variable {p : Policy} {env : Env} {lsdb : Nat → Option Db} {s : State} {r : Nat}

theorem summaryRefresh (fit : Fit p s.core) {ty : UInt8} (ne : ty ≠ linkColourLsa) :
    Moves p s (summaryRefresh env ty s r) := by
  simp only [Ospf.summaryRefresh]
  split
  · exact .refl
  split
  · exact installFloodArea fit (standard rfl ne)
  · exact .refl

theorem lsaRefresh (fit : Fit p s.core) (plain : env.Plain p.coloured) (lt : r < s.core.next)
    (ha : p.adds r) : Moves p s (lsaRefresh env s r) := by
  simp only [Ospf.lsaRefresh]
  split
  · exact routerLsaRefresh fit
  split
  · exact networkLsaRefresh fit
  split
  · exact summaryRefresh fit (by decide)
  split
  · exact summaryRefresh fit (by decide)
  split
  · split
    · exact .refl
    split
    · exact externalLsaRefresh fit
    · exact lsaFlushAs lt ha
  split
  · exact opaqueLsaRefresh fit plain lt ha
  · exact .refl

theorem removeFromDb {db : Db}
    (hs : ∀ old, s.core.lookup db (s.core.lsas r).key = some old → p.stores old) :
    Moves p s (removeFromDb s db r) := by
  have discarded : Moves p s
      ((s.core.lookup db (s.core.lsas r).key).elim s (Ospf.discardFromDb s)) := by
    cases hf : s.core.lookup db (s.core.lsas r).key with
    | none => exact .refl
    | some old => exact discardFromDb (hs old hf)
  exact discarded.trans (core Kept.lsdbRemove)

theorem maxageLsaTurn (fit : Fit p s.core) (plain : env.Plain p.coloured) (ha : p.adds r)
    (others : ∀ db old, lsdb r = some db → s.core.lookup db (s.core.lsas r).key = some old →
      p.stores old) :
    Moves p s (maxageLsaTurn env lsdb s r) := by
  simp only [Ospf.maxageLsaTurn]
  split
  · rename_i hl
    have lt := fit.refers.maxage r hl
    split
    · exact .refl
    have hr : Moves p s (if (s.core.lsas r).prematureAge then Ospf.lsaRefresh env s r else s) := by
      split
      · exact lsaRefresh fit plain lt ha
      · exact .refl
    generalize (if (s.core.lsas r).prematureAge then Ospf.lsaRefresh env s r else s) = t
      at hr
    cases hh : lsdb r with
    | none => exact hr
    | some db =>
      apply hr.trans
      apply removeFromDb
      intro old hf
      by_contra fixed
      rw [hr.kept.key r lt] at hf
      exact fixed (others db old hh (hr.kept.held db _ old fixed hf))
  · exact .refl

theorem maxageTurns (free : p.Free) (plain : env.Plain p.coloured) {visit : List Nat} {s : State}
    (fit : Fit p s.core) : Moves p s (visit.foldl (Ospf.maxageLsaTurn env lsdb) s) := by
  apply states _ _ fit
  exact fun s r fit => maxageLsaTurn fit plain (free.adds r) fun _ old _ _ => free.stores old

theorem maxageLsaRemover (free : p.Free) (plain : env.Plain p.coloured) {visit : List Nat}
    (fit : Fit p s.core) : Moves p s (maxageLsaRemover env lsdb visit s) := by
  simp only [Ospf.maxageLsaRemover]
  split
  · exact maxageTurns free plain fit
  · exact .refl

end Moves

end

end Frr.Ospf
