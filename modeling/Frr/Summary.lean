import Frr.NsmRuns

/-! The end of the negotiation: which LSAs that flooding would send are described to a neighbor, or
wait on its retransmission list. -/
namespace Frr.Ospf

open List Lsa Net

section

variable (core : Core) (r : Nat)

def AsWide (type : UInt8) : Prop := type = asExternalLsa ∨ type = opaqueAsLsa

instance (type : UInt8) : Decidable (AsWide type) := inferInstanceAs (Decidable (_ ∨ _))

/-- The interfaces that `ospf_flood_through` does not pass over. -/
def floodedInterfaces : List Nat :=
  if AsWide (core.lsas r).data.type then asInterfaces core r
  else (core.lsas r).area.elim [] (areaInterfaces core r)

def opaqueCapable (nbr : Neighbor) : Prop :=
  isOpaque (core.lsas r).data.type = true → nbr.options &&& optionO ≠ 0

end

/-- What flooding would send to a neighbor: a type that is accepted, a scope that takes in its
interface, not of MaxAge, and opaque only if the neighbor knows opaque LSAs. -/
structure Offered (s : State) (n r : Nat) : Prop where
  stored : ∃ db key, s.core.lookup db key = some r
  accepted : minLsa ≤ (s.core.lsas r).data.type ∧ (s.core.lsas r).data.type < maxLsa
  scope : (s.net.neighbor n).oi ∈ floodedInterfaces s.core r
  young : (s.core.lsas r).isMaxAge s.core.now = false
  capable : opaqueCapable s.core r (s.net.neighbor n)

def Pending (s : State) (n r : Nat) : Prop :=
  (s.net.neighbor n).dbSum.lookup (s.core.lsas r).key = some r ∨
    (s.net.neighbor n).lsRxmt.lookup (s.core.lsas r).key = some r

def describedTypes : List UInt8 :=
  [routerLsa,networkLsa,summaryLsa,asbrSummaryLsa,asExternalLsa,
    opaqueLinkLsa,opaqueAreaLsa,opaqueAsLsa]

/-- Not a translation, and of a type that is described at all. -/
def Described (options : UInt8) (lsa : Instance) : Prop :=
  lsa.localXlt = false ∧
    (lsa.data.type ∈ describedTypes ∨ lsa.data.type = asNssaLsa ∧ options &&& optionNp ≠ 0)

section

variable {core : Core} {n r : Nat} {net : Net}

/-- What `ospf_db_summary_add` does not pass over, on an interface. -/
def Summarised (core : Core) (oi r : Nat) : Prop :=
  ((core.lsas r).data.type = opaqueLinkLsa → (core.lsas r).oi = some oi) ∧
    (core.lsas r).localXlt = false

theorem dbSummaryAdd_oi (q : Nat) :
    ((dbSummaryAdd core n net q).neighbor n).oi = (net.neighbor n).oi := by
  simp only [dbSummaryAdd]
  split
  · rfl
  split
  · rfl
  split
  · exact Alike.lsRetransmitAdd.oi n
  · simp [setNbr]

theorem lsRetransmitAdd_dbSum (q : Nat) :
    ((lsRetransmitAdd core net n q).neighbor n).dbSum = (net.neighbor n).dbSum := by
  simp only [lsRetransmitAdd]
  split
  · cases lsRetransmitLookup core net n q with
    | none => simp [lsRetransmitReplace,setNbr,Net.count]
    | some old => simp [lsRetransmitReplace,setNbr,Net.count]
  · rfl

theorem lsdbDelete_lookup_ne {table : Table} {key : LsaKey} {old : Nat}
    (ne : key ≠ (core.lsas old).key) : (lsdbDelete core old table).lookup key = table.lookup key := by
  simp only [lsdbDelete]
  split
  · exact AList.lookup_erase_ne ne
  · rfl

def Keyed (core : Core) (table : Table) : Prop :=
  ∀ key q, table.lookup key = some q → (core.lsas q).key = key

theorem Keyed.lsdbDelete {table : Table} (keyed : Keyed core table) (old : Nat) :
    Keyed core (lsdbDelete core old table) := by
  intro key q hf
  apply keyed
  simp only [Ospf.lsdbDelete] at hf
  split at hf
  · exact (lookup_erase_some hf).2
  · exact hf

theorem Keyed.insert {table : Table} (keyed : Keyed core table) (q : Nat) :
    Keyed core (table.insert (core.lsas q).key q) := by
  intro key hh hf
  by_cases eq : key = (core.lsas q).key
  · subst eq
    rw [AList.lookup_insert] at hf
    cases hf
    rfl
  rw [AList.lookup_insert_ne eq] at hf
  exact keyed key hh hf

theorem lsRetransmitAdd_lsRxmt (q : Nat) :
    ∃ table, (table = (net.neighbor n).lsRxmt ∨
        ∃ old, lsRetransmitLookup core net n q = some old ∧
          table = lsdbDelete core old (net.neighbor n).lsRxmt) ∧
      (((lsRetransmitAdd core net n q).neighbor n).lsRxmt = (net.neighbor n).lsRxmt ∨
        ((lsRetransmitAdd core net n q).neighbor n).lsRxmt = table.insert (core.lsas q).key q) := by
  simp only [lsRetransmitAdd]
  split
  · cases hf : lsRetransmitLookup core net n q with
    | none =>
      refine ⟨_,.inl rfl,.inr ?_⟩
      simp [lsRetransmitReplace,setNbr,Net.count]
    | some old =>
      refine ⟨_,.inr ⟨old,rfl,rfl⟩,.inr ?_⟩
      simp [lsRetransmitReplace,setNbr,Net.count]
  · exact ⟨_,.inl rfl,.inl rfl⟩

section

variable (keyed : Keyed core (net.neighbor n).lsRxmt)

include keyed

theorem Keyed.lsRetransmitAdd (q : Nat) :
    Keyed core ((lsRetransmitAdd core net n q).neighbor n).lsRxmt := by
  obtain ⟨table,origin,eq | ha⟩ := @lsRetransmitAdd_lsRxmt core n net q
  · rwa [eq]
  rw [ha]
  apply Keyed.insert
  rcases origin with rfl | ⟨old,-,rfl⟩
  · exact keyed
  · exact keyed.lsdbDelete old

theorem lsRetransmitAdd_lookup_ne {q : Nat} {key : LsaKey} (ne : key ≠ (core.lsas q).key) :
    ((lsRetransmitAdd core net n q).neighbor n).lsRxmt.lookup key =
      (net.neighbor n).lsRxmt.lookup key := by
  obtain ⟨table,origin,eq | ha⟩ := @lsRetransmitAdd_lsRxmt core n net q
  · rw [eq]
  rw [ha,AList.lookup_insert_ne ne]
  rcases origin with rfl | ⟨old,hf,rfl⟩
  · rfl
  apply lsdbDelete_lookup_ne
  rwa [keyed _ old hf]

theorem Keyed.dbSummaryAdd (q : Nat) :
    Keyed core ((dbSummaryAdd core n net q).neighbor n).lsRxmt := by
  simp only [Ospf.dbSummaryAdd]
  split
  · exact keyed
  split
  · exact keyed
  split
  · exact keyed.lsRetransmitAdd q
  · simpa [setNbr] using keyed

theorem dbSummaryAdd_other {q : Nat} {key : LsaKey} (ne : key ≠ (core.lsas q).key) :
    ((dbSummaryAdd core n net q).neighbor n).dbSum.lookup key =
        (net.neighbor n).dbSum.lookup key ∧
      ((dbSummaryAdd core n net q).neighbor n).lsRxmt.lookup key =
        (net.neighbor n).lsRxmt.lookup key := by
  simp only [dbSummaryAdd]
  split
  · exact ⟨rfl,rfl⟩
  split
  · exact ⟨rfl,rfl⟩
  split
  · exact ⟨by rw [lsRetransmitAdd_dbSum],lsRetransmitAdd_lookup_ne keyed ne⟩
  · simp [setNbr,AList.lookup_insert_ne ne]

end

theorem dbSummaryAdd_own (hy : (core.lsas r).isMaxAge core.now = false) :
    (((dbSummaryAdd core n net r).neighbor n).dbSum.lookup (core.lsas r).key = some r ↔
        (net.neighbor n).dbSum.lookup (core.lsas r).key = some r ∨
          Summarised core (net.neighbor n).oi r) ∧
      ((dbSummaryAdd core n net r).neighbor n).lsRxmt = (net.neighbor n).lsRxmt := by
  simp only [dbSummaryAdd,hy,Summarised]
  split
  · rename_i he
    simp [he]
  rename_i hh
  split
  · rename_i ht
    simp [ht]
  rename_i original
  simp only [Bool.false_eq_true,if_false]
  have hth : (core.lsas r).data.type = opaqueLinkLsa →
      (core.lsas r).oi = some (net.neighbor n).oi := by
    intro ty
    by_contra he
    exact hh ⟨ty,he⟩
  simp only [setNbr,Function.update_self,AList.lookup_insert,true_iff,and_true]
  exact .inr ⟨hth,Bool.eq_false_iff.mpr original⟩

/-- An LSA not of MaxAge stays on the retransmission list; it is in the summary list if it was, or
if there was a turn for it and it is not passed over. -/
theorem summary_walk {lsas : List Nat} (hy : (core.lsas r).isMaxAge core.now = false)
    (hdi : ∀ q ∈ lsas, q ≠ r → (core.lsas r).key ≠ (core.lsas q).key)
    (keyed : Keyed core (net.neighbor n).lsRxmt) :
    (((lsas.foldl (dbSummaryAdd core n) net).neighbor n).dbSum.lookup (core.lsas r).key = some r ↔
        (net.neighbor n).dbSum.lookup (core.lsas r).key = some r ∨
          r ∈ lsas ∧ Summarised core (net.neighbor n).oi r) ∧
      ((lsas.foldl (dbSummaryAdd core n) net).neighbor n).lsRxmt.lookup (core.lsas r).key =
        (net.neighbor n).lsRxmt.lookup (core.lsas r).key := by
  induction lsas generalizing net with
  | nil => simp
  | cons q rest ih =>
    have others : ∀ p ∈ rest, p ≠ r → (core.lsas r).key ≠ (core.lsas p).key :=
      fun p mem => hdi p (.tail _ mem)
    obtain ⟨summ,list⟩ := ih others (keyed.dbSummaryAdd q)
    rw [foldl_cons,summ,list,dbSummaryAdd_oi,mem_cons]
    by_cases own : q = r
    · subst own
      obtain ⟨hd,eq⟩ := @dbSummaryAdd_own core n q net hy
      rw [hd,eq]
      refine ⟨?_,rfl⟩
      constructor
      · rintro ((old | ht) | ⟨-,ht⟩)
        · exact .inl old
        · exact .inr ⟨.inl rfl,ht⟩
        · exact .inr ⟨.inl rfl,ht⟩
      rintro (old | ⟨-,ht⟩)
      · exact .inl (.inl old)
      · exact .inl (.inr ht)
    · obtain ⟨hd,eq⟩ := dbSummaryAdd_other keyed (hdi q (.head _) own)
      rw [hd,eq]
      simp [Ne.symm own]

end

section

variable {s : State} {n r : Nat}

/-- The tables of `nsm_negotiation_done`, in the area of the neighbor and in the autonomous system.
-/
def areaSummaryTypes (nbr : Neighbor) : List UInt8 :=
  [routerLsa,networkLsa,summaryLsa,asbrSummaryLsa] ++
    (if nbr.options &&& optionO ≠ 0 then [opaqueLinkLsa,opaqueAreaLsa] else []) ++
    (if nbr.options &&& optionNp ≠ 0 then [asNssaLsa] else [])

def External (core : Core) (oi : Nat) : Prop :=
  (core.interface oi).type ≠ .virtualLink ∧
    (core.area (core.interface oi).area).externalRouting = .default

instance (core : Core) (oi : Nat) : Decidable (External core oi) :=
  inferInstanceAs (Decidable (_ ∧ _))

def asSummaryTypes (core : Core) (nbr : Neighbor) : List UInt8 :=
  (if External core nbr.oi then [asExternalLsa] else []) ++
    (if nbr.options &&& optionO ≠ 0 ∧ External core nbr.oi then [opaqueAsLsa] else [])

theorem summaryLsas_eq : summaryLsas s n = ((areaSummaryTypes (s.net.neighbor n)).flatMap fun ty =>
      lsdbLoop s.core (.area (s.core.interface (s.net.neighbor n).oi).area) ty) ++
    (asSummaryTypes s.core (s.net.neighbor n)).flatMap fun ty => lsdbLoop s.core .as ty := rfl

theorem mem_ite_nil {p : Prop} {decidable : Decidable p} {items : List UInt8} {ty : UInt8} :
    ty ∈ (if p then items else []) ↔ p ∧ ty ∈ items := by
  split
  · rename_i hh
    simp [hh]
  rename_i fails
  simp [fails]

section

variable {nbr : Neighbor} {ty : UInt8}

theorem mem_areaSummaryTypes : ty ∈ areaSummaryTypes nbr ↔
      ty ∈ [routerLsa,networkLsa,summaryLsa,asbrSummaryLsa] ∨
      nbr.options &&& optionO ≠ 0 ∧ ty ∈ [opaqueLinkLsa,opaqueAreaLsa] ∨
      nbr.options &&& optionNp ≠ 0 ∧ ty = asNssaLsa := by
  simp [areaSummaryTypes,mem_append,or_assoc]

theorem mem_asSummaryTypes {core : Core} : ty ∈ asSummaryTypes core nbr ↔ External core nbr.oi ∧
      (ty = asExternalLsa ∨ nbr.options &&& optionO ≠ 0 ∧ ty = opaqueAsLsa) := by
  simp only [asSummaryTypes,mem_append,mem_ite_nil,mem_singleton]
  constructor
  · rintro (⟨he,type5⟩ | ⟨⟨capable,he⟩,type11⟩)
    · exact ⟨he,.inl type5⟩
    · exact ⟨he,.inr ⟨capable,type11⟩⟩
  rintro ⟨he,type5 | ⟨capable,type11⟩⟩
  · exact .inl ⟨he,type5⟩
  · exact .inr ⟨⟨capable,he⟩,type11⟩

theorem not_asWide (mem : ty ∈ areaSummaryTypes nbr) : ¬ AsWide ty := by
  rcases mem_areaSummaryTypes.mp mem with basic | ⟨-,hc⟩ | ⟨-,rfl⟩
  · revert basic
    simp only [mem_cons,not_mem_nil,or_false]
    rintro (rfl | rfl | rfl | rfl) <;> decide
  · revert hc
    simp only [mem_cons,not_mem_nil,or_false]
    rintro (rfl | rfl) <;> decide
  · decide

theorem asWide {core : Core} (mem : ty ∈ asSummaryTypes core nbr) : AsWide ty := by
  rcases mem_asSummaryTypes.mp mem with ⟨-,type5 | ⟨-,type11⟩⟩
  · exact .inl type5
  · exact .inr type11

end

def homeDb (s : State) (n : Nat) (type : UInt8) : Db :=
  if AsWide type then .as else .area (s.core.interface (s.net.neighbor n).oi).area

theorem mem_summaryLsas : r ∈ summaryLsas s n ↔
    ∃ key, s.core.lookup (homeDb s n key.type) key = some r ∧
      (key.type ∈ areaSummaryTypes (s.net.neighbor n) ∨
        key.type ∈ asSummaryTypes s.core (s.net.neighbor n)) := by
  simp only [summaryLsas_eq,mem_append,mem_flatMap,mem_lsdbLoop]
  constructor
  · rintro (⟨ty,mem,key,rfl,hf⟩ | ⟨ty,mem,key,rfl,hf⟩)
    · refine ⟨key,?_,.inl mem⟩
      rwa [homeDb,if_neg (not_asWide mem)]
    refine ⟨key,?_,.inr mem⟩
    rwa [homeDb,if_pos (asWide mem)]
  · rintro ⟨key,hf,mem | mem⟩
    · rw [homeDb,if_neg (not_asWide mem)] at hf
      exact .inl ⟨key.type,mem,key,rfl,hf⟩
    rw [homeDb,if_pos (asWide mem)] at hf
    exact .inr ⟨key.type,mem,key,rfl,hf⟩

variable (wired : s.core.Wired) (hr : s.core.Refers)

include wired in
section

variable (offered : Offered s n r)

include offered

theorem Offered.interface :
    if AsWide (s.core.lsas r).data.type then External s.core (s.net.neighbor n).oi
    else (s.core.lsas r).area = some (s.core.interface (s.net.neighbor n).oi).area ∧
      ((s.core.lsas r).data.type = opaqueLinkLsa →
        (s.core.lsas r).oi = some (s.net.neighbor n).oi) := by
  have scope := offered.scope
  simp only [floodedInterfaces] at scope
  split
  · rename_i hw
    rw [if_pos hw] at scope
    simp only [asInterfaces,mem_flatMap,mem_filter,takesExternal] at scope
    obtain ⟨area,⟨-,takes⟩,hl,hr⟩ := scope
    have hh := wired.area area _ hl
    refine ⟨by simpa using hr,?_⟩
    rw [hh]
    have ho : (s.core.lsas r).data.type ≠ asNssaLsa := by
      rcases hw with eq | eq <;> (rw [eq]; decide)
    cases routing : (s.core.area area).externalRouting with
    | default => rfl
    | stub => simp [routing] at takes
    | nssa => simp [routing,ho] at takes
  · rename_i narrow
    rw [if_neg narrow] at scope
    cases owner : (s.core.lsas r).area with
    | none => simp [owner] at scope
    | some area =>
      simp only [owner,Option.elim_some,areaInterfaces,mem_filter,decide_eq_true_eq] at scope
      obtain ⟨hl,-,link⟩ := scope
      refine ⟨by rw [wired.area area _ hl],fun type9 => ?_⟩
      exact link.resolve_left fun hot => hot type9

include wired hr in
theorem Offered.home :
    s.core.lookup (homeDb s n (s.core.lsas r).data.type) (s.core.lsas r).key = some r := by
  obtain ⟨db,key,hf⟩ := offered.stored
  obtain ⟨-,rfl⟩ := hr.stored db key r hf
  have hh : (if AsWide (s.core.lsas r).data.type then some Db.as
      else if (s.core.lsas r).data.type = asNssaLsa then
        some (((s.core.lsas r).area.map Db.area).getD .as)
      else (s.core.lsas r).area.map Db.area) = some db := hr.home db _ r hf
  have scope := offered.interface wired
  simp only [homeDb]
  split
  · rename_i hw
    rw [if_pos hw] at hh
    cases hh
    exact hf
  rename_i narrow
  rw [if_neg narrow] at scope
  rw [if_neg narrow,scope.1] at hh
  simp only [Option.map_some,Option.getD_some,ite_self] at hh
  cases hh
  exact hf

include wired hr in
theorem Offered.distinct {q : Nat} (mem : q ∈ summaryLsas s n)
    (ne : q ≠ r) : (s.core.lsas r).key ≠ (s.core.lsas q).key := by
  intro eq
  obtain ⟨key,hf,-⟩ := mem_summaryLsas.mp mem
  obtain ⟨-,rfl⟩ := hr.stored _ key q hf
  rw [← eq] at hf
  have hh := offered.home wired hr
  rw [show (s.core.lsas r).data.type = (s.core.lsas r).key.type from rfl,hf] at hh
  exact ne (Option.some.inj hh)

include wired in
theorem Offered.type_iff : (s.core.lsas r).data.type ∈ areaSummaryTypes (s.net.neighbor n) ∨
        (s.core.lsas r).data.type ∈ asSummaryTypes s.core (s.net.neighbor n) ↔
      (s.core.lsas r).data.type ∈ describedTypes ∨
        (s.core.lsas r).data.type = asNssaLsa ∧ (s.net.neighbor n).options &&& optionNp ≠ 0 := by
  have scope := offered.interface wired
  have hc := offered.capable
  simp only [opaqueCapable] at hc
  rw [mem_areaSummaryTypes,mem_asSummaryTypes]
  generalize (s.core.lsas r).data.type = type at scope hc
  constructor
  · rintro ((basic | ⟨-,local'⟩ | ⟨nssa,type7⟩) | ⟨-,type5 | ⟨-,type11⟩⟩)
    · left
      revert basic
      simp only [describedTypes,mem_cons]
      tauto
    · left
      revert local'
      simp only [describedTypes,mem_cons]
      tauto
    · exact .inr ⟨type7,nssa⟩
    · subst type5
      exact .inl (by decide)
    subst type11
    exact .inl (by decide)
  · rintro (hd | ⟨type7,nssa⟩)
    · simp only [describedTypes,mem_cons,not_mem_nil,or_false] at hd
      rcases hd with rfl | rfl | rfl | rfl | rfl | rfl | rfl | rfl
      · exact .inl (.inl (by decide))
      · exact .inl (.inl (by decide))
      · exact .inl (.inl (by decide))
      · exact .inl (.inl (by decide))
      · exact .inr ⟨by simpa [AsWide] using scope,.inl rfl⟩
      · exact .inl (.inr (.inl ⟨hc (by decide),by decide⟩))
      · exact .inl (.inr (.inl ⟨hc (by decide),by decide⟩))
      · exact .inr ⟨by simpa [AsWide] using scope,.inr ⟨hc (by decide),rfl⟩⟩
    · exact .inl (.inr (.inr ⟨nssa,type7⟩))

include wired hr in
theorem Offered.mem_summaryLsas : r ∈ summaryLsas s n ↔ (s.core.lsas r).data.type ∈ describedTypes ∨
        (s.core.lsas r).data.type = asNssaLsa ∧ (s.net.neighbor n).options &&& optionNp ≠ 0 := by
  rw [Ospf.mem_summaryLsas,← offered.type_iff wired]
  constructor
  · rintro ⟨key,hf,hw⟩
    obtain ⟨-,rfl⟩ := hr.stored _ key r hf
    exact hw
  · exact fun hw => ⟨_,offered.home wired hr,hw⟩

include wired hr in
theorem Offered.pending_iff (keyed : Keyed s.core (s.net.neighbor n).lsRxmt) :
    Pending (nsmNegotiationDone s n) n r ↔
      Pending s n r ∨ Described (s.net.neighbor n).options (s.core.lsas r) := by
  obtain ⟨summ,list⟩ := summary_walk offered.young
    (fun q mem ne => offered.distinct wired hr mem ne) keyed
  have scope := offered.interface wired
  have hp : Summarised s.core (s.net.neighbor n).oi r ↔ (s.core.lsas r).localXlt = false := by
    refine and_iff_right fun type9 => ?_
    rw [if_neg (by rw [type9]; decide)] at scope
    exact scope.2 type9
  rw [hp,offered.mem_summaryLsas wired hr] at summ
  constructor
  · rintro (hd | hl)
    · rcases summ.mp hd with old | ⟨ty,original⟩
      · exact .inl (.inl old)
      · exact .inr ⟨original,ty⟩
    · exact .inl (.inr (list.symm.trans hl))
  · rintro ((old | hl) | ⟨original,ty⟩)
    · exact .inl (summ.mpr (.inl old))
    · exact .inr (list.trans hl)
    · exact .inl (summ.mpr (.inr ⟨ty,original⟩))

end

end

section

/-- After the negotiation, an LSA that flooding would send is in the summary or retransmission list
if and only if it was before, or is not a translation and of a type that is described to the
neighbor. -/
theorem pending_iff_described (d : Daemon) (initial : d.Initial) (events : List DaemonEvent)
    (n r : Nat) :
    let s := (Trace.run Daemon.step events d).toState
    Offered s n r → (Pending (nsmNegotiationDone s n) n r ↔
      Pending s n r ∨ Described (s.net.neighbor n).options (s.core.lsas r)) := by
  intro s offered
  have hs : Sound True (fun _ => False) _ (Trace.run Daemon.step events d) :=
    (initial.run events).sound
  apply offered.pending_iff hs.wired hs.refers
  intro key q hf
  exact (hs.counted.keyed n key q hf).1.symm

def restarted (lsa : Lsa) : List DaemonEvent :=
  adjacency ++
    [.work (.lsUpd quietEnv 1 [lsa]), .nsm quietHooks 1 .killNbr, .hello 0 2 0x0a000002,
      .nsm quietHooks 2 .packetReceived, .nsm quietHooks 2 .twoWayReceived]

theorem linkless_pending : Pending (nsmNegotiationDone
      (Trace.run Daemon.step (restarted (linkless 2 0x80000001)) station).toState 2) 2 1 := by
  apply (pending_iff_described station station_initial (restarted (linkless 2 0x80000001)) 2 1
    ⟨⟨.area 0,⟨routerLsa,2,2⟩,?_⟩,?_,?_,?_,?_⟩).mpr
  · exact .inr ⟨by decide +kernel,.inl (by decide +kernel)⟩
  · decide +kernel
  · decide +kernel
  · decide +kernel
  · decide +kernel
  simp only [opaqueCapable]
  decide +kernel

/-- It is not described to a neighbor in ExStart that was not there when it was flooded. -/
theorem coloured_lsa_not_pending :
    let d := Trace.run Daemon.step
      (restarted (sent ⟨linkColourLsa,0,2⟩ 0x80000001 [0,0,0,0])) station
    (d.net.neighbor 2).state = .exStart ∧ Offered d.toState 2 1 ∧
      ¬ Pending (nsmNegotiationDone d.toState 2) 2 1 := by
  refine ⟨by decide +kernel,⟨⟨.area 0,⟨linkColourLsa,0,2⟩,?_⟩,?_,?_,?_,?_⟩,?_⟩
  · decide +kernel
  · decide +kernel
  · decide +kernel
  · decide +kernel
  · simp only [opaqueCapable]
    decide +kernel
  simp only [Pending]
  decide +kernel

end

end Frr.Ospf
