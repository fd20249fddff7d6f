import Frr.LsaInstalled

/-! Every link state procedure is a sequence of moves: objects and databases change without an
object changing its key, a packet or an event leaves, a summary or request list changes, an object
is added to a retransmission list or taken off. What holds in every run is proved for one move at a
time. -/
namespace Frr.Ospf

open List Function Ospf.Core

section

structure Interface.Same (i j : Interface) : Prop where
  area : j.area = i.area
  type : j.type = i.type
  nbrSelf : j.nbrSelf = i.nbrSelf
  fullNbrs : j.fullNbrs = i.fullNbrs

theorem Interface.Same.refl (i : Interface) : i.Same i := ⟨rfl,rfl,rfl,rfl⟩

theorem Interface.Same.trans {i j k : Interface} (fst : i.Same j) (snd : j.Same k) :
    i.Same k :=
  ⟨snd.area.trans fst.area,snd.type.trans fst.type,
    snd.nbrSelf.trans fst.nbrSelf,snd.fullNbrs.trans fst.fullNbrs⟩

/-- Objects referred to exist, and a database holds an object under its key; it is the one the
object was installed in. -/
structure Core.Refers (core : Core) : Prop where
  stored : ∀ db key r, core.lookup db key = some r → r < core.next ∧ (core.lsas r).key = key
  home : ∀ db key r, core.lookup db key = some r → installDb key.type (core.lsas r).area = some db
  network : ∀ oi r, (core.interface oi).networkLsaSelf = some r → r < core.next
  maxage : ∀ r ∈ core.maxageLsa, r < core.next

/-- Whether a procedure may make objects with colours, which objects it may store or add to
retransmission lists, and which neighbors it may add to in any state. -/
structure Policy where
  coloured : Prop
  stores : Nat → Prop
  adds : Nat → Prop
  exempt : Nat → Prop

structure Policy.Free (p : Policy) : Prop where
  stores : ∀ r, p.stores r
  adds : ∀ r, p.adds r

/-- An object keeps its key, and does not get younger than MaxAge. Objects with colours are made
only where allowed. An object that may not be stored is not stored anew, and while stored, in one
place, stays on the MaxAge list. -/
structure Kept (p : Policy) (c c' : Core) : Prop where
  next : c.next ≤ c'.next
  key : ∀ r, r < c.next → (c'.lsas r).key = (c.lsas r).key
  aged : ∀ r, r < c.next → (c.lsas r).isMaxAge c.now = true → (c'.lsas r).isMaxAge c'.now = true
  made : ∀ r, c.next ≤ r → r < c'.next → (c'.lsas r).key.type = linkColourLsa → p.coloured
  interface : ∀ oi, (c.interface oi).Same (c'.interface oi)
  area : ∀ a, (c'.area a).oiflist = (c.area a).oiflist
  oiflist : c'.oiflist = c.oiflist
  refers : c.Refers → c'.Refers
  held : ∀ db key r, ¬ p.stores r → c'.lookup db key = some r → c.lookup db key = some r
  stays : ∀ db key r, ¬ p.stores r →
    (∀ db' key', c.lookup db' key' = some r → db' = db ∧ key' = key) →
    c'.lookup db key = some r → r ∈ c.maxageLsa → r ∈ c'.maxageLsa

namespace Kept

variable {p : Policy} {c c' c'' : Core}

theorem refl (c : Core) : Kept p c c :=
  ⟨le_rfl,fun _ _ => rfl,fun _ _ => id,
    fun _ le lt => absurd (lt_of_lt_of_le lt le) (lt_irrefl _),fun _ => .refl _,
    fun _ => rfl,rfl,id,fun _ _ _ _ => id,fun _ _ _ _ _ _ => id⟩

theorem trans (fst : Kept p c c') (snd : Kept p c' c'') : Kept p c c'' where
  next := le_trans fst.next snd.next
  key r lt := (snd.key r (lt_of_lt_of_le lt fst.next)).trans (fst.key r lt)
  aged r lt old := snd.aged r (lt_of_lt_of_le lt fst.next) (fst.aged r lt old)
  made r le lt colour := by
    by_cases he : r < c'.next
    · rw [snd.key r he] at colour
      exact fst.made r le he colour
    · exact snd.made r (Nat.le_of_not_lt he) lt colour
  interface oi := (fst.interface oi).trans (snd.interface oi)
  area a := (snd.area a).trans (fst.area a)
  oiflist := snd.oiflist.trans fst.oiflist
  refers start := snd.refers (fst.refers start)
  held db key r hf hfo := fst.held db key r hf (snd.held db key r hf hfo)
  stays db key r hf hs hfo hm := by
    have between := snd.held db key r hf hfo
    apply snd.stays db key r hf _ hfo (fst.stays db key r hf hs between hm)
    exact fun db' key' ht => hs db' key' (fst.held db' key' r hf ht)

theorem setLsa {r : Nat} {lsa : Instance} (key : lsa.key = (c.lsas r).key)
    (area : lsa.area = (c.lsas r).area)
    (ha : (c.lsas r).isMaxAge c.now → lsa.isMaxAge c.now) :
    Kept p c (c.setLsa r lsa) where
  __ := refl c
  key ho _ := by
    by_cases hs : ho = r
    · rw [hs,setLsa_same,key]
    · rw [setLsa_other hs]
  aged ho _ old := by
    by_cases hs : ho = r
    · rw [hs] at old ⊢
      rw [setLsa_same]
      exact ha old
    · rwa [setLsa_other hs]
  made _ le lt := absurd (lt_of_lt_of_le lt le) (lt_irrefl _)
  refers start := by
    refine ⟨fun db key' ho hf => ?_,fun db key' ho hf => ?_,start.network,start.maxage⟩
    · obtain ⟨lt,eq⟩ := start.stored db key' ho hf
      refine ⟨lt,?_⟩
      by_cases hs : ho = r
      · rw [hs] at eq ⊢
        rw [setLsa_same,key,eq]
      · rw [setLsa_other hs,eq]
    · have hh := start.home db key' ho hf
      by_cases hs : ho = r
      · rw [hs] at hh ⊢
        rw [setLsa_same,area,hh]
      · rw [setLsa_other hs,hh]

theorem alloc {lsa : Instance} (hp : lsa.key.type = linkColourLsa → p.coloured) :
    Kept p c (c.alloc lsa) where
  next := Nat.le_succ _
  key r lt := by rw [alloc_other (ne_of_lt lt)]
  aged r lt old := by rwa [alloc_other (ne_of_lt lt)]
  made r le lt colour := by
    have hs : r = c.next := le_antisymm (Nat.lt_succ_iff.mp lt) le
    rw [hs,alloc_new] at colour
    exact hp colour
  interface _ := .refl _
  area _ := rfl
  oiflist := rfl
  refers start := by
    refine ⟨fun db key r hf => ?_,fun db key r hf => ?_,fun oi r own => ?_, fun r mem => ?_⟩
    · obtain ⟨lt,eq⟩ := start.stored db key r hf
      rw [alloc_other (ne_of_lt lt)]
      exact ⟨Nat.lt_succ_of_lt lt,eq⟩
    · rw [alloc_other (ne_of_lt (start.stored db key r hf).1)]
      exact start.home db key r hf
    · exact Nat.lt_succ_of_lt (start.network oi r own)
    · exact Nat.lt_succ_of_lt (start.maxage r mem)
  held _ _ _ _ := id
  stays _ _ _ _ _ _ := id

theorem listed {maxage : List Nat} (exist : c.Refers → ∀ r ∈ maxage, r < c.next)
    (hk : ∀ r ∈ c.maxageLsa, ¬ p.stores r → r ∈ maxage) :
    Kept p c {c with maxageLsa := maxage} where
  __ := refl c
  refers start := ⟨start.stored,start.home,start.network,exist start⟩
  stays _ _ r hf _ _ hm := hk r hm hf

theorem lsaMaxage {r : Nat} (lt : r < c.next) : Kept p c (lsaMaxage c r) := by
  simp only [Ospf.lsaMaxage]
  split
  · exact refl c
  apply listed
  · intro start ho mem
    cases mem_append.mp mem with
    | inl hb => exact start.maxage ho hb
    | inr new =>
      cases mem_singleton.mp new
      exact lt
  · exact fun ho mem _ => mem_append_left _ mem

theorem lsaMaxageDelete {r : Nat} (hs : p.stores r) : Kept p c (lsaMaxageDelete c r) := by
  apply listed
  · exact fun start ho mem => start.maxage ho (mem_of_mem_filter mem)
  intro ho mem hf
  apply mem_filter.mpr
  exact ⟨mem,decide_eq_true fun eq => hf (eq ▸ hs)⟩

theorem selfCheck {r : Nat} : Kept p c (selfCheck c r) := setLsa rfl rfl id

theorem markReceived {r : Nat} : Kept p c (markReceived c r) := by
  have hm : Kept p c (c.setLsa r {c.lsas r with received := true}) := setLsa rfl rfl id
  exact hm.trans selfCheck

theorem setSeqnum {r : Nat} {seqnum : UInt32} : Kept p c (setSeqnum c r seqnum) := setLsa rfl rfl id

theorem maxAge_isMaxAge (now : Nat) (lsa : Instance)
    (age : lsa.data.lsAge = UInt16.ofNat Lsa.maxAge) : lsa.isMaxAge now := by
  have val : (UInt16.ofNat Lsa.maxAge).toNat = Lsa.maxAge := by decide
  simp only [Instance.isMaxAge,Instance.lsAge,Instance.getAge,age,val,decide_eq_true_eq]
  exact Nat.min_eq_left (Nat.le_add_right ..)

theorem agedOut {net : Net} {r : Nat} : Kept p c (agedOut ⟨c,net⟩ r) :=
  setLsa rfl rfl fun _ => maxAge_isMaxAge _ _ rfl

theorem unwrapped {r : Nat} : Kept p c (unwrapped c r) := by
  simp only [Ospf.unwrapped]
  split
  · exact setLsa rfl rfl fun _ => maxAge_isMaxAge _ _ rfl
  · exact refl c

theorem sealed_isMaxAge (now : Nat) (lsa : Instance) :
    (sealed lsa).isMaxAge now = lsa.isMaxAge now := by
  simp [Instance.isMaxAge,sealed_lsAge]

/-- What was stored under the key leaves the MaxAge list. -/
theorem insert {db : Db} {r : Nat} {replaced : List Replacement} {maxage : List Nat}
    (lt : r < c.next) (hs : p.stores r)
    (hh : installDb (c.lsas r).key.type (c.lsas r).area = some db) (hfe : ∀ o ∈ maxage, o ∈ c.maxageLsa)
    (hl : ∀ o ∈ c.maxageLsa, o ∉ maxage → c.lookup db (c.lsas r).key = some o) :
    Kept p c {c with
      lsdb := update c.lsdb db ((c.lsdb db).insert (c.lsas r).key r)
      maxageLsa := maxage
      replaced := replaced} where
  __ := refl c
  refers start := by
    refine ⟨fun db' key ho hf => ?_,fun db' key ho hf => ?_,start.network,
      fun o hm => start.maxage o (hfe o hm)⟩
    · rw [Core.lookup,lookup_insert] at hf
      split at hf
      · rename_i eq
        cases hf
        exact ⟨lt,eq.2.symm⟩
      · exact start.stored db' key ho hf
    · rw [Core.lookup,lookup_insert] at hf
      split at hf
      · rename_i eq
        cases hf
        rw [eq.1,eq.2]
        exact hh
      · exact start.home db' key ho hf
  held db' key o hfi hf := by
    rw [Core.lookup,lookup_insert] at hf
    split at hf
    · cases hf
      exact absurd hs hfi
    · exact hf
  stays db' key o hfi hsi hf hm := by
    by_contra gone
    obtain ⟨rfl,rfl⟩ := hsi _ _ (hl o hm gone)
    rw [Core.lookup,lookup_insert,if_pos ⟨rfl,rfl⟩] at hf
    cases hf
    exact hfi hs

theorem setArea {a : Nat} {area : Area} (oiflist : area.oiflist = (c.area a).oiflist) :
    Kept p c (c.setArea a area) := by
  refine {refl c with area := fun ho => ?_, refers := fun start => {start with}}
  by_cases eq : ho = a
  · rw [eq]
    simpa [Core.setArea] using oiflist
  · simp [Core.setArea,eq]

theorem routerLsaInstall {r : Nat} : Kept p c (routerLsaInstall c r) := by
  simp only [Ospf.routerLsaInstall]
  split
  · split
    · exact setArea rfl
    · exact refl c
  · exact refl c

theorem setInterface {oi : Nat} {i : Interface} (eq : (c.interface oi).Same i)
    (exists_ : c.Refers → ∀ r, i.networkLsaSelf = some r → r < c.next) :
    Kept p c (c.setInterface oi i) := by
  refine {refl c with interface := fun ho => ?_, refers := fun start =>
    ⟨start.stored,start.home,fun ho r own => ?_,start.maxage⟩}
  · by_cases hh : ho = oi
    · rw [hh]
      simpa [Core.setInterface] using eq
    · simpa [Core.setInterface,hh] using Interface.Same.refl _
  by_cases eq : ho = oi
  · rw [eq] at own
    simp only [Core.setInterface,update_self] at own
    exact exists_ start r own
  simp only [Core.setInterface,update_of_ne eq] at own
  exact start.network ho r own

theorem networkLsaInstall {oi r : Nat} (lt : r < c.next) : Kept p c (networkLsaInstall c oi r) := by
  simp only [Ospf.networkLsaInstall]
  split
  · apply setInterface
    · exact ⟨rfl,rfl,rfl,rfl⟩
    intro start ho own
    cases own
    exact lt
  · exact refl c

theorem elapse {duration : Nat} : Kept p c {c with now := c.now + duration} := by
  refine {refl c with aged := fun r _ old => ?_, refers := fun start => {start with}}
  have hl : (c.now - (c.lsas r).tvRecv) / 1000000 ≤
      (c.now+duration - (c.lsas r).tvRecv) / 1000000 := Nat.div_le_div_right (by omega)
  have age : min Lsa.maxAge ((c.lsas r).data.lsAge.toNat +
      (c.now - (c.lsas r).tvRecv) / 1000000) = Lsa.maxAge := of_decide_eq_true old
  apply decide_eq_true
  change min Lsa.maxAge ((c.lsas r).data.lsAge.toNat +
    (c.now+duration - (c.lsas r).tvRecv) / 1000000) = Lsa.maxAge
  omega

theorem lookup_erased {db db' : Db} {key key' : LsaKey} {r : Nat}
    (hf : (update c.lsdb db ((c.lsdb db).erase key) db').lookup key' = some r) :
    c.lookup db' key' = some r := by
  rw [Core.lookup]
  by_cases eq : db' = db
  · subst eq
    simp only [update_self] at hf
    by_cases hh : key' = key
    · rw [hh,AList.lookup_erase] at hf
      cases hf
    · rwa [AList.lookup_erase_ne hh] at hf
  · simpa [update_of_ne eq] using hf

theorem erase {db : Db} {key : LsaKey} : Kept p c
      {c with lsdb := update c.lsdb db ((c.lsdb db).erase key)} :=
  {refl c with
    refers := fun start => ⟨fun db' key' r hf => start.stored db' key' r (lookup_erased hf),
      fun db' key' r hf => start.home db' key' r (lookup_erased hf),start.network,
      start.maxage⟩
    held := fun _ _ _ _ => lookup_erased
    stays := fun _ _ _ _ _ _ => id}

end Kept

end

section

inductive Move (p : Policy) : State → State → Prop
  | core {core c : Core} {net : Net} (kept : Kept p core c) : Move p ⟨core,net⟩ ⟨c,net⟩
  | emit {core : Core} {net : Net} {out : Output} : Move p ⟨core,net⟩ ⟨core,net.emit out⟩
  | lists {core : Core} {net : Net} {n : Nat} {dbSum lsReq : Table} {last : Option Nat} :
      Move p ⟨core,net⟩ ⟨core,net.setNbr n
        {net.neighbor n with dbSum := dbSum, lsReq := lsReq, lsReqLast := last}⟩
  | add {core : Core} {net : Net} {n r : Nat} (lt : r < core.next) (adds : p.adds r)
      (target : p.exempt n ∨ (∃ oi, n ∈ net.nbrs oi) ∧
        (.exchange ≤ (net.neighbor n).state ∨ (core.lsas r).key.type = linkColourLsa)) :
      Move p ⟨core,net⟩ ⟨core,lsRetransmitAdd core net n r⟩
  | delete {core : Core} {net : Net} {n r : Nat} {key : LsaKey}
      (held : (net.neighbor n).lsRxmt.lookup key = some r) :
      Move p ⟨core,net⟩ ⟨core,lsRetransmitDelete core net n r⟩

abbrev Moves (p : Policy) : State → State → Prop := Relation.ReflTransGen (Move p)

structure Fit (p : Policy) (core : Core) : Prop where
  refers : core.Refers
  loose : ∀ r, core.next ≤ r ∨ (core.lsas r).isMaxAge core.now = false → p.adds r
  fresh : ∀ r, core.next ≤ r → p.stores r

def Env.Plain (env : Env) (coloured : Prop) : Prop :=
  ∀ lsa key area content, env.opaqueRefresher lsa = .originate key area content →
    key.type = linkColourLsa → coloured

variable {p : Policy} {s s' : State}

theorem Move.alike (move : Move p s s') : s.net.Alike s'.net := by
  cases move with
  | core => exact Net.Alike.refl _
  | emit => exact Net.Alike.emit
  | lists => exact Net.Alike.setNbr rfl
  | add => exact Net.Alike.lsRetransmitAdd
  | delete => exact Net.Alike.lsRetransmitDelete

theorem Move.kept (move : Move p s s') : Kept p s.core s'.core := by
  cases move with
  | core hk => exact hk
  | emit => exact Kept.refl _
  | lists => exact Kept.refl _
  | add => exact Kept.refl _
  | delete => exact Kept.refl _

theorem Moves.alike (hm : Moves p s s') : s.net.Alike s'.net := by
  induction hm with
  | refl => exact Net.Alike.refl _
  | tail _ move ih => exact ih.trans move.alike

theorem Moves.kept (hm : Moves p s s') : Kept p s.core s'.core := by
  induction hm with
  | refl => exact Kept.refl _
  | tail _ move ih => exact ih.trans move.kept

theorem Fit.kept {c c' : Core} (fit : Fit p c) (hk : Kept p c c') : Fit p c' where
  refers := hk.refers fit.refers
  loose r new := by
    apply fit.loose
    by_cases he : r < c.next
    · right
      cases new with
      | inl hl => exact absurd (lt_of_lt_of_le he hk.next) (Nat.not_lt.mpr hl)
      | inr hy =>
        cases old : (c.lsas r).isMaxAge c.now with
        | false => rfl
        | true => rw [hk.aged r he old] at hy; cases hy
    · exact Or.inl (Nat.le_of_not_lt he)
  fresh r new := fit.fresh r (le_trans hk.next new)

theorem Fit.moves (fit : Fit p s.core) (hm : Moves p s s') : Fit p s'.core := fit.kept hm.kept

theorem Moves.core {core c : Core} {net : Net} (hk : Kept p core c) :
    Moves p ⟨core,net⟩ ⟨c,net⟩ := .single (.core hk)

theorem Moves.emit {core : Core} {net : Net} {out : Output} :
    Moves p ⟨core,net⟩ ⟨core,net.emit out⟩ := .single .emit

end

end Frr.Ospf
