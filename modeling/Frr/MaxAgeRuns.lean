import Frr.NsmRuns

/-! What reaches MaxAge is put on the MaxAge list by the walker, if it comes to it, and leaves its
database when the remover comes to it and no neighbor is in the way. -/
namespace Frr.Ospf

open List Function Net Ospf.Core

section

variable {c : Core} {r : Nat}

def Core.timesOut (core : Core) (r : Nat) : Bool :=
  !(core.lsas r).localXlt && (core.lsas r).isMaxAge core.now &&
    !lsaIsSelfOriginated core (core.lsas r)

theorem lsaIsSelfOriginated_setLsa {lsa other : Instance} :
    lsaIsSelfOriginated (c.setLsa r other) lsa = lsaIsSelfOriginated c lsa := rfl

theorem selfCheck_timesOut (q : Nat) : (selfCheck c q).timesOut r = c.timesOut r := by
  by_cases hh : r = q
  · subst hh
    simp only [timesOut,selfCheck,setLsa_same,lsaIsSelfOriginated_setLsa]
    rfl
  simp only [timesOut,selfCheck,setLsa_other hh,lsaIsSelfOriginated_setLsa]
  rfl

theorem lsaMaxage_timesOut (q : Nat) : (lsaMaxage c q).timesOut r = c.timesOut r := by
  simp only [lsaMaxage]
  split <;> rfl

theorem mem_lsaMaxage {q : Nat} : r ∈ (lsaMaxage c q).maxageLsa ↔ r ∈ c.maxageLsa ∨ r = q := by
  simp only [lsaMaxage]
  split
  · rename_i hl
    constructor
    · exact .inl
    rintro (old | rfl)
    · exact old
    · exact hl
  · simp

theorem lsaMaxageWalkerRemover_timesOut (q : Nat) :
    (lsaMaxageWalkerRemover c q).timesOut r = c.timesOut r := by
  simp only [lsaMaxageWalkerRemover]
  split
  · rfl
  split
  · split
    · exact selfCheck_timesOut q
    · rw [lsaMaxage_timesOut,selfCheck_timesOut]
  · rfl

theorem mem_lsaMaxageWalkerRemover {q : Nat} :
    r ∈ (lsaMaxageWalkerRemover c q).maxageLsa ↔ r ∈ c.maxageLsa ∨ r = q ∧ c.timesOut q := by
  simp only [lsaMaxageWalkerRemover,timesOut]
  split
  · rename_i ht
    simp [ht]
  rename_i hp
  split
  · rename_i old
    split
    · rename_i own
      simp [own,selfCheck,setLsa]
    rename_i hf
    rw [mem_lsaMaxage]
    simp [hp,old,hf,selfCheck,setLsa]
  · rename_i hy
    simp [hy]

theorem mem_walk {lsas : List Nat} {c : Core} :
    r ∈ (lsas.foldl lsaMaxageWalkerRemover c).maxageLsa ↔
      r ∈ c.maxageLsa ∨ r ∈ lsas ∧ c.timesOut r := by
  induction lsas generalizing c with
  | nil => simp
  | cons q rest ih =>
    rw [foldl_cons,ih,mem_lsaMaxageWalkerRemover,lsaMaxageWalkerRemover_timesOut,mem_cons]
    constructor
    · rintro ((old | ⟨rfl,out⟩) | ⟨mem,out⟩)
      · exact .inl old
      · exact .inr ⟨.inl rfl,out⟩
      · exact .inr ⟨.inr mem,out⟩
    rintro (old | ⟨rfl | mem,out⟩)
    · exact .inl (.inl old)
    · exact .inl (.inr ⟨rfl,out⟩)
    · exact .inr ⟨mem,out⟩

theorem mem_lsaMaxageWalker :
    r ∈ (lsaMaxageWalker c).maxageLsa ↔
      r ∈ c.maxageLsa ∨ r ∈ walkedLsas c ∧ c.timesOut r := mem_walk

end

section

variable {p : Policy} {s s' : State} {r : Nat}

theorem lsdbDelete_within {core : Core} {q : Nat} {table : Table} {key : LsaKey}
    (hf : (lsdbDelete core q table).lookup key = some r) : table.lookup key = some r := by
  simp only [lsdbDelete] at hf
  split at hf
  · exact (lookup_erase_some hf).2
  · exact hf

theorem lsRetransmitReplace_within {core : Core} {net : Net} {n m : Nat} {old : Option Nat}
    {key : LsaKey}
    (hf : ((lsRetransmitReplace core net n old).neighbor m).lsRxmt.lookup key = some r) :
    (net.neighbor m).lsRxmt.lookup key = some r := by
  cases old with
  | none => exact hf
  | some o =>
    by_cases hh : m = n
    · subst hh
      simp only [lsRetransmitReplace,setNbr,Net.count,update_self] at hf
      exact lsdbDelete_within hf
    · simpa [lsRetransmitReplace,setNbr,Net.count,update_of_ne hh] using hf

theorem Move.within (hfi : ¬ p.adds r) (move : Move p s s') {n : Nat} {key : LsaKey}
    (hf : (s'.net.neighbor n).lsRxmt.lookup key = some r) :
    (s.net.neighbor n).lsRxmt.lookup key = some r := by
  cases move with
  | core => exact hf
  | emit => exact hf
  | lists =>
    rename_i core net m dbSum lsReq last
    by_cases hh : n = m
    · subst hh
      simpa [setNbr] using hf
    · simpa [setNbr,hh] using hf
  | add lt ha tgt =>
    rename_i core net m q
    simp only [lsRetransmitAdd] at hf
    split at hf
    · by_cases hh : n = m
      · subst hh
        simp only [setNbr,Net.count,update_self] at hf
        by_cases eq : key = (core.lsas q).key
        · rw [eq,AList.lookup_insert] at hf
          cases hf
          exact absurd ha hfi
        rw [AList.lookup_insert_ne eq] at hf
        exact lsRetransmitReplace_within hf
      · simp only [setNbr,Net.count,update_of_ne hh] at hf
        exact lsRetransmitReplace_within hf
    · exact hf
  | delete hhe =>
    rename_i core net m q _
    by_cases hh : n = m
    · subst hh
      simp only [lsRetransmitDelete] at hf
      split at hf
      · simp only [setNbr,Net.count,update_self] at hf
        exact lsdbDelete_within hf
      · exact hf
    · rwa [lsRetransmitDelete_other hh] at hf

theorem Moves.unheld (hfi : ¬ p.adds r) (hm : Moves p s s')
    (hu : ∀ n, s.net.holds n r = false) (n : Nat) : s'.net.holds n r = false := by
  induction hm with
  | refl => exact hu n
  | tail _ move ih =>
    apply Bool.eq_false_iff.mpr
    intro hh
    obtain ⟨key,hf⟩ := holds_iff.mp hh
    have hb := holds_iff.mpr ⟨key,move.within hfi hf⟩
    rw [ih] at hb
    cases hb

end

section

variable {env : Env} {lsdb : Nat → Option Db} {live : List Nat} {db : Db} {key : LsaKey} {r : Nat}
  {s s' : State}

def sparing (r : Nat) : Policy := ⟨True,(· ≠ r),(· ≠ r),fun _ => False⟩

def notStoring (r : Nat) : Policy := ⟨True,(· ≠ r),fun _ => True,fun _ => False⟩

/-- No neighbor holds it; while in its database it is on the MaxAge list. -/
structure Expiring (live : List Nat) (db : Db) (key : LsaKey) (r : Nat) (s : State) : Prop where
  refers : s.core.Refers
  counted : Counted live s
  lives : ∀ oi n, n ∈ s.net.nbrs oi → n ∈ live
  lt : r < s.core.next
  under : (s.core.lsas r).key = key
  old : (s.core.lsas r).isMaxAge s.core.now = true
  single : ∀ db' key', s.core.lookup db' key' = some r → db' = db ∧ key' = key
  unheld : ∀ n, s.net.holds n r = false
  listed : s.core.lookup db key = some r → r ∈ s.core.maxageLsa

structure Gone (r : Nat) (s : State) : Prop where
  refers : s.core.Refers
  lt : r < s.core.next
  old : (s.core.lsas r).isMaxAge s.core.now = true
  absent : ∀ db key, s.core.lookup db key ≠ some r

theorem sparing_fit (hr : s.core.Refers) (lt : r < s.core.next)
    (old : (s.core.lsas r).isMaxAge s.core.now) : Fit (sparing r) s.core where
  refers := hr
  loose q new := by
    rintro rfl
    cases new with
    | inl hl => exact lt_irrefl _ (lt_of_lt_of_le lt hl)
    | inr hy => exact Bool.false_ne_true (hy.symm.trans old)
  fresh q hl := by
    rintro rfl
    exact lt_irrefl _ (lt_of_lt_of_le lt hl)

theorem Expiring.moves (nodup : live.Nodup) (he : Expiring live db key r s)
    (hm : Moves (sparing r) s s') : Expiring live db key r s' := by
  have hfi : ¬ (sparing r).stores r := fun ne => ne rfl
  have hk := hm.kept
  exact
    { refers := hk.refers he.refers
      counted := he.counted.moves nodup he.lives (fun _ => False.elim) hm
      lives := fun oi n mem => by
        rw [hm.alike.nbrs] at mem
        exact he.lives oi n mem
      lt := lt_of_lt_of_le he.lt hk.next
      under := (hk.key r he.lt).trans he.under
      old := hk.aged r he.lt he.old
      single := fun db' key' hf => he.single db' key' (hk.held db' key' r hfi hf)
      unheld := hm.unheld (fun ne : r ≠ r => ne rfl) he.unheld
      listed := fun hf => hk.stays db key r hfi he.single hf (he.listed (hk.held db key r hfi hf)) }

theorem Expiring.turn_other (he : Expiring live db key r s) {q : Nat} (ne : q ≠ r)
    (ho : lsdb q = some db → (s.core.lsas q).key ≠ key) :
    Moves (sparing r) s (maxageLsaTurn env lsdb s q) := by
  apply Moves.maxageLsaTurn (sparing_fit he.refers he.lt he.old) (fun _ _ _ _ _ _ => trivial) ne
  rintro db' old hh hf rfl
  obtain ⟨rfl,eq⟩ := he.single db' _ hf
  exact ho hh eq

theorem Expiring.turns (nodup : live.Nodup) {visit : List Nat} {s : State}
    (he : Expiring live db key r s)
    (others : ∀ q ∈ visit, q ≠ r ∧
      (lsdb q = some db → q < s.core.next ∧ (s.core.lsas q).key ≠ key)) :
    Moves (sparing r) s (visit.foldl (maxageLsaTurn env lsdb) s) := by
  induction visit generalizing s with
  | nil => exact .refl
  | cons q rest ih =>
    obtain ⟨ne,ho⟩ := others q (.head _)
    have fst : Moves (sparing r) s (maxageLsaTurn env lsdb s q) :=
      he.turn_other ne fun hh => (ho hh).2
    apply fst.trans
    apply ih (he.moves nodup fst)
    intro q' mem
    obtain ⟨ne',ho'⟩ := others q' (.tail _ mem)
    refine ⟨ne',fun hh => ?_⟩
    obtain ⟨lt,hd⟩ := ho' hh
    rw [fst.kept.key q' lt]
    exact ⟨lt_of_lt_of_le lt fst.kept.next,hd⟩

theorem removeFromDb_core (s : State) (db : Db) (r : Nat) :
    (removeFromDb s db r).core.lsdb =
      update s.core.lsdb db (lsdbDelete s.core r (s.core.lsdb db)) := by
  have eq : ((s.core.lookup db (s.core.lsas r).key).elim s (discardFromDb s)).core.lsas =
      s.core.lsas ∧
      ((s.core.lookup db (s.core.lsas r).key).elim s (discardFromDb s)).core.lsdb =
        s.core.lsdb := by
    cases s.core.lookup db (s.core.lsas r).key with
    | none => exact ⟨rfl,rfl⟩
    | some old => exact ⟨rfl,rfl⟩
  simp only [removeFromDb,lsdbRemove]
  generalize (s.core.lookup db (s.core.lsas r).key).elim s (discardFromDb s) = t at eq
  rw [lsdbDelete,lsdbDelete,eq.1,eq.2]

theorem lookup_removeFromDb {db' : Db} {key' : LsaKey}
    (hf : (removeFromDb s db r).core.lookup db' key' = some r) :
    s.core.lookup db' key' = some r ∧ (db' = db → key' ≠ (s.core.lsas r).key) := by
  rw [Core.lookup,removeFromDb_core] at hf
  by_cases hh : db' = db
  · subst hh
    simp only [update_self] at hf
    refine ⟨lsdbDelete_within hf,fun _ eq => ?_⟩
    subst eq
    simp only [lsdbDelete] at hf
    split at hf
    · rw [AList.lookup_erase] at hf
      cases hf
    rename_i ha
    exact ha hf
  · simp only [update_of_ne hh] at hf
    exact ⟨hf,fun eq => absurd eq hh⟩

theorem Expiring.turn_own (he : Expiring live db key r s) (hh : lsdb r = some db) :
    Gone r (maxageLsaTurn env lsdb s r) := by
  have fit := @anyObject_fit True (fun _ => False) _ he.refers
  have hm : Moves (anyObject True fun _ => False) s (maxageLsaTurn env lsdb s r) :=
    Moves.maxageLsaTurn fit (fun _ _ _ _ _ _ => trivial) trivial fun _ _ _ _ => trivial
  refine ⟨hm.kept.refers he.refers,lt_of_lt_of_le he.lt hm.kept.next,
    hm.kept.aged r he.lt he.old,fun db' key' hf => ?_⟩
  simp only [maxageLsaTurn] at hf
  split at hf
  · have counter := he.counted.counter r
    have none : live.countP (fun n => s.net.holds n r) = 0 :=
      countP_eq_zero.mpr fun n _ => by simp [he.unheld n]
    rw [none] at counter
    rw [counter,if_neg (by decide),hh] at hf
    have hr : Moves (notStoring r) s
        (if (s.core.lsas r).prematureAge then lsaRefresh env s r else s) := by
      have hs := sparing_fit he.refers he.lt he.old
      split
      · exact Moves.lsaRefresh ⟨he.refers,fun _ _ => trivial,hs.fresh⟩
          (fun _ _ _ _ _ _ => trivial) he.lt trivial
      · exact .refl
    generalize (if (s.core.lsas r).prematureAge then lsaRefresh env s r else s) = t
      at hr hf
    obtain ⟨hb,hel⟩ := lookup_removeFromDb hf
    obtain ⟨rfl,rfl⟩ := he.single db' key' (hr.kept.held db' key' r (fun ne => ne rfl) hb)
    exact hel rfl ((hr.kept.key r he.lt).trans he.under).symm
  · rename_i hu
    obtain ⟨rfl,rfl⟩ := he.single db' key' hf
    exact hu (he.listed hf)

theorem Gone.turns {visit : List Nat} {s : State} (hg : Gone r s) (others : r ∉ visit) :
    Gone r (visit.foldl (maxageLsaTurn env lsdb) s) := by
  induction visit generalizing s with
  | nil => exact hg
  | cons q rest ih =>
    have ne : q ≠ r := fun eq => others (eq ▸ .head _)
    have turn : Moves (sparing r) s (maxageLsaTurn env lsdb s q) := by
      apply Moves.maxageLsaTurn (sparing_fit hg.refers hg.lt hg.old) (fun _ _ _ _ _ _ => trivial) ne
      rintro db' old _ hf rfl
      exact hg.absent db' _ hf
    apply ih _ fun mem => others (.tail _ mem)
    exact
      { refers := turn.kept.refers hg.refers
        lt := lt_of_lt_of_le hg.lt turn.kept.next
        old := turn.kept.aged r hg.lt hg.old
        absent := fun db key hf =>
          hg.absent db key (turn.kept.held db key r (fun ne => ne rfl) hf) }

structure Reaches (core : Core) (lsdb : Nat → Option Db) (db : Db) (r : Nat)
    (visit : List Nat) : Prop where
  nodup : visit.Nodup
  comes : r ∈ visit
  only : ∀ q ∈ visit, q ≠ r → lsdb q = some db →
    q < core.next ∧ (core.lsas q).key ≠ (core.lsas r).key

theorem Expiring.run (nodup : live.Nodup) (he : Expiring live db key r s)
    (hh : lsdb r = some db) {visit : List Nat} (hr : Reaches s.core lsdb db r visit) :
    Gone r (visit.foldl (maxageLsaTurn env lsdb) s) := by
  obtain ⟨hb,haf,rfl⟩ := append_of_mem hr.comes
  have hd := nodup_append.mp hr.nodup
  have own := (nodup_cons.mp hd.2.1).1
  have others : ∀ q ∈ hb, q ≠ r ∧
      (lsdb q = some db → q < s.core.next ∧ (s.core.lsas q).key ≠ key) := by
    intro q mem
    have ne : q ≠ r := hd.2.2 q mem r (.head _)
    refine ⟨ne,fun ht => ?_⟩
    rw [← he.under]
    exact hr.only q (mem_append_left _ mem) ne ht
  rw [foldl_append,foldl_cons]
  have ha : Expiring live db key r (hb.foldl (maxageLsaTurn env lsdb) s) :=
    he.moves nodup (he.turns nodup others)
  exact (ha.turn_own hh).turns own

end

section

variable {lsdb : Nat → Option Db} {d : Daemon} {db : Db} {key : LsaKey} {r : Nat}

def Daemon.Unblocked (d : Daemon) (r : Nat) : Prop :=
  ∀ n ∈ d.live, (d.net.neighbor n).state ≠ .exchange ∧ (d.net.neighbor n).state ≠ .loading ∧
    d.net.holds n r = false

/-- The walker puts it on the list; once there with nothing in the way, it leaves its database by a
run of the remover. -/
structure Expires (lsdb : Nat → Option Db) (d : Daemon) (db : Db) (r : Nat) : Prop where
  listed : r ∈ (d.step .maxageWalker).core.maxageLsa
  removed : r ∈ d.core.maxageLsa → d.Unblocked r → ∀ env visit, Reaches d.core lsdb db r visit →
    (d.step (.maxageRemover env lsdb visit)).core.lookup db (d.core.lsas r).key ≠ some r

section

variable {coloured : Prop} {exempt : Nat → Prop} {full : Nat → Bool}

theorem Sound.checkNbrStatus (hs : Sound coloured exempt full d) (hu : d.Unblocked r) :
    checkNbrStatus d.toState := by
  simp only [Ospf.checkNbrStatus,all_eq_true,decide_eq_true_eq]
  intro oi _ _ n mem
  obtain ⟨live,-,-⟩ := hs.listed oi n mem
  exact ⟨(hu n live).1,(hu n live).2.1⟩

theorem Core.Refers.single {core : Core} (hr : core.Refers) {db db' : Db} {key key' : LsaKey}
    (hf : core.lookup db' key' = some r) (hs : core.lookup db key = some r) :
    db' = db ∧ key' = key := by
  have eq : key' = key := (hr.stored db' key' r hf).2.symm.trans (hr.stored db key r hs).2
  subst eq
  have homes := (hr.home db' key' r hf).symm.trans (hr.home db key' r hs)
  exact ⟨Option.some.inj homes,rfl⟩

theorem Sound.expiring (hs : Sound coloured exempt full d) (hst : d.core.lookup db key = some r)
    (old : (d.core.lsas r).isMaxAge d.core.now) (hl : r ∈ d.core.maxageLsa)
    (hu : d.Unblocked r) : Expiring d.live db key r d.toState := by
  obtain ⟨lt,eq⟩ := hs.refers.stored db key r hst
  refine
    { refers := hs.refers, counted := hs.counted, lt := lt, under := eq, old := old
      lives := fun oi n mem => (hs.listed oi n mem).1
      single := fun db' key' hf => hs.refers.single hf hst
      unheld := fun n => ?_
      listed := fun _ => hl }
  · apply Bool.eq_false_iff.mpr
    intro hh
    obtain ⟨k,hf⟩ := holds_iff.mp hh
    have live := hs.counted.alive n k r hf
    rw [(hu n live).2.2] at hh
    cases hh

end

def outlived (lsa : Lsa) : List DaemonEvent :=
  adjacency ++ [.work (.lsUpd quietEnv 1 [lsa]), .work (.elapse 3600000000)]

end

end Frr.Ospf
