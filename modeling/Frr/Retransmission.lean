import Frr.Counting
import Frr.MaxAge

/-! The counter of an object is the number of neighbors that hold it on their lists, whatever the
link state procedures do; and without objects with colours, no neighbor below Exchange has a list.
-/
namespace Frr.Ospf

open Net Counting

section

def Net.holds (net : Net) (n r : Nat) : Bool :=
  (net.neighbor n).lsRxmt.entries.any fun entry => entry.2 = r

theorem Net.holds_iff {net : Net} {n r : Nat} :
    net.holds n r ↔ ∃ key, (net.neighbor n).lsRxmt.lookup key = some r := by
  simp only [holds,List.any_eq_true,decide_eq_true_eq]
  constructor
  · rintro ⟨⟨key,hh⟩,mem,rfl⟩
    exact ⟨key,AList.mem_lookup_iff.mpr mem⟩
  rintro ⟨key,hf⟩
  exact ⟨⟨key,r⟩,AList.mem_lookup_iff.mp hf,rfl⟩

theorem Net.holds_congr {net net' : Net} {n : Nat}
    (eq : (net'.neighbor n).lsRxmt = (net.neighbor n).lsRxmt) (r : Nat) :
    net'.holds n r = net.holds n r := by
  rw [holds,holds,eq]

/-- Existing objects of existing neighbors under their keys, and the counters count them. -/
structure Counted (live : List Nat) (s : State) : Prop where
  keyed : ∀ n key r, (s.net.neighbor n).lsRxmt.lookup key = some r →
    key = (s.core.lsas r).key ∧ r < s.core.next
  alive : ∀ n key r, (s.net.neighbor n).lsRxmt.lookup key = some r → n ∈ live
  counter : ∀ r, s.net.retransmitCounter r = (live.countP fun n => s.net.holds n r : Nat)

theorem Counted.held_at {live : List Nat} {core : Core} {net : Net}
    (hc : Counted live ⟨core,net⟩) {n r : Nat} (hh : net.holds n r) :
    (net.neighbor n).lsRxmt.lookup (core.lsas r).key = some r := by
  obtain ⟨key,hf⟩ := holds_iff.mp hh
  rw [← (hc.keyed n key r hf).1]
  exact hf

theorem Counted.core {live : List Nat} {core c : Core} {net : Net} {p : Policy}
    (hc : Counted live ⟨core,net⟩) (hk : Kept p core c) : Counted live ⟨c,net⟩ where
  __ := hc
  keyed n key r hf := by
    obtain ⟨eq,lt⟩ := hc.keyed n key r hf
    exact ⟨eq.trans (hk.key r lt).symm,lt_of_lt_of_le lt hk.next⟩

theorem Counted.same {live : List Nat} {core : Core} {net net' : Net} (hc : Counted live ⟨core,net⟩)
    (lists : ∀ n, (net'.neighbor n).lsRxmt = (net.neighbor n).lsRxmt)
    (counters : net'.retransmitCounter = net.retransmitCounter) : Counted live ⟨core,net'⟩ where
  keyed n key r hf := by
    rw [lists n] at hf
    exact hc.keyed n key r hf
  alive n key r hf := by
    rw [lists n] at hf
    exact hc.alive n key r hf
  counter r := by
    rw [counters,hc.counter r]
    congr 1
    apply countP_same
    exact fun n _ => (holds_congr (lists n) r).symm

end

section

variable {live : List Nat} {core : Core} {net : Net} {n r : Nat}

theorem lsRetransmitDelete_other {m : Nat} (ne : m ≠ n) :
    ((lsRetransmitDelete core net n r).neighbor m).lsRxmt = (net.neighbor m).lsRxmt := by
  simp only [lsRetransmitDelete]
  split
  · simp [setNbr,count,ne]
  · rfl

theorem lsRetransmitDelete_same
    (hh : (net.neighbor n).lsRxmt.lookup (core.lsas r).key = some r) :
    ((lsRetransmitDelete core net n r).neighbor n).lsRxmt =
      (net.neighbor n).lsRxmt.erase (core.lsas r).key := by
  simp [lsRetransmitDelete,lsRetransmitLookup,lsdbDelete,hh,setNbr,count]

theorem lsRetransmitDelete_counter
    (hh : (net.neighbor n).lsRxmt.lookup (core.lsas r).key = some r) :
    (lsRetransmitDelete core net n r).retransmitCounter =
      Function.update net.retransmitCounter r (net.retransmitCounter r - 1) := by
  simp [lsRetransmitDelete,lsRetransmitLookup,hh,setNbr,count,Int.sub_eq_add_neg]

theorem lookup_erase_some {table : Table} {k key : LsaKey} {x : Nat}
    (hf : (table.erase k).lookup key = some x) : key ≠ k ∧ table.lookup key = some x := by
  by_cases hh : key = k
  · rw [hh,AList.lookup_erase] at hf
    cases hf
  rw [AList.lookup_erase_ne hh] at hf
  exact ⟨hh,hf⟩

theorem Counted.delete (nodup : live.Nodup) (hc : Counted live ⟨core,net⟩) {key : LsaKey}
    (hh : (net.neighbor n).lsRxmt.lookup key = some r) :
    Counted live ⟨core,lsRetransmitDelete core net n r⟩ := by
  obtain ⟨hs,lt⟩ := hc.keyed n key r hh
  subst hs
  have table := lsRetransmitDelete_same hh
  -- No list gets anything new, and only the one of the neighbor loses the object.
  have hb {m : Nat} {k : LsaKey} {x : Nat}
      (hf : ((lsRetransmitDelete core net n r).neighbor m).lsRxmt.lookup k = some x) :
      (net.neighbor m).lsRxmt.lookup k = some x ∧ ¬ (m = n ∧ x = r) := by
    by_cases hhe : m = n
    · subst hhe
      rw [table] at hf
      obtain ⟨ne,old⟩ := lookup_erase_some hf
      refine ⟨old,fun ⟨_,eq⟩ => ne ?_⟩
      subst eq
      exact (hc.keyed m k x old).1
    · rw [lsRetransmitDelete_other hhe] at hf
      exact ⟨hf,fun ⟨eq,_⟩ => hhe eq⟩
  have ho {x : Nat} (ne : x ≠ r) (m : Nat) :
      (lsRetransmitDelete core net n r).holds m x = net.holds m x := by
    by_cases hhe : m = n
    · subst hhe
      apply Bool.eq_iff_iff.mpr
      rw [holds_iff,holds_iff]
      constructor
      · exact fun ⟨k,hf⟩ => ⟨k,(hb hf).1⟩
      rintro ⟨k,hf⟩
      refine ⟨k,?_⟩
      rw [table,AList.lookup_erase_ne]
      · exact hf
      intro eq
      rw [eq,hh] at hf
      exact ne (Option.some.inj hf).symm
    · exact holds_congr (lsRetransmitDelete_other hhe) x
  refine ⟨fun m k x hf => hc.keyed m k x (hb hf).1,
    fun m k x hf => hc.alive m k x (hb hf).1,fun x => ?_⟩
  change (lsRetransmitDelete core net n r).retransmitCounter x = _
  rw [lsRetransmitDelete_counter hh]
  by_cases eq : x = r
  · subst eq
    have on : net.holds n x := holds_iff.mpr ⟨_,hh⟩
    have off : (lsRetransmitDelete core net n x).holds n x = false := by
      apply Bool.eq_false_iff.mpr
      intro hho
      obtain ⟨k,hf⟩ := holds_iff.mp hho
      exact (hb hf).2 ⟨rfl,rfl⟩
    have loss := countP_loss (p := fun m => net.holds m x)
      (q := fun m => (lsRetransmitDelete core net n x).holds m x) nodup
      (hc.alive n _ x hh) on off
      fun m ne => holds_congr (lsRetransmitDelete_other ne) x
    rw [Function.update_self,hc.counter x,← loss]
    simp
  · rw [Function.update_of_ne eq]
    have start := hc.counter x
    simp only at start
    rw [start]
    congr 1
    apply countP_same
    exact fun m _ => (ho eq m).symm

end

section

variable {live : List Nat} {core : Core} {net : Net} {n r : Nat}

theorem lsRetransmitAdd_same (hs : ¬ Instance.moreRecentThan core.now
    ((lsRetransmitLookup core net n r).map core.lsas) (core.lsas r) < 0) :
    lsRetransmitAdd core net n r = net := by
  simp [lsRetransmitAdd,hs]

theorem lsRetransmitAdd_eq (hr : Instance.moreRecentThan core.now
    ((lsRetransmitLookup core net n r).map core.lsas) (core.lsas r) < 0) :
    lsRetransmitAdd core net n r =
      let net' := lsRetransmitReplace core net n (lsRetransmitLookup core net n r)
      (net'.count r 1).setNbr n
        {net'.neighbor n with
          lsRxmt := (net'.neighbor n).lsRxmt.insert (core.lsas r).key r} := by
  simp only [lsRetransmitAdd]
  rw [if_pos hr]
  rfl

theorem lsRetransmitReplace_delete {old : Nat}
    (hh : (net.neighbor n).lsRxmt.lookup (core.lsas old).key = some old) :
    lsRetransmitReplace core net n (some old) = lsRetransmitDelete core net n old := by
  simp [lsRetransmitReplace,lsRetransmitDelete,lsRetransmitLookup,hh,setNbr,count]

section

variable (nodup : live.Nodup) (hc : Counted live ⟨core,net⟩) (mem : n ∈ live)
  (lt : r < core.next)

include nodup hc mem lt

theorem Counted.insert (free : (net.neighbor n).lsRxmt.lookup (core.lsas r).key = none) :
    Counted live ⟨core,(net.count r 1).setNbr n
      {net.neighbor n with lsRxmt := (net.neighbor n).lsRxmt.insert (core.lsas r).key r}⟩ := by
  generalize eq : (net.count r 1).setNbr n {net.neighbor n with
    lsRxmt := (net.neighbor n).lsRxmt.insert (core.lsas r).key r} = net'
  have he {m : Nat} (ne : m ≠ n) : (net'.neighbor m).lsRxmt = (net.neighbor m).lsRxmt := by
    simp [← eq,setNbr,count,ne]
  have table : (net'.neighbor n).lsRxmt = (net.neighbor n).lsRxmt.insert (core.lsas r).key r := by
    simp [← eq,setNbr]
  have counters : net'.retransmitCounter =
      Function.update net.retransmitCounter r (net.retransmitCounter r + 1) := by
    simp [← eq,setNbr,count]
  -- What is found is what was there, or the object on the list of the neighbor.
  have found_iff {m : Nat} {k : LsaKey} {x : Nat} :
      (net'.neighbor m).lsRxmt.lookup k = some x ↔
        (net.neighbor m).lsRxmt.lookup k = some x ∨ m = n ∧ k = (core.lsas r).key ∧ x = r := by
    by_cases hh : m = n
    · subst hh
      rw [table]
      by_cases key : k = (core.lsas r).key
      · subst key
        rw [AList.lookup_insert,free]
        simp [eq_comm]
      rw [AList.lookup_insert_ne key]
      simp [key]
    · rw [he hh]
      simp [hh]
  have ho {x : Nat} (ne : x ≠ r) (m : Nat) : net'.holds m x = net.holds m x := by
    apply Bool.eq_iff_iff.mpr
    rw [holds_iff,holds_iff]
    simp [found_iff,ne]
  refine ⟨fun m k x hf => ?_,fun m k x hf => ?_,fun x => ?_⟩
  · cases found_iff.mp hf with
    | inl old => exact hc.keyed m k x old
    | inr new =>
      obtain ⟨-,rfl,rfl⟩ := new
      exact ⟨rfl,lt⟩
  · cases found_iff.mp hf with
    | inl old => exact hc.alive m k x old
    | inr new =>
      rw [new.1]
      exact mem
  · change net'.retransmitCounter x = _
    rw [counters]
    by_cases hs : x = r
    · subst hs
      have off : net.holds n x = false := by
        apply Bool.eq_false_iff.mpr
        intro hho
        rw [hc.held_at hho] at free
        cases free
      have on : net'.holds n x := holds_iff.mpr ⟨_,found_iff.mpr (.inr ⟨rfl,rfl,rfl⟩)⟩
      have gain := countP_gain (p := fun m => net.holds m x)
        (q := fun m => net'.holds m x) nodup mem off on
        fun m ne => holds_congr (he ne) x
      rw [Function.update_self,gain,hc.counter x]
      simp
    · rw [Function.update_of_ne hs]
      have start := hc.counter x
      simp only at start
      rw [start]
      congr 1
      apply countP_same
      exact fun m _ => (ho hs m).symm

theorem Counted.add : Counted live ⟨core,lsRetransmitAdd core net n r⟩ := by
  by_cases hr : Instance.moreRecentThan core.now
      ((lsRetransmitLookup core net n r).map core.lsas) (core.lsas r) < 0
  · rw [lsRetransmitAdd_eq hr]
    cases hf : lsRetransmitLookup core net n r with
    | none => exact hc.insert nodup mem lt hf
    | some old =>
      have eq := (hc.keyed n _ old hf).1
      have hh : (net.neighbor n).lsRxmt.lookup (core.lsas old).key = some old := by
        rw [← eq]
        exact hf
      simp only [lsRetransmitReplace_delete hh]
      apply (hc.delete nodup hh).insert nodup mem lt
      rw [lsRetransmitDelete_same hh,eq,AList.lookup_erase]
  · rw [lsRetransmitAdd_same hr]
    exact hc

end

end

section

variable {p : Policy} {live : List Nat} {s s' : State}

section

variable (nodup : live.Nodup) (hc : Counted live s)
  (hl : ∀ oi n, n ∈ s.net.nbrs oi → n ∈ live) (exempt : ∀ n, p.exempt n → n ∈ live)

include nodup hc hl exempt

theorem Counted.move (move : Move p s s') : Counted live s' := by
  cases move with
  | core hk => exact hc.core hk
  | emit => exact hc.same (fun _ => rfl) rfl
  | lists =>
    rename_i core net n dbSum lsReq last
    refine hc.same (fun m => ?_) rfl
    by_cases hh : m = n
    · subst hh
      simp [setNbr]
    · simp [setNbr,hh]
  | add lt ha tgt =>
    apply hc.add nodup _ lt
    cases tgt with
    | inl one => exact exempt _ one
    | inr table =>
      obtain ⟨oi,mem⟩ := table.1
      exact hl oi _ mem
  | delete hhe => exact hc.delete nodup hhe

theorem Counted.moves (hm : Moves p s s') : Counted live s' := by
  induction hm with
  | refl => exact hc
  | tail hb move ih =>
    apply ih.move nodup _ exempt move
    have eq := (show Moves p s _ from hb).alike.nbrs
    rw [eq]
    exact hl

end

/-- No object carries colours, and no neighbor below Exchange has a list, with some exceptions. -/
structure Quiet (exempt : Nat → Prop) (s : State) : Prop where
  plain : ∀ r, r < s.core.next → (s.core.lsas r).key.type ≠ linkColourLsa
  silent : ∀ n, ¬ exempt n → (s.net.neighbor n).state < .exchange → (s.net.neighbor n).lsRxmt = ∅

theorem erase_empty {table : Table} (he : table = ∅) (key : LsaKey) : table.erase key = ∅ := by
  subst he
  rfl

theorem lsdbDelete_empty {core : Core} {r : Nat} {table : Table} (he : table = ∅) :
    lsdbDelete core r table = ∅ := by
  simp only [lsdbDelete]
  split
  · exact erase_empty he _
  · exact he

theorem lsRetransmitDelete_empty {core : Core} {net : Net} {n r m : Nat}
    (he : (net.neighbor m).lsRxmt = ∅) :
    ((lsRetransmitDelete core net n r).neighbor m).lsRxmt = ∅ := by
  by_cases hh : m = n
  · subst hh
    simp only [lsRetransmitDelete]
    split
    · simp only [setNbr,count,Function.update_self]
      exact lsdbDelete_empty he
    · exact he
  · rw [lsRetransmitDelete_other hh]
    exact he

theorem lsRetransmitAdd_other {core : Core} {net : Net} {n r m : Nat} (ne : m ≠ n) :
    ((lsRetransmitAdd core net n r).neighbor m).lsRxmt = (net.neighbor m).lsRxmt := by
  simp only [lsRetransmitAdd]
  split
  · cases lsRetransmitLookup core net n r with
    | none => simp [lsRetransmitReplace,setNbr,count,ne]
    | some old => simp [lsRetransmitReplace,setNbr,count,ne]
  · rfl

theorem Quiet.move (hu : ¬ p.coloured) (hq : Quiet p.exempt s) (move : Move p s s') :
    Quiet p.exempt s' := by
  cases move with
  | core hk =>
    refine ⟨fun r lt colour => ?_,hq.silent⟩
    rename_i core c net
    by_cases he : r < core.next
    · rw [hk.key r he] at colour
      exact hq.plain r he colour
    · exact hu (hk.made r (Nat.le_of_not_lt he) lt colour)
  | emit => exact ⟨hq.plain,hq.silent⟩
  | lists =>
    rename_i core net n dbSum lsReq last
    refine ⟨hq.plain,fun m ho low => ?_⟩
    by_cases hh : m = n
    · subst hh
      simp only [setNbr,Function.update_self] at low ⊢
      exact hq.silent m ho low
    simp only [setNbr,Function.update_of_ne hh] at low ⊢
    exact hq.silent m ho low
  | add lt ha tgt =>
    rename_i core net n r
    refine ⟨hq.plain,fun m ho low => ?_⟩
    change ((lsRetransmitAdd core net n r).neighbor m).state < _ at low
    rw [(Alike.lsRetransmitAdd).state m] at low
    have hem := hq.silent m ho low
    by_cases hh : m = n
    · subst hh
      cases tgt with
      | inl one => exact absurd one ho
      | inr table =>
        cases table.2 with
        | inl hr => exact absurd low (not_lt.mpr hr)
        | inr colour => exact absurd colour (hq.plain r lt)
    · exact (lsRetransmitAdd_other hh).trans hem
  | delete hhe =>
    rename_i core net n r key
    refine ⟨hq.plain,fun m ho low => ?_⟩
    change ((lsRetransmitDelete core net n r).neighbor m).state < _ at low
    rw [(Alike.lsRetransmitDelete).state m] at low
    exact lsRetransmitDelete_empty (hq.silent m ho low)

theorem Quiet.moves (hu : ¬ p.coloured) (hq : Quiet p.exempt s)
    (hm : Moves p s s') : Quiet p.exempt s' := by
  induction hm with
  | refl => exact hq
  | tail _ move ih => exact ih.move hu move

end

end Frr.Ospf
