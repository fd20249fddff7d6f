import Frr.AspathRuns

/-! What `aspath_aggregate` and `aspath_reconcile_as4` keep of the two paths they are given. -/
namespace Frr.Aspath

open List Option Segment

section

def asns (path : Path) : List UInt32 := path.flatMap Segment.as

def aspathLoopCheck (path : Path) (asno : UInt32) : Nat :=
  (path.map fun seg => seg.as.count asno).sum

/-- The first `n` numbers of a path, in the segments that they have there. -/
def leadingPart : Path → Nat → Path
  | [], _ => []
  | seg :: rest, n =>
    if n = 0 then [] else .make seg.type (seg.as.take n) :: leadingPart rest (n-seg.length)

def Apart (path : Path) : Prop :=
  (path.map Segment.type).IsChain fun a b => ¬(a = .sequence ∧ b = .sequence)

/-- As a path is read: its sets are sorted, no segment is empty, and no sequence follows another. -/
structure Normal (path : Path) : Prop where
  sorted : Sorted path
  filled : ∀ seg ∈ path, seg.as ≠ []
  apart : Apart path

variable {seg : Segment} {path as1 as2 : Path}

theorem loopCheck_ne_zero {asno : UInt32} : aspathLoopCheck path asno ≠ 0 ↔ asno ∈ asns path := by
  simp [aspathLoopCheck,asns,List.sum_eq_zero_iff,count_eq_zero]

theorem asns_cons (seg : Segment) (path : Path) : asns (seg :: path) = seg.as ++ asns path := flatMap_cons

theorem asns_append : asns (as1 ++ as2) = asns as1 ++ asns as2 := flatMap_append

theorem make_self (seg : Segment) : make seg.type seg.as = seg := by
  cases seg with
  | mk ty as hs => simp [make,Nat.mod_eq_of_lt hs]

theorem make_take {seg : Segment} {n : Nat} (le : seg.length ≤ n) :
    make seg.type (seg.as.take n) = seg := by
  rw [take_of_length_le le,make_self]

theorem as_make_take (seg : Segment) (n : Nat) : (make seg.type (seg.as.take n)).as = seg.as.take n :=
  as_make ((length_take_le' ..).trans_lt seg.short)

theorem sortSet_eq (hs : seg.Sorted) : sortSet seg = seg := by
  unfold sortSet
  split
  · next set => rw [sortedSet_eq (hs set),make_self]
  · rfl

theorem mem_sortedSet {as : List UInt32} {asn : UInt32} : asn ∈ sortedSet as ↔ asn ∈ as := by
  have ht : Std.Total fun a b : UInt32 => a.toNat ≤ b.toNat := ⟨fun a b => le_total ..⟩
  have trans : IsTrans UInt32 fun a b => a.toNat ≤ b.toNat := ⟨fun _ _ _ => le_trans⟩
  have anti : Std.Antisymm fun a b : UInt32 => a.toNat ≤ b.toNat :=
    ⟨fun _ _ le ge => UInt32.toNat_inj.mp (le_antisymm le ge)⟩
  rw [sortedSet,(pairwise_insertionSort _ as).destutter_eq_dedup,mem_dedup,mem_insertionSort]

/-- Nothing is joined where the types forbid it. -/
theorem normaliseFrom_apart {pin : Segment} (ha : Apart (pin :: path)) :
    normaliseFrom pin path = pin :: path.map sortSet := by
  induction path generalizing pin with
  | nil => rfl
  | cons next path ih =>
    obtain ⟨ne,hc⟩ := isChain_cons_cons.mp ha
    rw [normaliseFrom,if_neg fun hb => ne (typesPackable_iff.mp hb),ih,map_cons]
    simpa [Apart,type_sortSet] using hc

theorem normalise_apart (ha : Apart path) : assegmentNormalise path = path.map sortSet := by
  cases path with
  | nil => rfl
  | cons pin path =>
    rw [assegmentNormalise,normaliseFrom_apart,map_cons]
    simpa [Apart,type_sortSet] using ha

theorem map_sortSet (hs : Sorted path) : path.map sortSet = path :=
  (map_congr_left fun seg mem => sortSet_eq (hs seg mem)).trans (map_id path)

end

section

theorem leadingPart_zero (path : Path) : leadingPart path 0 = [] := by
  cases path <;> simp [leadingPart]

theorem asns_leadingPart (path : Path) (n : Nat) : asns (leadingPart path n) = (asns path).take n := by
  induction path generalizing n with
  | nil => exact take_nil.symm
  | cons seg rest ih =>
    rw [leadingPart]
    split
    · next zero => rw [zero]; rfl
    · rw [asns_cons,asns_cons,as_make_take,ih,take_append]
      rfl

theorem leadingPart_head {seg : Segment} {n : Nat} (le : n ≤ seg.length) (rest : Path) :
    leadingPart (seg :: rest) n = if n = 0 then [] else [.make seg.type (seg.as.take n)] := by
  rw [leadingPart,Nat.sub_eq_zero_of_le le,leadingPart_zero]

theorem leadingPart_whole {seg : Segment} (hf : seg.as ≠ []) (rest : Path) (n : Nat) :
    leadingPart (seg :: rest) (seg.length+n) = seg :: leadingPart rest n := by
  have pos : 0 < seg.length := length_pos_iff.mpr hf
  rw [leadingPart,if_neg (by omega),make_take (Nat.le_add_right ..),Nat.add_sub_cancel_left]

theorem types_leadingPart (path : Path) (n : Nat) :
    (leadingPart path n).map Segment.type <+: path.map Segment.type := by
  induction path generalizing n with
  | nil => exact prefix_refl _
  | cons seg rest ih =>
    rw [leadingPart]
    split
    · exact nil_prefix
    · exact (prefix_cons_inj _).mpr (ih _)

theorem Sorted.leadingPart {path : Path} (hs : Sorted path) (n : Nat) :
    Sorted (leadingPart path n) := by
  induction path generalizing n with
  | nil => exact .nil
  | cons seg rest ih =>
    obtain ⟨fst,hs⟩ := sorted_cons.mp hs
    rw [Aspath.leadingPart]
    split
    · exact .nil
    · exact sorted_cons.mpr ⟨fst.make (take_sublist ..),ih hs _⟩

theorem Apart.leadingPart {path : Path} (ha : Apart path) (n : Nat) : Apart (leadingPart path n) :=
  ha.prefix (types_leadingPart path n)

theorem Normal.normalise_leadingPart {path : Path} (h : Normal path) (n : Nat) :
    assegmentNormalise (leadingPart path n) = leadingPart path n := by
  rw [normalise_apart (h.apart.leadingPart n),map_sortSet (h.sorted.leadingPart n)]

theorem commonLength_spec (as bs : List UInt32) :
    commonLength as bs ≤ as.length ∧ commonLength as bs ≤ bs.length ∧
      as.take (commonLength as bs) = bs.take (commonLength as bs) := by
  fun_induction commonLength as bs with
  | case1 a as b ih => simpa using ih
  | case2 a as b bs ne => simp
  | case3 as bs none => simp

theorem le_commonLength {as bs : List UInt32} {m : Nat} (eq : as.take m = bs.take m) :
    min m as.length ≤ commonLength as bs := by
  induction as generalizing bs m with
  | nil => simp
  | cons a as ih =>
    cases m with
    | zero => simp
    | succ m =>
      cases bs with
      | nil => simp at eq
      | cons b bs =>
        obtain ⟨rfl,tail⟩ := List.cons.inj eq
        have := ih tail
        simp only [commonLength,if_true,length_cons]
        omega

/-- What both paths start with, no longer part of them, and what follows it in each. -/
structure Divided (as1 as2 leading rest1 rest2 : Path) (common n : Nat) : Prop where
  first : leading = leadingPart as1 n
  second : leading = leadingPart as2 n
  left1 : leftover rest1 common = (asns as1).drop n
  left2 : leftover rest2 common = (asns as2).drop n
  longest : ∀ m ≤ (asns as1).length, leadingPart as1 m = leadingPart as2 m → m ≤ n

theorem Divided.none {as1 as2 : Path}
    (hd : ∀ m ≤ (asns as1).length, leadingPart as1 m = leadingPart as2 m → m = 0) :
    Divided as1 as2 [] as1 as2 0 0 where
  first := (leadingPart_zero as1).symm
  second := (leadingPart_zero as2).symm
  left1 := rfl
  left2 := rfl
  longest m le eq := (hd m le eq).le

theorem Divided.head {seg1 seg2 : Segment} (rest1 rest2 : Path) (ty : seg1.type = seg2.type)
    (he : ¬(commonLength seg1.as seg2.as = seg1.length ∧ seg1.length = seg2.length)) :
    Divided (seg1 :: rest1) (seg2 :: rest2)
      (leadingPart (seg1 :: rest1) (commonLength seg1.as seg2.as)) (seg1 :: rest1) (seg2 :: rest2)
      (commonLength seg1.as seg2.as) (commonLength seg1.as seg2.as) := by
  obtain ⟨le1,le2,eq⟩ := commonLength_spec seg1.as seg2.as
  refine ⟨rfl,?_,rfl,rfl,fun m _ hs => ?_⟩
  · rw [leadingPart_head le1,leadingPart_head le2,ty,eq]
  · rcases Nat.eq_zero_or_pos m with rfl | pos
    · exact Nat.zero_le _
    rw [leadingPart,leadingPart,if_neg pos.ne',if_neg pos.ne'] at hs
    have hs := congrArg Segment.as (List.cons.inj hs).1
    rw [as_make_take,as_make_take] at hs
    have hb := congrArg List.length hs
    have hl := le_commonLength hs
    simp only [length_take,Segment.length] at hb hl he le1 le2
    omega

theorem Divided.cons {seg : Segment} {rest1 rest2 more left1 left2 : Path} {common n : Nat}
    (h : Divided rest1 rest2 more left1 left2 common n) (hf : seg.as ≠ []) :
    Divided (seg :: rest1) (seg :: rest2) (seg :: more) left1 left2 common (seg.length+n) := by
  refine ⟨?_,?_,?_,?_,fun m le eq => ?_⟩
  · rw [leadingPart_whole hf,← h.first]
  · rw [leadingPart_whole hf,← h.second]
  · rw [h.left1,asns_cons,Segment.length,drop_length_add_append]
  · rw [h.left2,asns_cons,Segment.length,drop_length_add_append]
  · rcases Nat.eq_zero_or_pos m with rfl | pos
    · exact Nat.zero_le _
    rw [leadingPart,leadingPart,if_neg pos.ne',if_neg pos.ne'] at eq
    rw [asns_cons,length_append] at le
    have := h.longest (m-seg.length) (by simp only [Segment.length]; omega) (List.cons.inj eq).2
    omega

theorem aggregateLeading_divided {as1 : Path} (as2 : Path) (hf : ∀ seg ∈ as1, seg.as ≠ []) :
    ∃ n, Divided as1 as2 (aggregateLeading as1 as2).1 (aggregateLeading as1 as2).2.1
      (aggregateLeading as1 as2).2.2.1 (aggregateLeading as1 as2).2.2.2 n := by
  induction as1 generalizing as2 with
  | nil => exact ⟨0,.none fun m le _ => Nat.le_zero.mp le⟩
  | cons seg1 rest1 ih =>
    cases as2 with
    | nil => exact ⟨0,.none fun m _ eq => by simpa [leadingPart] using eq⟩
    | cons seg2 rest2 =>
      obtain ⟨fst,hf⟩ := forall_mem_cons.mp hf
      obtain ⟨le1,le2,eq⟩ := commonLength_spec seg1.as seg2.as
      unfold aggregateLeading
      split
      · next ne =>
        refine ⟨0,.none fun m _ eq => by_contra fun pos => ne ?_⟩
        rw [leadingPart,leadingPart,if_neg pos,if_neg pos] at eq
        exact (congrArg Segment.type (List.cons.inj eq).1 :)
      next ty =>
      have ty := not_not.mp ty
      dsimp only
      split
      · next ends =>
        rw [← leadingPart_head le1 rest1]
        exact ⟨_,.head rest1 rest2 ty fun hs => by omega⟩
      · next ends =>
        have all : commonLength seg1.as seg2.as = seg1.length ∧ seg1.length = seg2.length := by omega
        rw [take_of_length_le all.1.ge,take_of_length_le (all.1.trans all.2).ge] at eq
        have hs : seg1 = seg2 := by rw [← make_self seg1,← make_self seg2,ty,eq]
        subst hs
        obtain ⟨n,h⟩ := ih rest2 hf
        have pos : seg1.length ≠ 0 := by simpa [Segment.length] using fst
        rw [if_neg (all.1 ▸ pos),all.1,make_take le_rfl]
        exact ⟨_,h.cons fst⟩

end

section

theorem setAdd_spec (l asset : List UInt32) (hsm : asset.length + l.length < 65536) :
    ∃ set, l.foldlM aspathAggregateAsSetAdd asset = some set ∧ set.length < 65536 ∧
      ∀ asn, asn ∈ set ↔ asn ∈ asset ∨ asn ∈ l := by
  induction l generalizing asset with
  | nil => exact ⟨asset,rfl,hsm,by simp⟩
  | cons a l ih =>
    rw [length_cons] at hsm
    rw [foldlM_cons,aspathAggregateAsSetAdd]
    split
    · next mem =>
      obtain ⟨set,eq,hs,all⟩ := ih asset (by omega)
      exact ⟨set,eq,hs,fun asn => by rw [all]; grind⟩
    · rw [if_neg (by omega)]
      obtain ⟨set,eq,hs,all⟩ := ih (asset ++ [a]) (by simp; omega)
      exact ⟨set,eq,hs,fun asn => by rw [all]; grind⟩

theorem sortedSet_eq_nil {as : List UInt32} : sortedSet as = [] ↔ as = [] := by
  simp [eq_nil_iff_forall_not_mem,mem_sortedSet]

theorem Apart.append_set {path : Path} (ha : Apart path) (as : List UInt32) :
    Apart (path ++ [.make .set as]) := by
  unfold Apart at *
  rw [map_append,isChain_append]
  exact ⟨ha,.singleton _,fun a _ b mem hb => by simp_all [make]⟩

theorem normalise_set {path : Path} (hs : Sorted path) (ha : Apart path) {asset : List UInt32}
    (hsh : asset.length < 65536) :
    assegmentNormalise (path ++ if asset = [] then [] else [.make .set asset]) =
      path ++ if sortedSet asset = [] then [] else [.make .set (sortedSet asset)] := by
  rw [if_congr sortedSet_eq_nil rfl rfl]
  split
  · rw [append_nil,normalise_apart ha,map_sortSet hs]
  · rw [normalise_apart (ha.append_set asset),map_append,map_sortSet hs,map_singleton,sortSet,
      as_make hsh]
    rfl

/-- The longest part that leads both paths, however they are cut into segments, then one set. -/
structure Aggregated (as1 as2 new : Path) (n : Nat) (set : List UInt32) : Prop where
  leading : new = assegmentNormalise (leadingPart as1 n) ++ if set = [] then [] else [.make .set set]
  common : assegmentNormalise (leadingPart as1 n) = assegmentNormalise (leadingPart as2 n)
  longest : ∀ m ≤ (asns as1).length,
    assegmentNormalise (leadingPart as1 m) = assegmentNormalise (leadingPart as2 m) → m ≤ n
  numbers : asns new = (asns as1).take n ++ set
  increasing : Increasing set
  others : ∀ asn, asn ∈ set ↔ asn ∈ (asns as1).drop n ∨ asn ∈ (asns as2).drop n
  loops : ∀ asno, aspathLoopCheck new asno ≠ 0 ↔
    aspathLoopCheck as1 asno ≠ 0 ∨ aspathLoopCheck as2 asno ≠ 0

end

section

/-- The hops of a path with those in its confederation. -/
def totalHops (path : Path) : Nat := aspathCountHops path + aspathCountConfeds path

/-- No confederation sequence goes beyond the hops that are kept. -/
def Uncut (path : Path) (hops : Nat) : Prop :=
  ∀ front seg rest, path = front ++ seg :: rest → seg.type = .confedSequence →
    totalHops front < hops → totalHops front + seg.length ≤ hops

theorem totalHops_cons (seg : Segment) (path : Path) :
    totalHops (seg :: path) = (if seg.type.isSet then 1 else seg.length) + totalHops path := by
  simp only [totalHops,aspathCountHops,aspathCountConfeds,map_cons,sum_cons]
  cases seg.type <;> simp [SegType.isSet] <;> omega

theorem totalHops_nil : totalHops [] = 0 := rfl

theorem totalHops_append (as1 as2 : Path) :
    totalHops (as1 ++ as2) = totalHops as1 + totalHops as2 := by
  induction as1 with
  | nil => exact (zero_add _).symm
  | cons seg as1 ih => rw [cons_append,totalHops_cons,totalHops_cons,ih,add_assoc]

theorem normaliseFrom_spec (pin : Segment) {rest : Path} (hs : Sorted rest)
    (hsm : (asns (pin :: rest)).length < 65536) :
    asns (normaliseFrom pin rest) = asns (pin :: rest) ∧
      totalHops (normaliseFrom pin rest) = totalHops (pin :: rest) ∧ Apart (normaliseFrom pin rest) ∧
      ((normaliseFrom pin rest).map Segment.type).head? = some pin.type := by
  induction rest generalizing pin with
  | nil => exact ⟨rfl,rfl,.singleton _,rfl⟩
  | cons next rest ih =>
    obtain ⟨fst,hs⟩ := sorted_cons.mp hs
    rw [asns_cons,asns_cons,← append_assoc] at hsm
    rw [normaliseFrom]
    split
    · next hb =>
      obtain ⟨seq,seq'⟩ := typesPackable_iff.mp hb
      have as : (assegmentAppendAsns pin next.as).as = pin.as ++ next.as :=
        as_make (by rw [length_append] at hsm; omega)
      obtain ⟨hn,hops,ha,head⟩ := ih (assegmentAppendAsns pin next.as) hs
        (by rwa [asns_cons,as])
      refine ⟨by rw [hn,asns_cons,asns_cons,asns_cons,as,append_assoc],?_,ha,head⟩
      rw [hops,totalHops_cons,totalHops_cons,totalHops_cons,Segment.length,as,length_append,seq',
        show (assegmentAppendAsns pin next.as).type = pin.type from rfl,seq]
      exact add_assoc ..
    · next ha =>
      rw [sortSet_eq fst]
      obtain ⟨hn,hops,hc,head⟩ := ih next hs
        (by rw [asns_cons]; rw [length_append] at hsm ⊢; simp at hsm; omega)
      refine ⟨by rw [asns_cons,hn,asns_cons pin],by rw [totalHops_cons,hops,totalHops_cons pin],
        isChain_cons.mpr ⟨?_,hc⟩,rfl⟩
      rw [head]
      rintro _ ⟨⟩ hb
      exact ha (typesPackable_iff.mpr hb)

theorem normalise_spec (path : Path) (hs : Sorted path) (hsm : (asns path).length < 65536) :
    asns (assegmentNormalise path) = asns path ∧
      totalHops (assegmentNormalise path) = totalHops path ∧ Apart (assegmentNormalise path) := by
  cases path with
  | nil => exact ⟨rfl,rfl,.nil⟩
  | cons pin rest =>
    obtain ⟨fst,hs⟩ := sorted_cons.mp hs
    rw [assegmentNormalise,sortSet_eq fst]
    obtain ⟨hn,hops,ha,-⟩ := normaliseFrom_spec pin hs hsm
    exact ⟨hn,hops,ha⟩

theorem reconcileLoop_done {hops : Int} (hd : hops ≤ 0) (path : Path) :
    reconcileLoop path hops = [] := by
  cases path with
  | nil => rfl
  | cons seg rest => rw [reconcileLoop,if_pos hd]

/-- Only a sequence is cut; one of a confederation is copied whole. -/
theorem reconcileLoop_cons {hops : Int} (pos : 0 < hops) (seg : Segment) (rest : Path) :
    reconcileLoop (seg :: rest) hops =
      if seg.type = .sequence ∧ hops < seg.length then [make seg.type (seg.as.take hops.toNat)]
      else seg :: reconcileLoop rest (hops - if seg.type.isSet then 1 else seg.length) := by
  have copy {n : Nat} (le : seg.length ≤ n) := make_take le
  rw [reconcileLoop,if_neg (by omega)]
  obtain ⟨ty,as,hs⟩ := seg
  generalize hl : Segment.length _ = len at *
  cases ty
  case set => simpa [SegType.isSet] using copy le_rfl
  case confedSet => simpa [SegType.isSet] using copy le_rfl
  case confedSequence =>
    simp only [SegType.isSet,reduceCtorEq,false_and,if_false]
    split
    · rw [copy (by omega),reconcileLoop_done (by omega),reconcileLoop_done (by omega)]
    · rw [copy (by omega)]
  case sequence =>
    simp only [SegType.isSet,true_and]
    split
    · rw [reconcileLoop_done (by omega),Nat.min_eq_right (by omega)]
    · rw [copy (by omega)]
      rfl

theorem reconcileLoop_leading {path : Path} (hf : ∀ seg ∈ path, seg.as ≠ []) (hops : Int) :
    ∃ n, reconcileLoop path hops = leadingPart path n := by
  induction path generalizing hops with
  | nil => exact ⟨0,rfl⟩
  | cons seg rest ih =>
    obtain ⟨fst,hf⟩ := forall_mem_cons.mp hf
    rcases lt_or_ge 0 hops with pos | hd
    · rw [reconcileLoop_cons pos]
      split
      · next cut =>
        refine ⟨hops.toNat,?_⟩
        rw [leadingPart_head (by omega),if_neg (by omega)]
      · obtain ⟨n,eq⟩ := ih hf (hops - if seg.type.isSet then 1 else seg.length)
        exact ⟨seg.length+n,by rw [eq,leadingPart_whole fst]⟩
    · exact ⟨0,by rw [reconcileLoop_done hd,leadingPart_zero]⟩

theorem totalHops_reconcileLoop {path : Path} {hops : Nat} (le : hops ≤ totalHops path)
    (hw : Uncut path hops) : totalHops (reconcileLoop path hops) = hops := by
  induction path generalizing hops with
  | nil => exact (Nat.le_zero.mp le).symm
  | cons seg rest ih =>
    rcases eq_zero_or_pos hops with rfl | pos
    · rw [reconcileLoop_done (by simp)]
      rfl
    rw [totalHops_cons] at le
    rw [reconcileLoop_cons (Int.natCast_pos.mpr pos)]
    split
    · next cut =>
      rw [totalHops_cons,Segment.length,as_make_take,length_take,Int.toNat_natCast,if_neg]
      · exact min_eq_left (by simp only [Segment.length] at cut; omega)
      · rw [show (make seg.type _).type = seg.type from rfl,cut.1]
        decide
    · next uncut =>
      have hf : (if seg.type.isSet then 1 else seg.length) ≤ hops := by
        split
        · exact pos
        · next set =>
          cases ty : seg.type with
          | sequence => exact Int.ofNat_le.mp (not_lt.mp fun lt => uncut ⟨ty,lt⟩)
          | confedSequence => simpa [totalHops_nil] using hw [] seg rest rfl ty pos
          | set | confedSet => simp [ty,SegType.isSet] at set
      rw [totalHops_cons,← Int.natCast_sub hf,ih (by omega)]
      · exact Nat.add_sub_cancel' hf
      · intro front seg' rest' eq hc hb
        have := hw (seg :: front) seg' rest' (by rw [eq]; rfl) hc
        rw [totalHops_cons] at this
        omega

/-- A leading part of the path, then the other path, with as many hops as the path has. -/
structure Reconciled (path as4path new : Path) (n : Nat) : Prop where
  parts : new = assegmentNormalise (leadingPart path n ++ as4path)
  normal : assegmentNormalise new = new
  numbers : asns new = (asns path).take n ++ asns as4path
  hops : aspathCountHops as4path ≤ totalHops path → aspathCountConfeds as4path = 0 →
    Uncut path (totalHops path - aspathCountHops as4path) → totalHops new = totalHops path

end

end Frr.Aspath
