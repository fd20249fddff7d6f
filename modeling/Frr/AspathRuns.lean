import Frr.AspathRoundTrip

/-! The operations keep the sets of a path sorted, so the paths of a run survive exactly if the wire
can carry them. -/
namespace Frr.Aspath

open List Option

section

def Increasing (as : List UInt32) : Prop := as.Pairwise fun a b => a.toNat < b.toNat

instance (as : List UInt32) : Decidable (Increasing as) := by
  unfold Increasing
  infer_instance

theorem sortedSet_eq {as : List UInt32} (increasing : Increasing as) : sortedSet as = as := by
  have hs : as.insertionSort (fun a b => a.toNat ≤ b.toNat) = as :=
    List.Pairwise.insertionSort_eq (increasing.imp le_of_lt)
  rw [sortedSet,hs]
  refine destutter_of_isChain _ as (List.Pairwise.isChain (increasing.imp fun hl eq => ?_))
  exact hl.ne (congrArg UInt32.toNat eq)

theorem increasing_of_distinct {as : List UInt32} (hs : as.Pairwise fun a b => a.toNat ≤ b.toNat)
    (hd : as.IsChain (· ≠ ·)) : Increasing as := by
  induction as with
  | nil => exact List.Pairwise.nil
  | cons a as ih =>
    obtain ⟨fst,hs⟩ := pairwise_cons.mp hs
    cases as with
    | nil => exact pairwise_singleton ..
    | cons b as =>
      obtain ⟨ho,hd⟩ := isChain_cons_cons.mp hd
      have hl : a.toNat < b.toNat := lt_of_le_of_ne (fst b (.head _)) fun eq =>
        ho (UInt32.toNat_inj.mp eq)
      refine pairwise_cons.mpr ⟨fun c mem => ?_,ih hs hd⟩
      rcases mem_cons.mp mem with rfl | mem
      · exact hl
      · exact hl.trans_le ((pairwise_cons.mp hs).1 c mem)

theorem increasing_sortedSet (as : List UInt32) : Increasing (sortedSet as) := by
  have total : Std.Total fun a b : UInt32 => a.toNat ≤ b.toNat := ⟨fun a b => le_total ..⟩
  have trans : IsTrans UInt32 fun a b => a.toNat ≤ b.toNat := ⟨fun _ _ _ => le_trans⟩
  exact increasing_of_distinct
    ((pairwise_insertionSort _ as).sublist (sublist_sortedSet as)) (isChain_destutter ..)

def Segment.Sorted (seg : Segment) : Prop := seg.type.isSet = true → Increasing seg.as

def Sorted (path : Path) : Prop := ∀ seg ∈ path, seg.Sorted

theorem Sorted.sets {path : Path} (hs : Sorted path) : SetsSorted path := by
  intro seg mem
  unfold sortPlain Segment.plain
  split
  · next set => rw [sortedSet_eq (hs seg mem set)]
  · rfl

variable {seg : Segment} {path as1 as2 : Path}

theorem Segment.Sorted.make {as : List UInt32} (hs : seg.Sorted) (sub : as.Sublist seg.as) :
    (Segment.make seg.type as).Sorted := fun set =>
  (hs set).sublist ((take_sublist ..).trans sub)

theorem sorted_of_not_set (ho : seg.type.isSet = false) : seg.Sorted := fun set => by
  rw [ho] at set
  exact absurd set Bool.false_ne_true

theorem sorted_sortSet (seg : Segment) : (sortSet seg).Sorted := by
  intro set
  rw [type_sortSet] at set
  rw [sortSet,if_pos set]
  exact (increasing_sortedSet seg.as).sublist (take_sublist ..)

theorem Sorted.nil : Sorted [] := fun _ mem => absurd mem not_mem_nil

theorem sorted_cons : Sorted (seg :: path) ↔ seg.Sorted ∧ Sorted path := forall_mem_cons

theorem sorted_append : Sorted (as1 ++ as2) ↔ Sorted as1 ∧ Sorted as2 := forall_mem_append

theorem Sorted.sublist (hs : Sorted path) (sub : as1.Sublist path) : Sorted as1 :=
  fun seg mem => hs seg (sub.mem mem)

theorem sorted_normaliseFrom {pin : Segment} (hs : pin.Sorted) (rest : List Segment) :
    Sorted (normaliseFrom pin rest) := by
  induction rest generalizing pin with
  | nil => exact sorted_cons.mpr ⟨hs,.nil⟩
  | cons next rest ih =>
    unfold normaliseFrom
    split
    · next both =>
      refine ih (sorted_of_not_set ?_)
      show pin.type.isSet = false
      rw [(typesPackable_iff.mp both).1]
      rfl
    · exact sorted_cons.mpr ⟨hs,ih (sorted_sortSet next)⟩

theorem sorted_normalise (path : Path) : Sorted (assegmentNormalise path) := by
  cases path with
  | nil => exact .nil
  | cons seg rest => exact sorted_normaliseFrom (sorted_sortSet seg) rest

end

section

variable {path as1 as2 new : Path}

theorem sorted_parse {s : List UInt8} {len : Nat} {use32bit : Bool}
    (hp : aspathParse s len use32bit = some path) : Sorted path := by
  unfold aspathParse assegmentsParse at hp
  split_ifs at hp
  · cases hp
    exact .nil
  obtain ⟨segs,-,rfl⟩ := map_eq_some_iff.mp hp
  exact sorted_normalise segs

theorem sorted_str2aspath (asns : List UInt32) : Sorted (aspathStr2aspath asns) := by
  have ty (seg : Segment) : (asns.foldl (fun seg asn => assegmentAppendAsns seg [asn]) seg).type =
      seg.type := by
    induction asns generalizing seg with
    | nil => rfl
    | cons asn asns ih => exact ih _
  unfold aspathStr2aspath
  split
  · exact .nil
  refine sorted_cons.mpr ⟨sorted_of_not_set ?_,.nil⟩
  rw [ty]
  rfl

theorem sorted_addAsns {asno : UInt32} {ty : SegType} {num : Nat} (seq : ty.isSet = false)
    (hs : Sorted path) (ha : aspathAddAsns path asno ty num = some new) : Sorted new := by
  have hf {rest : Path} (hs : Sorted rest) (hm : (if 65536 ≤ num then none
        else some (Segment.make ty (replicate num asno) :: rest)) = some new) :
      Sorted new := by
    split_ifs at hm
    cases hm
    exact sorted_cons.mpr ⟨sorted_of_not_set seq,hs⟩
  cases path with
  | nil => exact hf .nil ha
  | cons seg rest =>
    obtain ⟨head,tail⟩ := sorted_cons.mp hs
    simp only [aspathAddAsns] at ha
    split at ha
    · next same =>
      cases ha
      refine sorted_cons.mpr ⟨sorted_of_not_set ?_,tail⟩
      unfold assegmentPrependAsns
      split_ifs <;> exact same ▸ seq
    · split at ha
      · exact hf tail ha
      · exact hf hs ha

theorem sorted_merge (fst : Sorted as1) (snd : Sorted as2)
    (hm : aspathMerge as1 as2 = some new) : Sorted new := by
  unfold aspathMerge at hm
  split at hm
  · cases hm
  cases hm
  exact sorted_append.mpr ⟨fst,snd⟩

theorem sorted_deleteConfedSeq (hs : Sorted path) : Sorted (aspathDeleteConfedSeq path) :=
  hs.sublist filter_sublist

theorem sorted_prepend (fst : Sorted as1) (snd : Sorted as2)
    (hp : aspathPrepend as1 as2 = some new) : Sorted new := by
  unfold aspathPrepend at hp
  split at hp
  · cases hp
    exact fst
  · cases hp
    exact snd
  next head rest tail last =>
  simp only at hp
  have hr : Sorted (if tail.type = .sequence ∧ head.type = .confedSequence
      then aspathDeleteConfedSeq (head :: rest) else head :: rest) := by
    split
    · exact sorted_deleteConfedSeq snd
    · exact snd
  revert hp
  generalize (if tail.type = .sequence ∧ head.type = .confedSequence
      then aspathDeleteConfedSeq (head :: rest) else head :: rest) = left at hr ⊢
  intro hp
  cases left with
  | nil =>
    cases hp
    exact fst
  | cons head rest =>
    simp only at hp
    split_ifs at hp with ho seq
    · exact sorted_merge fst hr hp
    · cases hp
      refine sorted_append.mpr ⟨fst.sublist (dropLast_sublist _),sorted_cons.mpr
        ⟨sorted_of_not_set ?_,(sorted_cons.mp hr).2⟩⟩
      show tail.type.isSet = false
      rw [seq]
      rfl
    · exact sorted_merge fst hr hp

theorem sorted_aggregate (aggregated : aspathAggregate as1 as2 = some new) : Sorted new := by
  obtain ⟨asset,-,rfl⟩ := map_eq_some_iff.mp aggregated
  exact sorted_normalise _

theorem sorted_reconcile {as4path : Path} (hs : Sorted as4path)
    (reconciled : aspathReconcileAs4 path as4path = some new) : Sorted new := by
  have normalised {hops : Int} (hm : (if hops = 0 then some as4path
        else (aspathMerge (reconcileLoop path hops) as4path).map assegmentNormalise) = some new) :
      Sorted new := by
    split_ifs at hm
    · cases hm
      exact hs
    obtain ⟨hme,-,rfl⟩ := map_eq_some_iff.mp hm
    exact sorted_normalise _
  exact normalised reconciled

theorem sorted_removePrivate (hs : Sorted path) : Sorted (aspathRemovePrivateAsns path) := by
  intro new mem
  obtain ⟨seg,hi,hm⟩ := mem_filterMap.mp mem
  simp only at hm
  split_ifs at hm <;> cases hm
  · exact hs _ hi
  · exact (hs seg hi).make filter_sublist

theorem sorted_filterExclude {exclude : Path} (hs : Sorted path) :
    Sorted (aspathFilterExclude path exclude) := by
  intro new mem
  obtain ⟨seg,hi,hm⟩ := mem_filterMap.mp mem
  simp only at hm
  split_ifs at hm
  cases hm
  exact (hs seg hi).make filter_sublist

end

section

variable {paths paths' : List Path}

section

variable (hs : ∀ path ∈ paths, Sorted path)

include hs

theorem sorted_getD (i : Nat) : Sorted (paths.getD i []) := by
  rw [getD_eq_getElem?_getD]
  cases hf : paths[i]? with
  | none => exact .nil
  | some path => exact hs path (mem_of_getElem? hf)

theorem sorted_result {op : Op} {new : Path}
    (hm : op.result paths = some (some new)) : Sorted new := by
  have at_ := sorted_getD hs
  cases op with
  | parse s len use32bit => exact sorted_parse (some_inj.mp hm)
  | str2aspath asns =>
    cases hm
    exact sorted_str2aspath asns
  | addSeqN path asno num =>
    obtain ⟨_,ha,eq⟩ := map_eq_some_iff.mp hm
    cases eq
    exact sorted_addAsns rfl (at_ path) ha
  | addConfedSeq path asno =>
    obtain ⟨_,ha,eq⟩ := map_eq_some_iff.mp hm
    cases eq
    exact sorted_addAsns rfl (at_ path) ha
  | prepend as1 as2 =>
    obtain ⟨_,hp,eq⟩ := map_eq_some_iff.mp hm
    cases eq
    exact sorted_prepend (at_ as1) (at_ as2) hp
  | aggregate as1 as2 =>
    obtain ⟨_,aggregated,eq⟩ := map_eq_some_iff.mp hm
    cases eq
    exact sorted_aggregate aggregated
  | reconcileAs4 path as4path =>
    obtain ⟨_,reconciled,eq⟩ := map_eq_some_iff.mp hm
    cases eq
    exact sorted_reconcile (at_ as4path) reconciled
  | removePrivateAsns path =>
    cases hm
    exact sorted_removePrivate (at_ path)
  | filterExclude src exclude =>
    cases hm
    exact sorted_filterExclude (at_ src)
  | deleteConfedSeq path =>
    cases hm
    exact sorted_deleteConfedSeq (at_ path)

theorem sorted_step {op : Op}
    (hst : step paths op = some paths') : ∀ path ∈ paths', Sorted path := by
  obtain ⟨new,hm,rfl⟩ := map_eq_some_iff.mp hst
  intro path mem
  rcases mem_append.mp mem with old | hf
  · exact hs path old
  rw [mem_toList] at hf
  rw [hf] at hm
  exact sorted_result hs hm

end

theorem sorted_run (ops : List Op) (hs : ∀ path ∈ paths, Sorted path)
    (ran : run ops paths = some paths') : ∀ path ∈ paths', Sorted path := by
  induction ops generalizing paths with
  | nil =>
    cases ran
    exact hs
  | cons op ops ih =>
    rw [run,foldlM_cons] at ran
    obtain ⟨between,hst,ran⟩ := bind_eq_some_iff.mp ran
    exact ih (sorted_step hs hst) ran

/-- The paths of a run survive the wire exactly if the wire can carry them. -/
theorem roundTrips_iff (ops : List Op) (paths : List Path) (ran : run ops [] = some paths)
    (path : Path) (made : path ∈ paths) (s : Stream) (room : needed path ≤ s.writeable) :
    RoundTrips s path ↔ Wireable path :=
  ⟨wireable_of_roundTrips room (sorted_run ops (by simp) ran path made).sets,
    roundTrips_of_wireable room⟩

def interleaved : List UInt8 :=
  [2,1,0,0,0,1, 1,1,0,0,0xfc,0, 2,1,0,0,0,2, 1,1,0,0,0xfc,1, 2,1,0,0,0,3]

/-- A path with one prepended number, as it is sent to a neighbor. -/
theorem prepended_roundTrips : ∃ paths path, run [.parse interleaved 30 true,.addSeqN 0 7 2] [] =
    some paths ∧ path ∈ paths ∧ path.head?.map Segment.length = some 3 ∧
      RoundTrips {size := 64, data := []} path := by
  let path : Path := [.make .sequence [7,7,1],.make .set [64512],.make .sequence [2],
    .make .set [64513],.make .sequence [3]]
  have ran : run [.parse interleaved 30 true,.addSeqN 0 7 2] [] =
      some [[.make .sequence [1],.make .set [64512],.make .sequence [2],.make .set [64513],
        .make .sequence [3]],path] := by decide +kernel
  have hm : path ∈ [[.make .sequence [1],.make .set [64512],.make .sequence [2],
      .make .set [64513],.make .sequence [3]],path] := by decide +kernel
  have hw : Wireable path := by
    refine ⟨?_,by decide +kernel,by decide +kernel,by decide +kernel,by decide +kernel⟩
    rintro seg ⟨⟩
    decide +kernel
  exact ⟨_,path,ran,hm,by decide +kernel,
    (roundTrips_iff _ _ ran path hm _ (by decide +kernel)).mpr hw⟩

/-- Without the private numbers there are three sequences; the header has the length of two. -/
theorem packed_header_short : ∃ paths path, run [.parse interleaved 30 true,.removePrivateAsns 0] [] =
    some paths ∧ path ∈ paths ∧ needed path ≤ 64 ∧
      aspathPut {size := 64, data := []} path true =
        some ({size := 64, data := [2,2,0,0,0,1,0,0,0,2,0,0,0,3]},14) ∧
      ¬RoundTrips {size := 64, data := []} path := by
  let path : Path := [.make .sequence [1],.make .sequence [2],.make .sequence [3]]
  have put : aspathPut {size := 64, data := []} path true =
      some ({size := 64, data := [2,2,0,0,0,1,0,0,0,2,0,0,0,3]},14) := by decide +kernel
  refine ⟨[[.make .sequence [1],.make .set [64512],.make .sequence [2],.make .set [64513],
    .make .sequence [3]],path],path,by decide +kernel,by decide +kernel,by decide +kernel,put,?_⟩
  rintro ⟨bytes,segs,put',parse,-⟩
  rw [put] at put'
  obtain ⟨stream,-⟩ := Prod.ext_iff.mp (some_inj.mp put')
  have hw : bytes = [2,2,0,0,0,1,0,0,0,2,0,0,0,3] := (congrArg Stream.data stream).symm
  subst hw
  have rejected : aspathParse [2,2,0,0,0,1,0,0,0,2,0,0,0,3] 14 true = none := by decide +kernel
  exact some_ne_none segs (parse.symm.trans rejected)

end

end Frr.Aspath
