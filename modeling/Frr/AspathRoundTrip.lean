import Frr.AspathWire

/-! Which AS paths survive `aspath_put` and `aspath_parse`. A header with too small a length makes
the rest unreadable; that no other bytes make up for it is shown by counting. -/
namespace Frr.Aspath

open List Option Segment

section

def attach (seg : Plain) : List Plain → List Plain
  | [] => [seg]
  | next :: rest =>
    if seg.1 = .sequence ∧ next.1 = .sequence then (seg.1,seg.2 ++ next.2) :: rest
    else seg :: next :: rest

def sortPlain (seg : Plain) : Plain := (seg.1,if seg.1.isSet then sortedSet seg.2 else seg.2)

def canonical (path : List Plain) : List Plain := (path.map sortPlain).foldr attach []

variable {a b : List UInt32} {seg : Plain} {X : List Plain}

theorem attach_cons (seg : Plain) (X : List Plain) :
    ∃ more Y, attach seg X = (seg.1,seg.2 ++ more) :: Y := by
  cases X with
  | nil => exact ⟨[],[],by simp [attach]⟩
  | cons next rest =>
    rw [attach]
    split
    · exact ⟨next.2,rest,rfl⟩
    · exact ⟨[],next :: rest,by simp⟩

theorem attach_attach (a b : List UInt32) (X : List Plain) :
    attach (.sequence,a) (attach (.sequence,b) X) = attach (.sequence,a ++ b) X := by
  cases X with
  | nil => simp [attach]
  | cons next rest =>
    by_cases eq : next.1 = .sequence
    · simp [attach,eq]
    · simp [attach,eq]

theorem attach_other (ho : ¬(seg.1 = .sequence ∧ (X.head?.map Prod.fst) = some .sequence)) :
    attach seg X = seg :: X := by
  cases X with
  | nil => rfl
  | cons next rest =>
    rw [attach,if_neg]
    simpa using ho

theorem flatMap_attach (seg : Plain) (X : List Plain) :
    (attach seg X).flatMap Prod.snd = seg.2 ++ X.flatMap Prod.snd := by
  cases X with
  | nil => simp [attach]
  | cons next rest =>
    rw [attach]
    split <;> simp

def other (seg : Plain) : Bool := seg.1 ≠ .sequence

theorem countP_attach (seg : Plain) (X : List Plain) :
    (attach seg X).countP other = (seg :: X).countP other := by
  cases X with
  | nil => rfl
  | cons next rest =>
    rw [attach]
    split
    · next both => simp [other,both]
    · rfl

theorem canonical_cons (seg : Plain) (path : List Plain) :
    canonical (seg :: path) = attach (sortPlain seg) (canonical path) := rfl

theorem canonical_append (l path : List Plain) :
    canonical (l ++ path) = (l.map sortPlain).foldr attach (canonical path) := by
  simp [canonical]

theorem countP_canonical (path : List Plain) : (canonical path).countP other = path.countP other := by
  induction path with
  | nil => rfl
  | cons seg path ih =>
    rw [canonical_cons,countP_attach,countP_cons,countP_cons,ih]
    rfl

theorem flatMap_canonical {path : List Plain} (hs : ∀ seg ∈ path, sortPlain seg = seg) :
    (canonical path).flatMap Prod.snd = path.flatMap Prod.snd := by
  induction path with
  | nil => rfl
  | cons seg path ih =>
    rw [canonical_cons,flatMap_attach,hs seg (.head _),flatMap_cons,
      ih fun seg mem => hs seg (.tail _ mem)]

theorem foldr_attach_sequence {parts : List (List UInt32)} (hf : parts ≠ []) (X : List Plain) :
    (parts.map fun part => ((.sequence,part) : Plain)).foldr attach X =
      attach (.sequence,parts.flatten) X := by
  induction parts with
  | nil => exact absurd rfl hf
  | cons part parts ih =>
    cases parts with
    | nil => simp
    | cons next rest =>
      rw [map_cons,foldr_cons,ih (by simp),attach_attach]
      rfl

end

section

theorem sublist_sortedSet (as : List UInt32) :
    (sortedSet as).Sublist (as.insertionSort fun a b => a.toNat ≤ b.toNat) :=
  destutter_sublist ..

theorem length_sortedSet (as : List UInt32) : (sortedSet as).length ≤ as.length := by
  have := (sublist_sortedSet as).length_le
  rwa [(perm_insertionSort _ as).length_eq] at this

theorem as_make {ty : SegType} {as : List UInt32} (hs : as.length < 65536) :
    (make ty as).as = as := by
  simp [make,Nat.mod_eq_of_lt hs]

theorem plain_sortSet (seg : Segment) : (sortSet seg).plain = sortPlain seg.plain := by
  unfold sortSet sortPlain plain
  split
  · next set => rw [as_make ((length_sortedSet seg.as).trans_lt seg.short)]; rfl
  · rfl

theorem typesPackable_iff {a b : Segment} :
    typesPackable a b ↔ a.type = .sequence ∧ b.type = .sequence := by
  simp only [typesPackable,decide_eq_true_eq]
  constructor
  · rintro ⟨eq,ty⟩
    exact ⟨ty,eq ▸ ty⟩
  rintro ⟨fst,snd⟩
  exact ⟨fst.trans snd.symm,fst⟩

theorem normaliseFrom_plain {pin : Segment} {rest : List Segment}
    (hs : ∀ seg ∈ attach pin.plain (canonical (rest.map Segment.plain)), seg.2.length < 65536) :
    (normaliseFrom pin rest).map Segment.plain =
      attach pin.plain (canonical (rest.map Segment.plain)) := by
  induction rest generalizing pin with
  | nil => rfl
  | cons next rest ih =>
    rw [map_cons,canonical_cons] at hs ⊢
    unfold normaliseFrom
    by_cases hb : typesPackable pin next
    · rw [if_pos hb]
      obtain ⟨fst,snd⟩ := typesPackable_iff.mp hb
      have hp : pin.plain = (.sequence,pin.as) := Prod.ext fst rfl
      have hso : sortPlain next.plain = (.sequence,next.as) := by
        simp [sortPlain,Segment.plain,snd,SegType.isSet]
      rw [hp,hso,attach_attach] at hs ⊢
      -- The sequence in one piece is short, so nothing was lost on the way.
      obtain ⟨hm,Y,hw⟩ := attach_cons (.sequence,pin.as ++ next.as)
        (canonical (rest.map Segment.plain))
      have hf : (pin.as ++ next.as).length < 65536 := by
        have := hs _ (by rw [hw]; exact .head _)
        simp only [length_append] at this ⊢
        omega
      have ha : (assegmentAppendAsns pin next.as).plain = (.sequence,pin.as ++ next.as) :=
        Prod.ext fst (@as_make pin.type _ hf)
      rw [ih (by rwa [ha]),ha]
    · rw [if_neg hb,map_cons]
      obtain ⟨hm,Y,hw⟩ := attach_cons (sortPlain next.plain) (canonical (rest.map Segment.plain))
      have hap : attach pin.plain (attach (sortPlain next.plain)
          (canonical (rest.map Segment.plain))) =
          pin.plain :: attach (sortPlain next.plain) (canonical (rest.map Segment.plain)) := by
        refine attach_other fun hb' => hb (typesPackable_iff.mpr ⟨hb'.1,?_⟩)
        rw [hw] at hb'
        exact some_inj.mp hb'.2
      rw [hap] at hs ⊢
      rw [ih (by rw [plain_sortSet]; exact fun seg mem => hs seg (.tail _ mem)), plain_sortSet]

theorem normalise_plain {path : Path}
    (hs : ∀ seg ∈ canonical (path.map plain), seg.2.length < 65536) :
    (assegmentNormalise path).map plain = canonical (path.map plain) := by
  cases path with
  | nil => rfl
  | cons seg rest =>
    rw [map_cons,canonical_cons,← plain_sortSet] at hs ⊢
    exact normaliseFrom_plain hs

theorem subperm_sortSet (seg : Segment) : (sortSet seg).as.Subperm seg.as := by
  unfold sortSet
  split
  · rw [as_make ((length_sortedSet seg.as).trans_lt seg.short)]
    exact (sublist_sortedSet seg.as).subperm.trans (perm_insertionSort _ seg.as).subperm
  · exact List.Subperm.refl _

theorem normaliseFrom_subperm (pin : Segment) (rest : List Segment) :
    ((normaliseFrom pin rest).flatMap as).Subperm (pin.as ++ rest.flatMap as) := by
  induction rest generalizing pin with
  | nil =>
    rw [normaliseFrom,flatMap_singleton,flatMap_nil,append_nil]
  | cons next rest ih =>
    unfold normaliseFrom
    split
    · refine (ih _).trans ?_
      rw [flatMap_cons,← append_assoc]
      exact ((take_sublist ..).append_right _).subperm
    rw [flatMap_cons,flatMap_cons]
    refine (subperm_append_left _).mpr ((ih _).trans ?_)
    exact (subperm_append_right _).mpr (subperm_sortSet next)

theorem normalise_subperm (path : Path) :
    ((assegmentNormalise path).flatMap as).Subperm (path.flatMap as) := by
  cases path with
  | nil => exact List.Subperm.refl _
  | cons seg rest =>
    rw [flatMap_cons]
    exact (normaliseFrom_subperm _ _).trans ((subperm_append_right _).mpr (subperm_sortSet seg))

theorem type_sortSet (seg : Segment) : (sortSet seg).type = seg.type := by
  unfold sortSet
  split <;> rfl

theorem other_sortSet (seg : Segment) : other (sortSet seg).plain = other seg.plain := by
  rw [other,other,plain,type_sortSet]
  rfl

theorem normaliseFrom_countP (pin : Segment) (rest : List Segment) :
    ((normaliseFrom pin rest).map plain).countP other = ((pin :: rest).map plain).countP other := by
  induction rest generalizing pin with
  | nil => rfl
  | cons next rest ih =>
    unfold normaliseFrom
    by_cases hb : typesPackable pin next
    · obtain ⟨fst,snd⟩ := typesPackable_iff.mp hb
      rw [if_pos hb,ih]
      simp [other,plain,assegmentAppendAsns,make,fst,snd]
    rw [if_neg hb,map_cons,countP_cons,ih]
    simp [map_cons,countP_cons,other_sortSet]

theorem normalise_countP (path : Path) :
    ((assegmentNormalise path).map plain).countP other = (path.map plain).countP other := by
  cases path with
  | nil => rfl
  | cons seg rest =>
    rw [assegmentNormalise,normaliseFrom_countP]
    simp [map_cons,countP_cons,other_sortSet]

end

section

theorem blocks_flatten (path : Path) : (blocks path).flatMap (fun b => b.1 :: b.2) = path := by
  induction n : path.length using Nat.strong_induction_on generalizing path with
  | _ n ih =>
    cases path with
    | nil => rfl
    | cons seg rest =>
      have := (dropWhile_sublist (l := rest) (packable seg)).length_le
      rw [blocks_cons,flatMap_cons,ih _ (by simp at n; omega) _ rfl,cons_append,
        takeWhile_append_dropWhile]

theorem packable_of_mem_blocks {path : Path} {block : Segment × List Segment}
    (mem : block ∈ blocks path) : ∀ next ∈ block.2, packable block.1 next := by
  induction n : path.length using Nat.strong_induction_on generalizing path with
  | _ n ih =>
    cases path with
    | nil => simp [blocks] at mem
    | cons seg rest =>
      have := (dropWhile_sublist (l := rest) (packable seg)).length_le
      rw [blocks_cons] at mem
      rcases mem_cons.mp mem with rfl | mem
      · exact fun next hi => mem_takeWhile_imp hi
      · exact ih _ (by simp at n; omega) mem rfl

variable {seg : Segment} {packed : List Segment}

theorem flatten_parts (seg : Segment) :
    (parts seg.length seg.as).1.flatten ++ (parts seg.length seg.as).2 = seg.as :=
  (parts_spec (le_refl seg.as.length)).all

theorem flatMap_frames (path : Path) : (frames path).flatMap Frame.as = path.flatMap as := by
  conv_rhs => rw [← blocks_flatten path]
  rw [frames,flatMap_assoc,flatMap_assoc]
  refine flatMap_congr fun block _ => ?_
  obtain ⟨seg,packed⟩ := block
  rw [blockFrames_eq,flatMap_append,flatMap_singleton,fullFrames,flatMap_map,lastFrame,
    ← append_assoc,flatMap_cons]
  refine congrArg (· ++ packed.flatMap as) ?_
  conv_rhs => rw [← flatten_parts seg]
  rw [flatMap_id']

theorem getLast_le (packed : List Segment) :
    (packed.getLast?.map Segment.length).getD 0 ≤ (packed.map Segment.length).sum ∧
      ((packed.getLast?.map Segment.length).getD 0 = (packed.map Segment.length).sum ↔
        ∀ next ∈ packed.dropLast, next.length = 0) := by
  induction packed using reverseRecOn with
  | nil => simp
  | append_singleton front last _ =>
    simp only [getLast?_append,getLast?_singleton,some_or,map_some,
      getD_some,map_append,sum_append,map_cons,map_nil,sum_cons,
      sum_nil,Nat.add_zero,dropLast_concat]
    refine ⟨Nat.le_add_left ..,?_⟩
    have zero : (front.map Segment.length).sum = 0 ↔ ∀ next ∈ front, next.length = 0 := by
      rw [List.sum_eq_zero_iff_forall_eq_nat]
      simp
    rw [← zero]
    omega

theorem claimed_le {path : Path} {f : Frame} (mem : f ∈ frames path) :
    f.claimed ≤ f.as.length ∧ f.claimed ≤ segmentMax := by
  obtain ⟨⟨seg,packed⟩,block,hi⟩ := mem_flatMap.mp mem
  have spec := parts_spec (le_refl seg.as.length)
  rw [blockFrames_eq] at hi
  rcases mem_append.mp hi with hfu | last
  · obtain ⟨part,hh,rfl⟩ := mem_map.mp hfu
    exact ⟨(spec.each part hh).ge,le_rfl⟩
  rw [mem_singleton.mp last]
  have all := length_parts seg
  have hs : (parts seg.length seg.as).2.length ≤ segmentMax := spec.short
  constructor
  · simp only [lastFrame,length_append,sum_length]
    exact Nat.add_le_add_left (getLast_le packed).1 _
  simp only [lastFrame]
  cases hf : packed.getLast? with
  | none => simpa using hs
  | some next =>
    have hfi := (packable_iff.mp (packable_of_mem_blocks block next (mem_of_getLast? hf))).2.2
    simp only [map_some,getD_some] at hfi ⊢
    omega

end

section

def weight : List UInt8 → Nat
  | _ :: b :: rest => b.toNat + weight rest
  | _ => 0

theorem weight_append {a b : List UInt8} (even : a.length % 2 = 0) :
    weight (a ++ b) = weight a + weight b := by
  induction n : a.length using Nat.strong_induction_on generalizing a with
  | _ n ih =>
    match a with
    | [] => simp [weight]
    | [x] => simp at even
    | x :: y :: a =>
      simp only [length_cons] at even n
      simp only [cons_append,weight,ih a.length (by omega) (by omega) rfl]
      omega

theorem weight_flatMap {α : Type} {f : α → List UInt8} (l : List α)
    (even : ∀ a ∈ l, (f a).length % 2 = 0) :
    weight (l.flatMap f) = (l.map fun a => weight (f a)).sum := by
  induction l with
  | nil => rfl
  | cons a l ih =>
    rw [flatMap_cons,weight_append (even a (.head _)),
      ih fun a mem => even a (.tail _ mem),map_cons,sum_cons]

def asnWeight (x : UInt32) : Nat := weight (asnBytes x)

theorem weight_asns (as : List UInt32) :
    weight (as.flatMap asnBytes) = (as.map asnWeight).sum :=
  weight_flatMap as fun _ _ => by simp [asnBytes]

theorem weight_frames {l : List Frame} (hs : ∀ f ∈ l, f.claimed ≤ segmentMax) :
    weight (l.flatMap Frame.bytes) =
      (l.map Frame.claimed).sum + ((l.flatMap Frame.as).map asnWeight).sum := by
  rw [weight_flatMap l fun f _ => by rw [length_bytes]; omega]
  induction l with
  | nil => rfl
  | cons f l ih =>
    have hh : weight f.bytes = f.claimed + (f.as.map asnWeight).sum := by
      rw [Frame.bytes,weight,weight_asns,toNat_ofNat_length (hs f (.head _))]
    simp only [map_cons,sum_cons,flatMap_cons,map_append,sum_append,hh,
      ih fun f mem => hs f (.tail _ mem)]
    omega

def Plain.frame (seg : Plain) : Frame := {type := seg.1, claimed := seg.2.length, as := seg.2}

theorem sum_le_of_subperm {as bs : List UInt32} (hl : as.Subperm bs) (f : UInt32 → Nat) :
    (as.map f).sum ≤ (bs.map f).sum := by
  obtain ⟨l,perm,sub⟩ := hl
  rw [← (perm.map f).sum_eq]
  exact (sub.map f).sum_le_sum fun _ _ => Nat.zero_le _

theorem eq_of_sum_le {α : Type} {l : List α} {f g : α → Nat} (le : ∀ a ∈ l, f a ≤ g a)
    (sum : (l.map g).sum ≤ (l.map f).sum) : ∀ a ∈ l, f a = g a := by
  induction l with
  | nil => simp
  | cons a l ih =>
    have hh := le a (.head _)
    have rest : (l.map f).sum ≤ (l.map g).sum := sum_le_sum fun a mem => le a (.tail _ mem)
    simp only [map_cons,sum_cons] at sum
    intro b mem
    rcases mem_cons.mp mem with rfl | mem
    · omega
    · exact ih (fun a mem => le a (.tail _ mem)) (by omega) b mem

theorem claimed_eq {path : Path} {raw : List Plain} (hs : ∀ seg ∈ raw, seg.2.length ≤ segmentMax)
    (eq : raw.flatMap encode = wire path)
    (hm : (path.flatMap as).Subperm (raw.flatMap Prod.snd)) :
    ∀ f ∈ frames path, f.claimed = f.as.length := by
  have weights := congrArg weight eq
  have frm : raw.flatMap encode = (raw.map Plain.frame).flatMap Frame.bytes := by
    rw [flatMap_map]
    rfl
  have frameSmall : ∀ f ∈ raw.map Plain.frame, f.claimed ≤ segmentMax := fun f mem => by
    obtain ⟨seg,hh,rfl⟩ := mem_map.mp mem
    exact hs seg hh
  rw [frm,weight_frames frameSmall,wire,
    weight_frames fun f mem => (claimed_le mem).2,flatMap_frames,flatMap_map] at weights
  have hl := sum_le_of_subperm hm fun x => 1 + asnWeight x
  rw [sum_map_add,sum_map_add] at hl
  have count (as : List UInt32) : (as.map fun _ => 1).sum = as.length := by simp
  rw [count,count] at hl
  have total : ((frames path).map fun f => f.as.length).sum = (path.flatMap as).length := by
    rw [← flatMap_frames,length_flatMap]
  have total' : ((raw.map Plain.frame).map Frame.claimed).sum = (raw.flatMap Prod.snd).length := by
    rw [length_flatMap,List.map_map]
    rfl
  refine eq_of_sum_le (fun f mem => (claimed_le mem).1) ?_
  rw [total]
  rw [total'] at weights
  change _ + ((raw.flatMap Prod.snd).map asnWeight).sum = _ at weights
  omega

end

section

structure Wireable (path : Path) : Prop where
  start : ∀ seg, path.head? = some seg → seg.length ≠ 0
  filled : ∀ block ∈ blocks path, ∃ seg ∈ block.1 :: block.2, seg.length ≠ 0
  packed : ∀ block ∈ blocks path, ∀ seg ∈ block.2.dropLast, seg.length = 0
  single : ∀ seg ∈ path, seg.type ≠ .sequence → seg.length ≤ segmentMax
  short : ∀ seg ∈ canonical (path.map plain), seg.2.length < 65536

/-- `aspath_put` writes bytes, as many as it returns, and `aspath_parse` reads the same segments. -/
def RoundTrips (s : Stream) (path : Path) : Prop :=
  ∃ bytes segs, aspathPut s path true = some ({s with data := s.data ++ bytes},bytes.length) ∧
    aspathParse bytes bytes.length true = some segs ∧
    segs.map plain = canonical (path.map plain)

variable {path : Path} {seg : Segment} {packed : List Segment}

theorem claimed_iff : (lastFrame seg packed).claimed = (lastFrame seg packed).as.length ↔
    ∀ next ∈ packed.dropLast, next.length = 0 := by
  rw [← (getLast_le packed).2,lastFrame,length_append,sum_length]
  exact Nat.add_left_cancel_iff

theorem length_last_pos : (parts seg.length seg.as).2.length = 0 ↔ seg.length = 0 := by
  have all := length_parts seg
  have count : (parts seg.length seg.as).1.length = (seg.length-1) / segmentMax :=
    (parts_spec (le_refl seg.as.length)).count
  simp only [segmentMax] at all count
  omega

theorem filled_iff : (lastFrame seg packed).as.length ≠ 0 ↔ ∃ s ∈ seg :: packed, s.length ≠ 0 := by
  rw [lastFrame,length_append,sum_length]
  have zero : (packed.map Segment.length).sum = 0 ↔ ∀ next ∈ packed, next.length = 0 := by
    rw [List.sum_eq_zero_iff_forall_eq_nat]
    simp
  rw [ne_eq,Nat.add_eq_zero_iff,length_last_pos,zero]
  simp only [mem_cons,exists_eq_or_imp,not_and_or,not_forall,exists_prop]

theorem full_eq_nil : fullFrames seg = [] ↔ seg.length ≤ segmentMax := by
  have count : (parts seg.length seg.as).1.length = (seg.length-1) / segmentMax :=
    (parts_spec (le_refl seg.as.length)).count
  rw [fullFrames,map_eq_nil_iff,← length_eq_zero_iff,count]
  simp only [segmentMax]
  omega

theorem packed_eq_nil (block : (seg,packed) ∈ blocks path) (ho : seg.type ≠ .sequence) :
    packed = [] := by
  cases packed with
  | nil => rfl
  | cons next rest =>
    exact absurd (packable_iff.mp (packable_of_mem_blocks block next (.head _))).1 ho

theorem frames_of_short (hs : seg.length ≤ segmentMax) :
    (blockFrames (seg,[])).map Frame.plain = [seg.plain] := by
  have none := full_eq_nil.mpr hs
  have hw := flatten_parts seg
  rw [fullFrames,map_eq_nil_iff] at none
  rw [none,flatten_nil,nil_append] at hw
  rw [blockFrames_eq,full_eq_nil.mpr hs]
  simp [Frame.plain,lastFrame,plain,hw]

theorem foldr_block (block : (seg,packed) ∈ blocks path)
    (hs : seg.type ≠ .sequence → seg.length ≤ segmentMax) (X : List Plain) :
    (((blockFrames (seg,packed)).map Frame.plain).map sortPlain).foldr attach X =
      (((seg :: packed).map plain).map sortPlain).foldr attach X := by
  by_cases seq : seg.type = .sequence
  · have sort (as : List UInt32) : sortPlain (.sequence,as) = (.sequence,as) := rfl
    have left : ((blockFrames (seg,packed)).map Frame.plain).map sortPlain =
        ((parts seg.length seg.as).1 ++ [(parts seg.length seg.as).2 ++ packed.flatMap as]).map
          fun part => ((.sequence,part) : Plain) := by
      simp [blockFrames_eq,fullFrames,lastFrame,Frame.plain,seq,sort]
    have right : ((seg :: packed).map plain).map sortPlain =
        (seg.as :: packed.map as).map fun part => ((.sequence,part) : Plain) := by
      have types : ∀ next ∈ packed, sortPlain next.plain = (.sequence,next.as) := fun next mem => by
        rw [plain,(packable_iff.mp (packable_of_mem_blocks block next mem)).2.1,sort]
      simp only [map_cons,List.map_map,cons.injEq]
      exact ⟨by rw [plain,seq,sort],map_congr_left types⟩
    rw [left,right,foldr_attach_sequence (by simp),foldr_attach_sequence (by simp)]
    refine congrArg (fun as => attach (.sequence,as) X) ?_
    conv_rhs => rw [flatten_cons,← flatten_parts seg]
    simp [flatMap_def]
  · have none := packed_eq_nil block seq
    subst none
    rw [frames_of_short (hs seq)]
    rfl

theorem canonical_flatMap {β : Type} {g h : β → List Plain} (l : List β)
    (eq : ∀ b ∈ l, ∀ X, ((g b).map sortPlain).foldr attach X =
      ((h b).map sortPlain).foldr attach X) : canonical (l.flatMap g) = canonical (l.flatMap h) := by
  induction l with
  | nil => rfl
  | cons b l ih =>
    rw [flatMap_cons,flatMap_cons,canonical_append,canonical_append,
      ih fun b mem => eq b (.tail _ mem),eq b (.head _)]

theorem mem_of_mem_blocks (block : (seg,packed) ∈ blocks path) : seg ∈ path := by
  rw [← blocks_flatten path]
  exact mem_flatMap.mpr ⟨_,block,.head _⟩

theorem canonical_frames (hs : ∀ seg ∈ path, seg.type ≠ .sequence → seg.length ≤ segmentMax) :
    canonical ((frames path).map Frame.plain) = canonical (path.map plain) := by
  conv_rhs => rw [← blocks_flatten path]
  rw [frames,map_flatMap,map_flatMap]
  refine canonical_flatMap (blocks path) fun block mem X => ?_
  exact foldr_block mem (hs _ (mem_of_mem_blocks mem)) X

theorem wire_eq (exact : ∀ f ∈ frames path, f.claimed = f.as.length) :
    wire path = ((frames path).map Frame.plain).flatMap encode := by
  rw [wire,flatMap_map]
  refine flatMap_congr fun f mem => ?_
  rw [Frame.bytes,exact f mem]
  rfl

theorem mem_frames {f : Frame} (mem : f ∈ frames path) :
    ∃ seg packed, (seg,packed) ∈ blocks path ∧ (f ∈ fullFrames seg ∨ f = lastFrame seg packed) := by
  obtain ⟨⟨seg,packed⟩,block,hi⟩ := mem_flatMap.mp mem
  rw [blockFrames_eq] at hi
  exact ⟨seg,packed,block,by simpa using hi⟩

theorem length_of_mem_full {f : Frame} (mem : f ∈ fullFrames seg) :
    f.as.length = segmentMax ∧ f.claimed = segmentMax := by
  obtain ⟨part,hh,rfl⟩ := mem_map.mp mem
  exact ⟨(parts_spec (le_refl seg.as.length)).each part hh,rfl⟩

theorem roundTrips_of_wireable {s : Stream} (room : needed path ≤ s.writeable)
    (wireable : Wireable path) : RoundTrips s path := by
  have exact : ∀ f ∈ frames path, f.claimed = f.as.length := fun f mem => by
    obtain ⟨seg,packed,block,full | rfl⟩ := mem_frames mem
    · exact (length_of_mem_full full).2.trans (length_of_mem_full full).1.symm
    · exact claimed_iff.mpr (wireable.packed _ block)
  have accepted : ∀ seg ∈ (frames path).map Frame.plain, Accepted seg := fun seg mem => by
    obtain ⟨f,inside,rfl⟩ := mem_map.mp mem
    refine ⟨pos_of_ne_zero ?_,show f.as.length ≤ 255 from exact f inside ▸ (claimed_le inside).2⟩
    obtain ⟨seg,packed,block,full | rfl⟩ := mem_frames inside
    · rw [show f.plain.2 = f.as from rfl,(length_of_mem_full full).1]
      decide
    · exact filled_iff.mpr (wireable.filled _ block)
  refine ⟨wire path,_,aspathPut_eq wireable.start room,
    aspathParse_iff.mpr ⟨_,accepted,(wire_eq exact).symm,rfl⟩,?_⟩
  have plain : (((frames path).map Frame.plain).map Plain.segment).map plain =
      (frames path).map Frame.plain := by
    rw [List.map_map]
    exact (map_congr_left fun seg mem => (accepted seg mem).segment).trans (map_id _)
  have same := canonical_frames wireable.single
  rw [normalise_plain (by rw [plain,same]; exact wireable.short),plain,same]

def SetsSorted (path : Path) : Prop := ∀ seg ∈ path, sortPlain seg.plain = seg.plain

theorem flatMap_plain (path : Path) : (path.map plain).flatMap Prod.snd = path.flatMap as := by
  rw [flatMap_map]
  rfl

theorem canonical_ne_nil (hf : path ≠ []) : canonical (path.map plain) ≠ [] := by
  cases path with
  | nil => exact absurd rfl hf
  | cons seg rest =>
    obtain ⟨hm,Y,hw⟩ := attach_cons (sortPlain seg.plain) (canonical (rest.map plain))
    rw [map_cons,canonical_cons,hw]
    exact cons_ne_nil _ _

theorem start_of_roundTrips {s : Stream} (trips : RoundTrips s path) :
    ∀ seg, path.head? = some seg → seg.length ≠ 0 := by
  intro seg head he
  obtain ⟨bytes,segs,put,parse,eq⟩ := trips
  obtain ⟨rest,rfl⟩ := head?_eq_some_iff.mp head
  rw [aspathPut_empty he] at put
  have none : bytes = [] := by
    have := congrArg (fun r => r.1.data) (some_inj.mp put)
    simpa [Stream.append] using this
  subst none
  cases parse
  exact canonical_ne_nil (cons_ne_nil _ _) eq.symm

theorem countP_block (block : (seg,packed) ∈ blocks path) :
    ((seg :: packed).map plain).countP other = if seg.type = .sequence then 0 else 1 := by
  by_cases seq : seg.type = .sequence
  · rw [if_pos seq,countP_eq_zero]
    intro a mem
    obtain ⟨next,hi,rfl⟩ := mem_map.mp mem
    have ty : next.type = .sequence := by
      rcases mem_cons.mp hi with rfl | hi
      · exact seq
      · exact (packable_iff.mp (packable_of_mem_blocks block next hi)).2.1
    simp [other,plain,ty]
  · have none := packed_eq_nil block seq
    subst none
    simp [other,plain,seq]

theorem countP_blockFrames (seg : Segment) (packed : List Segment) :
    ((blockFrames (seg,packed)).map Frame.plain).countP other =
      if seg.type = .sequence then 0 else (fullFrames seg).length + 1 := by
  have types : ∀ a ∈ (blockFrames (seg,packed)).map Frame.plain, a.1 = seg.type := fun a mem => by
    obtain ⟨f,hi,rfl⟩ := mem_map.mp mem
    rw [blockFrames_eq] at hi
    rcases mem_append.mp hi with hf | last
    · obtain ⟨part,-,rfl⟩ := mem_map.mp hf
      rfl
    rw [mem_singleton.mp last]
    rfl
  split
  · next sequence =>
    rw [countP_eq_zero]
    intro a mem
    simp [other,types a mem,sequence]
  next sequence =>
  rw [countP_eq_length.mpr fun a mem => by simp [other,types a mem,sequence],
    length_map,blockFrames_eq,length_append]
  rfl

theorem single_of_countP (eq : ((frames path).map Frame.plain).countP other =
      (path.map plain).countP other) :
    ∀ seg ∈ path, seg.type ≠ .sequence → seg.length ≤ segmentMax := by
  intro seg mem seq
  have hf := blocks_flatten path
  have hh : seg ∈ (blocks path).flatMap (fun b => b.1 :: b.2) := by rwa [hf]
  obtain ⟨⟨fst,packed⟩,block,hi⟩ := mem_flatMap.mp hh
  have head : seg = fst := by
    rcases mem_cons.mp hi with rfl | hi
    · rfl
    · exact absurd (packable_iff.mp (packable_of_mem_blocks block seg hi)).2.1 seq
  subst head
  have hc : ((blocks path).map fun b =>
      ((blockFrames b).map Frame.plain).countP other).sum =
      ((blocks path).map fun b => ((b.1 :: b.2).map plain).countP other).sum := by
    conv_rhs at eq => rw [← hf]
    rw [frames,map_flatMap,map_flatMap,countP_flatMap,countP_flatMap] at eq
    exact eq
  have each := eq_of_sum_le (l := blocks path) (f := fun b =>
      ((b.1 :: b.2).map plain).countP other) (g := fun b =>
      ((blockFrames b).map Frame.plain).countP other) (fun b hi => by
    obtain ⟨fst,packed⟩ := b
    rw [countP_block hi,countP_blockFrames]
    split <;> omega) hc.le _ block
  simp only at each
  rw [countP_block block,countP_blockFrames,if_neg seq,if_neg seq] at each
  exact full_eq_nil.mp (length_eq_zero_iff.mp (by omega))

theorem wireable_of_roundTrips {s : Stream} (room : needed path ≤ s.writeable)
    (hs : SetsSorted path) (trips : RoundTrips s path) : Wireable path := by
  have start := start_of_roundTrips trips
  obtain ⟨bytes,segs,put,parse,eq⟩ := trips
  rw [aspathPut_eq start room] at put
  have hw : bytes = wire path := by
    have := congrArg (fun r => r.1.data) (some_inj.mp put)
    exact (append_cancel_left this).symm
  subst hw
  obtain ⟨raw,ha,encoded,rfl⟩ := aspathParse_iff.mp parse
  have hp : (raw.map Plain.segment).map Segment.plain = raw := by
    rw [List.map_map]
    exact (map_congr_left fun seg mem => (ha seg mem).segment).trans (map_id _)
  have hm : (path.flatMap Segment.as).Subperm (raw.flatMap Prod.snd) := by
    have hk := @flatMap_canonical (path.map Segment.plain) fun seg mem => by
      obtain ⟨a,hi,rfl⟩ := mem_map.mp mem
      exact hs a hi
    have hl := normalise_subperm (raw.map Plain.segment)
    rw [← flatMap_plain,← flatMap_plain,hp,eq,hk,flatMap_plain] at hl
    exact hl
  have exact := claimed_eq (fun seg mem => (ha seg mem).2) encoded hm
  have frm : raw = (frames path).map Frame.plain := by
    refine encode_injective (fun seg mem => (ha seg mem).2) (fun seg mem => ?_)
      (encoded.trans (wire_eq exact))
    obtain ⟨f,hi,rfl⟩ := mem_map.mp mem
    exact (exact f hi).ge.trans (claimed_le hi).2
  have last (seg : Segment) (packed : List Segment) (block : (seg,packed) ∈ blocks path) :
      lastFrame seg packed ∈ frames path :=
    mem_flatMap.mpr ⟨_,block,by simp [blockFrames_eq]⟩
  refine ⟨start,fun block mem => ?_,fun block mem => ?_,?_,fun seg mem => ?_⟩
  · refine filled_iff.mp (ha (lastFrame block.1 block.2).plain ?_).1.ne'
    rw [frm]
    exact mem_map_of_mem (last _ _ mem)
  · exact claimed_iff.mp (exact _ (last _ _ mem))
  · refine single_of_countP ?_
    rw [← frm,← countP_canonical (path.map Segment.plain),← eq,normalise_countP,hp]
  rw [← eq] at mem
  obtain ⟨a,-,rfl⟩ := mem_map.mp mem
  exact a.short

end

end Frr.Aspath
