import Frr.SpfDistance

/-! Routers whose links all have the largest metric: the area in which costs grow fastest. -/
namespace Frr.Spf.Chain

open PriorityQueue ShortestPath List Lsa RouterLink

def lsaOf (id : UInt32) (neighbours : List UInt32) : Lsa :=
  { lsAge := 1, options := 2, type := routerLsa, id := id, advRouter := id,
    lsSeqnum := 0x80000001, checksum := 0, length := UInt16.ofNat (24+12*neighbours.length),
    body := UInt32.ofNat neighbours.length ::
      neighbours.flatMap fun neighbour => [neighbour, 0, 0x0100FFFF] }

def linkTo (id : UInt32) : RouterLink := ⟨id, 0, pointToPoint, 0, 65535⟩

theorem items_one (id a : UInt32) : items (lsaOf id [a]) = [.link 0 (linkTo a)] := by
  simp [items,itemsUpTo,lsaOf,linksUpTo,linksFrom,linkAt,wordAt,word,
    headerSize,linkSize,tosSize,linkTo,pointToPoint]
  decide

theorem items_two (id a b : UInt32) :
    items (lsaOf id [a,b]) = [.link 0 (linkTo a),.link 1 (linkTo b)] := by
  simp [items,itemsUpTo,lsaOf,linksUpTo,linksFrom,linkAt,wordAt,word,
    headerSize,linkSize,tosSize,linkTo,pointToPoint]
  decide

theorem hasLink_first (id a : UInt32) (ids more : List UInt32) (hs : more.length ≤ 1) :
    (lsaOf id (a :: more)).hasLink (lsaOf a ids) = some 0 := by
  match more with
  | [] =>
    simp [hasLink,lsaOf,routerLinkCount,hasLinkFrom,word,routerLsaSize,
      linkAt,wordAt,headerSize,pointsAt,pointToPoint,
      routerLsa,networkLsa]
    decide
  | [b] =>
    simp [hasLink,lsaOf,routerLinkCount,hasLinkFrom,word,routerLsaSize,
      linkAt,wordAt,headerSize,pointsAt,pointToPoint,
      routerLsa,networkLsa]
    decide

/-- The routers are numbered from 0 to `n - 1`, their ids from 1 on. -/
def idOf (i : Nat) : UInt32 := UInt32.ofNat (i+1)

def neighbours (n i : Nat) : List UInt32 :=
  (if i = 0 then [] else [idOf (i-1)]) ++ if i + 1 < n then [idOf (i+1)] else []

def router (n i : Nat) : OspfLsa := ⟨lsaOf (idOf i) (neighbours n i), 0⟩

theorem key_router (n i : Nat) : (router n i).key = ⟨routerLsa,idOf i,idOf i⟩ := rfl

theorem idOf_inj {i j : Nat} (hi : i + 1 < 2 ^ 32) (hj : j + 1 < 2 ^ 32) (eq : idOf i = idOf j) :
    i = j := by
  have nat : (idOf i).toNat = (idOf j).toNat := congrArg UInt32.toNat eq
  rw [idOf,idOf,UInt32.toNat_ofNat_of_lt' hi,UInt32.toNat_ofNat_of_lt' hj] at nat
  omega

theorem key_inj {n i j : Nat} (hi : i + 1 < 2 ^ 32) (hj : j + 1 < 2 ^ 32)
    (eq : (router n i).key = (router n j).key) : i = j :=
  idOf_inj hi hj (congrArg LsaKey.id eq)

def area (n : Nat) (some : 0 < n) (small : n < 2 ^ 32) : Area where
  lsdb := (range n).map (router n)
  routerLsaSelf := router n 0
  oiflist := [⟨1, .pointToPoint, 0, 1, 0, 0, [⟨idOf 1, 0⟩]⟩]
  vlinks := []
  now := 0
  distinct := by
    rw [pairwise_map]
    refine pairwise_lt_range.imp_of_mem fun {i j} hi hj less same => ?_
    have := key_inj (n := n) (by have := mem_range.mp hi; omega)
      (by have := mem_range.mp hj; omega) same
    omega
  selfStored := mem_map.mpr ⟨0,mem_range.mpr some,rfl⟩
  selfRouter := rfl

section

variable {n : Nat} {some : 0 < n} {small : n < 2 ^ 32}

theorem mem_lsdb {w : OspfLsa} : w ∈ (area n some small).lsdb ↔ ∃ i < n, router n i = w := by
  simp [area]

theorem lookup {i : Nat} (hin : i < n) :
    lookupRouter (area n some small) (idOf i) = Option.some (router n i) := by
  have mem : router n i ∈ (area n some small).lsdb := mem_lsdb.mpr ⟨i,hin,rfl⟩
  cases hf : lookupRouter (area n some small) (idOf i) with
  | none =>
    have ha := List.find?_eq_none.mp hf (router n i) mem
    simp [key_router] at ha
  | some w =>
    have key : w.key = ⟨routerLsa,idOf i,idOf i⟩ := by simpa using List.find?_some hf
    rw [(area n some small).unique (List.mem_of_find?_eq_some hf) mem key]

theorem mem_items {i : Nat} {item : Item} (hl : item ∈ items (router n i).data) :
    ∃ position, ∃ id ∈ neighbours n i, item = .link position (linkTo id) := by
  have shapes : ∀ ids : List UInt32, ids.length ≤ 2 → item ∈ items (lsaOf (idOf i) ids) →
      ∃ position, ∃ id ∈ ids, item = .link position (linkTo id) := by
    intro ids hs hl
    match ids with
    | [] => cases hl
    | [a] =>
      rw [items_one] at hl
      exact ⟨0,a,mem_singleton.mpr rfl,mem_singleton.mp hl⟩
    | [a,b] =>
      rw [items_two] at hl
      rcases mem_cons.mp hl with fst | snd
      · exact ⟨0,a,by simp,fst⟩
      · exact ⟨1,b,by simp,mem_singleton.mp snd⟩
  apply shapes (neighbours n i) _ hl
  unfold neighbours
  split <;> split <;> simp

theorem link_cases {i : Nat} (hin : i < n) {w : OspfLsa} {item : Item}
    (link : Link (area n some small) (router n i) w item) :
    item.cost.toNat = 65535 ∧ ∃ j < n, w = router n j ∧ (j+1 = i ∨ j = i+1) := by
  obtain ⟨pos,id,mem,rfl⟩ := mem_items link.listed
  have hf : lookupRouter (area n some small) id = Option.some w := link.found
  refine ⟨rfl,?_⟩
  rcases List.mem_append.mp mem with hd | up
  · split at hd
    · cases hd
    cases List.mem_singleton.mp hd
    rw [lookup (by omega)] at hf
    exact ⟨i-1,by omega,(Option.some.inj hf).symm,.inl (by omega)⟩
  · split at up
    · cases List.mem_singleton.mp up
      rw [lookup (by omega)] at hf
      exact ⟨i+1,by omega,(Option.some.inj hf).symm,.inr rfl⟩
    · cases up

theorem link_up {i : Nat} (hin : i + 1 < n) :
    ∃ item, Link (area n some small) (router n i) (router n (i+1)) item := by
  have hd : neighbours n (i+1) = idOf i :: if i + 2 < n then [idOf (i+2)] else [] := by
    simp [neighbours]
  have back : (router n (i+1)).data.hasLink (router n i).data = Option.some 0 := by
    unfold router
    rw [hd]
    apply hasLink_first
    split <;> simp
  by_cases fst : i = 0
  · subst fst
    refine ⟨.link 0 (linkTo (idOf 1)),?_,lookup hin,rfl,by rw [back]; simp,fun _ => ?_⟩
    · have only : neighbours n 0 = [idOf 1] := by simp [neighbours,hin]
      unfold router
      rw [only,items_one]
      exact List.mem_singleton.mpr rfl
    · simp [rootHop,rootNexthop,lookupByLsaPos,area,router,lsaOf,linkTo]
  · refine ⟨.link 1 (linkTo (idOf (i+1))),?_,lookup hin,rfl,by rw [back]; simp,fun root => ?_⟩
    · have hb : neighbours n i = [idOf (i-1),idOf (i+1)] := by simp [neighbours,fst,hin]
      unfold router
      rw [hb,items_two]
      simp
    · exact absurd (key_inj (n := n) (by omega) (by omega) root) fst

theorem edge_cases {v w : LsaKey} {e : Nat} (hr : edge (area n some small) v w e) :
    e = 65535 ∧ ∃ i < n, ∃ j < n, v = (router n i).key ∧ w = (router n j).key ∧
      (j+1 = i ∨ j = i+1) := by
  obtain ⟨vLsa,has,wLsa,item,link,rfl,rfl,rfl⟩ := hr
  obtain ⟨i,hin,rfl⟩ := mem_lsdb.mp has
  obtain ⟨cost,j,hi,rfl,hb⟩ := link_cases hin link
  exact ⟨cost,i,hin,j,hi,rfl,rfl,hb⟩

theorem edge_up {i : Nat} (hin : i + 1 < n) :
    edge (area n some small) (router n i).key (router n (i+1)).key 65535 := by
  obtain ⟨item,link⟩ : ∃ item, Link (area n some small) (router n i) (router n (i+1)) item :=
    link_up hin
  have mem : router n i ∈ (area n some small).lsdb := mem_lsdb.mpr ⟨i,by omega,rfl⟩
  exact ⟨_,mem,_,item,link,rfl,rfl,(link_cases (by omega) link).1⟩

theorem least {i : Nat} (hin : i < n) : Least (edge (area n some small))
    (area n some small).root (router n i).key (65535*i) := by
  constructor
  · induction i with
    | zero => exact .start
    | succ i ih => exact .step (ih (by omega)) (edge_up hin)
  intro total walk
  have potential : ∀ x total, Walk (edge (area n some small)) (area n some small).root x total →
      ∃ j < n, x = (router n j).key ∧ 65535*j ≤ total := by
    intro x total walk
    induction walk with
    | start => exact ⟨0,some,rfl,Nat.zero_le _⟩
    | step walk hr ih =>
      obtain ⟨j,hi,key,hb⟩ := ih
      obtain ⟨rfl,a,insideA,b,insideB,keyA,rfl,hbe⟩ := edge_cases hr
      have eq := key_inj (by omega) (by omega) (key.symm.trans keyA)
      exact ⟨b,insideB,rfl,by omega⟩
  obtain ⟨j,hi,key,hb⟩ := potential _ _ walk
  have eq := key_inj (by omega) (by omega) key
  omega

structure Progress (n : Nat) (area : Area) (s : State) : Prop where
  kept : Kept area s
  distance : ∀ i < n, s.Known (router n i).key →
    (s.vertex (router n i).key).distance = UInt32.ofNat (65535*i)
  before : ∀ i, i + 1 < n → s.Known (router n (i+1)).key → (router n i).key ∈ s.tree

namespace Progress

variable {i : Nat} {item : Item} {w : OspfLsa} {s s' : State}

section

variable (h : Progress n (area n some small) s)

include h

theorem next_up (hin : i < n)
    (mem : (router n i).key ∈ s.tree) (hl : item ∈ items (router n i).data)
    (hof : Offers (area n some small) s (router n i).key item w) (ho : w.key ∉ s.tree) :
    i + 1 < n ∧ w = router n (i+1) ∧
    s.distanceBy (router n i).key item = UInt32.ofNat (65535 * (i+1)) := by
  have has : router n i ∈ (area n some small).lsdb := mem_lsdb.mpr ⟨i,hin,rfl⟩
  have link := (offers_iff h.kept has mem hl).mp hof
  obtain ⟨cost,j,hi,rfl,rfl | rfl⟩ := link_cases hin link
  · exact absurd (h.before j hin (.inl mem)) ho
  refine ⟨hi,rfl,?_⟩
  have metric : item.cost = UInt32.ofNat 65535 := UInt32.toNat_inj.mp cost
  rw [State.distanceBy,h.distance i hin (.inl mem),metric,← UInt32.ofNat_add]
  rfl

theorem alike (ha : Alike s s') : Progress n (area n some small) s' := by
  refine ⟨ha.kept h.kept,fun i hin hk => ?_,fun i hin hk => ?_⟩
  · have old := (ha.known _).mp hk
    rw [(ha.vertex _ old).2.1]
    exact h.distance i hin old
  rw [ha.tree]
  exact h.before i hin ((ha.known _).mp hk)

theorem followed (hin : i < n)
    (mem : (router n i).key ∈ s.tree) (hl : item ∈ items (router n i).data)
    (hf : Linked (area n some small) (router n i).key s item w s') :
    Progress n (area n some small) s' := by
  obtain ⟨up,rfl,dst⟩ := h.next_up hin mem hl hf.offers hf.outside
  refine ⟨hf.kept h.kept,fun j hi hk => ?_,fun j hi hk => ?_⟩
  · by_cases eq : j = i+1
    · rw [eq,hf.distance,dst]
    have ne : (router n j).key ≠ (router n (i+1)).key := fun hs =>
      eq (key_inj (by omega) (by omega) hs)
    rw [hf.others _ ne]
    exact h.distance j hi (((hf.known _).mp hk).resolve_left ne)
  · rw [hf.tree]
    rcases (hf.known _).mp hk with hs | old
    · have eq := key_inj (by omega) (by omega) hs
      rwa [show j = i by omega]
    · exact h.before j hi old

theorem turn (hin : i < n) (mem : (router n i).key ∈ s.tree) (hl : item ∈ items (router n i).data)
    (ha : examine (area n some small) (router n i).key s item = Option.some s') :
    Progress n (area n some small) s' := by
  have turn := examine_turn h.kept mem item
  rw [ha] at turn
  cases turn with
  | idle none => exact h
  | farther w ho hq hw => exact h
  | linked w ha hf => exact h.followed hin mem hl hf

theorem next (nonempty : 0 < s.candidate.size) : Progress n (area n some small) (extract s).2 := by
  have known := taken_known h.kept nonempty
  have taken : Progress n (area n some small) (taken s) := by
    refine ⟨taken_kept h.kept nonempty,fun i hin now => ?_,fun i hin now => ?_⟩
    · exact h.distance i hin ((known _).mp now)
    · exact .tail _ (h.before i hin ((known _).mp now))
  exact taken.alike (addToParents_alike _ _)

end

end Progress

/-- The calculation examines the links of router `i`. -/
def At (n : Nat) (area : Area) (i : Nat) (s : State) : Prop :=
  Progress n area s ∧ (router n i).key ∈ s.tree

section

variable {i : Nat} {s s' : State}

theorem At.mark (hh : At n (area n some small) i s) :
    At n (area n some small) i (markTransit s (router n i).key) := by
  have ha := markTransit_alike s (router n i).key
  exact ⟨hh.1.alike ha,ha.tree.symm ▸ hh.2⟩

section

variable (hin : i < n) (hh : At n (area n some small) i s)

include hin hh

theorem At.turn {item : Item} (hl : item ∈ items (router n i).data)
    (ha : examine (area n some small) (router n i).key s item = Option.some s') :
    At n (area n some small) i s' := by
  have ho := (examine_keeps hh.1.kept hh.2 ha).2
  exact ⟨hh.1.turn hin hh.2 hl ha,ho.tree.symm ▸ hh.2⟩

theorem At.lsa : (s.vertex (router n i).key).lsa = (router n i).data :=
  hh.1.kept.lsa_eq (mem_lsdb.mpr ⟨i,hin,rfl⟩) (.inl hh.2)

theorem At.round (ha : spfNext (area n some small) s (router n i).key = Option.some s') :
    At n (area n some small) i s' := by
  rw [spfNext,hh.lsa hin] at ha
  apply foldlM_invariant (P := fun _ t => At n (area n some small) i t) hh.mark _ ha
  exact fun _ _ _ _ hl hh turn => hh.turn hin hl turn

end

theorem At.safe (hs : n ≤ 2 ^ 17) (hin : i < n) (hh : At n (area n some small) i s) :
    spfNext (area n some small) s (router n i).key ≠ none := by
  intro haf
  rw [spfNext,hh.lsa hin] at haf
  obtain ⟨-,item,hl,t,⟨progress,mem⟩,ha⟩ := foldlM_failure
    (P := fun _ t => At n (area n some small) i t) hh.mark
    (fun _ _ _ _ hl hh turn => hh.turn hin hl turn) haf
  have turn := examine_turn progress.kept mem item
  rw [ha] at turn
  cases turn with
  | aborted w hof ho zero =>
    obtain ⟨up,-,dst⟩ := progress.next_up hin mem hl hof ho
    have multiple : 65535 * (i+1) % 2 ^ 32 = 0 := by
      simpa using congrArg UInt32.toNat (dst.symm.trans zero)
    omega

end

theorem initial_progress (n : Nat) (some : 0 < n) (small : n < 2 ^ 32) :
    Progress n (area n some small) (initial (area n some small)) := by
  have only : ∀ i < n, (initial (area n some small)).Known (router n i).key → i = 0 := by
    rintro i hin (mem | ⟨j,absent,-⟩)
    · exact key_inj (n := n) (by omega) (by omega) (mem_singleton.mp mem)
    · exact absurd absent (Nat.not_lt_zero j)
  refine ⟨initial_kept _,fun i hin hk => ?_,fun i hin hk => ?_⟩
  · rw [only i hin hk]
    rfl
  · exact absurd (only (i+1) hin hk) (Nat.succ_ne_zero i)

theorem finishes (n : Nat) (some : 0 < n) (small : n < 2 ^ 32) (hs : n ≤ 2 ^ 17) :
    ∃ s, spfCalculate (area n some small) n = .finished s := by
  have he : (area n some small).lsdb.length ≤ n := by simp [area]
  have hst := spfCalculate_stops (area n some small) he
  have safe : spfCalculate (area n some small) n ≠ .aborted := by
    apply loop_safe (R := fun k s => ∃ i < n, k = (router n i).key ∧ At n (area n some small) i s)
      (D := fun k s => ∃ i < n, k = (router n i).key ∧ At n (area n some small) i s)
    · rintro k s s' ⟨i,hin,rfl,hh⟩ after
      exact ⟨i,hin,rfl,hh.round hin after⟩
    · rintro k s ⟨i,hin,rfl,hh⟩ nonempty
      have progress := hh.1.next nonempty
      have hm := extract_member s
      obtain ⟨v,has,key,-⟩ := progress.kept.stored _ (.inl hm)
      obtain ⟨j,hi,rfl⟩ := mem_lsdb.mp has
      exact ⟨j,hi,key.symm,progress,key ▸ hm⟩
    · rintro k s ⟨i,hin,rfl,hh⟩
      exact hh.safe hs hin
    · exact ⟨0,some,rfl,initial_progress n some small,mem_singleton.mpr rfl⟩
  cases res : spfCalculate (area n some small) n with
  | aborted => exact absurd res safe
  | running s => exact absurd res (hst s)
  | finished s => exact ⟨s,rfl⟩

end

end Frr.Spf.Chain
