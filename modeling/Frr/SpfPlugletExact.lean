import Frr.SpfPluglet

/-! The pluglet agrees with the native function in every state only if it follows the links to be
followed. One vertex at a time is left out of the tree, so that only links to it make a difference.
-/
namespace Frr.Spf

open PriorityQueue List Lsa Pluglet

def others (area : Area) (w : LsaKey) : List LsaKey :=
  (area.lsdb.filter fun lsa => (lsa.data.type = routerLsa ∨ lsa.data.type = networkLsa) ∧
    lsa.key ≠ w).map OspfLsa.key

/-- All vertices but `w` are in the tree, at the same distance from the root. -/
def facing (area : Area) (w : LsaKey) (distance : UInt32) : State :=
  { vertex := fun x =>
      if x = area.root then ⟨area.routerLsaSelf.data, 0, [], []⟩
      else ⟨((area.lsdb.find? fun lsa => lsa.key = x).getD default).data, distance,
        [⟨default, area.root, none⟩], []⟩
    candidate := ⟨fun _ => default, 0, fun x =>
      if x ∈ others area w then inSpfTree else notExplored⟩
    transit := false
    tree := others area w }

section

variable {area : Area} {s s' : State} {v w : OspfLsa} {distance : UInt32} {item : Item}
variable {skip : UInt32 → Bool} {tooOld : OspfLsa → Bool} {beyond : Nat → UInt32}

theorem mem_others {x w : LsaKey} : x ∈ others area w ↔ x ≠ w ∧ ∃ lsa ∈ area.lsdb, lsa.key = x ∧
    (lsa.data.type = routerLsa ∨ lsa.data.type = networkLsa) := by
  simp only [others,mem_map,mem_filter,decide_eq_true_eq]
  constructor
  · rintro ⟨lsa,⟨hs,kind,ne⟩,rfl⟩
    exact ⟨ne,lsa,hs,rfl,kind⟩
  rintro ⟨ne,lsa,hs,rfl,kind⟩
  exact ⟨lsa,⟨hs,kind,ne⟩,rfl⟩

theorem find_stored {lsa : OspfLsa} (hs : lsa ∈ area.lsdb) :
    (area.lsdb.find? fun ho => ho.key = lsa.key) = some lsa := by
  have hf : (area.lsdb.find? fun ho => ho.key = lsa.key).isSome := find?_isSome.mpr ⟨lsa,hs,by simp⟩
  obtain ⟨ho,eq⟩ := Option.isSome_iff_exists.mp hf
  have key : ho.key = lsa.key := by simpa using find?_some eq
  rw [eq,area.unique (mem_of_find?_eq_some eq) hs key]

theorem facing_kept (pos : distance ≠ 0) (hno : w.key ≠ area.root) :
    Kept area (facing area w.key distance) := by
  have he : ∀ x, ¬ Contains (facing area w.key distance).candidate x := fun x ⟨i,hi,_⟩ =>
    absurd hi (Nat.not_lt_zero i)
  have stat : ∀ x, (facing area w.key distance).stat x =
      if x ∈ others area w.key then inSpfTree else notExplored := fun _ => rfl
  have mem : ∀ x, (facing area w.key distance).Known x → x ∈ others area w.key := fun x hk =>
    hk.resolve_right (he x)
  refine ⟨fun i hi => absurd hi (Nat.not_lt_zero i),?_,?_,?_,?_,?_,?_,?_⟩
  · intro x
    rw [stat]
    split
    · exact .inr (.inl rfl)
    · exact .inl rfl
  · intro x hn
    rw [stat] at hn
    split at hn <;> exact absurd hn (by decide)
  · intro x
    rw [stat]
    split
    · next hi => exact ⟨fun _ => hi,fun _ => rfl⟩
    · next outside => exact ⟨fun eq => absurd eq (by decide),fun hi => absurd hi outside⟩
  · have nodup : (area.lsdb.map OspfLsa.key).Nodup := pairwise_map.mpr area.distinct
    exact (filter_sublist.map OspfLsa.key).nodup nodup
  · intro x hk
    obtain ⟨-,lsa,hs,rfl,kind⟩ := mem_others.mp (mem x hk)
    refine ⟨lsa,hs,rfl,?_,kind⟩
    by_cases root : lsa.key = area.root
    · cases area.unique hs area.selfStored root
      exact congrArg Vertex.lsa (if_pos root)
    have vertex : (facing area w.key distance).vertex lsa.key = _ := if_neg root
    rw [vertex,find_stored hs]
    rfl
  · intro x _ ne
    have vertex : (facing area w.key distance).vertex x = _ := if_neg ne
    rw [vertex]
    exact ⟨by simp,pos⟩
  · have vertex : (facing area w.key distance).vertex area.root = _ := if_pos rfl
    rw [vertex]
    exact ⟨mem_others.mpr ⟨Ne.symm hno,area.routerLsaSelf,area.selfStored,rfl,
      .inl area.selfRouter⟩,rfl,rfl⟩

theorem facing_on (pos : distance ≠ 0) (hn : w.key ≠ area.root) (has : v ∈ area.lsdb)
    (kind : v.data.type = routerLsa ∨ v.data.type = networkLsa) (ho : w.key ≠ v.key) :
    OnVertex area v (facing area w.key distance) := by
  have hk : Kept area (facing area w.key distance) := facing_kept pos hn
  have mem : v.key ∈ (facing area w.key distance).tree := mem_others.mpr ⟨Ne.symm ho,v,has,rfl,kind⟩
  exact ⟨hk,mem,hk.lsa_eq has (.inl mem)⟩

/-- The links of `v` are to be examined and only `w` is left. -/
structure Alone (area : Area) (v w : OspfLsa) (s : State) : Prop extends OnVertex area v s where
  left : ∀ x ∈ area.lsdb, x.data.type = routerLsa ∨ x.data.type = networkLsa →
    x.key ∈ s.tree ∨ x = w
  outside : w.key ∉ s.tree
  empty : s.candidate.size = 0

theorem facing_alone (pos : distance ≠ 0) (hn : w.key ≠ area.root)
    (hs : w ∈ area.lsdb) (has : v ∈ area.lsdb)
    (kind : v.data.type = routerLsa ∨ v.data.type = networkLsa) (ho : w.key ≠ v.key) :
    Alone area v w (markTransit (facing area w.key distance) v.key) := by
  have ha := markTransit_alike (facing area w.key distance) v.key
  have on := (facing_on pos hn has kind ho).mark
  refine ⟨on,fun x hs' kind' => ?_,?_,?_⟩
  · rw [ha.tree]
    by_cases eq : x.key = w.key
    · exact .inr (area.unique hs' hs eq)
    · exact .inl (mem_others.mpr ⟨eq,x,hs',rfl,kind'⟩)
  · rw [ha.tree]
    exact fun mem => (mem_others.mp mem).1 rfl
  rw [ha.candidate]
  rfl

/-- Each next hop of `w` is that of a link at its distance. -/
structure Facing (area : Area) (v w : OspfLsa) (start : State) (done : List Item) (s : State) :
    Prop where
  on : OnVertex area v s
  onward : Onward start s
  origin : Contains s.candidate w.key → ∀ hop ∈ hopsOf (s.vertex w.key).parents, ∃ item ∈ done,
    Counts area v item w ∧ (s.vertex w.key).distance = start.distanceBy v.key item ∧
      hop ∈ nexthops area start v.key w.data item

namespace Facing

variable {start : State} {done : List Item}

theorem more (h : Facing area v w start done s) (item : Item) :
    Facing area v w start (done ++ [item]) s := by
  refine ⟨h.on,h.onward,fun hq hop mem => ?_⟩
  obtain ⟨he,hl,rest⟩ := h.origin hq hop mem
  exact ⟨he,mem_append_left _ hl,rest⟩

section

variable (hal : Alone area v w start)

include hal

theorem followed (h : Facing area v w start done s) (ha : follow area v.key s item = some s') :
    Facing area v w start (done ++ [item]) s' := by
  obtain ⟨on,ho⟩ := h.on.follow ha
  have ho' := h.onward.trans ho
  have turn := examineWith_turn (fun _ => false) h.on.kept h.on.member item
  change TurnWith _ area v.key s item (follow area v.key s item) at turn
  rw [ha] at turn
  cases turn with
  | idle none => exact h.more item
  | farther u hof hq hw => exact h.more item
  | linked u ha hl =>
    have hs := target_stored hl.offers.found
    have same : u = w := (hal.left u hs.1 hs.2).resolve_left fun hi =>
      hl.outside (h.onward.tree.symm ▸ hi)
    subst same
    refine ⟨on,ho',fun _ hop hm => ?_⟩
    have hc := h.on.counts hl.outside hl.offers
    rw [hl.vertex] at hm
    rw [hl.distance,hal.same_distanceBy h.onward]
    rcases mem_hopsOf_foldl.mp hm with old | new
    · -- The parents are kept only if the distance is.
      split at old
      · exact absurd old not_mem_nil
      next notLess =>
      rcases h.on.kept.known_or u.key with unexplored | hk
      · rw [State.found,if_pos unexplored] at old
        exact absurd old not_mem_nil
      have hq := hk.resolve_left hl.outside
      have hf := found_queued h.on.kept hq
      rw [hf] at old notLess
      have pos := (h.on.kept.linked u.key hk hc.root).2
      have eq : (s.vertex u.key).distance = s.distanceBy v.key item :=
        UInt32.le_antisymm (UInt32.not_lt.mp fun hle => notLess ⟨pos,hle⟩) (hl.better hq)
      obtain ⟨he,hli,hc',distance,hops⟩ := h.origin hq hop old
      rw [eq,hal.same_distanceBy h.onward] at distance
      exact ⟨he,mem_append_left _ hli,hc',distance,hops⟩
    · rw [hal.same_nexthops h.onward] at new
      exact ⟨item,mem_append_right _ (mem_singleton_self _),hc,rfl,new⟩

theorem refused (h : Facing area v w start done s) (ha : follow area v.key s item = none) :
    Counts area v item w ∧ start.distanceBy v.key item = 0 := by
  have turn := examineWith_turn (fun _ => false) h.on.kept h.on.member item
  change TurnWith _ area v.key s item (follow area v.key s item) at turn
  rw [ha] at turn
  cases turn with
  | aborted u hof ho zero =>
    have hs := target_stored hof.found
    have eq : u = w := (hal.left u hs.1 hs.2).resolve_left fun hi =>
      ho (h.onward.tree.symm ▸ hi)
    subst eq
    exact ⟨h.on.counts ho hof,(hal.same_distanceBy h.onward item).symm.trans zero⟩

theorem begin : Facing area v w start [] start := by
  refine ⟨hal.toOnVertex,.refl start,?_⟩
  rintro ⟨i,hi,-⟩
  exact absurd hi (by simp [hal.empty])

theorem step (h : Facing area v w start (done.filter (follows skip tooOld area v.data)) s)
    (ha : examineSkipping skip tooOld area v.key s item = some s') :
    Facing area v w start ((done ++ [item]).filter (follows skip tooOld area v.data)) s' := by
  rw [examineSkipping_eq h.on] at ha
  rw [filter_append]
  cases hp : follows skip tooOld area v.data item with
  | false =>
    rw [filter_cons_of_neg (by simp [hp]),filter_nil,append_nil]
    rw [if_neg (by simp [hp])] at ha
    exact Option.some.inj ha ▸ h
  | true =>
    rw [filter_cons_of_pos hp,filter_nil]
    rw [if_pos hp] at ha
    exact h.followed hal ha

end

end Facing

section

variable {start : State} {list list' : List Item}
variable {skip' : UInt32 → Bool} {tooOld' : OspfLsa → Bool} (hal : Alone area v w start)

include hal

theorem facing_all (ha : list.foldlM (examineSkipping skip tooOld area v.key) start = some s) :
    Facing area v w start (list.filter (follows skip tooOld area v.data)) s :=
  foldlM_invariant (P := fun done => Facing area v w start
    (done.filter (follows skip tooOld area v.data))) (.begin hal)
    (fun _ _ _ _ _ h ha => h.step hal ha) ha

theorem stopped (ha : list.foldlM (examineSkipping skip tooOld area v.key) start = none) :
    ∃ item ∈ list, follows skip tooOld area v.data item ∧ Counts area v item w ∧
      start.distanceBy v.key item = 0 := by
  obtain ⟨done,item,hl,t,h,hf⟩ := foldlM_failure (P := fun done => Facing area v w start
    (done.filter (follows skip tooOld area v.data))) (.begin hal)
    (fun _ _ _ _ _ h ha => h.step hal ha) ha
  rw [examineSkipping_eq h.on] at hf
  split at hf
  · next passed =>
    obtain ⟨hc,zero⟩ := h.refused hal hf
    exact ⟨item,hl,passed,hc,zero⟩
  · cases hf

theorem matched (he : list.foldlM (examineSkipping skip tooOld area v.key) start =
      list'.foldlM (examineSkipping skip' tooOld' area v.key) start)
    (hl : item ∈ list) (hp : follows skip tooOld area v.data item)
    (hc : Counts area v item w) :
    ∃ other ∈ list', follows skip' tooOld' area v.data other ∧ Counts area v other w ∧
      (start.distanceBy v.key other = 0 ∨
      start.distanceBy v.key other < start.distanceBy v.key item ∨
      start.distanceBy v.key other = start.distanceBy v.key item ∧
        ∃ hop ∈ nexthops area start v.key w.data item,
          hop ∈ nexthops area start v.key w.data other) := by
  cases ha : list.foldlM (examineSkipping skip tooOld area v.key) start with
  | none =>
    obtain ⟨other,hl,hp,hc,zero⟩ := stopped hal (he.symm.trans ha)
    exact ⟨other,hl,hp,hc,.inl zero⟩
  | some t =>
    have hs := (settled_all hal.toOnVertex ha).2 item hl hp w hc
    have facing := facing_all hal (he.symm.trans ha)
    have notIn : w.key ∉ t.tree := facing.onward.tree.symm ▸ hal.outside
    obtain ⟨hq,hn,hops⟩ := hs.resolve_left notIn
    rw [hal.same_distanceBy facing.onward] at hn hops
    rw [hal.same_nexthops facing.onward] at hops
    have origin := facing.origin hq
    by_cases eq : (t.vertex w.key).distance = start.distanceBy v.key item
    · obtain ⟨hop,mem⟩ := exists_mem_of_ne_nil _ (hal.offers hc (follows_back hp hc.found)).hops
      obtain ⟨other,among,hc',distance,hop'⟩ := origin hop (hops eq hop mem)
      obtain ⟨hl',hp'⟩ := mem_filter.mp among
      exact ⟨other,hl',hp',hc',.inr (.inr ⟨distance.symm.trans eq,hop,mem,hop'⟩)⟩
    · have pars := (facing.on.kept.linked w.key (.inr hq) hc.root).1
      obtain ⟨par,mem⟩ := exists_mem_of_ne_nil _ pars
      obtain ⟨other,among,hc',distance,-⟩ := origin _ (mem_map_of_mem mem)
      obtain ⟨hl',hp'⟩ := mem_filter.mp among
      exact ⟨other,hl',hp',hc',.inr (.inl (distance ▸ UInt32.lt_of_le_of_ne hn eq))⟩

end

theorem target_id (hf : target area item = some w) {pos : Nat} {l : RouterLink}
    (link : item = .link pos l) : w.data.id = l.linkId := by
  subst link
  simp only [target] at hf
  split at hf
  · have key : w.key = ⟨routerLsa,l.linkId,l.linkId⟩ := by simpa using find?_some hf
    exact congrArg LsaKey.id key
  split at hf
  · have nw : w.data.type = networkLsa ∧ w.data.id = l.linkId := by
      simpa using find?_some hf
    exact nw.2
  · cases hf

theorem skipped_eq (hl : item ∈ items v.data) (hf : target area item = some w) :
    item.skipped skip = (decide (v.data.type = routerLsa) && skip w.data.id) := by
  by_cases rtr : v.data.type = routerLsa
  · simp only [items,itemsUpTo,if_pos rtr,mem_map] at hl
    obtain ⟨⟨l,pos⟩,-,rfl⟩ := hl
    simp [Item.skipped,rtr,target_id hf rfl]
  simp only [items,itemsUpTo,if_neg rtr,mem_map] at hl
  obtain ⟨id,-,rfl⟩ := hl
  simp [Item.skipped,rtr]

theorem follows_eq {other : Item} (hl : item ∈ items v.data) (hl' : other ∈ items v.data)
    (hf : target area item = some w) (hf' : target area other = some w) :
    follows skip tooOld area v.data item = follows skip tooOld area v.data other := by
  simp [follows,skipped_eq hl hf,skipped_eq hl' hf',hf,hf']

theorem within_items (hl : item ∈ itemsUpTo v.data (limit v.data)) :
    item ∈ items v.data := (itemsUpTo_take v.data (limit_le v.data)).subset hl

/-- In every state of a calculation. -/
def Pluglet.Agrees (area : Area) (beyond : Nat → UInt32) (v : OspfLsa) : Prop :=
  ∀ s, Kept area s → v.key ∈ s.tree →
    spfNext area beyond s v.key = spfNextWithoutRed area s v.key

theorem markTransit_vertex (s : State) (k : LsaKey) : (markTransit s k).vertex = s.vertex := by
  unfold markTransit
  split <;> rfl

theorem facing_distanceBy (distance : UInt32) (item : Item) :
    (markTransit (facing area w.key distance) v.key).distanceBy v.key item =
      (if v.key = area.root then 0 else distance) + item.cost := by
  simp only [State.distanceBy,markTransit_vertex,facing]
  split <;> rfl

/-- Only a link of the same cost can stand in for `item`. -/
def telling (item : Item) : UInt32 := if item.cost = 0 then 1 else 0 - item.cost

theorem telling_ne_zero (item : Item) : telling item ≠ 0 := by
  unfold telling
  split
  · decide
  · next nonzero => simpa using nonzero

theorem covers_of_telling (hn : v.key ≠ area.root) {other : Item}
    (h : telling item + other.cost = 0 ∨ telling item + other.cost < telling item + item.cost ∨
      telling item + other.cost = telling item + item.cost) : Covers area v w other item := by
  rw [Covers,if_neg hn]
  by_cases zero : item.cost = 0
  · have one : telling item = 1 := if_pos zero
    have hb := cost_le other
    have sum : (1+other.cost).toNat = 1+other.cost.toNat := by
      rw [UInt32.toNat_add]
      exact Nat.mod_eq_of_lt (by have : (1 : UInt32).toNat = 1 := rfl; omega)
    rw [one,zero,UInt32.add_zero] at h
    rcases h with stop | hl | eq
    · rw [stop] at sum
      have : (0 : UInt32).toNat = 0 := rfl
      omega
    · have hl : (1+other.cost).toNat < 1 := hl
      omega
    rw [zero]
    simpa using eq
  · have hw : telling item + item.cost = 0 := by
      rw [telling,if_neg zero,UInt32.sub_add_cancel]
    have eq : telling item + other.cost = telling item + item.cost := by
      rw [hw] at h ⊢
      rcases h with stop | hl | eq
      · exact stop
      · exact absurd hl UInt32.not_lt_zero
      · exact eq
    exact (UInt32.add_right_inj _).mp eq

section

variable (agrees : Agrees area beyond v) (has : v ∈ area.lsdb)
variable (kind : v.data.type = routerLsa ∨ v.data.type = networkLsa)
include agrees has kind

theorem same_outcome (hc : Counts area v item w) (pos : distance ≠ 0) :
    Alone area v w (markTransit (facing area w.key distance) v.key) ∧
    (itemsUpTo v.data (Pluglet.limit v.data)).foldlM (plugletTurn area beyond v)
      (markTransit (facing area w.key distance) v.key) =
    (items v.data).foldlM (nativeTurn area v) (markTransit (facing area w.key distance) v.key) := by
  have on := facing_on pos hc.root has kind hc.other
  have eq := agrees _ on.kept on.member
  simp only [Pluglet.spfNext,spfNextWithoutRed,on.lsa] at eq
  exact ⟨facing_alone pos hc.root (target_stored hc.found).1 has kind hc.other,eq⟩

theorem agrees_same (listed : item ∈ itemsUpTo v.data (limit v.data))
    (counts : Counts area v item w) :
    followsNative area v.data item = followed area beyond v.data item := by
  obtain ⟨hal,same⟩ := same_outcome agrees has kind counts (by decide : (1 : UInt32) ≠ 0)
  rw [Bool.eq_iff_iff]
  constructor
  · intro followed
    obtain ⟨other,listed',followed',counts',-⟩ :=
      matched hal same.symm (within_items listed) followed counts
    exact (follows_eq (within_items listed) (within_items listed') counts.found counts'.found).trans
      followed'
  · intro followed
    obtain ⟨other,listed',followed',counts',-⟩ := matched hal same listed followed counts
    exact (follows_eq (within_items listed) listed' counts.found counts'.found).trans followed'

theorem agrees_covered (listed : item ∈ items v.data) (counts : Counts area v item w)
    (followed : followsNative area v.data item) :
    ∃ earlier ∈ itemsUpTo v.data (Pluglet.limit v.data), Counts area v earlier w ∧
      followsNative area v.data earlier ∧ Covers area v w earlier item := by
  obtain ⟨hal,same⟩ := same_outcome agrees has kind counts (telling_ne_zero item)
  obtain ⟨earlier,listed',followed',counts',relation⟩ :=
    matched hal same.symm listed followed counts
  refine ⟨earlier,listed',counts',(agrees_same agrees has kind listed' counts').trans followed',?_⟩
  rw [facing_distanceBy,facing_distanceBy] at relation
  by_cases root : v.key = area.root
  · rw [if_pos root,UInt32.zero_add,UInt32.zero_add,hal.hops_root root,hal.hops_root root]
      at relation
    rw [Covers,if_pos root]
    rcases relation with zero | less | ⟨equal,hop,first,second⟩
    · by_cases none : item.cost = 0
      · exact .inr ⟨zero.trans none.symm,.inl none⟩
      · exact .inl (zero ▸ UInt32.pos_iff_ne_zero.mpr none)
    · exact .inl less
    rw [Option.mem_toList] at first second
    exact .inr ⟨equal,.inr (second.trans first.symm)⟩
  · rw [if_neg root] at relation
    exact covers_of_telling root (relation.imp_right (Or.imp_right And.left))

end

/-- The replacement pluglet does what the native function does without the red links, in every
state, exactly if it follows the links to be followed. Without type-13 LSA there are no red links.
-/
theorem pluglet_agrees_iff_faithful (area : Area) (beyond : Nat → UInt32) (v : OspfLsa)
    (has : v ∈ area.lsdb) (kind : v.data.type = routerLsa ∨ v.data.type = networkLsa) :
    (Agrees area beyond v ↔ Faithful area beyond v) ∧
    (lookupColoured area v.data = none → ∀ s, Kept area s → v.key ∈ s.tree →
      spfNextWithoutRed area s v.key = spfNext area s v.key) := by
  refine ⟨⟨fun agrees => ⟨?_,?_⟩,fun hf s hk mem => ?_⟩,fun none s hk mem => ?_⟩
  · intro item hl w hc
    exact agrees_same agrees has kind hl hc
  · intro item hl w hc followed
    exact agrees_covered agrees has kind (mem_of_mem_drop hl) hc followed
  · exact hf.agrees ⟨hk,mem,hk.lsa_eq has (.inl mem)⟩
  rw [← hk.lsa_eq has (.inl mem)] at none
  exact spfNextWithoutRed_uncoloured none

end

namespace Pair

def router (age : UInt16) (id : UInt32) (links : List UInt32) : OspfLsa :=
  ⟨{ lsAge := age, options := 2, type := 1, id := id, advRouter := id, lsSeqnum := 0x80000001,
     checksum := 0, length := UInt16.ofNat (24+4*links.length),
     body := UInt32.ofNat (links.length/3) :: links }, 0⟩

def root (stubs : Nat) : OspfLsa :=
  router 1 1 ((range stubs).flatMap
    (fun i => [0x0A640000 + 256 * UInt32.ofNat i, 0xFFFFFF00, 0x0300000A]) ++
    [2, 0x0A000001, 0x0100000A])

def neighbor (age : UInt16) : OspfLsa := router age 2 [1, 0x0A000002, 0x0100000A]

def area (stubs : Nat) (age : UInt16) : Area where
  lsdb := [root stubs, neighbor age]
  routerLsaSelf := root stubs
  oiflist := [⟨1, .pointToPoint, stubs, stubs + 1, 0x0A000001, 30, [⟨2, 0x0A000002⟩]⟩]
  vlinks := []
  now := 0
  distinct := by simp [root, neighbor, router, OspfLsa.key, key]
  selfStored := mem_cons_self
  selfRouter := rfl

end Pair

theorem pair_pluglet_agrees : Faithful (Pair.area 1 1) (fun _ => 0) (Pair.root 1) ∧
    Agrees (Pair.area 1 1) (fun _ => 0) (Pair.root 1) := by
  have eq : ∀ item ∈ itemsUpTo (Pair.root 1).data (limit (Pair.root 1).data),
      followsNative (Pair.area 1 1) (Pair.root 1).data item =
        followed (Pair.area 1 1) (fun _ => 0) (Pair.root 1).data item := by decide +kernel
  have hw : (items (Pair.root 1).data).drop
      (itemsUpTo (Pair.root 1).data (limit (Pair.root 1).data)).length = [] := by
    decide +kernel
  have hf : Faithful (Pair.area 1 1) (fun _ => 0) (Pair.root 1) :=
    ⟨fun item hl _ _ => eq item hl,fun item hl => by rw [hw] at hl; cases hl⟩
  exact ⟨hf,(pluglet_agrees_iff_faithful _ _ _ (Pair.area 1 1).selfStored (.inl rfl)).1.mpr hf⟩

def candidatesAfter (outcome : Option State) : Option Nat := outcome.map (·.candidate.size)

theorem not_agrees_of_candidates {area : Area} {beyond : Nat → UInt32}
    (differ : candidatesAfter (Pluglet.spfNext area beyond (initial area) area.root) ≠
      candidatesAfter (spfNextWithoutRed area (initial area) area.root)) :
    ¬ Pluglet.Agrees area beyond area.routerLsaSelf := by
  intro agrees
  have hk := initial_kept area
  exact differ (congrArg candidatesAfter (agrees _ hk hk.origin.1))

/-- A neighbor whose LSA has reached MaxAge becomes a candidate; one behind the links of a
router-LSA of 264 bytes does not. -/
theorem pluglet_differs : ¬ Agrees (Pair.area 1 3600) (fun _ => 0) (Pair.root 1) ∧
    ¬ Agrees (Pair.area 19 1) (fun _ => 0) (Pair.root 19) := by
  constructor
  · apply not_agrees_of_candidates
    decide +kernel
  apply not_agrees_of_candidates
  decide +kernel

end Frr.Spf
