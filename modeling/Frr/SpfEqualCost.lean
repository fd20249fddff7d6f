import Frr.SpfShortest
import Frr.SpfNexthops

/-! The next hops of a vertex against those of its shortest paths. A path that enters a network from
another router is lost behind it when the root is attached at the same cost. -/
namespace Frr.Spf

open PriorityQueue ShortestPath List Option Lsa Chain

def Attached (area : Area) (w : OspfLsa) (cost : Nat) (hop : Nexthop) : Prop :=
  ∃ item, Link area area.routerLsaSelf w item ∧
    rootHop area area.routerLsaSelf.data w.data item = some hop ∧ item.cost.toNat = cost

/-- The next hops of `w` behind a network of the root: the addresses of `w` on it, if any. -/
def arrival (hop : Nexthop) (network w : Lsa) : List Nexthop :=
  if w.nextLinks network = [] then [hop]
  else (w.nextLinks network).map fun l => ⟨hop.oi, l.linkData⟩

/-- The next hop of the first step beyond the networks of the root, with the cost of the path. Later
steps are `allowed`. -/
inductive PathHop (area : Area) (allowed : OspfLsa → OspfLsa → Prop) :
    OspfLsa → Nat → Nexthop → Prop
  | direct (attached : Attached area w cost hop) (router : w.data.type ≠ networkLsa) :
    PathHop area allowed w cost hop
  | arrive (attached : Attached area v cost hop) (network : v.data.type = networkLsa)
    (link : Link area v w item) (address : hop' ∈ arrival hop v.data w.data) :
    PathHop area allowed w (cost+item.cost.toNat) hop'
  | onward (path : PathHop area allowed v cost hop) (link : Link area v w item)
    (step : allowed v w) : PathHop area allowed w (cost+item.cost.toNat) hop

/-- The next hop of a path of least cost to `w`. -/
def LeastHop (area : Area) (allowed : OspfLsa → OspfLsa → Prop) (w : OspfLsa) (hop : Nexthop) :
    Prop :=
  ∃ cost, Least (edge area) area.root w.key cost ∧
    (PathHop area allowed w cost hop ∨ w.data.type = networkLsa ∧ Attached area w cost hop)

/-- A step out of a network of the root at the least cost, to a router that gives an address on it.
-/
def Shadowed (area : Area) (v w : OspfLsa) : Prop :=
  v.data.type = networkLsa ∧ w.data.nextLinks v.data ≠ [] ∧
  ∃ cost hop, Least (edge area) area.root v.key cost ∧ Attached area v cost hop

def NexthopsComplete (area : Area) (s : State) : Prop :=
  ∀ w ∈ area.lsdb, w.key ∈ s.tree → ∀ hop,
    hop ∈ hopsOf (s.vertex w.key).parents ↔ LeastHop area (fun _ _ => True) w hop

/-- Every next hop of a shortest path is one of a shortest path without a shadowed step. -/
def Unshadowed (area : Area) : Prop :=
  ∀ w hop, LeastHop area (fun _ _ => True) w hop →
    LeastHop area (fun v w => ¬ Shadowed area v w) w hop

section

variable {area : Area} {s s' : State} {k : LsaKey} {item : Item} {done : List Item}
variable {Q : LsaKey → Prop}

theorem mem_directNexthops {v : Vertex} {w : Lsa} {hop : Nexthop} :
    hop ∈ directNexthops k v w ↔ ∃ fst, Recorded (· = k) v.parents fst ∧
      ∃ l ∈ w.nextLinks v.lsa, hop = ⟨fst.oi,l.linkData⟩ := by
  simp only [directNexthops,mem_flatMap,mem_filter,List.mem_map,Recorded]
  constructor
  · rintro ⟨vp,⟨mem,root⟩,l,hl,rfl⟩
    exact ⟨vp.nexthop,⟨vp,mem,of_decide_eq_true root,rfl⟩,l,hl,rfl⟩
  rintro ⟨fst,⟨vp,mem,root,rfl⟩,l,hl,rfl⟩
  exact ⟨vp,⟨mem,decide_eq_true root⟩,l,hl,rfl⟩

def Direct (area : Area) (v : Vertex) (w : Lsa) : Prop :=
  v.lsa.type = networkLsa ∧ w.nextLinks v.lsa ≠ [] ∧
    ∃ first, Recorded (· = area.root) v.parents first

theorem directNexthops_ne_nil {v : Vertex} {w : Lsa} : directNexthops k v w ≠ [] ↔
    w.nextLinks v.lsa ≠ [] ∧ ∃ fst, Recorded (· = k) v.parents fst := by
  constructor
  · intro some
    obtain ⟨hop,mem⟩ := exists_mem_of_ne_nil _ some
    obtain ⟨fst,hr,l,hl,-⟩ := mem_directNexthops.mp mem
    exact ⟨ne_nil_of_mem hl,fst,hr⟩
  rintro ⟨some,fst,hr⟩
  obtain ⟨l,hl⟩ := exists_mem_of_ne_nil _ some
  exact ne_nil_of_mem (mem_directNexthops.mpr ⟨fst,hr,l,hl,rfl⟩)

theorem nexthops_direct {w : Lsa} (hn : k ≠ area.root)
    (direct : Direct area (s.vertex k) w) :
    nexthops area s k w item = directNexthops area.root (s.vertex k) w := by
  have some := directNexthops_ne_nil.mpr direct.2
  simp [nexthops,hn,direct.1,some]

theorem nexthops_inherited {w : Lsa} (hn : k ≠ area.root)
    (inherits : ¬ Direct area (s.vertex k) w) :
    nexthops area s k w item = hopsOf (s.vertex k).parents := by
  by_cases nw : (s.vertex k).lsa.type = networkLsa
  · have none : directNexthops area.root (s.vertex k) w = [] := by
      by_contra some
      exact inherits ⟨nw,directNexthops_ne_nil.mp some⟩
    simp [nexthops,hn,nw,none,hopsOf]
  · simp [nexthops,hn,nw,hopsOf]

/-- The distances are least, and each vertex holds the next hops of all links that lead to it at its
distance. -/
structure Final (area : Area) (s : State) : Prop where
  kept : Kept area s
  least : ∀ x ∈ s.tree, Least (edge area) area.root x (s.dist x)
  complete : ∀ {x total}, Walk (edge area) area.root x total → x ∈ s.tree
  hops : ∀ w ∈ area.lsdb, w.key ∈ s.tree → w.key ≠ area.root → ∀ hop,
    hop ∈ hopsOf (s.vertex w.key).parents ↔ ∃ v ∈ area.lsdb, ∃ item, Link area v w item ∧
      v.key ∈ s.tree ∧ s.dist v.key + item.cost.toNat = s.dist w.key ∧
      hop ∈ nexthops area s v.key w.data item
  attached : ∀ w ∈ area.lsdb, w.key ∈ s.tree → w.key ≠ area.root → ∀ hop,
    Recorded (· = area.root) (s.vertex w.key).parents hop ↔ Attached area w (s.dist w.key) hop

theorem Hopping.contributes {v u w : OspfLsa} (has : v ∈ area.lsdb) :
    Contributes area s v.key (items v.data) u w item ↔ u ∈ area.lsdb ∧ Link area u w item ∧
      u.key ∈ s.tree ∧ s.dist u.key + item.cost.toNat = s.dist w.key := by
  constructor
  · exact fun hg => ⟨hg.stored,hg.link,hg.member,hg.cost⟩
  rintro ⟨hs,link,hm,cost⟩
  exact ⟨hs,link,hm,fun eq => area.unique hs has eq ▸ link.listed,cost⟩

theorem nexthops_root (hk : Kept area s) (w : Lsa) : nexthops area s area.root w item =
    (rootHop area area.routerLsaSelf.data w item).toList := by
  have lsa : (s.vertex area.root).lsa = area.routerLsaSelf.data :=
    hk.lsa_eq area.selfStored (.inl hk.origin.1)
  simp [nexthops,lsa]

theorem final_of_hopping {v : OspfLsa} (has : v ∈ area.lsdb) (he : s.candidate.size = 0)
    (all : Hopping area (fun _ => True) v.key (items v.data) s)
    (root : Hopping area (· = area.root) v.key (items v.data) s) : Final area s := by
  have search := all.searching.search
  have hk := all.searching.kept
  have none : ∀ x, ¬ Contains s.candidate x := fun x ⟨i,inside,_⟩ => by omega
  refine ⟨hk,search.least,search.complete (Searching.exhausted has s.tree) none,?_,?_⟩
  · intro w hh mem hn hop
    rw [← recorded_all,all.hops w hh (.inl mem) hn]
    simp [true_and,Hopping.contributes has,and_assoc,exists_and_left]
  intro w hh mem hn hop
  have zero : s.dist area.root = 0 := congrArg UInt32.toNat hk.origin.2.1
  rw [root.hops w hh (.inl mem) hn]
  constructor
  · rintro ⟨u,item,isRoot,hg,hl⟩
    cases area.unique hg.stored area.selfStored isRoot
    have cost := hg.cost
    rw [isRoot,nexthops_root hk,mem_toList] at hl
    rw [isRoot,zero,zero_add] at cost
    exact ⟨item,hg.link,hl,cost⟩
  · rintro ⟨item,link,hop,cost⟩
    refine ⟨area.routerLsaSelf,item,rfl,(Hopping.contributes has).mpr
      ⟨area.selfStored,link,hk.origin.1,?_⟩,?_⟩
    · show s.dist area.root + item.cost.toNat = s.dist w.key
      rw [zero,zero_add]
      exact cost
    show _ ∈ nexthops area s area.root w.data item
    rw [nexthops_root hk,mem_toList]
    exact hop

section

variable {allowed : OspfLsa → OspfLsa → Prop} {v w : OspfLsa} {cost : Nat} {hop : Nexthop}

theorem Attached.walk (ha : Attached area w cost hop) : Walk (edge area) area.root w.key cost := by
  obtain ⟨item,link,-,rfl⟩ := ha
  have hr : edge area area.root w.key item.cost.toNat :=
    ⟨area.routerLsaSelf,area.selfStored,w,item,link,rfl,rfl,rfl⟩
  exact zero_add item.cost.toNat ▸ Walk.step Walk.start hr

theorem Attached.stored (ha : Attached area w cost hop) : w ∈ area.lsdb := by
  obtain ⟨item,link,-⟩ := ha
  exact (target_stored link.found).1

theorem Attached.pos (positive : Positive area) (ha : Attached area w cost hop) : 0 < cost := by
  obtain ⟨item,link,-,rfl⟩ := ha
  rcases link.cost_cases positive area.selfStored with metric | ⟨-,notRouter,-⟩
  · exact metric
  · exact absurd area.selfRouter notRouter

namespace PathHop

theorem stored (path : PathHop area allowed w cost hop) : w ∈ area.lsdb := by
  cases path with
  | direct ha rtr => exact ha.stored
  | arrive ha nw link addr => exact (target_stored link.found).1
  | onward path link step => exact (target_stored link.found).1

theorem walk (path : PathHop area allowed w cost hop) : Walk (edge area) area.root w.key cost := by
  induction path with
  | direct ha rtr => exact ha.walk
  | arrive ha nw link addr =>
    exact .step ha.walk ⟨_,ha.stored,_,_,link,rfl,rfl,rfl⟩
  | onward path link step ih => exact .step ih ⟨_,path.stored,_,_,link,rfl,rfl,rfl⟩

theorem pos (positive : Positive area) (path : PathHop area allowed w cost hop) : 0 < cost := by
  induction path with
  | direct ha rtr => exact ha.pos positive
  | arrive ha nw link addr =>
    exact Nat.add_pos_left (ha.pos positive) _
  | onward path link step ih => exact Nat.add_pos_left ih _

theorem any (path : PathHop area allowed w cost hop) :
    PathHop area (fun _ _ => True) w cost hop := by
  induction path with
  | direct ha rtr => exact .direct ha rtr
  | arrive ha nw link addr => exact .arrive ha nw link addr
  | onward path link step ih => exact .onward ih link trivial

end PathHop

theorem LeastHop.any (hl : LeastHop area allowed w hop) :
    LeastHop area (fun _ _ => True) w hop := by
  obtain ⟨cost,hi,path⟩ := hl
  exact ⟨cost,hi,path.imp_left PathHop.any⟩

namespace Final

theorem on_path (final : Final area s) (hh : v ∈ area.lsdb) (link : Link area v w item)
    (walk : Walk (edge area) area.root v.key cost) (hw : cost + item.cost.toNat = s.dist w.key) :
    v.key ∈ s.tree ∧ cost = s.dist v.key := by
  have hr : edge area v.key w.key item.cost.toNat := ⟨v,hh,w,item,link,rfl,rfl,rfl⟩
  have hm := final.complete walk
  have hl := final.least v.key hm
  have leastW := final.least w.key (final.complete (.step walk hr))
  have hb := hl.2 cost walk
  have ha := leastW.2 _ (.step hl.1 hr)
  exact ⟨hm,by omega⟩

theorem root_zero (final : Final area s) : s.dist area.root = 0 :=
  congrArg UInt32.toNat final.kept.origin.2.1

theorem direct_iff (final : Final area s) (hh : v ∈ area.lsdb) (mem : v.key ∈ s.tree)
    (hn : v.key ≠ area.root) :
    Direct area (s.vertex v.key) w.data ↔ Shadowed area v w := by
  have lsa := final.kept.lsa_eq hh (.inl mem)
  have hl := final.least v.key mem
  simp only [Direct,Shadowed,lsa,final.attached v hh mem hn]
  refine and_congr_right fun _ => and_congr_right fun _ => ⟨?_,?_⟩
  · rintro ⟨fst,ha⟩
    exact ⟨_,fst,hl,ha⟩
  rintro ⟨cost,fst,hi,ha⟩
  exact ⟨fst,hi.unique hl ▸ ha⟩

theorem sound (positive : Positive area) (final : Final area s) (hha : w ∈ area.lsdb)
    (mem : w.key ∈ s.tree) (hn : w.key ≠ area.root)
    (hhe : hop ∈ hopsOf (s.vertex w.key).parents) :
    PathHop area (fun v w => ¬ Shadowed area v w) w (s.dist w.key) hop ∨
    w.data.type = networkLsa ∧ Attached area w (s.dist w.key) hop := by
  -- Links lead on in the order of the queue, so the induction is on the rank.
  generalize sz : s.rank w.key = hra
  induction hra using Nat.strongRecOn generalizing w with
  | ind hra ih =>
    obtain ⟨v,hh,item,link,hm,cost,hl⟩ := (final.hops w hha mem hn hop).mp hhe
    by_cases root : v.key = area.root
    · cases area.unique hh area.selfStored root
      rw [root,final.root_zero,zero_add] at cost
      rw [root,nexthops_root final.kept,mem_toList] at hl
      have ha : Attached area w (s.dist w.key) hop := ⟨item,link,hl,cost⟩
      by_cases nw : w.data.type = networkLsa
      · exact .inr ⟨nw,ha⟩
      · exact .inl (.direct ha nw)
    have lsa := final.kept.lsa_eq hh (.inl hm)
    by_cases hd : Direct area (s.vertex v.key) w.data
    · rw [nexthops_direct root hd] at hl
      obtain ⟨fst,hr,l,addr,rfl⟩ := mem_directNexthops.mp hl
      have ha := (final.attached v hh hm root fst).mp hr
      rw [lsa] at addr
      have arrives : ⟨fst.oi,l.linkData⟩ ∈ arrival fst v.data w.data := by
        rw [arrival,if_neg (ne_nil_of_mem addr)]
        exact List.mem_map.mpr ⟨l,addr,rfl⟩
      exact .inl (cost ▸ .arrive ha (lsa ▸ hd.1) link arrives)
    · rw [nexthops_inherited root hd] at hl
      have hle := rank_lt positive final.kept hh (.inl hm) hha (.inl mem) link cost
      rcases ih _ (sz ▸ hle) hh hm root hl rfl with path | ⟨nw,ha⟩
      · have open' := fun shadowed => hd ((final.direct_iff hh hm root).mpr shadowed)
        exact .inl (cost ▸ .onward path link open')
      have hr := (final.attached v hh hm root hop).mpr ha
      have none : w.data.nextLinks v.data = [] := by
        by_contra some
        exact hd ⟨lsa.symm ▸ nw,lsa.symm ▸ some,hop,hr⟩
      have arrives : hop ∈ arrival hop v.data w.data := by simp [arrival,none]
      exact .inl (cost ▸ .arrive ha nw link arrives)

theorem held_of_link (final : Final area s) (hh : v ∈ area.lsdb) (hha : w ∈ area.lsdb)
    (link : Link area v w item) (hm : v.key ∈ s.tree) (hn : w.key ≠ area.root)
    (cost : s.dist v.key + item.cost.toNat = s.dist w.key)
    (hl : hop ∈ nexthops area s v.key w.data item) :
    hop ∈ hopsOf (s.vertex w.key).parents := by
  have hr : edge area v.key w.key item.cost.toNat := ⟨v,hh,w,item,link,rfl,rfl,rfl⟩
  have hme := final.complete (.step (final.least v.key hm).1 hr)
  exact (final.hops w hha hme hn hop).mpr ⟨v,hh,item,link,hm,cost,hl⟩

section

variable (positive : Positive area) (final : Final area s)

include positive final

theorem held_of_attached (ha : Attached area w cost hop) (hl : cost = s.dist w.key) :
    hop ∈ hopsOf (s.vertex w.key).parents := by
  have pos := ha.pos positive
  have hn : w.key ≠ area.root := fun root => by
    rw [root,final.root_zero] at hl
    omega
  have hm := final.complete ha.walk
  obtain ⟨vp,hli,-,eq⟩ := (final.attached w ha.stored hm hn hop).mpr (hl ▸ ha)
  exact List.mem_map.mpr ⟨vp,hli,eq⟩

theorem holds (path : PathHop area (fun v w => ¬ Shadowed area v w) w cost hop)
    (hl : cost = s.dist w.key) : hop ∈ hopsOf (s.vertex w.key).parents := by
  have haw : ∀ {w cost hop}, PathHop area (fun v w => ¬ Shadowed area v w) w cost hop →
      cost = s.dist w.key → w.key ≠ area.root := by
    intro w cost hop path hl root
    have pos := path.pos positive
    rw [root,final.root_zero] at hl
    omega
  induction path with
  | direct ha rtr => exact final.held_of_attached positive ha hl
  | @arrive v cost hop w item hop' ha nw link addr =>
    have notRootW := haw (.arrive ha nw link addr) hl
    obtain ⟨hm,costV⟩ := final.on_path ha.stored link ha.walk hl
    have hn : v.key ≠ area.root := by
      intro root
      cases area.unique ha.stored area.selfStored root
      exact absurd (area.selfRouter.symm.trans nw) (by decide)
    have lsa := final.kept.lsa_eq ha.stored (.inl hm)
    have hr := (final.attached v ha.stored hm hn hop).mpr (costV ▸ ha)
    apply final.held_of_link ha.stored (target_stored link.found).1 link hm notRootW
    · rw [← costV]
      exact hl
    by_cases none : w.data.nextLinks v.data = []
    · have inherits : ¬ Direct area (s.vertex v.key) w.data := fun hd =>
        hd.2.1 (lsa.symm ▸ none)
      rw [arrival,if_pos none] at addr
      rw [nexthops_inherited hn inherits,mem_singleton.mp addr]
      exact final.held_of_attached positive ha costV
    · rw [arrival,if_neg none] at addr
      obtain ⟨l,hli,rfl⟩ := List.mem_map.mp addr
      rw [nexthops_direct hn ⟨lsa.symm ▸ nw,lsa.symm ▸ none,hop,hr⟩]
      exact mem_directNexthops.mpr ⟨hop,hr,l,lsa.symm ▸ hli,rfl⟩
  | @onward v cost hop w item path link step ih =>
    have notRootW := haw (.onward path link step) hl
    obtain ⟨hm,costV⟩ := final.on_path path.stored link path.walk hl
    have hn := haw path costV
    apply final.held_of_link path.stored (target_stored link.found).1 link hm notRootW
    · rw [← costV]
      exact hl
    rw [nexthops_inherited hn fun hd =>
      step ((final.direct_iff path.stored hm hn).mp hd)]
    exact ih costV

theorem held_iff (hha : w ∈ area.lsdb)
    (mem : w.key ∈ s.tree) : hop ∈ hopsOf (s.vertex w.key).parents ↔
      LeastHop area (fun v w => ¬ Shadowed area v w) w hop := by
  have hl := final.least w.key mem
  constructor
  · intro hh
    have hn : w.key ≠ area.root := by
      intro root
      rw [root,final.kept.origin.2.2] at hh
      cases hh
    exact ⟨_,hl,final.sound positive hha mem hn hh⟩
  · rintro ⟨cost,isLeast,path | ⟨-,attached⟩⟩
    · exact final.holds positive path (isLeast.unique hl)
    · exact final.held_of_attached positive attached (isLeast.unique hl)

theorem complete_iff : NexthopsComplete area s ↔ Unshadowed area := by
  constructor
  · rintro hc w hop ⟨cost,isLeast,path⟩
    have hh : w ∈ area.lsdb := path.elim PathHop.stored fun hb => hb.2.stored
    have hm := final.complete isLeast.1
    apply (final.held_iff positive hh hm).mp
    exact (hc w hh hm hop).mpr ⟨cost,isLeast,path⟩
  · intro unshadowed w hh hm hop
    rw [final.held_iff positive hh hm]
    exact ⟨LeastHop.any,unshadowed w hop⟩

end

end Final

end

/-- While the links of `v` are examined. -/
def Tracking (area : Area) (v : OspfLsa) (done : List Item) (s : State) : Prop :=
  Hopping area (fun _ => True) v.key done s ∧ Hopping area (· = area.root) v.key done s

namespace Tracking

variable {v : OspfLsa}

theorem mark (h : Tracking area v done s) : Tracking area v done (markTransit s v.key) :=
  ⟨h.1.alike (markTransit_alike s v.key),h.2.alike (markTransit_alike s v.key)⟩

theorem turn (positive : Positive area) (unwrapped : Unwrapped area) (has : v ∈ area.lsdb)
    (h : Tracking area v done s) (hl : item ∈ items v.data)
    (ha : examine area v.key s item = some s') : Tracking area v (done ++ [item]) s' := by
  have hf := h.1.searching.fits has hl unwrapped
  exact ⟨h.1.turn positive has hl hf ha,h.2.turn positive has hl hf ha⟩

theorem lsa (h : Tracking area v done s) (has : v ∈ area.lsdb) :
    (s.vertex v.key).lsa = v.data :=
  h.1.searching.kept.lsa_eq has (.inl h.1.searching.member)

section

variable (positive : Positive area) (unwrapped : Unwrapped area) (has : v ∈ area.lsdb)
  (h : Tracking area v [] s)

include positive unwrapped has h

theorem round (ha : spfNext area s v.key = some s') : Tracking area v (items v.data) s' := by
  rw [spfNext,h.lsa has] at ha
  exact foldlM_invariant (P := Tracking area v) h.mark
    (fun _ _ _ _ hl h turn => h.turn positive unwrapped has hl turn) ha

theorem safe : spfNext area s v.key ≠ none := by
  intro haf
  rw [spfNext,h.lsa has] at haf
  obtain ⟨done,item,hl,t,tracking,ha⟩ := foldlM_failure (P := Tracking area v) h.mark
    (fun _ _ _ _ hl h turn => h.turn positive unwrapped has hl turn) haf
  have hs := tracking.1.searching
  have turn := examine_turn hs.kept hs.member item
  rw [ha] at turn
  cases turn with
  | aborted w ho hou zero =>
    have link := (offers_iff hs.kept has hs.member hl).mp ho
    have hf := hs.fits has hl unwrapped
    have sum := Searching.distanceBy_of_fits hf ho hou
    rw [zero] at sum
    rcases link.cost_cases positive has with metric | ⟨-,notRouter,-⟩
    · simp at sum
      omega
    have hno : v.key ≠ area.root := by
      intro root
      cases area.unique has area.selfStored root
      exact notRouter area.selfRouter
    have hn := (hs.kept.linked v.key (.inl hs.member) hno).2
    have dist : t.dist v.key = 0 := by simp at sum; omega
    exact hn (UInt32.toNat_inj.mp dist)

end

theorem next (has : v ∈ area.lsdb) (h : Tracking area v (items v.data) s)
    (some : 0 < s.candidate.size) :
    ∃ w ∈ area.lsdb, w.key = (extract s).1 ∧ Tracking area w [] (extract s).2 := by
  have all := h.1.next (.inl fun _ => trivial) has some
  have root := h.2.next (.inr fun _ eq => eq) has some
  obtain ⟨w,hh,key⟩ := all.searching.source
  exact ⟨w,hh,key,by rw [Tracking,key]; exact ⟨all,root⟩⟩

end Tracking

theorem spfCalculate_final (positive : Positive area) (unwrapped : Unwrapped area) {fuel : Nat}
    (he : area.lsdb.length ≤ fuel) :
    ∃ s, spfCalculate area fuel = .finished s ∧ Final area s := by
  have start : ∃ v ∈ area.lsdb, v.key = area.root ∧ Tracking area v [] (initial area) :=
    ⟨area.routerLsaSelf,area.selfStored,rfl,Hopping.start area _,Hopping.start area _⟩
  have round : ∀ k s s', (∃ v ∈ area.lsdb, v.key = k ∧ Tracking area v [] s) →
      spfNext area s k = some s' →
      ∃ v ∈ area.lsdb, v.key = k ∧ Tracking area v (items v.data) s' := by
    rintro k s s' ⟨v,has,rfl,tracking⟩ after
    exact ⟨v,has,rfl,tracking.round positive unwrapped has after⟩
  have next : ∀ k s, (∃ v ∈ area.lsdb, v.key = k ∧ Tracking area v (items v.data) s) →
      0 < s.candidate.size →
      ∃ v ∈ area.lsdb, v.key = (extract s).1 ∧ Tracking area v [] (extract s).2 := by
    rintro k s ⟨v,has,rfl,tracking⟩ some
    exact tracking.next has some
  have safe : spfCalculate area fuel ≠ .aborted := by
    apply loop_safe round next _ fuel start
    rintro k s ⟨v,has,rfl,tracking⟩
    exact tracking.safe positive unwrapped has
  cases res : spfCalculate area fuel with
  | aborted => exact absurd res safe
  | running s => exact absurd res (spfCalculate_stops area he s)
  | finished s =>
    obtain ⟨k,⟨v,has,rfl,all,root⟩,hem⟩ := loop_invariant round next fuel start res
    exact ⟨s,rfl,final_of_hopping has hem all root⟩

theorem unshadowed_of_routers (routers : ∀ v ∈ area.lsdb, v.data.type = routerLsa) :
    Unshadowed area := by
  have hc : ∀ {w cost hop}, PathHop area (fun _ _ => True) w cost hop →
      PathHop area (fun v w => ¬ Shadowed area v w) w cost hop := by
    intro w cost hop path
    induction path with
    | direct ha rtr => exact .direct ha rtr
    | arrive ha nw link addr => exact .arrive ha nw link addr
    | onward path link step ih =>
      apply PathHop.onward ih link
      intro shadowed
      exact absurd ((routers _ path.stored).symm.trans shadowed.1) (by decide)
  rintro w hop ⟨cost,isLeast,path⟩
  exact ⟨cost,isLeast,path.imp_left hc⟩

theorem Chain.positive {n : Nat} {some : 0 < n} {hs : n < 2 ^ 32} :
    Positive (Chain.area n some hs) := by
  intro v has pos l hl _
  obtain ⟨i,-,rfl⟩ := Chain.mem_lsdb.mp has
  obtain ⟨pos',id,-,eq⟩ := Chain.mem_items hl
  cases eq
  exact (by decide : (65535 : UInt16) ≠ 0)

end

namespace Lan

def linkWords (type id data metric : UInt32) : List UInt32 := [id, data, type <<< 24 ||| metric]

def lsaOf (type : UInt8) (id advRouter : UInt32) (body : List UInt32) : OspfLsa :=
  ⟨{ lsAge := 1, options := 2, type := type, id := id, advRouter := advRouter,
     lsSeqnum := 0x80000001, checksum := 0, length := UInt16.ofNat (20+4*body.length),
     body := body }, 0⟩

def network : OspfLsa := lsaOf 2 0x0A010001 1 [0xFFFFFF00, 1, 2, 3]

def root : OspfLsa :=
  lsaOf 1 1 1 (2 :: linkWords 1 2 0x0A000001 1 ++ linkWords 2 0x0A010001 0x0A010001 2)

def neighbor : OspfLsa :=
  lsaOf 1 2 2 (2 :: linkWords 1 1 0x0A000002 1 ++ linkWords 2 0x0A010001 0x0A010002 1)

def behind : OspfLsa := lsaOf 1 3 3 (1 :: linkWords 2 0x0A010001 0x0A010003 1)

/-- The network at cost 2, over the own interface and by way of a neighbor; another router is on it.
-/
def area : Area where
  lsdb := [root, neighbor, behind, network]
  routerLsaSelf := root
  oiflist := [⟨1, .pointToPoint, 0, 1, 0x0A000001, 30, [⟨2, 0x0A000002⟩]⟩,
    ⟨2, .broadcast, 1, 2, 0x0A010001, 24, []⟩]
  vlinks := []
  now := 0
  distinct := by decide
  selfStored := by decide
  selfRouter := rfl

def behindAfter : Result → Option (UInt32 × List Nexthop)
  | .finished s => if behind.key ∈ s.tree then
      some ((s.vertex behind.key).distance, hopsOf (s.vertex behind.key).parents) else none
  | _ => none

theorem path_by_neighbor : PathHop area (fun _ _ => True) behind 2 ⟨1,0x0A000002⟩ := by
  have fst : Attached area neighbor 1 ⟨1,0x0A000002⟩ :=
    ⟨.link 0 ⟨2,0x0A000001,1,0,1⟩,⟨by decide,by decide,by decide,by decide,fun _ => by decide⟩,
      by decide,rfl⟩
  have snd : Link area neighbor network (.link 1 ⟨0x0A010001,0x0A010002,2,0,1⟩) :=
    ⟨by decide,by decide,by decide,by decide,fun root => absurd root (by decide)⟩
  have thd : Link area network behind (.attached 3) :=
    ⟨by decide,by decide,by decide,by decide,fun root => absurd root (by decide)⟩
  exact .onward (.onward (.direct fst (by decide)) snd trivial) thd trivial

end Lan

end Frr.Spf
