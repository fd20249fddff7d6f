import Frr.SpfRun
import Frr.ShortestPath

/-! The distances of the tree are the least costs of its vertices, as long as no distance
wraps around. -/
namespace Frr.Spf

open PriorityQueue ShortestPath List State

variable {area : Area} {s s' : State} {k : LsaKey} {item : Item} {done : List Item}

/-- Its LSA is there, not too old and links back; out of the root, the next hop can be computed. -/
structure Link (area : Area) (v w : OspfLsa) (item : Item) : Prop where
  listed : item ∈ items v.data
  found : target area item = some w
  fresh : w.isMaxAge area.now = false
  back : w.data.hasLink v.data ≠ none
  hop : v.key = area.root → rootHop area v.data w.data item ≠ none

def edge (area : Area) (v w : LsaKey) (cost : Nat) : Prop :=
  ∃ vLsa ∈ area.lsdb, ∃ wLsa item, Link area vLsa wLsa item ∧ vLsa.key = v ∧ wLsa.key = w ∧
    item.cost.toNat = cost

def State.dist (s : State) (k : LsaKey) : Nat := (s.vertex k).distance.toNat

theorem cost_le (item : Item) : item.cost.toNat ≤ 65535 := by
  cases item with
  | link pos l =>
    have hb := l.metric.toNat_lt
    simp only [Item.cost,UInt16.toNat_toUInt32]
    omega
  | attached rtr => exact Nat.zero_le _

theorem signed_difference {d e : UInt32} (ha : d.toNat < e.toNat + 2 ^ 31)
    (hb : e.toNat < d.toNat + 2 ^ 31) :
    (d-e).toInt32.toInt = (d.toNat : Int) - e.toNat := by
  have signed : (d-e).toInt32.toInt = Int.bmod (d-e).toNat (2 ^ 32) := BitVec.toInt_eq_toNat_bmod _
  have boundD := d.toNat_lt
  have boundE := e.toNat_lt
  rw [signed,UInt32.toNat_sub,Int.bmod]
  omega

theorem cmp_agrees {nodes : LsaKey → Prop} {base : Nat}
    (window : ∀ x, nodes x → base ≤ s.dist x ∧ s.dist x ≤ base+65535)
    (kind : ∀ x, nodes x → (s.vertex x).lsa.type = Lsa.routerLsa ∨
      (s.vertex x).lsa.type = Lsa.networkLsa) : Agrees (cmp s) s.rank nodes := by
  have hb : ∀ x y, nodes x → nodes y →
      (cmp s x y < 0 ↔ s.rank x < s.rank y) ∧ (0 < cmp s x y ↔ s.rank y < s.rank x) := by
    intro x y hasX hasY
    have windowX := window x hasX
    have windowY := window y hasY
    simp only [State.dist] at windowX windowY
    by_cases eq : (s.vertex x).distance = (s.vertex y).distance
    · have ha : Lsa.routerLsa ≠ Lsa.networkLsa := by decide
      simp only [cmp,rank,eq]
      rcases kind x hasX with rtr | nw
      · rcases kind y hasY with rtr' | nw'
        · simp [rtr,rtr',ha]
        · simp [rtr,nw',ha]
      rcases kind y hasY with rtr' | nw'
      · simp [nw,rtr',ha,ha.symm]
      · simp [nw,nw']
    · have ne : (s.vertex x).distance.toNat ≠ (s.vertex y).distance.toNat := fun hs =>
        eq (UInt32.toNat_inj.mp hs)
      have hn : ¬ (s.vertex x).distance - (s.vertex y).distance = 0 := fun zero =>
        eq (by simpa [sub_eq_zero] using zero)
      simp only [cmp,hn,false_and,if_false,rank]
      rw [signed_difference (by omega) (by omega)]
      split <;> split <;> omega
  exact ⟨fun x y hasX hasY => (hb x y hasX hasY).1,fun x y hasX hasY => (hb x y hasX hasY).2⟩

theorem Kept.lsa_eq (hke : Kept area s) {v : OspfLsa} (has : v ∈ area.lsdb)
    (hk : s.Known v.key) : (s.vertex v.key).lsa = v.data := by
  obtain ⟨lsa,hs,key,eq,-⟩ := hke.stored v.key hk
  rw [eq,area.unique hs has key]

theorem offers_iff (hk : Kept area s) {v w : OspfLsa} (has : v ∈ area.lsdb)
    (mem : v.key ∈ s.tree) (hl : item ∈ items v.data) :
    Offers area s v.key item w ↔ Link area v w item := by
  have lsa := hk.lsa_eq has (.inl mem)
  have hops : nexthops area s v.key w.data item ≠ [] ↔
      (v.key = area.root → rootHop area v.data w.data item ≠ none) := by
    by_cases root : v.key = area.root
    · simp only [nexthops,root,if_true,forall_const]
      rw [← root,lsa]
      cases rootHop area v.data w.data item <;> simp
    have pars := (hk.linked v.key (.inl mem) root).1
    simp only [nexthops,root,if_false,false_implies,iff_true]
    generalize (if (s.vertex v.key).lsa.type = Lsa.networkLsa then
      directNexthops area.root (s.vertex v.key) w.data else []) = direct
    by_cases none : direct = []
    · simpa [none] using pars
    · simp [none]
  constructor
  · intro ho
    exact ⟨hl,ho.found,ho.fresh,lsa ▸ ho.back,hops.mp ho.hops⟩
  intro link
  exact ⟨link.found,link.fresh,lsa.symm ▸ link.back,hops.mpr link.hop⟩

/-- All links of the tree, but of `k` only the ones done. -/
def Explored (area : Area) (tree : List LsaKey) (k : LsaKey) (done : List Item)
    (v w : LsaKey) (cost : Nat) : Prop :=
  ∃ vLsa ∈ area.lsdb, ∃ wLsa item, Link area vLsa wLsa item ∧ vLsa.key = v ∧ wLsa.key = w ∧
    item.cost.toNat = cost ∧ v ∈ tree ∧ (v = k → item ∈ done)

section

variable {v w : OspfLsa} {tree : List LsaKey}

theorem explored_append (done' : List Item) (x y : LsaKey) (cost : Nat) :
    Explored area tree k (done ++ done') x y cost ↔
      Explored area tree k done x y cost ∨ Explored area tree k done' x y cost := by
  simp only [Explored,mem_append,imp_or,and_or_left,exists_or]

theorem explored_link (has : v ∈ area.lsdb) (mem : v.key ∈ tree) (link : Link area v w item)
    (x y : LsaKey) (cost : Nat) : Explored area tree v.key (done ++ [item]) x y cost ↔
      Explored area tree v.key done x y cost ∨
      x = v.key ∧ y = w.key ∧ cost = item.cost.toNat := by
  rw [explored_append]
  constructor
  · rintro (old | ⟨vLsa,hh,wLsa,ho,link',rfl,rfl,rfl,hi,upTo⟩)
    · exact .inl old
    by_cases hs : vLsa.key = v.key
    · cases mem_singleton.mp (upTo hs)
      have tgt := Option.some.inj (link'.found.symm.trans link.found)
      exact .inr ⟨hs,congrArg OspfLsa.key tgt,rfl⟩
    · exact .inl ⟨vLsa,hh,wLsa,ho,link',rfl,rfl,rfl,hi,fun eq => absurd eq hs⟩
  · refine Or.imp_right ?_
    rintro ⟨rfl,rfl,rfl⟩
    exact ⟨v,has,w,item,link,rfl,rfl,rfl,mem,fun _ => mem_singleton.mpr rfl⟩

theorem explored_none (has : v ∈ area.lsdb) (none : ∀ w, ¬ Link area v w item)
    (x y : LsaKey) (cost : Nat) : Explored area tree v.key (done ++ [item]) x y cost ↔
      Explored area tree v.key done x y cost := by
  rw [explored_append]
  refine or_iff_left_of_imp ?_
  rintro ⟨vLsa,hh,wLsa,ho,link',rfl,rfl,rfl,hi,upTo⟩
  refine ⟨vLsa,hh,wLsa,ho,link',rfl,rfl,rfl,hi,fun hs => ?_⟩
  cases mem_singleton.mp (upTo hs)
  cases area.unique hh has hs
  exact absurd link' (none wLsa)

end

/-- A calculation under way, with the links of `k` examined as far as `done`. -/
structure Searching (area : Area) (k : LsaKey) (done : List Item) (s : State) : Prop where
  kept : Kept area s
  member : k ∈ s.tree
  latest : ∀ u ∈ s.tree, s.dist u ≤ s.dist k
  near : ∀ w, Contains s.candidate w → s.dist w ≤ s.dist k + 65535
  beyond : ∀ x total, Walk (edge area) area.root x total → x ∉ s.tree → s.dist k ≤ total
  ordered : Ordered s.rank s.candidate
  search : Search (edge area) area.root (Explored area s.tree k done) (· ∈ s.tree)
    (Contains s.candidate) s.dist
  fit : ∀ v w e, Explored area s.tree k done v w e →
    s.dist v + e < 2 ^ 32 ∨ w ∈ s.tree ∧ s.dist w ≤ s.dist v

namespace Searching

/-- The links of `k` fit in a distance unless they lead back into the tree. -/
def Fits (area : Area) (s : State) (k : LsaKey) (item : Item) : Prop :=
  ∀ w, Offers area s k item w → w.key ∉ s.tree → s.dist k + item.cost.toNat < 2 ^ 32

theorem distanceBy_of_fits {w : OspfLsa} (hf : Fits area s k item)
    (hof : Offers area s k item w) (ho : w.key ∉ s.tree) :
    (s.distanceBy k item).toNat = s.dist k + item.cost.toNat := by
  have hb := hf w hof ho
  rw [distanceBy,UInt32.toNat_add]
  exact Nat.mod_eq_of_lt hb

theorem source (h : Searching area k done s) : ∃ v ∈ area.lsdb, v.key = k := by
  obtain ⟨v,has,key,-⟩ := h.kept.stored k (.inl h.member)
  exact ⟨v,has,key⟩

theorem nothing {v : OspfLsa} (h : Searching area v.key done s) (has : v ∈ area.lsdb)
    (none : ∀ w, ¬ Link area v w item) : Searching area v.key (done ++ [item]) s := by
  have search := h.search.congr (explored_none has none) (fun _ => Iff.rfl)
    (fun _ => Iff.rfl) (fun _ _ => rfl)
  have fit := fun x y e hk => h.fit x y e ((explored_none has none x y e).mp hk)
  exact {h with search := search, fit := fit}

theorem nothing_new {v w : OspfLsa} (h : Searching area v.key done s) (has : v ∈ area.lsdb)
    (link : Link area v w item) (out : w.key ∈ s.tree ∨ Contains s.candidate w.key ∧
      s.dist w.key ≤ s.dist v.key + item.cost.toNat ∧ s.dist v.key + item.cost.toNat < 2 ^ 32) :
    Searching area v.key (done ++ [item]) s := by
  have hr : edge area v.key w.key item.cost.toNat := ⟨v,has,w,item,link,rfl,rfl,rfl⟩
  have search := h.search.explore h.member h.latest hr (fun _ _ => Iff.rfl) (fun _ _ => rfl)
    (out.imp (fun hi => ⟨hi,rfl,h.search.apart _ hi⟩)
      (fun ⟨hq,hb,_⟩ => .inl ⟨h.kept.apart hq,hq,hb,hq,rfl⟩))
  have search' := search.congr (explored_link has h.member link) (fun _ => Iff.rfl)
    (fun _ => Iff.rfl) (fun _ _ => rfl)
  refine {h with search := search', fit := fun x y e hk => ?_}
  rcases (explored_link has h.member link x y e).mp hk with old | ⟨rfl,rfl,rfl⟩
  · exact h.fit x y e old
  rcases out with hi | ⟨-,-,hf⟩
  · exact .inr ⟨hi,h.latest _ hi⟩
  · exact .inl hf

theorem alike (h : Searching area k done s) (alike : Alike s s') : Searching area k done s' := by
  have dist : ∀ x, s.Known x → s'.dist x = s.dist x := fun x known =>
    congrArg UInt32.toNat (alike.vertex x known).2.1
  have here := dist k (.inl h.member)
  refine ⟨alike.kept h.kept,alike.tree ▸ h.member,?_,?_,?_,?_,?_,?_⟩
  · intro u member
    rw [alike.tree] at member
    rw [here,dist u (.inl member)]
    exact h.latest u member
  · intro w queued
    rw [alike.candidate] at queued
    rw [here,dist w (.inr queued)]
    exact h.near w queued
  · intro x total walk outside
    rw [here]
    exact h.beyond x total walk (alike.tree ▸ outside)
  · rw [alike.candidate]
    intro i positive inside
    have rank : ∀ j < s.candidate.size, s'.rank (s.candidate.array j) =
        s.rank (s.candidate.array j) := by
      intro j inside
      have same := alike.vertex (s.candidate.array j) (.inr ⟨j,inside,rfl⟩)
      simp [rank,same.1,same.2.1]
    rw [rank i inside,rank _ ((parentOf_lt positive).trans inside)]
    exact h.ordered i positive inside
  · rw [alike.tree,alike.candidate]
    exact h.search.congr (fun _ _ _ => Iff.rfl) (fun _ => Iff.rfl) (fun _ => Iff.rfl) dist
  · rw [alike.tree]
    intro v w e known
    rw [dist v (.inl (h.search.edges v w e known).2)]
    refine (h.fit v w e known).imp_right fun both => ⟨both.1,?_⟩
    rw [dist w (.inl both.1)]
    exact both.2

theorem link_followed {v w : OspfLsa} (h : Searching area v.key done s) (has : v ∈ area.lsdb)
    (link : Link area v w item) (hf : Linked area v.key s item w s')
    (hfi : Fits area s v.key item) : Searching area v.key (done ++ [item]) s' := by
  have hr : edge area v.key w.key item.cost.toNat := ⟨v,has,w,item,link,rfl,rfl,rfl⟩
  have cost := distanceBy_of_fits hfi hf.offers hf.outside
  have self : s'.dist w.key = s.dist v.key + item.cost.toNat := by
    rw [State.dist,hf.distance]
    exact cost
  have others : ∀ x, x ≠ w.key → s'.dist x = s.dist x := fun x ne => by
    rw [State.dist,hf.others x ne,State.dist]
  have hs : ∀ x ∈ s.tree, s'.dist x = s.dist x := fun x hm =>
    others x fun same => hf.outside (same ▸ hm)
  have queue : ∀ x, x ≠ w.key → (Contains s'.candidate x ↔ Contains s.candidate x) := by
    intro x ne
    rw [hf.queue.contains]
    exact or_iff_right ne
  have now : Contains s'.candidate w.key := (hf.queue.contains _).mpr (.inl rfl)
  have hk := hf.kept h.kept
  have search : Search (edge area) area.root (Explored area s'.tree v.key (done ++ [item]))
      (· ∈ s'.tree) (Contains s'.candidate) s'.dist := by
    rw [hf.tree]
    have he := h.search.explore h.member h.latest hr queue others (.inr (.inr
      ⟨hf.outside,fun hq => cost ▸ hf.better hq,now,self⟩))
    exact he.congr (explored_link has h.member link) (fun _ => Iff.rfl) (fun _ => Iff.rfl)
      (fun _ _ => rfl)
  have hh := hs v.key h.member
  have hn : ∀ x, Contains s'.candidate x → s'.dist x ≤ s'.dist v.key + 65535 := by
    intro x hq
    by_cases eq : x = w.key
    · subst eq
      have hb := cost_le item
      omega
    rw [others x eq,hh]
    exact h.near x ((queue x eq).mp hq)
  have hm : v.key ∈ s'.tree := hf.tree.symm ▸ h.member
  refine ⟨hk,hm,?_,hn,?_,?_,search,?_⟩
  · intro u hi
    rw [hf.tree] at hi
    rw [hh,hs u hi]
    exact h.latest u hi
  · intro x total walk ho
    rw [hh]
    exact h.beyond x total walk (hf.tree ▸ ho)
  · apply hf.ordered h.ordered
    refine cmp_agrees (fun x hq => ⟨search.order v.key x hm hq,hn x hq⟩) ?_
    intro x hq
    obtain ⟨lsa,-,-,same,kind⟩ := hk.stored x (.inr hq)
    exact same ▸ kind
  · rw [hf.tree]
    intro x y e hkn
    rcases (explored_link has h.member link x y e).mp hkn with old | ⟨rfl,rfl,rfl⟩
    · rw [hs x (h.search.edges x y e old).2]
      refine (h.fit x y e old).imp_right fun ⟨hi,hb⟩ => ⟨hi,?_⟩
      rw [hs y hi]
      exact hb
    rw [hh]
    exact .inl (hfi w hf.offers hf.outside)

theorem turn {v : OspfLsa} (h : Searching area v.key done s) (has : v ∈ area.lsdb)
    (hl : item ∈ items v.data) (hfi : Fits area s v.key item)
    (ha : examine area v.key s item = some s') : Searching area v.key (done ++ [item]) s' := by
  have turn := examine_turn h.kept h.member item
  have links : ∀ w, Offers area s v.key item w ↔ Link area v w item := fun w =>
    offers_iff h.kept has h.member hl
  rw [ha] at turn
  cases turn with
  | idle none =>
    by_cases some : ∃ w, Link area v w item
    · obtain ⟨w,link⟩ := some
      exact h.nothing_new has link (.inl (none w ((links w).mpr link)))
    · exact h.nothing has fun w link => some ⟨w,link⟩
  | farther w ho hq hw =>
    have hou := h.kept.apart hq
    have hb : s.dist w.key < (s.distanceBy v.key item).toNat := hw
    rw [distanceBy_of_fits hfi ho hou] at hb
    exact h.nothing_new has ((links w).mp ho) (.inr ⟨hq,hb.le,hfi w ho hou⟩)
  | linked w ha hf => exact h.link_followed has ((links w).mp hf.offers) hf hfi

theorem exhausted {v : OspfLsa} (has : v ∈ area.lsdb) (tree : List LsaKey) :
    Exhausted (edge area) (Explored area tree v.key (items v.data)) (· ∈ tree) := by
  rintro x y e mem ⟨vLsa,hasV,wLsa,item,link,rfl,rfl,rfl⟩
  refine ⟨vLsa,hasV,wLsa,item,link,rfl,rfl,rfl,mem,fun eq => ?_⟩
  exact area.unique hasV has eq ▸ link.listed

theorem first_closest (h : Searching area k done s) {x : LsaKey} (hq : Contains s.candidate x) :
    s.dist (s.candidate.array 0) ≤ s.dist x := by
  have fst := h.ordered.first hq
  simp only [rank] at fst
  simp only [State.dist]
  split at fst <;> split at fst <;> omega

section

variable {v : OspfLsa} (h : Searching area v.key (items v.data) s) (has : v ∈ area.lsdb)
  (some : 0 < s.candidate.size)

include h has some

theorem taken : Searching area (s.candidate.array 0) [] (Spf.taken s) := by
  have exhausted := exhausted has s.tree
  have first : Contains s.candidate (s.candidate.array 0) := ⟨0,some,rfl⟩
  have new := h.kept.apart first
  have contains := taken_contains h.kept some
  have closest := fun x (queued : Contains s.candidate x) => h.first_closest queued
  have known : ∀ x y e, Explored area (Spf.taken s).tree (s.candidate.array 0) [] x y e ↔
      Explored area s.tree v.key (items v.data) x y e := by
    intro x y e
    constructor
    · rintro ⟨vLsa,hasV,wLsa,item,link,rfl,rfl,rfl,inTree,upTo⟩
      have old : vLsa.key ∈ s.tree := by
        rcases mem_cons.mp inTree with same | old
        · exact absurd (upTo same) (not_mem_nil)
        · exact old
      exact exhausted _ _ _ old ⟨vLsa,hasV,wLsa,item,link,rfl,rfl,rfl⟩
    · rintro ⟨vLsa,hasV,wLsa,item,link,rfl,rfl,rfl,inTree,-⟩
      exact ⟨vLsa,hasV,wLsa,item,link,rfl,rfl,rfl,.tail _ inTree,fun same =>
        absurd (same ▸ inTree) new⟩
  have search := h.search.settle exhausted first closest
  refine ⟨taken_kept h.kept some,mem_cons_self,?_,?_,?_,?_,?_,?_⟩
  · intro u inTree
    rcases mem_cons.mp inTree with rfl | old
    · exact le_rfl
    · exact h.search.order u _ old first
  · intro w queued
    have old := ((contains w).mp queued).2
    have bound := h.near w old
    have above := h.search.order v.key _ h.member first
    exact bound.trans (Nat.add_le_add_right above _)
  · intro x total walk outside
    exact h.search.beyond exhausted closest (fun old => outside (.tail _ old)) walk
  · apply dequeue_ordered h.kept.indexed h.ordered some
    refine cmp_agrees (fun x node => ⟨h.search.order v.key x h.member node.2,h.near x node.2⟩) ?_
    intro x node
    obtain ⟨lsa,-,-,same,kind⟩ := h.kept.stored x (.inr node.2)
    exact same ▸ kind
  · apply search.congr known
    · intro x
      rw [Spf.taken,mem_cons,or_comm]
    · intro x
      rw [contains,and_comm]
    · exact fun _ _ => rfl
  · intro x y e explored
    exact (h.fit x y e ((known x y e).mp explored)).imp_right fun both =>
      ⟨.tail _ both.1,both.2⟩

theorem next : Searching area (extract s).1 [] (extract s).2 :=
  (h.taken has some).alike (addToParents_alike _ _)

end

theorem start (area : Area) : Searching area area.root [] (initial area) := by
  have none : ∀ x, ¬ Contains (initial area).candidate x := fun x ⟨i,hin,_⟩ =>
    absurd hin (Nat.not_lt_zero i)
  have root : ∀ {x}, x ∈ (initial area).tree → x = area.root := mem_singleton.mp
  have unexplored : ∀ x y e, ¬ Explored area (initial area).tree area.root [] x y e := by
    rintro x y e ⟨_,_,_,_,_,_,_,_,hi,upTo⟩
    exact absurd (upTo (root hi)) not_mem_nil
  refine ⟨initial_kept area,mem_singleton.mpr rfl,?_,?_,?_,?_,?_,?_⟩
  · intro u hi
    rw [root hi]
  · exact fun w hq => absurd hq (none w)
  · exact fun x total _ _ => Nat.zero_le total
  · exact fun i _ hin => absurd hin (Nat.not_lt_zero i)
  · have zero : (initial area).dist area.root = 0 := rfl
    apply Search.congr (search_start zero)
    · exact fun x y e => ⟨fun hk => unexplored x y e hk,False.elim⟩
    · exact fun x => mem_singleton
    · exact fun x => ⟨fun hq => none x hq,False.elim⟩
    · exact fun _ _ => rfl
  · exact fun v w e hk => absurd hk (unexplored v w e)

end Searching

end Frr.Spf
