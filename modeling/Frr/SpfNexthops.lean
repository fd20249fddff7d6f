import Frr.SpfDistance

/-! Which next hops a vertex holds: those of every link examined so far that leads to it at its
distance. -/
namespace Frr.Spf

open PriorityQueue ShortestPath List State

variable {area : Area} {s s' : State} {k : LsaKey} {item : Item} {done : List Item}
variable {Q : LsaKey → Prop}

def Positive (area : Area) : Prop :=
  ∀ v ∈ area.lsdb, ∀ position l, .link position l ∈ items v.data → l.type ≠ RouterLink.stub →
    l.metric ≠ 0

theorem Link.cost_cases {v w : OspfLsa} (pos : Positive area) (has : v ∈ area.lsdb)
    (link : Link area v w item) : 0 < item.cost.toNat ∨
      item.cost.toNat = 0 ∧ v.data.type ≠ Lsa.routerLsa ∧ w.data.type = Lsa.routerLsa := by
  cases item with
  | link position l =>
    have transit : l.type ≠ RouterLink.stub := by
      intro stub
      have hf := link.found
      have ho : RouterLink.stub ≠ RouterLink.pointToPoint ∧
          RouterLink.stub ≠ RouterLink.virtualLink ∧ RouterLink.stub ≠ RouterLink.transit := by
        decide
      simp [target,stub,ho] at hf
    have metric := pos v has position l link.listed transit
    refine .inl (Nat.pos_of_ne_zero fun zero => metric ?_)
    exact UInt16.toNat_inj.mp (by simpa [Item.cost] using zero)
  | attached rtr =>
    refine .inr ⟨rfl,fun isRouter => ?_,?_⟩
    · have hl := link.listed
      simp [items,itemsUpTo,isRouter] at hl
    have key : w.key = ⟨Lsa.routerLsa,rtr,rtr⟩ := by
      simpa using find?_some link.found
    exact congrArg LsaKey.type key

theorem rank_lt {v w : OspfLsa} (pos : Positive area) (hk : Kept area s)
    (hh : v ∈ area.lsdb) (knownV : s.Known v.key) (hha : w ∈ area.lsdb)
    (knownW : s.Known w.key) (link : Link area v w item)
    (cost : s.dist v.key + item.cost.toNat = s.dist w.key) : s.rank v.key < s.rank w.key := by
  have ha : Lsa.routerLsa ≠ Lsa.networkLsa := by decide
  simp only [State.dist] at cost
  simp only [rank,hk.lsa_eq hh knownV,hk.lsa_eq hha knownW]
  rcases link.cost_cases pos hh with metric | ⟨zero,notRouter,rtr⟩
  · split <;> split <;> omega
  have nw : v.data.type = Lsa.networkLsa := by
    obtain ⟨lsa,has,key,-,kind⟩ := hk.stored v.key knownV
    cases area.unique has hh key
    exact kind.resolve_left notRouter
  rw [if_pos nw,if_neg (rtr ▸ ha)]
  omega

/-- A next hop that came with a parent in `Q`. -/
def Recorded (Q : LsaKey → Prop) (parents : List Parent) (hop : Nexthop) : Prop :=
  ∃ vp ∈ parents, Q vp.parent ∧ vp.nexthop = hop

theorem recorded_all {parents : List Parent} {hop : Nexthop} :
    Recorded (fun _ => True) parents hop ↔ hop ∈ hopsOf parents := by
  simp [Recorded,hopsOf]

section

variable {v w : Lsa} {parents : List Parent} {hops : List Nexthop} {hop : Nexthop}

theorem mem_foldl_mergeParent {vp : Parent}
    (mem : vp ∈ hops.foldl (mergeParent k v w) parents) : vp ∈ parents ∨ vp.parent = k := by
  induction hops generalizing parents with
  | nil => exact .inl mem
  | cons fst hmo ih =>
    rcases ih mem with hm | new
    · unfold mergeParent at hm
      split at hm
      · exact .inl hm
      rcases mem_append.mp hm with old | new
      · exact .inl old
      · exact .inr (by rw [mem_singleton.mp new])
    · exact .inr new

/-- A next hop that is there keeps its parent, so `Q` has to hold of the parents before it holds of
`k`. -/
theorem recorded_foldl (he : Q k → ∀ vp ∈ parents, Q vp.parent) :
    Recorded Q (hops.foldl (mergeParent k v w) parents) hop ↔
      Recorded Q parents hop ∨ Q k ∧ hop ∈ hops := by
  induction hops generalizing parents with
  | nil => simp
  | cons fst hmo ih =>
    have hm : Recorded Q (mergeParent k v w parents fst) hop ↔
        Recorded Q parents hop ∨ Q k ∧ hop = fst := by
      unfold mergeParent
      split
      · next present =>
        refine ⟨.inl,fun either => either.elim id ?_⟩
        rintro ⟨hh,rfl⟩
        obtain ⟨vp,mem,eq⟩ := any_eq_true.mp present
        exact ⟨vp,mem,he hh vp mem,of_decide_eq_true eq⟩
      · constructor
        · rintro ⟨vp,mem,hh,rfl⟩
          rcases mem_append.mp mem with old | new
          · exact .inl ⟨vp,old,hh,rfl⟩
          cases mem_singleton.mp new
          exact .inr ⟨hh,rfl⟩
        · rintro (⟨vp,mem,hh,rfl⟩ | ⟨hh,rfl⟩)
          · exact ⟨vp,mem_append_left _ mem,hh,rfl⟩
          · exact ⟨_,mem_append_right _ (mem_singleton.mpr rfl),hh,rfl⟩
    have he' : Q k → ∀ vp ∈ mergeParent k v w parents fst, Q vp.parent := by
      intro hh vp mem
      have hm : vp ∈ [fst].foldl (mergeParent k v w) parents := mem
      rcases mem_foldl_mergeParent hm with old | new
      · exact he hh vp old
      · exact new ▸ hh
    rw [foldl_cons,ih he',hm,mem_cons]
    tauto

end

/-- A link examined so far that leads to `w` at its distance. -/
structure Contributes (area : Area) (s : State) (k : LsaKey) (done : List Item) (v w : OspfLsa)
    (item : Item) : Prop where
  stored : v ∈ area.lsdb
  link : Link area v w item
  member : v.key ∈ s.tree
  upTo : v.key = k → item ∈ done
  cost : s.dist v.key + item.cost.toNat = s.dist w.key

/-- A vertex holds the next hops of the links that contribute to it, for parents in `Q`. -/
structure Hopping (area : Area) (Q : LsaKey → Prop) (k : LsaKey) (done : List Item) (s : State) :
    Prop where
  searching : Searching area k done s
  rankTree : ∀ u ∈ s.tree, s.rank u ≤ s.rank k
  rankQueue : ∀ w, Contains s.candidate w → s.rank k ≤ s.rank w
  within : ∀ w, s.Known w → ∀ vp ∈ (s.vertex w).parents, vp.parent ∈ s.tree
  early : Q k → ∀ u ∈ s.tree, Q u
  hops : ∀ w ∈ area.lsdb, s.Known w.key → w.key ≠ area.root → ∀ hop,
    Recorded Q (s.vertex w.key).parents hop ↔ ∃ v item, Q v.key ∧
      Contributes area s k done v w item ∧ hop ∈ nexthops area s v.key w.data item

section

variable {u v w : OspfLsa} {i : Item}

theorem contributes_snoc (has : v ∈ area.lsdb) :
    Contributes area s v.key (done ++ [item]) u w i ↔ Contributes area s v.key done u w i ∨
      u = v ∧ i = item ∧ Link area v w item ∧ v.key ∈ s.tree ∧
        s.dist v.key + item.cost.toNat = s.dist w.key := by
  constructor
  · rintro ⟨hs,link,mem,upTo,cost⟩
    by_cases he : u.key = v.key
    · cases area.unique hs has he
      rcases mem_append.mp (upTo rfl) with old | new
      · exact .inl ⟨hs,link,mem,fun _ => old,cost⟩
      cases mem_singleton.mp new
      exact .inr ⟨rfl,rfl,link,mem,cost⟩
    · exact .inl ⟨hs,link,mem,fun eq => absurd eq he,cost⟩
  · rintro (⟨hs,link,mem,upTo,cost⟩ | ⟨rfl,rfl,link,mem,cost⟩)
    · exact ⟨hs,link,mem,fun eq => mem_append_left _ (upTo eq),cost⟩
    · exact ⟨has,link,mem,fun _ => mem_append_right _ (mem_singleton.mpr rfl),cost⟩

theorem Contributes.transport (h : Contributes area s k done u w i) (tree : s'.tree = s.tree)
    (distU : s'.dist u.key = s.dist u.key) (distW : s'.dist w.key = s.dist w.key) :
    Contributes area s' k done u w i :=
  ⟨h.stored,h.link,tree.symm ▸ h.member,h.upTo,by rw [distU,distW]; exact h.cost⟩

theorem contributes_congr (tree : s'.tree = s.tree) (same : ∀ x ∈ s.tree,
      (s'.vertex x).lsa = (s.vertex x).lsa ∧ (s'.vertex x).distance = (s.vertex x).distance ∧
        (s'.vertex x).parents = (s.vertex x).parents)
    (distW : s'.dist w.key = s.dist w.key) (hop : Nexthop) :
    Contributes area s k done u w i ∧ hop ∈ nexthops area s u.key w.data i ↔
      Contributes area s' k done u w i ∧ hop ∈ nexthops area s' u.key w.data i := by
  by_cases mem : u.key ∈ s.tree
  · obtain ⟨lsa,distance,parents⟩ := same _ mem
    have distU := congrArg UInt32.toNat distance
    rw [nexthops_congr lsa parents]
    exact and_congr_left fun _ => ⟨fun h => h.transport tree distU distW,
      fun h => h.transport tree.symm distU.symm distW.symm⟩
  · exact ⟨fun h => absurd h.1.member mem,fun h => absurd (tree ▸ h.1.member) mem⟩

theorem Contributes.explored (h : Contributes area s k done u w i) :
    Explored area s.tree k done u.key w.key i.cost.toNat :=
  ⟨u,h.stored,w,i,h.link,rfl,rfl,rfl,h.member,h.upTo⟩

end

def State.base (s : State) (w : OspfLsa) (distance : UInt32) : List Parent :=
  if (s.found w).distance ≠ 0 ∧ distance < (s.found w).distance then [] else (s.found w).parents

namespace Hopping

theorem quiet {v : OspfLsa} (h : Hopping area Q v.key done s) (has : v ∈ area.lsdb)
    (hs : Searching area v.key (done ++ [item]) s)
    (none : ∀ w, Link area v w item → s.Known w.key →
      s.dist v.key + item.cost.toNat ≠ s.dist w.key) :
    Hopping area Q v.key (done ++ [item]) s := by
  refine ⟨hs,h.rankTree,h.rankQueue,h.within,h.early,fun w hh hk hn hop => ?_⟩
  rw [h.hops w hh hk hn]
  refine exists_congr fun u => exists_congr fun i => and_congr_right fun _ => and_congr_left fun _ => ?_
  rw [contributes_snoc has]
  refine ⟨.inl,fun either => either.resolve_right ?_⟩
  rintro ⟨rfl,rfl,link,-,cost⟩
  exact none w link hk cost

theorem alike (h : Hopping area Q k done s) (alike : Alike s s') : Hopping area Q k done s' := by
  have dist : ∀ x, s.Known x → s'.dist x = s.dist x := fun x known =>
    congrArg UInt32.toNat (alike.vertex x known).2.1
  have rank : ∀ x, s.Known x → s'.rank x = s.rank x := fun x known => by
    simp [rank,(alike.vertex x known).1,(alike.vertex x known).2.1]
  have tree := alike.tree
  have here : s.Known k := .inl h.searching.member
  refine ⟨h.searching.alike alike,?_,?_,?_,?_,?_⟩
  · intro u member
    rw [tree] at member
    rw [rank u (.inl member),rank k here]
    exact h.rankTree u member
  · intro w queued
    rw [alike.candidate] at queued
    rw [rank w (.inr queued),rank k here]
    exact h.rankQueue w queued
  · intro w known vp member
    have old := (alike.known w).mp known
    rw [(alike.vertex w old).2.2] at member
    rw [tree]
    exact h.within w old vp member
  · rw [tree]
    exact h.early
  · intro w hasW known notRoot hop
    have old := (alike.known w.key).mp known
    rw [(alike.vertex w.key old).2.2,h.hops w hasW old notRoot]
    exact exists_congr fun u => exists_congr fun i => and_congr_right fun _ =>
      contributes_congr tree (fun x member => alike.vertex x (.inl member)) (dist _ old) hop

section

variable {v w : OspfLsa}

theorem base_subset (h : Hopping area Q k done s) {vp : Parent} {dst : UInt32}
    (mem : vp ∈ s.base w dst) : vp.parent ∈ s.tree := by
  unfold base at mem
  split at mem
  · cases mem
  unfold found at mem
  split at mem
  · cases mem
  next explored =>
  exact h.within w.key ((h.searching.kept.known_or w.key).resolve_left explored) vp mem

/-- The parents kept are those of earlier links to the vertex at its new distance. -/
theorem base_hops (h : Hopping area Q v.key done s) (followed : Linked area v.key s item w s')
    (cost : (s.distanceBy v.key item).toNat = s.dist v.key + item.cost.toNat) (hop : Nexthop) :
    Recorded Q (s.base w (s.distanceBy v.key item)) hop ↔ ∃ u i, Q u.key ∧
      Contributes area s' v.key done u w i ∧ hop ∈ nexthops area s' u.key w.data i := by
  have self : s'.dist w.key = (s.distanceBy v.key item).toNat :=
    congrArg UInt32.toNat followed.distance
  have settled := followed.onward.settled
  have outside := followed.outside
  -- An earlier link to the vertex makes it a candidate that is no farther.
  have earlier : ∀ {u i}, Contributes area s' v.key done u w i → Contains s.candidate w.key ∧
      s.dist w.key ≤ (s.distanceBy v.key item).toNat := by
    intro u i gives
    have inTree : u.key ∈ s.tree := followed.tree ▸ gives.member
    have same : s'.dist u.key = s.dist u.key := by rw [State.dist,settled u.key inTree,State.dist]
    have explored := gives.explored
    rw [followed.tree] at explored
    have bound := (h.searching.search.found _ _ _ explored).resolve_left outside
    refine ⟨bound.1,bound.2.trans ?_⟩
    rw [← self,← gives.cost,same]
  by_cases new : s.stat w.key = notExplored
  · have unknown := h.searching.kept.unexplored new
    have empty : s.base w (s.distanceBy v.key item) = [] := by simp [base,found,new]
    rw [empty]
    constructor
    · rintro ⟨vp,member,-⟩
      cases member
    rintro ⟨u,i,-,gives,-⟩
    exact absurd (.inr (earlier gives).1) unknown
  · have queued : Contains s.candidate w.key :=
      ((h.searching.kept.known_or w.key).resolve_left new).resolve_left outside
    have notRoot := h.searching.kept.not_root queued
    have found := found_queued h.searching.kept queued
    have nonzero := (h.searching.kept.linked w.key (.inr queued) notRoot).2
    by_cases nearer : s.distanceBy v.key item < (s.vertex w.key).distance
    · have empty : s.base w (s.distanceBy v.key item) = [] := by
        simp [base,found,nonzero,nearer]
      rw [empty]
      constructor
      · rintro ⟨vp,member,-⟩
        cases member
      rintro ⟨u,i,-,gives,-⟩
      have less : (s.distanceBy v.key item).toNat < s.dist w.key := nearer
      exact absurd (earlier gives).2 (by omega)
    · have keeps : s.base w (s.distanceBy v.key item) = (s.vertex w.key).parents := by
        simp [base,found,nearer]
      have equal : s'.dist w.key = s.dist w.key := by
        have below : (s.distanceBy v.key item).toNat ≤ s.dist w.key := followed.better queued
        have above : ¬ (s.distanceBy v.key item).toNat < s.dist w.key := nearer
        omega
      have hasW := (target_stored followed.offers.found).1
      rw [keeps,h.hops w hasW (.inr queued) notRoot]
      exact exists_congr fun u => exists_congr fun i => and_congr_right fun _ =>
        contributes_congr followed.tree (fun x member => by simp [settled x member]) equal hop

theorem followed (pos : Positive area) (h : Hopping area Q v.key done s)
    (has : v ∈ area.lsdb) (hl : item ∈ items v.data)
    (hf : Linked area v.key s item w s') (hfi : Searching.Fits area s v.key item)
    (hs : Searching area v.key (done ++ [item]) s') :
    Hopping area Q v.key (done ++ [item]) s' := by
  have link := (offers_iff h.searching.kept has h.searching.member hl).mp hf.offers
  have cost := Searching.distanceBy_of_fits hfi hf.offers hf.outside
  have hha := (target_stored hf.offers.found).1
  have hse := hf.onward.settled
  have tree := hf.tree
  have hhe := hse v.key h.searching.member
  have distHere : s'.dist v.key = s.dist v.key := by rw [State.dist,hhe,State.dist]
  have self : s'.dist v.key + item.cost.toNat = s'.dist w.key := by
    rw [distHere,← cost,State.dist,hf.distance]
  have parents : (s'.vertex w.key).parents = (nexthops area s v.key w.data item).foldl
      (mergeParent v.key (s.vertex v.key).lsa (s.found w).lsa)
      (s.base w (s.distanceBy v.key item)) := by rw [hf.vertex]; rfl
  have hr : ∀ x, x ≠ w.key → s'.rank x = s.rank x := fun x ne => by
    simp [State.rank,hf.others x ne]
  have rankHere : s'.rank v.key = s.rank v.key := by simp only [State.rank,hhe]
  refine ⟨hs,?_,?_,?_,?_,?_⟩
  · intro u hm
    rw [tree] at hm
    rw [rankHere,hr u fun he => hf.outside (he ▸ hm)]
    exact h.rankTree u hm
  · intro x hq
    by_cases eq : x = w.key
    · subst eq
      exact (rank_lt pos hs.kept has (.inl hs.member) hha (.inr hq) link self).le
    rw [rankHere,hr x eq]
    exact h.rankQueue x (((hf.queue.contains x).mp hq).resolve_left eq)
  · intro x hk vp hm
    rw [tree]
    by_cases eq : x = w.key
    · subst eq
      rw [parents] at hm
      rcases mem_foldl_mergeParent hm with old | new
      · exact h.base_subset old
      · exact new ▸ h.searching.member
    · rw [hf.others x eq] at hm
      exact h.within x (((hf.known x).mp hk).resolve_left eq) vp hm
  · rw [tree]
    exact h.early
  · intro x hasX hk hn hop
    by_cases eq : x.key = w.key
    · cases area.unique hasX hha eq
      have hea : Q v.key → ∀ vp ∈ s.base w (s.distanceBy v.key item), Q vp.parent :=
        fun hh vp hm => h.early hh _ (h.base_subset hm)
      have own : nexthops area s' v.key w.data item = nexthops area s v.key w.data item :=
        nexthops_congr (congrArg Vertex.lsa hhe) (congrArg Vertex.parents hhe) _
      rw [parents,recorded_foldl hea,h.base_hops hf cost]
      constructor
      · rintro (⟨u,i,hh,hg,hm⟩ | ⟨hh,hm⟩)
        · exact ⟨u,i,hh,(contributes_snoc has).mpr (.inl hg),hm⟩
        exact ⟨v,item,hh,(contributes_snoc has).mpr (.inr ⟨rfl,rfl,link,hs.member,self⟩),own ▸ hm⟩
      rintro ⟨u,i,hh,hg,hm⟩
      rcases (contributes_snoc has).mp hg with old | ⟨rfl,rfl,-⟩
      · exact .inl ⟨u,i,hh,old,hm⟩
      · exact .inr ⟨hh,own ▸ hm⟩
    · have old := ((hf.known x.key).mp hk).resolve_left eq
      have distX : s'.dist x.key = s.dist x.key := by
        rw [State.dist,hf.others x.key eq,State.dist]
      rw [hf.others x.key eq,h.hops x hasX old hn]
      refine exists_congr fun u => exists_congr fun i => and_congr_right fun _ =>
        (contributes_congr tree (fun y hm => by simp [hse y hm]) distX hop).trans
          (and_congr_left fun _ => ?_)
      rw [contributes_snoc has]
      refine ⟨.inl,fun either => either.resolve_right ?_⟩
      rintro ⟨-,-,ho,-⟩
      exact eq (Option.some.inj (ho.found.symm.trans link.found) ▸ rfl)

theorem turn (pos : Positive area) (h : Hopping area Q v.key done s) (has : v ∈ area.lsdb)
    (hl : item ∈ items v.data) (hf : Searching.Fits area s v.key item)
    (ha : examine area v.key s item = some s') : Hopping area Q v.key (done ++ [item]) s' := by
  have hs := h.searching.turn has hl hf ha
  have links : ∀ w, Offers area s v.key item w ↔ Link area v w item := fun w =>
    offers_iff h.searching.kept has h.searching.member hl
  have turn := examine_turn h.searching.kept h.searching.member item
  rw [ha] at turn
  cases turn with
  | idle none =>
    refine h.quiet has hs fun w link hk cost => ?_
    have hi := none w ((links w).mpr link)
    have hle := rank_lt pos h.searching.kept has (.inl h.searching.member)
      (target_stored link.found).1 hk link cost
    exact absurd (h.rankTree w.key hi) (by omega)
  | farther w ho hq hw =>
    refine h.quiet has hs fun w' link _ cost => ?_
    cases Option.some.inj (link.found.symm.trans ho.found)
    have hb : s.dist w.key < (s.distanceBy v.key item).toNat := hw
    rw [Searching.distanceBy_of_fits hf ho (h.searching.kept.apart hq)] at hb
    omega
  | linked w ha hfo => exact h.followed pos has hl hfo hf hs

def Heads (area : Area) (Q : LsaKey → Prop) : Prop := (∀ x, Q x) ∨ ∀ x, Q x → x = area.root

section

variable (heads : Heads area Q) (h : Hopping area Q v.key (items v.data) s) (has : v ∈ area.lsdb)
  (some : 0 < s.candidate.size)

include heads h has some

theorem taken : Hopping area Q (s.candidate.array 0) [] (Spf.taken s) := by
  have hk := h.searching.kept
  have fst : Contains s.candidate (s.candidate.array 0) := ⟨0,some,rfl⟩
  have hkn := taken_known hk some
  refine ⟨h.searching.taken has some,?_,?_,?_,?_,?_⟩
  · intro u hm
    rcases mem_cons.mp hm with rfl | old
    · exact le_rfl
    · exact (h.rankTree u old).trans (h.rankQueue _ fst)
  · intro w hq
    exact h.searching.ordered.first ((taken_contains hk some w).mp hq).2
  · intro w now vp hm
    exact .tail _ (h.within w ((hkn w).mp now) vp hm)
  · intro hh u _
    rcases heads with all | root
    · exact all u
    · exact absurd (root _ hh) (hk.not_root fst)
  intro w hha now hn hop
  have hr := h.hops w hha ((hkn w.key).mp now) hn hop
  refine hr.trans (exists_congr fun u => exists_congr fun i => and_congr_right fun _ =>
    and_congr_left fun _ => ?_)
  constructor
  · intro hg
    refine ⟨hg.stored,hg.link,.tail _ hg.member,fun eq => ?_,hg.cost⟩
    exact absurd (eq ▸ hg.member) (hk.apart fst)
  intro hg
  have old : u.key ∈ s.tree := by
    rcases mem_cons.mp hg.member with eq | old
    · exact absurd (hg.upTo eq) not_mem_nil
    · exact old
  refine ⟨hg.stored,hg.link,old,fun eq => ?_,hg.cost⟩
  exact area.unique hg.stored has eq ▸ hg.link.listed

theorem next : Hopping area Q (extract s).1 [] (extract s).2 :=
  (h.taken heads has some).alike (addToParents_alike _ _)

end

theorem start (area : Area) (Q : LsaKey → Prop) : Hopping area Q area.root [] (initial area) := by
  have root : ∀ {x}, x ∈ (initial area).tree → x = area.root := mem_singleton.mp
  have none : ∀ x, ¬ Contains (initial area).candidate x := fun x ⟨i,inside,_⟩ =>
    absurd inside (Nat.not_lt_zero i)
  refine ⟨Searching.start area,?_,?_,?_,?_,?_⟩
  · intro u mem
    rw [root mem]
  · exact fun w hq => absurd hq (none w)
  · exact fun w _ vp mem => absurd mem not_mem_nil
  · intro hh u mem
    exact root mem ▸ hh
  intro w _ hk hn
  exact absurd (hk.elim root fun hq => absurd hq (none w.key)) hn

end

end Hopping

end Frr.Spf
