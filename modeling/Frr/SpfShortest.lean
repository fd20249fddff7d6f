import Frr.SpfChain

/-! The tree is the shortest path tree of the area, unless a distance wrapped around on the way. -/
namespace Frr.Spf

open PriorityQueue ShortestPath

variable {area : Area} {s s' : State} {k : LsaKey} {item : Item} {done : List Item}

/-- Every vertex of the tree is at its least cost, and every one that can be reached is in it once.
-/
structure ShortestPathTree (area : Area) (s : State) : Prop where
  distance : ∀ x ∈ s.tree, Least (edge area) area.root x (s.vertex x).distance.toNat
  complete : ∀ x total, Walk (edge area) area.root x total → s.tree.count x = 1

/-- The cost by way of a link to a vertex no closer to the root fits in a distance. -/
def Unwrapped (area : Area) : Prop :=
  ∀ v w e c d, Least (edge area) area.root v c → edge area v w e →
    Least (edge area) area.root w d → c ≤ d → c+e < 2 ^ 32

theorem unwrapped_of_length (hs : area.lsdb.length ≤ 65536) : Unwrapped area := by
  intro v w e c d hl hr leastW farther
  have hb : ∀ v w e, edge area v w e → e ≤ 65535 := by
    rintro v w e ⟨vLsa,has,wLsa,item,link,rfl,rfl,rfl⟩
    exact cost_le item
  have hi : ∀ v total, Walk (edge area) area.root v total → v ∈ area.lsdb.map OspfLsa.key := by
    intro v total walk
    cases walk with
    | start => exact List.mem_map.mpr ⟨_,area.selfStored,rfl⟩
    | step walk hr =>
      obtain ⟨vLsa,has,wLsa,item,link,rfl,rfl,rfl⟩ := hr
      exact List.mem_map.mpr ⟨wLsa,(target_stored link.found).1,rfl⟩
  have cost := hl.lt_of_bounded (by omega) hb hi
  have metric := hb v w e hr
  rw [List.length_map] at cost
  omega

section

variable {v w : OspfLsa} (h : Searching area v.key done s) (has : v ∈ area.lsdb)
  (hli : item ∈ items v.data) (hof : Offers area s v.key item w)

include h has hli hof

theorem Searching.edge_of : edge area v.key w.key item.cost.toNat :=
  ⟨v,has,w,item,(offers_iff h.kept has h.member hli).mp hof,rfl,rfl,rfl⟩

theorem Searching.farther (ho : w.key ∉ s.tree) :
    ∃ least, Least (edge area) area.root w.key least ∧ s.dist v.key ≤ least := by
  have walk := Walk.step (h.search.least v.key h.member).1 (h.edge_of has hli hof)
  obtain ⟨least,hi⟩ := walk.exists_least
  exact ⟨least,hi,h.beyond _ _ hi.1 ho⟩

end

theorem Searching.fits {v : OspfLsa} (h : Searching area v.key done s) (has : v ∈ area.lsdb)
    (hli : item ∈ items v.data) (hu : Unwrapped area) :
    Searching.Fits area s v.key item := by
  intro w hof ho
  obtain ⟨hl,hi,hb⟩ := h.farther has hli hof ho
  exact hu _ _ _ _ _ (h.search.least v.key h.member) (h.edge_of has hli hof) hi hb

structure Doomed (area : Area) (k : LsaKey) (s : State) : Prop where
  wrapped : ¬ Unwrapped area
  kept : Kept area s
  member : k ∈ s.tree
  short : ∃ x least, Least (edge area) area.root x least ∧ s.Known x ∧ s.dist x < least

theorem Doomed.onward (hd : Doomed area k s) (hke : Kept area s') (ho : Onward s s') :
    Doomed area k s' := by
  obtain ⟨x,hl,hi,hk,hb⟩ := hd.short
  obtain ⟨hk',closer⟩ := ho.closer x hk
  have hbo : s'.dist x ≤ s.dist x := closer
  exact ⟨hd.wrapped,hke,ho.tree.symm ▸ hd.member,x,hl,hi,hk',by omega⟩

theorem Doomed.next (hd : Doomed area k s) (some : 0 < s.candidate.size) :
    Doomed area (extract s).1 (extract s).2 := by
  obtain ⟨x,hl,hi,hk,hb⟩ := hd.short
  have ha := addToParents_alike (taken s) (s.candidate.array 0)
  have hk' := (taken_known hd.kept some x).mpr hk
  have eq : (extract s).2.dist x = s.dist x := congrArg UInt32.toNat (ha.vertex x hk').2.1
  exact ⟨hd.wrapped,extract_kept hd.kept some,extract_member s,x,hl,hi,
    (ha.known x).mpr hk',eq ▸ hb⟩

theorem Searching.wraps {v : OspfLsa} (h : Searching area v.key done s) (has : v ∈ area.lsdb)
    (hli : item ∈ items v.data) (hw : ¬ Searching.Fits area s v.key item)
    (ha : examine area v.key s item = some s') : Doomed area v.key s' := by
  obtain ⟨hk,hon⟩ := examine_keeps h.kept h.member ha
  have wrapped : ¬ Unwrapped area := fun hu => hw (h.fits has hli hu)
  obtain ⟨w,hof,ho,excess⟩ : ∃ w, Offers area s v.key item w ∧ w.key ∉ s.tree ∧
      2 ^ 32 ≤ s.dist v.key + item.cost.toNat := by
    simp only [Searching.Fits,not_forall,not_lt] at hw
    obtain ⟨w,hof,ho,excess⟩ := hw
    exact ⟨w,hof,ho,excess⟩
  have only : ∀ {hot}, Offers area s v.key item hot → hot = w := fun ho' =>
    Option.some.inj (ho'.found.symm.trans hof.found)
  -- The sum wraps once, so it lands below the distance it started from.
  have low : (s.distanceBy v.key item).toNat < s.dist v.key := by
    have hb : s.dist v.key < 2 ^ 32 := (s.vertex v.key).distance.toNat_lt
    have metric := cost_le item
    have sum : (s.distanceBy v.key item).toNat =
        (s.dist v.key + item.cost.toNat) % 2 ^ 32 := UInt32.toNat_add _ _
    omega
  have turn := examine_turn h.kept h.member item
  rw [ha] at turn
  cases turn with
  | idle none => exact absurd (none w hof) ho
  | farther hot ho' hq hwo =>
    have hab := h.search.order v.key hot.key h.member hq
    have hb : s.dist hot.key < (s.distanceBy v.key item).toNat := hwo
    omega
  | linked hot ha hf =>
    cases only hf.offers
    obtain ⟨hl,hi,hbo⟩ := h.farther has hli hof ho
    have self : s'.dist w.key = (s.distanceBy v.key item).toNat := congrArg UInt32.toNat hf.distance
    refine ⟨wrapped,hk,hon.tree.symm ▸ h.member,w.key,hl,hi,?_,by omega⟩
    exact (hf.known w.key).mpr (.inl rfl)

def Standing (area : Area) (k : LsaKey) (upTo : Lsa → List Item) (s : State) : Prop :=
  (∃ v ∈ area.lsdb, v.key = k ∧ Searching area v.key (upTo v.data) s) ∨ Doomed area k s

theorem round_standing (hr : Standing area k (fun _ => []) s)
    (ha : spfNext area s k = some s') : Standing area k items s' := by
  rcases hr with ⟨v,has,rfl,start⟩ | hd
  · have lsa := start.kept.lsa_eq has (.inl start.member)
    rw [spfNext,lsa] at ha
    have res := foldlM_invariant
      (P := fun done t => Searching area v.key done t ∨ Doomed area v.key t)
      (.inl (start.alike (markTransit_alike s v.key))) ?_ ha
    · exact res.imp_left fun hs => ⟨v,has,rfl,hs⟩
    rintro done item t t' hli (hs | hd) turn
    · by_cases hf : Searching.Fits area t v.key item
      · exact .inl (hs.turn has hli hf turn)
      · exact .inr (hs.wraps has hli hf turn)
    obtain ⟨hk,ho⟩ := examine_keeps hd.kept hd.member turn
    exact .inr (hd.onward hk ho)
  · obtain ⟨hk,ho⟩ := spfNext_keeps hd.kept hd.member ha
    exact .inr (hd.onward hk ho)

theorem next_standing (he : Standing area k items s) (some : 0 < s.candidate.size) :
    Standing area (extract s).1 (fun _ => []) (extract s).2 := by
  rcases he with ⟨v,has,rfl,hs⟩ | hd
  · have next := hs.next has some
    obtain ⟨w,hh,key⟩ := next.source
    exact .inl ⟨w,hh,key,key.symm ▸ next⟩
  · exact .inr (hd.next some)

theorem finished_standing {fuel : Nat} (hf : spfCalculate area fuel = .finished s) :
    ∃ k, Standing area k items s ∧ s.candidate.size = 0 := by
  apply loop_invariant (R := fun k s => Standing area k (fun _ => []) s) _ _ fuel _ hf
  · exact fun _ _ _ hr ha => round_standing hr ha
  · exact fun _ _ he some => next_standing he some
  · exact .inl ⟨area.routerLsaSelf,area.selfStored,rfl,Searching.start area⟩

theorem Searching.tree {v : OspfLsa} (h : Searching area v.key (items v.data) s)
    (has : v ∈ area.lsdb) (he : s.candidate.size = 0) : ShortestPathTree area s := by
  have none : ∀ x, ¬ Contains s.candidate x := fun x ⟨i,inside,_⟩ => by omega
  refine ⟨h.search.least,fun x total walk => ?_⟩
  have hm := h.search.complete (Searching.exhausted has s.tree) none walk
  exact List.count_eq_one_of_mem h.kept.nodup hm

theorem Doomed.not_tree (hd : Doomed area k s) (he : s.candidate.size = 0) :
    ¬ ShortestPathTree area s := by
  intro tree
  obtain ⟨x,hl,hi,hk,hb⟩ := hd.short
  have mem : x ∈ s.tree := hk.resolve_right fun ⟨i,hin,_⟩ => by omega
  have eq := (tree.distance x mem).unique hi
  simp only [State.dist] at hb
  omega

theorem tree_of_unwrapped {fuel : Nat} (hf : spfCalculate area fuel = .finished s)
    (hu : Unwrapped area) : ShortestPathTree area s := by
  obtain ⟨k,⟨v,has,rfl,hs⟩ | hd,he⟩ := finished_standing hf
  · exact hs.tree has he
  · exact absurd hu hd.wrapped

theorem ShortestPathTree.fits {fuel : Nat} (hf : spfCalculate area fuel = .finished s)
    (tree : ShortestPathTree area s) {v w : LsaKey} {e c d : Nat}
    (hl : Least (edge area) area.root v c) (hr : edge area v w e)
    (leastW : Least (edge area) area.root w d) (farther : c < d) : c + e < 2 ^ 32 := by
  obtain ⟨k,⟨u,has,rfl,hs⟩ | hd,hem⟩ := finished_standing hf
  · have none : ∀ x, ¬ Contains s.candidate x := fun x ⟨i,inside,_⟩ => by omega
    have he := Searching.exhausted has s.tree
    have mem : ∀ {x total}, Walk (edge area) area.root x total → x ∈ s.tree :=
      hs.search.complete he none
    have distV := (hs.search.least v (mem hl.1)).unique hl
    have distW := (hs.search.least w (mem leastW.1)).unique leastW
    rcases hs.fit v w e (he v w e (mem hl.1) hr) with hfi | ⟨-,closer⟩
    · omega
    · omega
  · exact absurd tree (hd.not_tree hem)

theorem Chain.unwrapped {n : Nat} {some : 0 < n} {hs : n < 2 ^ 32} (hsh : n ≤ 65538) :
    Unwrapped (Chain.area n some hs) := by
  intro v w e c d hl hr leastW farther
  obtain ⟨rfl,i,hin,j,hi,rfl,rfl,hb⟩ := Chain.edge_cases hr
  have costV := hl.unique (Chain.least hin)
  have costW := leastW.unique (Chain.least hi)
  omega

end Frr.Spf
