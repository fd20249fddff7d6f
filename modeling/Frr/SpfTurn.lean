import Frr.Spf
import Mathlib.Data.List.Nodup

/-! What a turn of `ospf_spf_next` can do: nothing that counts, or give the vertex at the end of a
link a distance and next hops. -/
namespace Frr.Spf

open PriorityQueue List Lsa State

variable {area : Area} {s s' : State} {k : LsaKey} {item : Item} {tooOld : OspfLsa → Bool}

theorem Area.unique (area : Area) {a b : OspfLsa} (hasA : a ∈ area.lsdb) (hasB : b ∈ area.lsdb)
    (eq : a.key = b.key) : a = b := by
  have nodup : (area.lsdb.map OspfLsa.key).Nodup := pairwise_map.mpr area.distinct
  exact inj_on_of_nodup_map nodup hasA hasB eq

theorem target_stored {w : OspfLsa} (hf : target area item = some w) :
    w ∈ area.lsdb ∧ (w.data.type = routerLsa ∨ w.data.type = networkLsa) := by
  have rtr : ∀ {id}, lookupRouter area id = some w →
      w ∈ area.lsdb ∧ (w.data.type = routerLsa ∨ w.data.type = networkLsa) := by
    intro id hf
    have key : w.key = ⟨routerLsa,id,id⟩ := by simpa using find?_some hf
    exact ⟨mem_of_find?_eq_some hf,.inl (congrArg LsaKey.type key)⟩
  cases item with
  | attached id => exact rtr hf
  | link pos l =>
    simp only [target] at hf
    split at hf
    · exact rtr hf
    split at hf
    · have nw : w.data.type = networkLsa ∧ w.data.id = l.linkId := by
        simpa using find?_some hf
      exact ⟨mem_of_find?_eq_some hf,.inr nw.1⟩
    · cases hf

section

variable (s : State)

@[simp] theorem setVertex_same (k : LsaKey) (v : Vertex) :
    (s.setVertex k v).vertex k = v := by simp [setVertex]

theorem setVertex_other {k x : LsaKey} (v : Vertex) (ne : x ≠ k) :
    (s.setVertex k v).vertex x = s.vertex x := by simp [setVertex,ne]

@[simp] theorem setVertex_candidate (k : LsaKey) (v : Vertex) :
    (s.setVertex k v).candidate = s.candidate := rfl

@[simp] theorem setVertex_tree (k : LsaKey) (v : Vertex) : (s.setVertex k v).tree = s.tree := rfl

@[simp] theorem setVertex_stat (k x : LsaKey) (v : Vertex) :
    (s.setVertex k v).stat x = s.stat x := rfl

theorem setVertex_self (k : LsaKey) : s.setVertex k (s.vertex k) = s := by
  have hs : (fun x => if x = k then s.vertex k else s.vertex x) = s.vertex := by
    funext x
    split
    · next eq => rw [eq]
    · rfl
  simp [setVertex,hs]

theorem setVertex_twice (k : LsaKey) (u v : Vertex) :
    (s.setVertex k u).setVertex k v = s.setVertex k v := by
  simp only [setVertex,State.mk.injEq,and_true]
  funext x
  split <;> rfl

end

def mergeParent (k : LsaKey) (v w : Lsa) (parents : List Parent) (newhop : Nexthop) :
    List Parent :=
  if parents.any fun wp => wp.nexthop = newhop then parents
  else parents ++ [⟨newhop, k, w.hasLink v⟩]

def hopsOf (parents : List Parent) : List Nexthop := parents.map Parent.nexthop

theorem mem_hopsOf_mergeParent {v w : Lsa} {pars : List Parent} {newhop hop : Nexthop} :
    hop ∈ hopsOf (mergeParent k v w pars newhop) ↔ hop ∈ hopsOf pars ∨ hop = newhop := by
  unfold mergeParent
  split
  · next present =>
    have mem : newhop ∈ hopsOf pars := by simpa [hopsOf] using present
    constructor
    · exact .inl
    rintro (old | rfl)
    · exact old
    · exact mem
  · simp [hopsOf]

theorem mem_hopsOf_foldl {v w : Lsa} {hops : List Nexthop} {pars : List Parent}
    {hop : Nexthop} : hop ∈ hopsOf (hops.foldl (mergeParent k v w) pars) ↔
      hop ∈ hopsOf pars ∨ hop ∈ hops := by
  induction hops generalizing pars with
  | nil => simp
  | cons fst hm ih => rw [List.foldl_cons,ih,mem_hopsOf_mergeParent,List.mem_cons,or_assoc]

/-- Found at a distance by way of `k`: its parents count only if the distance is what it was. -/
def Vertex.linked (w : Vertex) (k : LsaKey) (v : Lsa) (distance : UInt32)
    (hops : List Nexthop) : Vertex :=
  {w with
    distance := distance
    parents := hops.foldl (mergeParent k v w.lsa)
      (if w.distance ≠ 0 ∧ distance < w.distance then [] else w.parents)}

section

variable {w : Vertex} {v : Lsa} {distance : UInt32} (positive : distance ≠ 0)

include positive

theorem addParent_eq (hb : w.distance = 0 ∨ distance ≤ w.distance) (hop : Nexthop) :
    w.addParent k v distance hop = some (w.linked k v distance [hop]) := by
  have fst : ¬ (w.distance ≠ 0 ∧ w.distance < distance) := by
    rintro ⟨hn,hl⟩
    rcases hb with zero | hb
    · exact hn zero
    · exact absurd hl (UInt32.not_lt.mpr hb)
  obtain ⟨lsa,cur,pars,children⟩ := w
  simp only [Vertex.addParent,if_neg positive,if_neg fst]
  by_cases zero : cur = 0
  · simp only [zero,if_true,UInt32.lt_irrefl,if_false,Vertex.linked,ne_eq,not_true_eq_false,
      false_and,foldl_cons,foldl_nil,mergeParent]
    split <;> rfl
  by_cases hl : distance < cur
  · simp [zero,hl,Vertex.linked,mergeParent]
  simp only [zero,if_false,hl,Vertex.linked,and_false,foldl_cons,foldl_nil,mergeParent]
  have eq : cur = distance := by
    rcases hb with zero' | hb
    · exact absurd zero' zero
    · exact UInt32.le_antisymm (UInt32.not_lt.mp hl) hb
  rw [eq]
  split <;> rfl

theorem linked_addParent (hops : List Nexthop) (hop : Nexthop) :
    (w.linked k v distance hops).addParent k v distance hop =
      some (w.linked k v distance (hops ++ [hop])) := by
  rw [addParent_eq positive (.inr (UInt32.le_refl _))]
  simp [Vertex.linked,UInt32.lt_irrefl]

theorem foldlM_addParent
    (hb : w.distance = 0 ∨ distance ≤ w.distance) {hops : List Nexthop} (some : hops ≠ []) :
    hops.foldlM (fun (vertex : Vertex) hop => vertex.addParent k v distance hop) w =
      Option.some (w.linked k v distance hops) := by
  -- The hops already merged are the accumulator.
  have rest : ∀ done more : List Nexthop,
      more.foldlM (fun (vertex : Vertex) hop => vertex.addParent k v distance hop)
        (w.linked k v distance done) = Option.some (w.linked k v distance (done ++ more)) := by
    intro done more
    induction more generalizing done with
    | nil => simp
    | cons hop more ih =>
      rw [List.foldlM_cons,linked_addParent positive]
      exact (ih (done ++ [hop])).trans (by rw [List.append_assoc]; rfl)
  cases hops with
  | nil => exact absurd rfl some
  | cons hop more =>
    rw [List.foldlM_cons,addParent_eq positive hb]
    exact rest [hop] more

end

theorem nexthops_congr (lsa : (s'.vertex k).lsa = (s.vertex k).lsa)
    (pars : (s'.vertex k).parents = (s.vertex k).parents) (w : Lsa) :
    nexthops area s' k w item = nexthops area s k w item := by
  have hd : directNexthops area.root (s'.vertex k) w =
      directNexthops area.root (s.vertex k) w := by simp [directNexthops,lsa,pars]
  simp [nexthops,hd,lsa,pars]

section

variable {w : LsaKey} {distance : UInt32}

theorem nexthopCalculation_none (none : nexthops area s k (s.vertex w).lsa item = []) :
    nexthopCalculation area s k w item distance = some (false,s) := by
  simp [nexthopCalculation,none,setVertex_self]

theorem nexthopCalculation_some (some : nexthops area s k (s.vertex w).lsa item ≠ [])
    (positive : distance ≠ 0)
    (hb : (s.vertex w).distance = 0 ∨ distance ≤ (s.vertex w).distance) :
    nexthopCalculation area s k w item distance = Option.some (true,
      s.setVertex w ((s.vertex w).linked k (s.vertex k).lsa distance
        (nexthops area s k (s.vertex w).lsa item))) := by
  simp [nexthopCalculation,foldlM_addParent positive hb some,some]

theorem nexthopCalculation_abort (some : nexthops area s k (s.vertex w).lsa item ≠ [])
    (zero : distance = 0) : nexthopCalculation area s k w item distance = none := by
  obtain ⟨hop,hm,eq⟩ := exists_cons_of_ne_nil some
  simp [nexthopCalculation,eq,Vertex.addParent,zero]

end

def State.Known (s : State) (k : LsaKey) : Prop := k ∈ s.tree ∨ Contains s.candidate k

/-- Whatever the distances: the stat of an LSA says where its vertex is, and every vertex but the
root has a distance and a parent. -/
structure Kept (area : Area) (s : State) : Prop where
  indexed : Indexed s.candidate
  range : ∀ k, s.stat k = notExplored ∨ s.stat k = inSpfTree ∨ 0 ≤ s.stat k
  queued : ∀ k, 0 ≤ s.stat k → Contains s.candidate k
  joined : ∀ k, s.stat k = inSpfTree ↔ k ∈ s.tree
  nodup : s.tree.Nodup
  stored : ∀ k, s.Known k → ∃ lsa ∈ area.lsdb, lsa.key = k ∧ (s.vertex k).lsa = lsa.data ∧
    (lsa.data.type = routerLsa ∨ lsa.data.type = networkLsa)
  linked : ∀ k, s.Known k → k ≠ area.root →
    (s.vertex k).parents ≠ [] ∧ (s.vertex k).distance ≠ 0
  origin : area.root ∈ s.tree ∧ (s.vertex area.root).distance = 0 ∧
    (s.vertex area.root).parents = []

namespace Kept

section

variable (hke : Kept area s)

include hke

theorem slot {w : LsaKey} (queued : Contains s.candidate w) :
    0 ≤ s.stat w ∧ (s.stat w).toNat < s.candidate.size ∧
    s.candidate.array (s.stat w).toNat = w := by
  obtain ⟨i,hi,rfl⟩ := queued
  have ht : s.stat (s.candidate.array i) = i := hke.indexed i hi
  simp [ht,hi]

theorem apart {w : LsaKey} (queued : Contains s.candidate w) : w ∉ s.tree := by
  intro mem
  have stat := (hke.slot queued).1
  rw [(hke.joined w).mpr mem] at stat
  exact absurd stat (by decide)

theorem unexplored {w : LsaKey} (new : s.stat w = notExplored) : ¬ s.Known w := by
  rintro (mem | queued)
  · rw [(hke.joined w).mpr mem] at new
    exact absurd new (by decide)
  have stat := (hke.slot queued).1
  rw [new] at stat
  exact absurd stat (by decide)

theorem known_or (w : LsaKey) : s.stat w = notExplored ∨ s.Known w := by
  rcases hke.range w with new | mem | queued
  · exact .inl new
  · exact .inr (.inl ((hke.joined w).mp mem))
  · exact .inr (.inr (hke.queued w queued))

theorem not_root {w : LsaKey} (queued : Contains s.candidate w) : w ≠ area.root := by
  rintro rfl
  exact hke.apart queued hke.origin.1

end

end Kept

/-- Its LSA is there, not too old, links back, and a next hop can be given. -/
structure OffersWith (tooOld : OspfLsa → Bool) (area : Area) (s : State) (k : LsaKey)
    (item : Item) (w : OspfLsa) : Prop where
  found : target area item = some w
  fresh : tooOld w = false
  back : w.data.hasLink (s.vertex k).lsa ≠ none
  hops : nexthops area s k w.data item ≠ []

def State.rank (s : State) (k : LsaKey) : Nat :=
  2 * (s.vertex k).distance.toNat + if (s.vertex k).lsa.type = networkLsa then 0 else 1

def State.found (s : State) (w : OspfLsa) : Vertex :=
  if s.stat w.key = notExplored then ⟨w.data, 0, [], []⟩ else s.vertex w.key

structure LinkedWith (tooOld : OspfLsa → Bool) (area : Area) (k : LsaKey) (s : State)
    (item : Item) (w : OspfLsa) (s' : State) : Prop where
  offers : OffersWith tooOld area s k item w
  outside : w.key ∉ s.tree
  positive : s.distanceBy k item ≠ 0
  better : Contains s.candidate w.key → s.distanceBy k item ≤ (s.vertex w.key).distance
  vertex : s'.vertex w.key = (s.found w).linked k (s.vertex k).lsa (s.distanceBy k item)
    (nexthops area s k w.data item)
  others : ∀ x, x ≠ w.key → s'.vertex x = s.vertex x
  tree : s'.tree = s.tree
  queue : Rearranged s'.candidate (fun x => x = w.key ∨ Contains s.candidate x)
    s.candidate.position
  ordered : Ordered s.rank s.candidate → Agrees (cmp s') s'.rank (Contains s'.candidate) →
    Ordered s'.rank s'.candidate

inductive TurnWith (tooOld : OspfLsa → Bool) (area : Area) (k : LsaKey) (s : State)
    (item : Item) : Option State → Prop
  | idle (none : ∀ w, OffersWith tooOld area s k item w → w.key ∈ s.tree) : TurnWith tooOld area k s item (some s)
  | farther (w : OspfLsa) (offers : OffersWith tooOld area s k item w) (queued : Contains s.candidate w.key)
    (worse : (s.vertex w.key).distance < s.distanceBy k item) : TurnWith tooOld area k s item (some s)
  | linked (w : OspfLsa) (after : State) (h : LinkedWith tooOld area k s item w after) :
    TurnWith tooOld area k s item (some after)
  | aborted (w : OspfLsa) (offers : OffersWith tooOld area s k item w) (outside : w.key ∉ s.tree)
    (zero : s.distanceBy k item = 0) : TurnWith tooOld area k s item none

section

variable {w : OspfLsa}

theorem examineWith_new (hf : target area item = some w) (hfr : tooOld w = false)
    (back : w.data.hasLink (s.vertex k).lsa ≠ none) (new : s.stat w.key = notExplored) :
    examineWith tooOld area k s item =
      (nexthopCalculation area (vertexNew s w.data) k w.key item (s.distanceBy k item)).map
        fun (added,made) =>
          if added then {made with candidate := enqueue (cmp made) w.key made.candidate}
          else s := by
  have ho : ¬ notExplored = inSpfTree := by decide
  simp [examineWith,hf,hfr,back,new,ho]

theorem examineWith_queued (hke : Kept area s) (hf : target area item = some w)
    (hfr : tooOld w = false) (back : w.data.hasLink (s.vertex k).lsa ≠ none)
    (queued : Contains s.candidate w.key) :
    examineWith tooOld area k s item =
      if (s.vertex w.key).distance < s.distanceBy k item then some s
      else if (s.vertex w.key).distance = s.distanceBy k item then
        (nexthopCalculation area s k w.key item (s.distanceBy k item)).map Prod.snd
      else
        (nexthopCalculation area s k w.key item (s.distanceBy k item)).map fun (added,s) =>
          if added then
            {s with candidate := trickleUp (cmp s) (s.stat w.key).toNat s.candidate}
          else s := by
  obtain ⟨stat,-,slot⟩ := hke.slot queued
  have ho : s.stat w.key ≠ inSpfTree := fun eq => by
    rw [eq] at stat; exact absurd stat (by decide)
  have he : s.stat w.key ≠ notExplored := fun eq => by
    rw [eq] at stat; exact absurd stat (by decide)
  simp [examineWith,hf,hfr,back,ho,he,stat,slot]

theorem linked_new (hke : Kept area s) (offers : OffersWith tooOld area s k item w)
    (new : s.stat w.key = notExplored) (positive : s.distanceBy k item ≠ 0)
    (vertex : s'.vertex = (s.setVertex w.key ((s.found w).linked k (s.vertex k).lsa
      (s.distanceBy k item) (nexthops area s k w.data item))).vertex)
    (tree : s'.tree = s.tree) (queue : s'.candidate = enqueue (cmp s') w.key s.candidate) :
    LinkedWith tooOld area k s item w s' := by
  have unknown := hke.unexplored new
  have ha : ¬ Contains s.candidate w.key := fun queued => unknown (.inr queued)
  have others : ∀ x, x ≠ w.key → s'.vertex x = s.vertex x := by
    intro x ne
    rw [vertex,setVertex_other _ _ ne]
  have queue' := enqueue_rearranged (cmp s') hke.indexed ha
  refine ⟨offers,fun mem => unknown (.inl mem),positive,fun queued => absurd queued ha,
    ?_,others,tree,queue ▸ queue',?_⟩
  · rw [vertex,setVertex_same]
  intro ho hag
  have hs : ∀ x, Contains s.candidate x → s'.rank x = s.rank x := by
    intro x queued
    have ne : x ≠ w.key := fun eq => ha (eq ▸ queued)
    simp [rank,others x ne]
  have ho' : Ordered s'.rank s.candidate := by
    intro i positive hi
    rw [hs _ ⟨i,hi,rfl⟩,hs _ ⟨_,(parentOf_lt positive).trans hi,rfl⟩]
    exact ho i positive hi
  rw [queue]
  apply enqueue_ordered hke.indexed ho' ha
  have nodes : Contains s'.candidate = fun x => x = w.key ∨ Contains s.candidate x :=
    funext fun x => propext (by rw [queue]; exact queue'.contains x)
  rw [← nodes]
  exact hag

theorem found_queued (hke : Kept area s) (queued : Contains s.candidate w.key) :
    s.found w = s.vertex w.key := by
  have hk : s.stat w.key ≠ notExplored := fun new => hke.unexplored new (.inr queued)
  simp [found,hk]

theorem contains_self (queued : Contains s.candidate w.key) :
    (fun x => x = w.key ∨ Contains s.candidate x) = Contains s.candidate := by
  funext x
  refine propext ⟨?_,.inr⟩
  rintro (rfl | hp)
  · exact queued
  · exact hp

section

variable (hke : Kept area s) (offers : OffersWith tooOld area s k item w)
  (queued : Contains s.candidate w.key)

include hke offers queued

theorem linked_equal (he : (s.vertex w.key).distance = s.distanceBy k item) :
    LinkedWith tooOld area k s item w (s.setVertex w.key ((s.vertex w.key).linked k (s.vertex k).lsa
      (s.distanceBy k item) (nexthops area s k w.data item))) := by
  have positive := (hke.linked w.key (.inr queued) (hke.not_root queued)).2
  refine ⟨offers,hke.apart queued,he ▸ positive,fun _ => he ▸ UInt32.le_refl _,?_,?_,rfl,?_,?_⟩
  · rw [setVertex_same,found_queued hke queued]
  · exact fun x ne => setVertex_other s _ ne
  · rw [contains_self queued]
    exact ⟨hke.indexed,fun _ => Iff.rfl,fun _ _ => rfl⟩
  intro ho _ i positive hi
  have hs : ∀ x, (s.setVertex w.key ((s.vertex w.key).linked k (s.vertex k).lsa
      (s.distanceBy k item) (nexthops area s k w.data item))).rank x = s.rank x := by
    intro x
    by_cases eq : x = w.key
    · subst eq
      simp [State.rank,Vertex.linked,he]
    · simp [State.rank,setVertex_other s _ eq]
  rw [hs,hs]
  exact ho i positive hi

theorem linked_nearer (positive : s.distanceBy k item ≠ 0)
    (hn : s.distanceBy k item ≤ (s.vertex w.key).distance)
    (vertex : s'.vertex = (s.setVertex w.key ((s.vertex w.key).linked k (s.vertex k).lsa
      (s.distanceBy k item) (nexthops area s k w.data item))).vertex)
    (tree : s'.tree = s.tree)
    (queue : s'.candidate = trickleUp (cmp s') (s.stat w.key).toNat s.candidate) :
    LinkedWith tooOld area k s item w s' := by
  obtain ⟨-,hi,slot⟩ := hke.slot queued
  have others : ∀ x, x ≠ w.key → s'.vertex x = s.vertex x := by
    intro x ne
    rw [vertex,setVertex_other _ _ ne]
  have queue' := trickleUp_rearranged (cmp s') hke.indexed hi
  refine ⟨offers,hke.apart queued,positive,fun _ => hn,?_,others,tree,?_,?_⟩
  · rw [vertex,setVertex_same,found_queued hke queued]
  · rw [contains_self queued,queue]
    exact queue'
  intro ho ha
  have nodes : Contains s'.candidate = Contains s.candidate :=
    funext fun x => propext (by rw [queue]; exact queue'.contains x)
  rw [nodes] at ha
  rw [queue]
  apply trickleUp_ordered hke.indexed ho hi ha
  · rw [slot]
    have hl : (s.distanceBy k item).toNat ≤ (s.vertex w.key).distance.toNat := hn
    simp only [rank,vertex,setVertex_same,Vertex.linked]
    omega
  intro x ne
  rw [slot] at ne
  simp [rank,others x ne]

end

theorem turn_new (hke : Kept area s) (mem : k ∈ s.tree) (hf : target area item = some w)
    (hfr : tooOld w = false) (back : w.data.hasLink (s.vertex k).lsa ≠ none)
    (new : s.stat w.key = notExplored) : TurnWith tooOld area k s item (examineWith tooOld area k s item) := by
  have unknown := hke.unexplored new
  have ne : k ≠ w.key := fun eq => unknown (.inl (eq ▸ mem))
  have own : (vertexNew s w.data).vertex w.key = ⟨w.data,0,[],[]⟩ := setVertex_same s _ _
  have par : (vertexNew s w.data).vertex k = s.vertex k := setVertex_other s _ ne
  have hops : nexthops area (vertexNew s w.data) k ((vertexNew s w.data).vertex w.key).lsa item =
      nexthops area s k w.data item := by
    rw [own,nexthops_congr (congrArg Vertex.lsa par) (congrArg Vertex.parents par)]
  rw [examineWith_new hf hfr back new]
  by_cases none : nexthops area s k w.data item = []
  · rw [nexthopCalculation_none (hops.trans none)]
    refine .idle fun ho offers => ?_
    cases Option.some.inj (offers.found.symm.trans hf)
    exact absurd none offers.hops
  have offers : OffersWith tooOld area s k item w := ⟨hf,hfr,back,none⟩
  by_cases zero : s.distanceBy k item = 0
  · rw [nexthopCalculation_abort (hops ▸ none) zero]
    exact .aborted w offers (fun hi => unknown (.inl hi)) zero
  rw [nexthopCalculation_some (hops ▸ none) zero (.inl (by rw [own])),hops,own,par]
  have hm : s.found w = ⟨w.data,0,[],[]⟩ := if_pos new
  rw [vertexNew,show w.data.key = w.key from rfl,setVertex_twice,← hm]
  exact .linked w _ (linked_new hke offers new zero rfl rfl rfl)

theorem turn_queued (hke : Kept area s) (hf : target area item = some w)
    (hfr : tooOld w = false) (back : w.data.hasLink (s.vertex k).lsa ≠ none)
    (queued : Contains s.candidate w.key) : TurnWith tooOld area k s item (examineWith tooOld area k s item) := by
  have own : (s.vertex w.key).lsa = w.data := by
    obtain ⟨lsa,has,key,eq,-⟩ := hke.stored w.key (.inr queued)
    rw [eq,area.unique has (target_stored hf).1 key]
  rw [examineWith_queued hke hf hfr back queued]
  by_cases none : nexthops area s k w.data item = []
  · -- Whatever the distance, no next hop means no change.
    rw [nexthopCalculation_none (own.symm ▸ none)]
    have hi : TurnWith tooOld area k s item (some s) := by
      refine .idle fun ho offers => ?_
      cases Option.some.inj (offers.found.symm.trans hf)
      exact absurd none offers.hops
    split
    · exact hi
    · split <;> exact hi
  have offers : OffersWith tooOld area s k item w := ⟨hf,hfr,back,none⟩
  split
  · next worse => exact .farther w offers queued worse
  next notWorse =>
  have hb : s.distanceBy k item ≤ (s.vertex w.key).distance := UInt32.not_lt.mp notWorse
  by_cases zero : s.distanceBy k item = 0
  · rw [nexthopCalculation_abort (own.symm ▸ none) zero]
    have ha := TurnWith.aborted w offers (hke.apart queued) zero
    split <;> exact ha
  rw [nexthopCalculation_some (own.symm ▸ none) zero (.inr hb)]
  simp only [own]
  split
  · next equal => exact .linked w _ (linked_equal hke offers queued equal)
  · exact .linked w _ (linked_nearer hke offers queued zero hb rfl rfl rfl)

theorem examineWith_turn (tooOld : OspfLsa → Bool) (hke : Kept area s) (mem : k ∈ s.tree)
    (item : Item) : TurnWith tooOld area k s item (examineWith tooOld area k s item) := by
  -- Each check that fails leaves the state alone and offers nothing.
  have hi : examineWith tooOld area k s item = some s → (∀ w, OffersWith tooOld area s k item w → w.key ∈ s.tree) →
      TurnWith tooOld area k s item (examineWith tooOld area k s item) := by
    intro eq none
    rw [eq]
    exact .idle none
  cases hf : target area item with
  | none =>
    apply hi
    · simp [examineWith,hf]
    intro w offers
    cases offers.found.symm.trans hf
  | some w =>
    have only : ∀ {ho}, OffersWith tooOld area s k item ho → ho = w := fun offers =>
      Option.some.inj (offers.found.symm.trans hf)
    cases hfr : tooOld w with
    | true =>
      apply hi
      · simp [examineWith,hf,hfr]
      intro ho offers
      cases only offers
      cases offers.fresh.symm.trans hfr
    | false =>
      by_cases back : w.data.hasLink (s.vertex k).lsa = none
      · apply hi
        · simp [examineWith,hf,hfr,back]
        intro ho offers
        cases only offers
        exact absurd back offers.back
      · rcases hke.known_or w.key with new | hin | queued
        · exact turn_new hke mem hf hfr back new
        · apply hi
          · simp [examineWith,hf,hfr,back,(hke.joined w.key).mpr hin]
          intro ho offers
          exact only offers ▸ hin
        · exact turn_queued hke hf hfr back queued

namespace LinkedWith

theorem known (h : LinkedWith tooOld area k s item w s') (x : LsaKey) :
    s'.Known x ↔ x = w.key ∨ s.Known x := by
  simp only [Known,h.tree,h.queue.contains]
  exact or_left_comm

theorem lsa (hke : Kept area s) (h : LinkedWith tooOld area k s item w s') :
    (s'.vertex w.key).lsa = w.data := by
  rw [h.vertex]
  show (s.found w).lsa = w.data
  unfold found
  split
  · rfl
  next explored =>
  have hk := (hke.known_or w.key).resolve_left explored
  obtain ⟨lsa,has,key,eq,-⟩ := hke.stored w.key hk
  rw [eq,area.unique has (target_stored h.offers.found).1 key]

theorem distance (h : LinkedWith tooOld area k s item w s') :
    (s'.vertex w.key).distance = s.distanceBy k item := by rw [h.vertex]; rfl

theorem stat (hke : Kept area s) (h : LinkedWith tooOld area k s item w s') (x : LsaKey) :
    Contains s'.candidate x ∧ 0 ≤ s'.stat x ∧ x ∉ s.tree ∨
    ¬ Contains s'.candidate x ∧ s'.stat x = s.stat x ∧ ¬ Contains s.candidate x := by
  by_cases node : x = w.key ∨ Contains s.candidate x
  · have queued := (h.queue.contains x).mpr node
    refine .inl ⟨queued,?_,?_⟩
    · obtain ⟨i,hi,rfl⟩ := queued
      have ht : s'.stat (s'.candidate.array i) = i := h.queue.indexed i hi
      rw [ht]
      exact Int.natCast_nonneg i
    rcases node with rfl | old
    · exact h.outside
    · exact hke.apart old
  · refine .inr ⟨fun queued => node ((h.queue.contains x).mp queued),?_,fun old => node (.inr old)⟩
    exact h.queue.untouched x node

theorem kept (hke : Kept area s) (h : LinkedWith tooOld area k s item w s') : Kept area s' := by
  have ho : ∀ {x}, s'.Known x → x ≠ w.key → s.Known x ∧ s'.vertex x = s.vertex x := by
    intro x hk ne
    exact ⟨((h.known x).mp hk).resolve_left ne,h.others x ne⟩
  constructor
  · exact h.queue.indexed
  · intro x
    rcases h.stat hke x with ⟨-,queued,-⟩ | ⟨-,hs,-⟩
    · exact .inr (.inr queued)
    rw [hs]
    exact hke.range x
  · intro x stat
    rcases h.stat hke x with ⟨queued,-⟩ | ⟨-,hs,ha⟩
    · exact queued
    rw [hs] at stat
    exact absurd (hke.queued x stat) ha
  · intro x
    rw [h.tree]
    rcases h.stat hke x with ⟨-,queued,hou⟩ | ⟨-,hs,-⟩
    · refine ⟨fun hi => ?_,fun mem => absurd mem hou⟩
      rw [hi] at queued
      exact absurd queued (by decide)
    rw [hs]
    exact hke.joined x
  · rw [h.tree]
    exact hke.nodup
  · intro x hk
    by_cases eq : x = w.key
    · subst eq
      have hst := target_stored h.offers.found
      exact ⟨w,hst.1,rfl,h.lsa hke,hst.2⟩
    obtain ⟨old,hs⟩ := ho hk eq
    rw [hs]
    exact hke.stored x old
  · intro x hk hn
    by_cases eq : x = w.key
    · subst eq
      refine ⟨fun none => ?_,h.distance ▸ h.positive⟩
      obtain ⟨hop,hm,hops⟩ := exists_cons_of_ne_nil h.offers.hops
      have mem : hop ∈ hopsOf (s'.vertex w.key).parents := by
        rw [h.vertex]
        exact mem_hopsOf_foldl.mpr (.inr (by rw [hops]; exact mem_cons_self))
      rw [none] at mem
      cases mem
    · obtain ⟨old,hs⟩ := ho hk eq
      rw [hs]
      exact hke.linked x old hn
  · have hn : area.root ≠ w.key := fun hs => h.outside (hs ▸ hke.origin.1)
    rw [h.tree,h.others _ hn]
    exact hke.origin

end LinkedWith

end

abbrev Offers (area : Area) (s : State) (k : LsaKey) (item : Item) (w : OspfLsa) : Prop :=
  OffersWith (fun lsa => lsa.isMaxAge area.now) area s k item w

abbrev Linked (area : Area) (k : LsaKey) (s : State) (item : Item) (w : OspfLsa) (s' : State) :
    Prop :=
  LinkedWith (fun lsa => lsa.isMaxAge area.now) area k s item w s'

theorem examine_turn (hke : Kept area s) (mem : k ∈ s.tree) (item : Item) :
    TurnWith (fun lsa => lsa.isMaxAge area.now) area k s item (examine area k s item) :=
  examineWith_turn _ hke mem item

structure Alike (s s' : State) : Prop where
  candidate : s'.candidate = s.candidate
  tree : s'.tree = s.tree
  vertex : ∀ x, s.Known x → (s'.vertex x).lsa = (s.vertex x).lsa ∧
    (s'.vertex x).distance = (s.vertex x).distance ∧ (s'.vertex x).parents = (s.vertex x).parents

theorem Alike.known (ha : Alike s s') (x : LsaKey) : s'.Known x ↔ s.Known x := by
  simp [Known,ha.tree,ha.candidate]

theorem Alike.kept (ha : Alike s s') (hke : Kept area s) : Kept area s' := by
  have stat : ∀ x, s'.stat x = s.stat x := fun x => by simp only [stat,ha.candidate]
  refine ⟨ha.candidate ▸ hke.indexed,?_,?_,?_,ha.tree ▸ hke.nodup,?_,?_,?_⟩
  · intro x
    rw [stat]
    exact hke.range x
  · intro x
    rw [stat,ha.candidate]
    exact hke.queued x
  · intro x
    rw [stat,ha.tree]
    exact hke.joined x
  · intro x hk
    have old := (ha.known x).mp hk
    rw [(ha.vertex x old).1]
    exact hke.stored x old
  · intro x hk
    have old := (ha.known x).mp hk
    rw [(ha.vertex x old).2.1,(ha.vertex x old).2.2]
    exact hke.linked x old
  have eq := ha.vertex _ (.inl hke.origin.1)
  rw [ha.tree,eq.2.1,eq.2.2]
  exact hke.origin

theorem markTransit_alike (s : State) (k : LsaKey) : Alike s (markTransit s k) := by
  unfold markTransit
  split <;> exact ⟨rfl,rfl,fun _ _ => ⟨rfl,rfl,rfl⟩⟩

theorem addToParents_alike (s : State) (k : LsaKey) : Alike s (addToParents s k) := by
  have step : ∀ (parents : List Parent) (t : State), Alike s t → Alike s (parents.foldl (fun s vp =>
        let parent := s.vertex vp.parent
        if k ∈ parent.children then s
        else s.setVertex vp.parent {parent with children := parent.children ++ [k]}) t) := by
    intro parents
    induction parents with
    | nil => exact fun t alike => alike
    | cons vp more ih =>
      intro t alike
      apply ih
      dsimp only
      split
      · exact alike
      refine ⟨alike.candidate,alike.tree,fun x known => ?_⟩
      by_cases eq : x = vp.parent
      · subst eq
        rw [setVertex_same]
        exact alike.vertex _ known
      rw [setVertex_other _ _ eq]
      exact alike.vertex x known
  exact step _ s ⟨rfl,rfl,fun _ _ => ⟨rfl,rfl,rfl⟩⟩

end Frr.Spf
