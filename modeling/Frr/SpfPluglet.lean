import Frr.SpfDistance

/-! The pluglet that replaces `ospf_spf_next` to leave out red links, against the native function
with those skipped. Every allocation succeeds, so its copies are what they were taken from. -/
namespace Frr.Spf

open PriorityQueue List Option

namespace Pluglet

def colouredLsa : UInt8 := 13
def red : UInt32 := 1

/-- `sizeof(struct my_link)` and the offset of its `color`. -/
def myLinkSize : Nat := 16
def colorOffset : Nat := 12

def swap16 (x : UInt16) : UInt16 := x <<< 8 ||| x >>> 8

/-- `w_lsah->ls_age == OSPF_LSA_MAXAGE`: the field in network order. -/
def isMaxAge (lsa : OspfLsa) : Bool := (swap16 lsa.data.lsAge).toNat = Lsa.maxAge

def limit (lsa : Lsa) : Nat := lsa.length.toUInt8.toNat

def wordAt (lsa : Lsa) (beyond : Nat → UInt32) (offset : Nat) : UInt32 :=
  if offset + 4 ≤ lsa.length.toNat then lsa.wordAt offset else beyond offset

def ignoredFrom (lsa : Lsa) (beyond : Nat → UInt32) (linkId : UInt32) : Nat → Nat → Bool
  | 0, _ => false
  | fuel + 1, p =>
    if p < lsa.length.toNat then
      if wordAt lsa beyond p = linkId ∧ wordAt lsa beyond (p+colorOffset) = red then true
      else ignoredFrom lsa beyond linkId fuel (p+myLinkSize)
    else false

def lookupColoured (area : Area) (v : Lsa) : Option OspfLsa :=
  area.lsdb.find? fun lsa => lsa.key = ⟨colouredLsa, v.id, v.id⟩

def ignored (area : Area) (beyond : Nat → UInt32) (v : Lsa) (linkId : UInt32) : Bool :=
  match lookupColoured area v with
  | none => false
  | some lsa => ignoredFrom lsa.data beyond linkId lsa.data.length.toNat (Lsa.headerSize+4)

end Pluglet

/-- The red links in the type-13 LSA of `v`, as long as the entries are complete. -/
def redLink (area : Area) (v : Lsa) (linkId : UInt32) : Bool :=
  match Pluglet.lookupColoured area v with
  | none => false
  | some lsa =>
    (range ((lsa.data.length.toNat - (Lsa.headerSize+4)) / Pluglet.myLinkSize)).any fun i =>
      let p := Lsa.headerSize+4+i*Pluglet.myLinkSize
      lsa.data.wordAt p = linkId ∧ lsa.data.wordAt (p+Pluglet.colorOffset) = Pluglet.red

def Item.skipped (skip : UInt32 → Bool) : Item → Bool
  | .link _ l => skip l.linkId
  | .attached _ => false

/-- One turn of the loop with the links in `skip` left out. -/
def examineSkipping (skip : UInt32 → Bool) (tooOld : OspfLsa → Bool) (area : Area) (k : LsaKey)
    (s : State) (item : Item) : Option State :=
  if item.skipped skip then some s else examineWith tooOld area k s item

/-- `ospf_spf_next` without the red links of the vertex. -/
def spfNextWithoutRed (area : Area) (s : State) (k : LsaKey) : Option State :=
  let v := (s.vertex k).lsa
  (items v).foldlM (examineSkipping (redLink area v) (fun lsa => lsa.isMaxAge area.now) area k)
    (markTransit s k)

/-- The pluglet `ospf_spf_next`. -/
def Pluglet.spfNext (area : Area) (beyond : Nat → UInt32) (s : State) (k : LsaKey) :
    Option State :=
  let v := (s.vertex k).lsa
  (itemsUpTo v (limit v)).foldlM (examineSkipping (ignored area beyond v) isMaxAge area k)
    (markTransit s k)

theorem spfNextWithoutRed_uncoloured {area : Area} {s : State} {k : LsaKey}
    (none : Pluglet.lookupColoured area (s.vertex k).lsa = none) :
    spfNextWithoutRed area s k = spfNext area s k := by
  have hn : ∀ item : Item, item.skipped (redLink area (s.vertex k).lsa) = false := by
    intro item
    cases item with
    | link pos l => simp [Item.skipped,redLink,none]
    | attached rtr => rfl
  have eq : examineSkipping (redLink area (s.vertex k).lsa) (fun lsa => lsa.isMaxAge area.now)
      area k = examine area k := by
    funext s item
    simp [examineSkipping,examine,hn]
  simp [spfNextWithoutRed,spfNext,eq]

/-- It is not left out, and its LSA is there, not too old and links back. -/
def follows (skip : UInt32 → Bool) (tooOld : OspfLsa → Bool) (area : Area) (v : Lsa)
    (item : Item) : Bool :=
  !item.skipped skip && match target area item with
    | none => false
    | some w => !tooOld w && (w.data.hasLink v).isSome

def followsNative (area : Area) (v : Lsa) : Item → Bool :=
  follows (redLink area v) (fun lsa => lsa.isMaxAge area.now) area v

def Pluglet.followed (area : Area) (beyond : Nat → UInt32) (v : Lsa) : Item → Bool :=
  follows (ignored area beyond v) isMaxAge area v

/-- It can make a difference: it leads to a vertex that need not be in the tree, and out of the root
there is a next hop. -/
structure Counts (area : Area) (v : OspfLsa) (item : Item) (w : OspfLsa) : Prop where
  found : target area item = some w
  other : w.key ≠ v.key
  root : w.key ≠ area.root
  hop : v.key = area.root → rootHop area v.data w.data item ≠ none

/-- After `earlier`, following `item` to `w` changes nothing. Distances from the root do not wrap,
so there a lower cost is as good as the same. -/
def Covers (area : Area) (v w : OspfLsa) (earlier item : Item) : Prop :=
  if v.key = area.root then
    earlier.cost < item.cost ∨ earlier.cost = item.cost ∧
      (item.cost = 0 ∨ rootHop area v.data w.data earlier = rootHop area v.data w.data item)
  else earlier.cost = item.cost

/-- Up to the length it sees, the pluglet follows the links to be followed and no others; a link
beyond is covered by one before it. -/
structure Faithful (area : Area) (beyond : Nat → UInt32) (v : OspfLsa) : Prop where
  same : ∀ item ∈ itemsUpTo v.data (Pluglet.limit v.data), ∀ w, Counts area v item w →
    followsNative area v.data item = Pluglet.followed area beyond v.data item
  covered : ∀ item ∈ (items v.data).drop (itemsUpTo v.data (Pluglet.limit v.data)).length, ∀ w,
    Counts area v item w → followsNative area v.data item = true →
      ∃ earlier ∈ itemsUpTo v.data (Pluglet.limit v.data), Counts area v earlier w ∧
        followsNative area v.data earlier = true ∧ Covers area v w earlier item

def follow (area : Area) (k : LsaKey) (s : State) (item : Item) : Option State :=
  examineWith (fun _ => false) area k s item

section

variable {area : Area} {s s' : State} {v w : OspfLsa} {item earlier : Item}
variable {skip : UInt32 → Bool} {tooOld : OspfLsa → Bool} {beyond : Nat → UInt32}

theorem follows_back (hf : follows skip tooOld area v.data item)
    (hfo : target area item = some w) : w.data.hasLink v.data ≠ none := by
  have hb : item.skipped skip = false ∧ tooOld w = false ∧ (w.data.hasLink v.data).isSome := by
    simpa [follows,hfo] using hf
  exact isSome_iff_ne_none.mp hb.2.2

/-- The links of `v` are being examined. -/
structure OnVertex (area : Area) (v : OspfLsa) (s : State) : Prop where
  kept : Kept area s
  member : v.key ∈ s.tree
  lsa : (s.vertex v.key).lsa = v.data

theorem OnVertex.mark (on : OnVertex area v s) : OnVertex area v (markTransit s v.key) := by
  have ha := markTransit_alike s v.key
  exact ⟨ha.kept on.kept,ha.tree.symm ▸ on.member,
    (ha.vertex v.key (.inl on.member)).1.trans on.lsa⟩

theorem examineSkipping_eq (on : OnVertex area v s) (item : Item) :
    examineSkipping skip tooOld area v.key s item =
      if follows skip tooOld area v.data item then follow area v.key s item else some s := by
  cases hs : item.skipped skip with
  | true => simp [examineSkipping,follows,hs]
  | false =>
    cases hf : target area item with
    | none => simp [examineSkipping,follows,hs,hf,examineWith]
    | some w =>
      cases old : tooOld w with
      | true => simp [examineSkipping,follows,hs,hf,old,examineWith]
      | false =>
        cases back : w.data.hasLink v.data with
        | none => simp [examineSkipping,follows,hs,hf,old,back,examineWith,on.lsa]
        | some idx =>
          simp [examineSkipping,follows,follow,hs,hf,old,back,examineWith,on.lsa]

namespace OnVertex

theorem hops_root (on : OnVertex area v s) (root : v.key = area.root) (item : Item) :
    nexthops area s v.key w.data item = (rootHop area v.data w.data item).toList := by
  simp [nexthops,if_pos root,on.lsa]

theorem offers (on : OnVertex area v s) (hc : Counts area v item w)
    (back : w.data.hasLink v.data ≠ none) :
    OffersWith (fun _ => false) area s v.key item w := by
  refine ⟨hc.found,rfl,by rwa [on.lsa],?_⟩
  by_cases root : v.key = area.root
  · rw [on.hops_root root]
    simpa using hc.hop root
  have pars := (on.kept.linked v.key (.inl on.member) root).1
  simp only [nexthops,if_neg root]
  generalize (if (s.vertex v.key).lsa.type = Lsa.networkLsa then
    directNexthops area.root (s.vertex v.key) w.data else []) = direct
  split
  · assumption
  · simpa using pars

theorem counts (on : OnVertex area v s) (ho : w.key ∉ s.tree)
    (hof : OffersWith (fun _ => false) area s v.key item w) : Counts area v item w := by
  refine ⟨hof.found,fun eq => ?_,fun eq => ?_,fun root none => hof.hops ?_⟩
  · exact ho (eq ▸ on.member)
  · exact ho (eq ▸ on.kept.origin.1)
  rw [on.hops_root root,none]
  rfl

theorem follow (on : OnVertex area v s) (ha : follow area v.key s item = some s') :
    OnVertex area v s' ∧ Onward s s' := by
  obtain ⟨hk,ho⟩ := examineWith_keeps on.kept on.member ha
  refine ⟨⟨hk,ho.tree.symm ▸ on.member,?_⟩,ho⟩
  rw [ho.settled v.key on.member]
  exact on.lsa

theorem idle (on : OnVertex area v s) (none : ∀ w, Counts area v item w → w.key ∈ s.tree) :
    Spf.follow area v.key s item = some s := by
  have turn := examineWith_turn (fun _ => false) on.kept on.member item
  change TurnWith _ area v.key s item (Spf.follow area v.key s item) at turn
  generalize Spf.follow area v.key s item = outcome at turn
  cases turn with
  | idle => rfl
  | farther => rfl
  | linked w ha h => exact absurd (none w (on.counts h.outside h.offers)) h.outside
  | aborted w hof ho zero => exact absurd (none w (on.counts ho hof)) ho

end OnVertex

/-- Following `item` to `w` has nothing to add. -/
def Settled (area : Area) (v : OspfLsa) (s : State) (item : Item) (w : OspfLsa) : Prop :=
  w.key ∈ s.tree ∨ Contains s.candidate w.key ∧
    (s.vertex w.key).distance ≤ s.distanceBy v.key item ∧
    ((s.vertex w.key).distance = s.distanceBy v.key item →
      ∀ hop ∈ nexthops area s v.key w.data item, hop ∈ hopsOf (s.vertex w.key).parents)

theorem foldl_mergeParent_self {k : LsaKey} {v w : Lsa} {hops : List Nexthop}
    {pars : List Parent} (hp : ∀ hop ∈ hops, hop ∈ hopsOf pars) :
    hops.foldl (mergeParent k v w) pars = pars := by
  induction hops with
  | nil => rfl
  | cons hop hm ih =>
    have hh : pars.any (fun wp => wp.nexthop = hop) = true := by
      simpa [hopsOf] using hp hop mem_cons_self
    rw [foldl_cons,mergeParent,if_pos hh]
    exact ih fun hop mem => hp hop (.tail _ mem)

theorem linked_self {k : LsaKey} {u : Vertex} {v : Lsa} {dst : UInt32}
    {hops : List Nexthop} (eq : u.distance = dst)
    (hp : ∀ hop ∈ hops, hop ∈ hopsOf u.parents) : u.linked k v dst hops = u := by
  subst eq
  have hm := foldl_mergeParent_self (k := k) (v := v) (w := u.lsa) hp
  simp [Vertex.linked,UInt32.lt_irrefl,and_false,hm]

namespace OnVertex

section

variable (on : OnVertex area v s)

include on

theorem same_distanceBy (ho : Onward s s') (item : Item) :
    s'.distanceBy v.key item = s.distanceBy v.key item := by
  simp [State.distanceBy,ho.settled v.key on.member]

theorem same_nexthops (ho : Onward s s') (item : Item) :
    nexthops area s' v.key w.data item = nexthops area s v.key w.data item := by
  have hh := ho.settled v.key on.member
  exact nexthops_congr (congrArg Vertex.lsa hh) (congrArg Vertex.parents hh) w.data

theorem settles (hc : Counts area v item w)
    (back : w.data.hasLink v.data ≠ none) (ha : Spf.follow area v.key s item = some s') :
    Settled area v s' item w := by
  have ho := (on.follow ha).2
  have hof := on.offers hc back
  have turn := examineWith_turn (fun _ => false) on.kept on.member item
  change TurnWith _ area v.key s item (Spf.follow area v.key s item) at turn
  rw [ha] at turn
  cases turn with
  | idle none => exact .inl (none w hof)
  | farther u ho' hq hw =>
    cases some.inj (hc.found.symm.trans ho'.found)
    refine .inr ⟨hq,UInt32.le_of_lt hw,fun eq => ?_⟩
    rw [eq] at hw
    exact absurd hw (UInt32.lt_irrefl _)
  | linked u ha h =>
    cases some.inj (hc.found.symm.trans h.offers.found)
    refine .inr ⟨(h.queue.contains _).mpr (.inl rfl),?_,fun _ hop hm => ?_⟩
    · rw [h.distance,on.same_distanceBy ho]
      exact UInt32.le_refl _
    rw [on.same_nexthops ho] at hm
    rw [h.vertex]
    exact mem_hopsOf_foldl.mpr (.inr hm)

theorem stays {next : Item} (hse : Settled area v s item w)
    (ha : Spf.follow area v.key s next = some s') : Settled area v s' item w := by
  have ho := (on.follow ha).2
  rcases hse with hi | ⟨hq,hn,hops⟩
  · exact .inl (ho.tree.symm ▸ hi)
  have turn := examineWith_turn (fun _ => false) on.kept on.member next
  change TurnWith _ area v.key s next (Spf.follow area v.key s next) at turn
  rw [ha] at turn
  cases turn with
  | idle none => exact .inr ⟨hq,hn,hops⟩
  | farther u hof hq' hw => exact .inr ⟨hq,hn,hops⟩
  | linked u ha h =>
    refine .inr ⟨(h.queue.contains _).mpr (.inr hq),?_,fun hs hop hm => ?_⟩
    · rw [on.same_distanceBy ho]
      exact UInt32.le_trans (ho.closer w.key (.inr hq)).2 hn
    rw [on.same_distanceBy ho] at hs
    rw [on.same_nexthops ho] at hm
    by_cases eq : w.key = u.key
    · have hb : s.distanceBy v.key next ≤ (s.vertex u.key).distance := h.better (eq ▸ hq)
      rw [eq] at hn hops hs ⊢
      rw [h.distance] at hs
      -- No distance between the old one and that of the item: the parents are kept.
      have he : (s.vertex u.key).distance = s.distanceBy v.key item :=
        UInt32.le_antisymm hn (hs ▸ hb)
      have hf : s.found u = s.vertex u.key := found_queued on.kept (eq ▸ hq)
      have hk : ¬ ((s.vertex u.key).distance ≠ 0 ∧
          s.distanceBy v.key next < (s.vertex u.key).distance) := by
        rw [hs,he]
        exact fun hl => UInt32.lt_irrefl _ hl.2
      rw [h.vertex,hf]
      refine mem_hopsOf_foldl.mpr (.inl ?_)
      rw [if_neg hk]
      exact hops he hop hm
    · rw [h.others w.key eq] at hs ⊢
      exact hops hs hop hm

theorem again (hs : Settled area v s item w)
    (hc : Counts area v item w) (back : w.data.hasLink v.data ≠ none) :
    Spf.follow area v.key s item = some s := by
  rcases hs with hi | ⟨hq,hn,hops⟩
  · refine on.idle fun u hc' => ?_
    cases some.inj (hc.found.symm.trans hc'.found)
    exact hi
  have ho := on.offers hc back
  have own : (s.vertex w.key).lsa = w.data := on.kept.lsa_eq (target_stored hc.found).1 (.inr hq)
  have pos := (on.kept.linked w.key (.inr hq) hc.root).2
  rw [Spf.follow,examineWith_queued on.kept hc.found rfl ho.back hq]
  by_cases hw : (s.vertex w.key).distance < s.distanceBy v.key item
  · rw [if_pos hw]
  have eq : (s.vertex w.key).distance = s.distanceBy v.key item :=
    UInt32.le_antisymm hn (UInt32.not_lt.mp hw)
  rw [if_neg hw,if_pos eq,nexthopCalculation_some (own.symm ▸ ho.hops) (eq ▸ pos)
    (.inr (eq ▸ UInt32.le_refl _)),own]
  have he : (s.vertex w.key).linked v.key (s.vertex v.key).lsa (s.distanceBy v.key item)
      (nexthops area s v.key w.data item) = s.vertex w.key := linked_self eq (hops eq)
  rw [he,setVertex_self]
  rfl

theorem covered (hco : Counts area v item w)
    (hs : Settled area v s earlier w) (hc : Covers area v w earlier item) :
    Settled area v s item w := by
  rcases hs with hi | ⟨hq,hn,hops⟩
  · exact .inl hi
  by_cases root : v.key = area.root
  · have zero : (s.vertex v.key).distance = 0 := root.symm ▸ on.kept.origin.2.1
    have dst : ∀ item : Item, s.distanceBy v.key item = item.cost := fun item => by
      rw [State.distanceBy,zero,UInt32.zero_add]
    rw [Covers,if_pos root] at hc
    rw [dst] at hn hops
    rw [Settled,dst]
    rcases hc with hl | ⟨eq,zero | hop⟩
    · have hne := UInt32.lt_of_le_of_lt hn hl
      refine .inr ⟨hq,UInt32.le_of_lt hne,fun he => ?_⟩
      rw [he] at hne
      exact absurd hne (UInt32.lt_irrefl _)
    · have pos := (on.kept.linked w.key (.inr hq) hco.root).2
      rw [eq,zero] at hn
      exact absurd (UInt32.le_antisymm hn (UInt32.zero_le)) pos
    rw [on.hops_root root,hop,← on.hops_root root,eq] at hops
    exact .inr ⟨hq,eq ▸ hn,hops⟩
  · rw [Covers,if_neg root] at hc
    have dst : s.distanceBy v.key earlier = s.distanceBy v.key item := by
      simp [State.distanceBy,hc]
    have eq : nexthops area s v.key w.data earlier = nexthops area s v.key w.data item := by
      simp [nexthops,if_neg root]
    rw [dst,eq] at hops
    exact .inr ⟨hq,dst ▸ hn,hops⟩

end

end OnVertex

section

variable (lsa : Lsa) {lim lim' fuel fuel' : Nat} (hs : lim ≤ lim') (he : fuel ≤ fuel')
  (p : Nat)

include hs he

theorem linksFrom_take : lsa.linksFrom lim fuel p <+: lsa.linksFrom lim' fuel' p := by
  induction fuel generalizing fuel' p with
  | zero => exact nil_prefix
  | succ fuel ih =>
    obtain ⟨fuel',rfl⟩ : ∃ n, fuel' = n+1 := ⟨fuel'-1,by omega⟩
    simp only [Lsa.linksFrom]
    by_cases hi : p < lim
    · rw [if_pos hi,if_pos (by omega)]
      exact cons_prefix_cons.mpr ⟨rfl,ih (by omega) _⟩
    rw [if_neg hi]
    exact nil_prefix

theorem attachedFrom_take : lsa.attachedFrom lim fuel p <+: lsa.attachedFrom lim' fuel' p := by
  induction fuel generalizing fuel' p with
  | zero => exact nil_prefix
  | succ fuel ih =>
    obtain ⟨fuel',rfl⟩ : ∃ n, fuel' = n+1 := ⟨fuel'-1,by omega⟩
    simp only [Lsa.attachedFrom]
    by_cases hi : p < lim
    · rw [if_pos hi,if_pos (by omega)]
      exact cons_prefix_cons.mpr ⟨rfl,ih (by omega) _⟩
    rw [if_neg hi]
    exact nil_prefix

end

theorem itemsUpTo_take (lsa : Lsa) {lim lim' : Nat} (hs : lim ≤ lim') :
    itemsUpTo lsa lim <+: itemsUpTo lsa lim' := by
  unfold itemsUpTo
  split
  · obtain ⟨rest,hw⟩ := linksFrom_take lsa hs hs (Lsa.headerSize+4)
    rw [Lsa.linksUpTo,Lsa.linksUpTo,← hw,zipIdx_append,map_append]
    exact prefix_append _ _
  obtain ⟨rest,hw⟩ := attachedFrom_take lsa hs hs (Lsa.headerSize+4)
  rw [Lsa.attachedUpTo,Lsa.attachedUpTo,← hw,map_append]
  exact prefix_append _ _

theorem limit_le (lsa : Lsa) : Pluglet.limit lsa ≤ lsa.length.toNat := by
  rw [Pluglet.limit,UInt16.toNat_toUInt8]
  exact Nat.mod_le _ _

theorem items_split (lsa : Lsa) : items lsa = itemsUpTo lsa (Pluglet.limit lsa) ++
    (items lsa).drop (itemsUpTo lsa (Pluglet.limit lsa)).length := by
  obtain ⟨rest,hw⟩ := itemsUpTo_take lsa (limit_le lsa)
  rw [items,← hw,drop_left]

theorem OnVertex.examine (on : OnVertex area v s)
    (ha : examineSkipping skip tooOld area v.key s item = some s') : OnVertex area v s' := by
  rw [examineSkipping_eq on] at ha
  split at ha
  · exact (on.follow ha).1
  · exact some.inj ha ▸ on

/-- The native turn without the red links of `v`, and that of the pluglet. -/
def nativeTurn (area : Area) (v : OspfLsa) : State → Item → Option State :=
  examineSkipping (redLink area v.data) (fun lsa => lsa.isMaxAge area.now) area v.key

def plugletTurn (area : Area) (beyond : Nat → UInt32) (v : OspfLsa) :
    State → Item → Option State :=
  examineSkipping (Pluglet.ignored area beyond v.data) Pluglet.isMaxAge area v.key

namespace Faithful

theorem turn (hf : Faithful area beyond v) (on : OnVertex area v s)
    (hl : item ∈ itemsUpTo v.data (Pluglet.limit v.data)) :
    plugletTurn area beyond v s item = nativeTurn area v s item := by
  rw [plugletTurn,nativeTurn,examineSkipping_eq on,examineSkipping_eq on]
  by_cases hc : ∃ w, Counts area v item w
  · obtain ⟨w,hc⟩ := hc
    have eq := hf.same item hl w hc
    rw [followsNative,Pluglet.followed] at eq
    rw [eq]
  have hi := on.idle fun w hfo => absurd ⟨w,hfo⟩ hc
  simp [hi,ite_self]

theorem within (hf : Faithful area beyond v) (on : OnVertex area v s) {list : List Item}
    (hl : ∀ item ∈ list, item ∈ itemsUpTo v.data (Pluglet.limit v.data)) :
    list.foldlM (plugletTurn area beyond v) s = list.foldlM (nativeTurn area v) s := by
  induction list generalizing s with
  | nil => rfl
  | cons item hm ih =>
    rw [foldlM_cons,foldlM_cons,hf.turn on (hl item mem_cons_self)]
    cases ha : nativeTurn area v s item with
    | none => rfl
    | some t =>
      exact ih (on.examine ha) fun item mem => hl item (.tail _ mem)

end Faithful

theorem settled_all (on : OnVertex area v s) {list : List Item}
    (ha : list.foldlM (examineSkipping skip tooOld area v.key) s = some s') :
    OnVertex area v s' ∧ ∀ item ∈ list, follows skip tooOld area v.data item →
      ∀ w, Counts area v item w → Settled area v s' item w := by
  refine foldlM_invariant (P := fun hd t => OnVertex area v t ∧ ∀ item ∈ hd,
    follows skip tooOld area v.data item → ∀ w, Counts area v item w →
      Settled area v t item w) ⟨on,fun _ mem => nomatch mem⟩ ?_ ha
  rintro hd next t t' - ⟨onT,settled⟩ step
  refine ⟨onT.examine step,fun item mem hf w hc => ?_⟩
  rw [examineSkipping_eq onT] at step
  rcases mem_append.mp mem with old | new
  · have hb := settled item old hf w hc
    split at step
    · exact onT.stays hb step
    · exact some.inj step ▸ hb
  cases mem_singleton.mp new
  rw [if_pos hf] at step
  exact onT.settles hc (follows_back hf hc.found) step

theorem pass_over (on : OnVertex area v s) {list : List Item}
    (hs : ∀ item ∈ list, follows skip tooOld area v.data item →
      ∀ w, Counts area v item w → Settled area v s item w) :
    list.foldlM (examineSkipping skip tooOld area v.key) s = some s := by
  induction list with
  | nil => rfl
  | cons item hm ih =>
    have hh : examineSkipping skip tooOld area v.key s item = some s := by
      rw [examineSkipping_eq on]
      split
      · next followed =>
        by_cases hc : ∃ w, Counts area v item w
        · obtain ⟨w,hc⟩ := hc
          exact on.again (hs item mem_cons_self followed w hc) hc (follows_back followed hc.found)
        · exact on.idle fun w hf => absurd ⟨w,hf⟩ hc
      · rfl
    rw [foldlM_cons,hh]
    exact ih fun item mem => hs item (.tail _ mem)

theorem Faithful.agrees (hf : Faithful area beyond v) (on : OnVertex area v s) :
    Pluglet.spfNext area beyond s v.key = spfNextWithoutRed area s v.key := by
  simp only [Pluglet.spfNext,spfNextWithoutRed,on.lsa]
  change (itemsUpTo v.data (Pluglet.limit v.data)).foldlM (plugletTurn area beyond v) _ =
    (items v.data).foldlM (nativeTurn area v) _
  rw [hf.within on.mark fun _ mem => mem,items_split,foldlM_append]
  cases ha : (itemsUpTo v.data (Pluglet.limit v.data)).foldlM (nativeTurn area v)
      (markTransit s v.key) with
  | none => rfl
  | some t =>
    obtain ⟨onT,hs⟩ := settled_all on.mark ha
    refine (pass_over onT fun item hl hfo w hc => ?_).symm
    obtain ⟨earlier,mem,hc',hf',hco⟩ := hf.covered item hl w hc hfo
    exact onT.covered hc (hs earlier mem hf' w hc') hco

end

end Frr.Spf
