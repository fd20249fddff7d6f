import Frr.Lsa
import Frr.PriorityQueue

/-! The shortest path calculation of one area, `ospf_spf_calculate` with no plugin injected, up to
the tree of transit vertices. A vertex is named by the key of its LSA: one without next hop is never
referred to again, so an LSA has at most one that counts. A failed assertion is `none`. -/
namespace Frr.Spf

open PriorityQueue Lsa RouterLink

/-- `struct vertex_nexthop`: outgoing interface and router address. -/
structure Nexthop where
  oi : Nat
  router : UInt32
  deriving DecidableEq, Inhabited

/-- `struct vertex_parent`. -/
structure Parent where
  nexthop : Nexthop
  parent : LsaKey
  backlink : Option Nat
  deriving DecidableEq

/-- `struct vertex`. Type and id are those of its LSA, `stat` is in the queue. -/
structure Vertex where
  lsa : Lsa
  distance : UInt32
  parents : List Parent
  children : List LsaKey
  deriving Inhabited

structure Adjacent where
  routerId : UInt32
  src : UInt32

/-- An interface of the router, with the positions of its links in the own LSA. -/
structure Interface where
  index : Nat
  type : IfType
  lsaPosBeg : Nat
  lsaPosEnd : Nat
  address : UInt32
  prefixlen : Nat
  nbrs : List Adjacent

/-- `struct ospf_vl_data`. -/
structure VirtualLink where
  peer : UInt32
  approved : Bool
  nexthop : Nexthop

/-- The database is listed in the order of its table; it holds one instance for each key, and the
own LSA. -/
structure Area where
  lsdb : List OspfLsa
  routerLsaSelf : OspfLsa
  oiflist : List Interface
  vlinks : List VirtualLink
  now : Nat
  distinct : lsdb.Pairwise fun a b => a.key ≠ b.key
  selfStored : routerLsaSelf ∈ lsdb
  selfRouter : routerLsaSelf.data.type = routerLsa

section

variable (area : Area)

def Area.root : LsaKey := area.routerLsaSelf.key

/-- `LSA_SPF_NOT_EXPLORED` and `LSA_SPF_IN_SPFTREE`. -/
def notExplored : Int := -1
def inSpfTree : Int := -2

/-- The positions the queue reports are the `stat` fields of the LSAs. `tree` is a ghost: the tree,
latest first. -/
structure State where
  vertex : LsaKey → Vertex
  candidate : Queue LsaKey
  transit : Bool
  tree : List LsaKey

def State.stat (s : State) (k : LsaKey) : Int := s.candidate.position k

def State.setVertex (s : State) (k : LsaKey) (v : Vertex) : State :=
  {s with vertex := fun x => if x = k then v else s.vertex x}

/-- Networks before routers at the same distance. The unsigned difference is read as a signed
number. -/
def cmp (s : State) (node1 node2 : LsaKey) : Int :=
  let v1 := s.vertex node1
  let v2 := s.vertex node2
  if v1.distance - v2.distance = 0 ∧ v1.lsa.type ≠ v2.lsa.type then
    if v1.lsa.type = networkLsa then -1
    else if v1.lsa.type = routerLsa then 1
    else 0
  else (v1.distance-v2.distance).toInt32.toInt

/-- `ospf_lsa_lookup` for a router-LSA, whose id is that of its router. -/
def lookupRouter (id : UInt32) : Option OspfLsa :=
  area.lsdb.find? fun lsa => lsa.key = ⟨routerLsa, id, id⟩

/-- `ospf_lsa_lookup_by_id` for a network-LSA: the first with that id. -/
def lookupNetwork (id : UInt32) : Option OspfLsa :=
  area.lsdb.find? fun lsa => lsa.data.type = networkLsa ∧ lsa.data.id = id

/-- A link with its position, or an attached router. -/
inductive Item where
  | link (position : Nat) (l : RouterLink)
  | attached (router : UInt32)
  deriving DecidableEq

def itemsUpTo (lsa : Lsa) (lim : Nat) : List Item :=
  if lsa.type = routerLsa then
    (lsa.linksUpTo lim).zipIdx.map fun (l, position) => .link position l
  else (lsa.attachedUpTo lim).map .attached

def items (lsa : Lsa) : List Item := itemsUpTo lsa lsa.length.toNat

def target : Item → Option OspfLsa
  | .link _ l =>
    if l.type = pointToPoint ∨ l.type = virtualLink then
      lookupRouter area l.linkId
    else if l.type = transit then lookupNetwork area l.linkId
    else none
  | .attached router => lookupRouter area router

def Item.cost : Item → UInt32
  | .link _ l => l.metric.toUInt32
  | .attached _ => 0

def lookupByLsaPos (position : Nat) : Option Interface :=
  area.oiflist.find? fun oi => oi.lsaPosBeg ≤ position ∧ position < oi.lsaPosEnd

/-- `prefix_cmp` of an address and the one of an interface, with its length. -/
def onNetwork (oi : Interface) (address : UInt32) : Bool :=
  address.toNat / 2 ^ (32-oi.prefixlen) = oi.address.toNat / 2 ^ (32-oi.prefixlen)

def rootNexthop (root w : Lsa) (position : Nat) (l : RouterLink) : Option Nexthop :=
  match lookupByLsaPos area position with
  | none => none
  | some oi =>
    if w.type = routerLsa then
      if l.type = pointToPoint then
        match oi.type with
        | .pointToPoint =>
          (oi.nbrs.find? fun nbr => nbr.routerId = l.linkId).map fun nbr => ⟨oi.index, nbr.src⟩
        | .pointToMultipoint =>
          ((w.nextLinks root).find? fun l2 => onNetwork oi l2.linkData).map fun l2 =>
            ⟨oi.index, l2.linkData⟩
        | _ => none
      else if l.type = virtualLink then
        match area.vlinks.find? fun vl => vl.peer = l.linkId with
        | none => none
        | some vl => if vl.approved then some vl.nexthop else none
      else none
    else some ⟨oi.index, 0⟩

def rootHop (root w : Lsa) : Item → Option Nexthop
  | .link position l => rootNexthop area root w position l
  | .attached _ => none

/-- Over a network: one for each parent of it that is the root and each link of `w` back to it. -/
def directNexthops (root : LsaKey) (v : Vertex) (w : Lsa) : List Nexthop :=
  (v.parents.filter fun vp => vp.parent = root).flatMap fun vp =>
    (w.nextLinks v.lsa).map fun l => ⟨vp.nexthop.oi, l.linkData⟩

/-- The next hops `ospf_nexthop_calculation` adds, in its order. -/
def nexthops (s : State) (k : LsaKey) (w : Lsa) (item : Item) : List Nexthop :=
  let v := s.vertex k
  if k = area.root then (rootHop area v.lsa w item).toList
  else
    let direct := if v.lsa.type = networkLsa then directNexthops area.root v w else []
    if direct ≠ [] then direct else v.parents.map Parent.nexthop

def Vertex.addParent (w : Vertex) (k : LsaKey) (v : Lsa) (distance : UInt32) (newhop : Nexthop) :
    Option Vertex :=
  if distance = 0 then none
  else if w.distance ≠ 0 ∧ w.distance < distance then none
  else
    let w := if w.distance = 0 then {w with distance := distance} else w
    let w := if distance < w.distance then {w with parents := [], distance := distance} else w
    if w.parents.any fun wp => wp.nexthop = newhop then some w
    else some {w with parents := w.parents ++ [⟨newhop, k, w.lsa.hasLink v⟩]}

/-- Whether a next hop was added, and the state. -/
def nexthopCalculation (s : State) (k w : LsaKey) (item : Item) (distance : UInt32) :
    Option (Bool × State) :=
  let hops := nexthops area s k (s.vertex w).lsa item
  (hops.foldlM (fun (vertex : Vertex) hop => vertex.addParent k (s.vertex k).lsa distance hop)
    (s.vertex w)).map fun vertex => (hops ≠ [], s.setVertex w vertex)

end

def vertexNew (s : State) (lsa : Lsa) : State := s.setVertex lsa.key ⟨lsa, 0, [], []⟩

/-- The distance of the target of an item by way of vertex `k`. -/
def State.distanceBy (s : State) (k : LsaKey) (item : Item) : UInt32 :=
  (s.vertex k).distance + item.cost

/-- A turn of `ospf_spf_next`, with the test for an LSA that is too old. -/
def examineWith (tooOld : OspfLsa → Bool) (area : Area) (k : LsaKey) (s : State) (item : Item) :
    Option State :=
  match target area item with
  | none => some s
  | some wLsa =>
    if tooOld wLsa then some s
    else if wLsa.data.hasLink (s.vertex k).lsa = none then some s
    else if s.stat wLsa.key = inSpfTree then some s
    else
      let distance := s.distanceBy k item
      if s.stat wLsa.key = notExplored then
        -- Without a next hop the new vertex is neither queued nor in the tree.
        (nexthopCalculation area (vertexNew s wLsa.data) k wLsa.key item distance).map
          fun (added, made) =>
            if added then {made with candidate := enqueue (cmp made) wLsa.key made.candidate}
            else s
      else if 0 ≤ s.stat wLsa.key then
        let w := s.candidate.array (s.stat wLsa.key).toNat
        if (s.vertex w).distance < distance then some s
        else if (s.vertex w).distance = distance then
          (nexthopCalculation area s k w item distance).map Prod.snd
        else
          (nexthopCalculation area s k w item distance).map fun (added, s) =>
            if added then
              {s with
                candidate := trickleUp (cmp s) (s.stat wLsa.key).toNat s.candidate}
            else s
      else some s

def examine (area : Area) (k : LsaKey) (s : State) (item : Item) : Option State :=
  examineWith (fun lsa => lsa.isMaxAge area.now) area k s item

def markTransit (s : State) (k : LsaKey) : State :=
  if (s.vertex k).lsa.type = routerLsa ∧ (s.vertex k).lsa.isRouterLsaVirtual then
    {s with transit := true}
  else s

def spfNext (area : Area) (s : State) (k : LsaKey) : Option State :=
  (items (s.vertex k).lsa).foldlM (examine area k) (markTransit s k)

/-- `ospf_vertex_add_parent`. -/
def addToParents (s : State) (k : LsaKey) : State :=
  (s.vertex k).parents.foldl (fun s vp =>
    let parent := s.vertex vp.parent
    if k ∈ parent.children then s
    else s.setVertex vp.parent {parent with children := parent.children ++ [k]}) s

def extract (s : State) : LsaKey × State :=
  let (k, candidate) := dequeue (cmp s) s.candidate
  let candidate := {candidate with
    position := fun x => if x = k then inSpfTree else candidate.position x}
  (k, addToParents {s with candidate := candidate, tree := k :: s.tree} k)

inductive Result where
  | aborted
  | running (s : State)
  | finished (s : State)

/-- The loop of `ospf_spf_calculate`. -/
def loop (area : Area) : Nat → LsaKey → State → Result
  | 0, _, s => .running s
  | fuel + 1, k, s =>
    match spfNext area s k with
    | none => .aborted
    | some s =>
      if s.candidate.size = 0 then .finished s
      else loop area fuel (extract s).1 (extract s).2

def initial (area : Area) : State :=
  { vertex := fun _ => ⟨area.routerLsaSelf.data, 0, [], []⟩
    candidate := ⟨fun _ => default, 0, fun x => if x = area.root then inSpfTree else notExplored⟩
    transit := false
    tree := [area.root] }

/-- `ospf_spf_calculate` with a bound on the turns of its loop. -/
def spfCalculate (area : Area) (fuel : Nat) : Result := loop area fuel area.root (initial area)

end Frr.Spf
