import Mathlib.Data.UInt
import Mathlib.Data.List.Basic

/-! Link state advertisements in the database, and the two ways the links of a router-LSA are read.
The body is in 32-bit words in host order; every field starts at a word. -/
namespace Frr

structure LsaKey where
  type : UInt8
  id : UInt32
  advRouter : UInt32
  deriving DecidableEq, Inhabited

/-- The network type of an interface, `oi->type`. -/
inductive IfType where
  | pointToPoint | broadcast | nbma | pointToMultipoint | virtualLink | loopback
  deriving DecidableEq, Inhabited

/-- `struct lsa_header` and the words that follow it. -/
structure Lsa where
  lsAge : UInt16
  options : UInt8
  type : UInt8
  id : UInt32
  advRouter : UInt32
  lsSeqnum : UInt32
  checksum : UInt16
  length : UInt16
  body : List UInt32
  deriving DecidableEq, Inhabited

namespace Lsa

def routerLsa : UInt8 := 1
def networkLsa : UInt8 := 2

def headerSize : Nat := 20

def maxAge : Nat := 3600

def key (lsa : Lsa) : LsaKey := ⟨lsa.type, lsa.id, lsa.advRouter⟩

def word (lsa : Lsa) (index : Nat) : UInt32 := lsa.body.getD index 0

def wordAt (lsa : Lsa) (offset : Nat) : UInt32 := lsa.word ((offset-headerSize) / 4)

end Lsa

/-- `struct ospf_lsa` with its time of reception in seconds. -/
structure OspfLsa where
  data : Lsa
  tvRecv : Nat
  deriving DecidableEq, Inhabited

namespace OspfLsa

def key (lsa : OspfLsa) : LsaKey := lsa.data.key

def getAge (lsa : OspfLsa) (now : Nat) : Nat := lsa.data.lsAge.toNat + (now-lsa.tvRecv)

def lsAge (lsa : OspfLsa) (now : Nat) : Nat :=
  if Lsa.maxAge < lsa.getAge now then Lsa.maxAge else lsa.getAge now

/-- `IS_LSA_MAXAGE`. -/
def isMaxAge (lsa : OspfLsa) (now : Nat) : Bool := lsa.lsAge now = Lsa.maxAge

end OspfLsa

/-- `struct router_lsa_link` with its first metric. -/
structure RouterLink where
  linkId : UInt32
  linkData : UInt32
  type : UInt8
  tosCount : UInt8
  metric : UInt16
  deriving DecidableEq, Inhabited

namespace RouterLink

def pointToPoint : UInt8 := 1
def transit : UInt8 := 2
def stub : UInt8 := 3
def virtualLink : UInt8 := 4

/-- `OSPF_ROUTER_LSA_LINK_SIZE` and `OSPF_ROUTER_LSA_TOS_SIZE`. -/
def linkSize : Nat := 12
def tosSize : Nat := 4

end RouterLink

namespace Lsa

section

variable (lsa : Lsa)

def linkAt (offset : Nat) : RouterLink :=
  let third := lsa.wordAt (offset+8)
  ⟨lsa.wordAt offset, lsa.wordAt (offset+4), (third >>> 24).toUInt8, (third >>> 16).toUInt8,
    third.toUInt16⟩

def routerFlags : UInt8 := (lsa.word 0 >>> 24).toUInt8

def routerLinkCount : Nat := (lsa.word 0).toUInt16.toNat

def isRouterLsaVirtual : Bool := lsa.routerFlags &&& 4 ≠ 0

/-- The links of a router-LSA up to a limit, each followed by its TOS metrics. Every turn goes at
least one link further, which bounds the fuel. -/
def linksFrom (lsa : Lsa) (lim : Nat) : Nat → Nat → List RouterLink
  | 0, _ => []
  | fuel + 1, p =>
    if p < lim then
      let l := lsa.linkAt p
      l :: linksFrom lsa lim fuel (p+RouterLink.linkSize+l.tosCount.toNat*RouterLink.tosSize)
    else []

def linksUpTo (lim : Nat) : List RouterLink := lsa.linksFrom lim lim (headerSize+4)

/-- All links, as `ospf_spf_next` and `ospf_get_next_link` walk over them. -/
def links : List RouterLink := lsa.linksUpTo lsa.length.toNat

def attachedFrom (lsa : Lsa) (lim : Nat) : Nat → Nat → List UInt32
  | 0, _ => []
  | fuel + 1, p =>
    if p < lim then lsa.wordAt p :: attachedFrom lsa lim fuel (p+4) else []

def attachedUpTo (lim : Nat) : List UInt32 := lsa.attachedFrom lim lim (headerSize+4)

end

/-- The links from `v` to `w` that successive calls of `ospf_get_next_link` return. -/
def nextLinks (v w : Lsa) : List RouterLink :=
  let lsaType := if w.type = routerLsa then RouterLink.pointToPoint else RouterLink.transit
  v.links.filter fun l => l.type = lsaType ∧ l.linkId = w.id

end Lsa

/-- Whether a link of a router-LSA points back at `v`. -/
def RouterLink.pointsAt (l : RouterLink) (v : Lsa) : Bool :=
  if l.type = pointToPoint ∨ l.type = virtualLink then
    v.type = Lsa.routerLsa ∧ l.linkId = v.id
  else if l.type = transit then v.type = Lsa.networkLsa ∧ l.linkId = v.id
  else false

namespace Lsa

/-- `sizeof(struct router_lsa)`. -/
def routerLsaSize : Nat := 36

/-- The loop of `ospf_lsa_has_link`. It takes every link to be twelve bytes long. -/
def hasLinkFrom (w v : Lsa) : Nat → Nat → Nat → Option Nat
  | 0, _, _ => none
  | links + 1, i, length =>
    if routerLsaSize ≤ length then
      if (w.linkAt (headerSize+4+i*RouterLink.linkSize)).pointsAt v then some i
      else hasLinkFrom w v links (i+1) (length-RouterLink.linkSize)
    else none

/-- `ospf_lsa_has_link`: the index of a link back to `v` in `w`. -/
def hasLink (w v : Lsa) : Option Nat :=
  if w.type = networkLsa then
    if v.type = networkLsa then none
    else
      -- An unsigned difference: it wraps for a length below that of the fixed part.
      let length := ((w.length.toNat + 2 ^ 32 - headerSize - 4) % 2 ^ 32) / 4
      (List.range length).find? fun i => w.word (i+1) = v.id
  else if w.type = routerLsa then hasLinkFrom w v w.routerLinkCount 0 w.length.toNat
  else none

end Lsa

end Frr
