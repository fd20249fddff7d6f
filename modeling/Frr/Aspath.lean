import Mathlib

/-! AS paths, `bgpd/bgp_aspath.c`. The length of a segment has 16 bits; what is added beyond them is
lost. There is no result where an assertion fails or memory outside is written. -/
namespace Frr.Aspath

inductive SegType where
  | set | sequence | confedSequence | confedSet
  deriving DecidableEq

/-- `AS_SET` to `AS_CONFED_SET`. -/
def SegType.code : SegType → UInt8
  | .set => 1
  | .sequence => 2
  | .confedSequence => 3
  | .confedSet => 4

def SegType.ofCode (code : UInt8) : Option SegType :=
  if code = 2 then some .sequence
  else if code = 1 then some .set
  else if code = 3 then some .confedSequence
  else if code = 4 then some .confedSet
  else none

/-- `struct assegment`. -/
structure Segment where
  type : SegType
  as : List UInt32
  short : as.length < 65536
  deriving DecidableEq

abbrev Path := List Segment

/-- The length of a segment is stored in an `unsigned short`. -/
def Segment.make (type : SegType) (as : List UInt32) : Segment where
  type := type
  as := as.take (as.length%65536)
  short := by
    rw [List.length_take]
    have := Nat.mod_lt as.length (show 0 < 65536 by decide)
    omega

def Segment.length (seg : Segment) : Nat := seg.as.length

def segmentMax : Nat := 255

section

def assegmentPrependAsns (seg : Segment) (asnum : UInt32) (num : Nat) : Segment :=
  if num = 0 then seg
  else if segmentMax ≤ num then seg
  else .make seg.type (List.replicate num asnum ++ seg.as)

def assegmentAppendAsns (seg : Segment) (asnos : List UInt32) : Segment :=
  .make seg.type (seg.as ++ asnos)

def typesPackable (x y : Segment) : Bool := x.type = y.type ∧ x.type = .sequence

def packable (x y : Segment) : Bool := typesPackable x y ∧ x.length+y.length ≤ segmentMax

def SegType.isSet : SegType → Bool
  | .set | .confedSet => true
  | .sequence | .confedSequence => false

def sortedSet (as : List UInt32) : List UInt32 :=
  (as.insertionSort fun a b => a.toNat ≤ b.toNat).destutter (· ≠ ·)

def sortSet (seg : Segment) : Segment :=
  if seg.type.isSet then .make seg.type (sortedSet seg.as) else seg

/-- The loops of `assegment_normalise`, with the pinned segment. -/
def normaliseFrom (pin : Segment) : List Segment → List Segment
  | [] => [pin]
  | next :: rest =>
    if typesPackable pin next then normaliseFrom (assegmentAppendAsns pin next.as) rest
    else pin :: normaliseFrom (sortSet next) rest

def assegmentNormalise : List Segment → List Segment
  | [] => []
  | head :: rest => normaliseFrom (sortSet head) rest

end

section

/-- `struct stream`, as far as it is written. -/
structure Stream where
  size : Nat
  data : List UInt8
  deriving DecidableEq

namespace Stream

section

variable (s : Stream)

def writeable : Nat := s.size-s.data.length

def put (bytes : List UInt8) : Option Stream :=
  if s.writeable < bytes.length then none else some {s with data := s.data ++ bytes}

def putc (c : UInt8) : Option Stream := s.put [c]

def putw (w : UInt16) : Option Stream := s.put [(w >>> 8).toUInt8,w.toUInt8]

def putl (l : UInt32) : Option Stream :=
  s.put [(l >>> 24).toUInt8,(l >>> 16).toUInt8,(l >>> 8).toUInt8,l.toUInt8]

def putcAt (putp : Nat) (c : UInt8) : Option Stream :=
  if putp + 1 ≤ s.data.length then some {s with data := s.data.set putp c} else none

end

end Stream

/-- `stream_getw`, from the bytes that are left to read. -/
def getw : List UInt8 → Option (UInt32 × List UInt8)
  | a :: b :: rest => some (a.toUInt32 <<< 8 ||| b.toUInt32,rest)
  | _ => none

def getl : List UInt8 → Option (UInt32 × List UInt8)
  | a :: b :: c :: d :: rest =>
    some (a.toUInt32 <<< 24 ||| b.toUInt32 <<< 16 ||| c.toUInt32 <<< 8 ||| d.toUInt32,rest)
  | _ => none

end

def assegmentSize (n : Nat) (use32bit : Bool) : Nat := 2+n * if use32bit then 4 else 2

section

def getAsns (use32bit : Bool) : Nat → List UInt8 → Option (List UInt32 × List UInt8)
  | 0, s => some ([],s)
  | n + 1, s =>
    (if use32bit then getl s else getw s).bind fun (asn,s) =>
      (getAsns use32bit n s).map fun (asns,s) => (asn :: asns,s)

/-- The loop of `assegments_parse` on the bytes left of the attribute, with a step for each byte. -/
def parseLoop (use32bit : Bool) : Nat → List UInt8 → Nat → Option (List Segment)
  | _, _, 0 => some []
  | 0, _, _ + 1 => none
  | fuel + 1, s, left =>
    if left ≤ 2 then none
    else match s with
      | type :: length :: s =>
        let segSize := assegmentSize length.toNat use32bit
        if left < segSize ∨ length = 0 then none
        else (SegType.ofCode type).bind fun type =>
          (getAsns use32bit length.toNat s).bind fun (asns,s) =>
            (parseLoop use32bit fuel s (left-segSize)).map (.make type asns :: ·)
      | _ => none

def assegmentsParse (s : List UInt8) (length : Nat) (use32bit : Bool) : Option (List Segment) :=
  if length = 0 then some []
  else if s.length < length ∨ s.length < 2 ∨ length%2 ≠ 0 then none
  else (parseLoop use32bit length s length).map assegmentNormalise

/-- `aspath_parse`. The path that the hash has is equal to the new one. -/
def aspathParse (s : List UInt8) (length : Nat) (use32bit : Bool) : Option Path :=
  if length % 2 ≠ 0 then none else assegmentsParse s length use32bit

end

section

def assegmentDataPut (s : Stream) (as : List UInt32) (use32bit : Bool) : Option Stream :=
  if segmentMax < as.length then none
  else as.foldlM (fun s asn =>
    if use32bit then s.putl asn
    else if asn ≤ 65535 then s.putw asn.toUInt16 else s.putw 23456) s

def assegmentHeaderPut (s : Stream) (type : SegType) (length : Nat) : Option (Stream × Nat) :=
  if segmentMax < length then none
  else (s.putc type.code).bind fun s =>
    (s.putc (UInt8.ofNat length)).map fun s' => (s',s.data.length)

def putOverlength (type : SegType) (use32bit : Bool) :
    Nat → Stream → List UInt32 → Nat → Option (Stream × List UInt32 × Nat)
  | 0, s, as, bytes => some (s,as,bytes)
  | fuel + 1, s, as, bytes =>
    if segmentMax < as.length then
      (assegmentHeaderPut s type segmentMax).bind fun (s,_) =>
        (assegmentDataPut s (as.take segmentMax) use32bit).bind fun s =>
          putOverlength type use32bit fuel s (as.drop segmentMax)
            (bytes + assegmentSize segmentMax use32bit)
    else some (s,as,bytes)

/-- The segments that are packed into the one before them, which has `final` numbers of its own. -/
def putPacked (seg : Segment) (use32bit : Bool) (lenp final : Nat) :
    List Segment → Stream → Nat → Option (Stream × Nat × List Segment)
  | [], s, asnsPacked => some (s,asnsPacked,[])
  | next :: rest, s, asnsPacked =>
    if packable seg next then
      (assegmentDataPut s next.as use32bit).bind fun s =>
        (s.putcAt lenp (UInt8.ofNat (final+next.length))).bind fun s =>
          putPacked seg use32bit lenp final rest s (asnsPacked+next.length)
    else some (s,asnsPacked,next :: rest)

/-- The loop of `aspath_put`. It never runs out of steps: there are as many as segments. -/
def putLoop (use32bit : Bool) : Nat → List Segment → Stream → Nat → Option (Stream × Nat)
  | _, [], s, bytes => some (s,bytes)
  | 0, _ :: _, _, _ => none
  | fuel + 1, seg :: rest, s, bytes =>
    if assegmentSize seg.length use32bit ≤ s.writeable then
      (putOverlength seg.type use32bit seg.length s seg.as bytes).bind fun (s,as,bytes) =>
        (assegmentHeaderPut s seg.type as.length).bind fun (s,lenp) =>
          (assegmentDataPut s as use32bit).bind fun s =>
            (putPacked seg use32bit lenp as.length rest s 0).bind fun (s,asnsPacked,next) =>
              putLoop use32bit fuel next s
                (bytes + assegmentSize (as.length+asnsPacked) use32bit)
    else some (s,bytes)

def aspathPut (s : Stream) (path : Path) (use32bit : Bool) : Option (Stream × Nat) :=
  match path with
  | [] => some (s,0)
  | seg :: _ => if seg.length = 0 then some (s,0) else putLoop use32bit path.length path s 0

end

section

def isPrivate (asn : UInt32) : Bool :=
  64512 ≤ asn ∧ asn ≤ 65535 ∨ 4200000000 ≤ asn ∧ asn ≤ 4294967294

section

variable (path : Path)

def aspathRemovePrivateAsns : Path :=
  path.filterMap fun seg =>
    let asns := seg.as.filter fun asn => !isPrivate asn
    if asns.length = 0 then none
    else if asns.length = seg.length then some seg
    else some (.make seg.type asns)

def aspathFilterExclude (source exclude : Path) : Path :=
  source.filterMap fun srcseg =>
    let asns := srcseg.as.filter fun asn => !exclude.any fun exclseg => exclseg.as.contains asn
    if asns.length = 0 then none else some (.make srcseg.type asns)

def aspathDeleteConfedSeq : Path :=
  path.filter fun seg => !(seg.type = .confedSequence ∨ seg.type = .confedSet : Bool)

def aspathAddAsns (asno : UInt32) (type : SegType) (num : Nat) : Option Path :=
  let fresh (rest : Path) : Option Path :=
    if 65536 ≤ num then none else some (.make type (List.replicate num asno) :: rest)
  match path with
  | [] => fresh []
  | seg :: rest =>
    if seg.type = type then some (assegmentPrependAsns seg asno num :: rest)
    else if seg.length = 0 then fresh rest
    else fresh (seg :: rest)

def aspathAddSeqN (asno : UInt32) (num : Nat) : Option Path :=
  aspathAddAsns path asno .sequence num

def aspathAddConfedSeq (asno : UInt32) : Option Path :=
  aspathAddAsns path asno .confedSequence 1

def aspathMerge (as1 as2 : Path) : Option Path := if as1 = [] then none else some (as1 ++ as2)

def aspathPrepend (as1 as2 : Path) : Option Path :=
  match as2, as1.getLast? with
  | [], _ => some as1
  | _ :: _, none => some as2
  | head :: _, some as1segtail =>
    let as2 := if as1segtail.type = .sequence ∧ head.type = .confedSequence
      then aspathDeleteConfedSeq as2 else as2
    match as2 with
    | [] => some as1
    | as2seghead :: rest =>
      if as1segtail.type ≠ as2seghead.type then aspathMerge as1 as2
      else if as1segtail.type = .sequence then
        some (as1.dropLast ++ assegmentAppendAsns as1segtail as2seghead.as :: rest)
      else aspathMerge as1 as2

def commonLength : List UInt32 → List UInt32 → Nat
  | a :: as, b :: bs => if a = b then commonLength as bs + 1 else 0
  | _, _ => 0

/-- The loop of `aspath_aggregate` over the common leading segments: the new segments, the rest of
both paths, and how much of their first segments was common. -/
def aggregateLeading : Path → Path → Path × Path × Path × Nat
  | seg1 :: rest1, seg2 :: rest2 =>
    if seg1.type ≠ seg2.type then ([],seg1 :: rest1,seg2 :: rest2,0)
    else
      let common := commonLength seg1.as seg2.as
      let new : Path := if common = 0 then [] else [.make seg1.type (seg1.as.take common)]
      if common ≠ min seg1.length seg2.length ∨ common ≠ seg1.length ∨ seg1.length ≠ seg2.length
      then (new,seg1 :: rest1,seg2 :: rest2,common)
      else
        let (more,left) := aggregateLeading rest1 rest2
        (new ++ more,left)
  | left1, left2 => ([],left1,left2,0)

/-- `aspath_aggregate_as_set_add`. The new number is written before its memory if the length
overflows. -/
def aspathAggregateAsSetAdd (asset : List UInt32) (asn : UInt32) : Option (List UInt32) :=
  if asn ∈ asset then some asset
  else if asset.length + 1 = 65536 then none
  else some (asset ++ [asn])

def leftover (skip : Nat) : List UInt32 := (path.flatMap Segment.as).drop skip

def aspathAggregate (as1 as2 : Path) : Option Path :=
  let (leading,left1,left2,common) := aggregateLeading as1 as2
  ((leftover left1 common ++ leftover left2 common).foldlM aspathAggregateAsSetAdd []).map
    fun asset => assegmentNormalise (leading ++ if asset = [] then [] else [.make .set asset])

def aspathCountHops : Nat :=
  (path.map fun seg => match seg.type with
    | .sequence => seg.length
    | .set => 1
    | _ => 0).sum

def aspathCountConfeds : Nat :=
  (path.map fun seg => match seg.type with
    | .confedSequence => seg.length
    | .confedSet => 1
    | _ => 0).sum

end

/-- The loop of `aspath_reconcile_as4`, with the hops that are left. -/
def reconcileLoop : Path → Int → Path
  | [], _ => []
  | seg :: rest, hops =>
    if hops ≤ 0 then []
    else
      let copy (cpasns : Nat) : Segment := .make seg.type (seg.as.take cpasns)
      match seg.type with
      | .set | .confedSet => copy seg.length :: reconcileLoop rest (hops-1)
      | .confedSequence =>
        let hops := if hops < seg.length then (seg.length : Int) else hops
        copy (min seg.length hops.toNat) :: reconcileLoop rest (hops-seg.length)
      | .sequence => copy (min seg.length hops.toNat) :: reconcileLoop rest (hops-seg.length)

def aspathReconcileAs4 (path as4path : Path) : Option Path :=
  let hops : Int := (aspathCountHops path + aspathCountConfeds path : Nat) - aspathCountHops as4path
  let hops := if hops < 0 then (aspathCountHops path : Int) else hops
  if hops = 0 then some as4path
  else (aspathMerge (reconcileLoop path hops) as4path).map assegmentNormalise

/-- `aspath_str2aspath`, for the numbers that the configuration has. -/
def aspathStr2aspath (asns : List UInt32) : Path :=
  if asns = [] then []
  else [asns.foldl (fun seg asn => assegmentAppendAsns seg [asn]) (.make .sequence [])]

end

section

inductive Op where
  | parse (s : List UInt8) (length : Nat) (use32bit : Bool)
  | str2aspath (asns : List UInt32)
  | addSeqN (path : Nat) (asno : UInt32) (num : Nat)
  | addConfedSeq (path : Nat) (asno : UInt32)
  | prepend (as1 as2 : Nat)
  | aggregate (as1 as2 : Nat)
  | reconcileAs4 (path as4path : Nat)
  | removePrivateAsns (path : Nat)
  | filterExclude (source exclude : Nat)
  | deleteConfedSeq (path : Nat)
  deriving DecidableEq

def Op.result (paths : List Path) : Op → Option (Option Path)
  | .parse s length use32bit => some (aspathParse s length use32bit)
  | .str2aspath asns => some (some (aspathStr2aspath asns))
  | .addSeqN path asno num => (aspathAddSeqN (paths.getD path []) asno num).map some
  | .addConfedSeq path asno => (aspathAddConfedSeq (paths.getD path []) asno).map some
  | .prepend as1 as2 => (aspathPrepend (paths.getD as1 []) (paths.getD as2 [])).map some
  | .aggregate as1 as2 => (aspathAggregate (paths.getD as1 []) (paths.getD as2 [])).map some
  | .reconcileAs4 path as4path =>
    (aspathReconcileAs4 (paths.getD path []) (paths.getD as4path [])).map some
  | .removePrivateAsns path => some (some (aspathRemovePrivateAsns (paths.getD path [])))
  | .filterExclude source exclude =>
    some (some (aspathFilterExclude (paths.getD source []) (paths.getD exclude [])))
  | .deleteConfedSeq path => some (some (aspathDeleteConfedSeq (paths.getD path [])))

def step (paths : List Path) (op : Op) : Option (List Path) :=
  (op.result paths).map fun new => paths ++ new.toList

def run (ops : List Op) (paths : List Path) : Option (List Path) := ops.foldlM step paths

end

end Frr.Aspath
