import Frr.SpfPlugletExact
import Frr.PluginHeapScript

/-! The plugin heap under the pluglet `ospf_spf_next`, which takes copies for each link and gives
them back, on many paths; the links are examined as in `Frr.SpfPluglet`. -/
namespace Frr.Spf

open PluginHeap List Function Option Ledger

namespace Pluglet

structure Sizes where
  vertex : UInt32
  ospfLsa : UInt32
  ospfArea : UInt32
  positive : 0 < vertex.toNat ∧ 0 < ospfLsa.toNat ∧ 0 < ospfArea.toNat
  small : vertex.toNat ≤ 2 ^ 32 - 4 ∧ ospfLsa.toNat ≤ 2 ^ 32 - 4 ∧ ospfArea.toNat ≤ 2 ^ 32 - 4

structure Images where
  vertex : LsaKey → Nat → UInt8
  ospfLsa : LsaKey → Nat → UInt8
  lsa : Lsa → Nat → UInt8
  area : Nat → UInt8

inductive Local where
  | v | lsah | areaCopy | testLsaCopy | testLsah | wLsaCopy | wLsah | wCopy
  deriving DecidableEq

def lsaHeaderSize : UInt32 := 20

section

variable (z : Sizes) (image : Images) (area : Area) (beyond : Nat → UInt32)

def copyOf (x : Local) (size : UInt32) (bytes : Nat → UInt8) : List (Op Local) :=
  [.malloc x size, .fill x size.toNat bytes]

def copyLsa (x : Local) (lsa : Lsa) : List (Op Local) :=
  copyOf x lsaHeaderSize (image.lsa lsa) ++
    [.realloc x lsa.length.toUInt32, .fill x lsa.length.toNat (image.lsa lsa)]

def prologue (v : Vertex) : List (Op Local) :=
  copyOf .v z.vertex (image.vertex v.lsa.key) ++ copyLsa image .lsah v.lsa ++
    if v.lsa.type = Lsa.routerLsa ∧ v.lsa.isRouterLsaVirtual then
      copyOf .areaCopy z.ospfArea image.area ++ [.free .areaCopy]
    else []

def checkColour (v : Lsa) : Item → List (Op Local)
  | .attached _ => []
  | .link _ _ =>
    match lookupColoured area v with
    | none => []
    | some lsa =>
      copyOf .testLsaCopy z.ospfLsa (image.ospfLsa lsa.key) ++ copyLsa image .testLsah lsa.data ++
        [.free .testLsah, .free .testLsaCopy]

def isNearer (k : LsaKey) (s : State) (item : Item) (w : OspfLsa) : Bool :=
  (s.vertex (s.candidate.array (s.stat w.key).toNat)).distance < s.distanceBy k item

def isCandidate (k : LsaKey) (s : State) (w : OspfLsa) : Bool :=
  !isMaxAge w && (w.data.hasLink (s.vertex k).lsa).isSome && 0 ≤ s.stat w.key

def compareCandidate (k : LsaKey) (s : State) (item : Item) (w : OspfLsa) : List (Op Local) :=
  if isCandidate k s w then
    copyOf .wCopy z.vertex (image.vertex w.key) ++
      if isNearer k s item w then [] else [.free .wCopy]
  else []

def visit (v : Lsa) (k : LsaKey) (s : State) (item : Item) : List (Op Local) :=
  if item.skipped (ignored area beyond v) then []
  else match target area item with
    | none => []
    | some w =>
      copyOf .wLsaCopy z.ospfLsa (image.ospfLsa w.key) ++
      copyOf .wLsah lsaHeaderSize (image.lsa w.data) ++ compareCandidate z image k s item w ++
      [.free .wLsaCopy, .free .wLsah]

def loopCalls (v : Lsa) (k : LsaKey) : State → List Item → List (Op Local)
  | _, [] => []
  | s, item :: rest =>
    checkColour z image area v item ++ visit z image area beyond v k s item ++
      match examineSkipping (ignored area beyond v) isMaxAge area k s item with
      | none => []
      | some s => loopCalls v k s rest

def heapCalls (s : State) (k : LsaKey) : List (Op Local) :=
  prologue z image (s.vertex k) ++
    loopCalls z image area beyond (s.vertex k).lsa k (markTransit s k)
      (itemsUpTo (s.vertex k).lsa (limit (s.vertex k).lsa)) ++
    [.free .v, .free .lsah]

def onHeap (s : State) (k : LsaKey) (h : Heap) : Machine Local :=
  (Machine.start h).execute (heapCalls z image area beyond s k)

/-- By whatever path the pluglet returns, the blocks taken are those taken before. -/
def HeapNeutral (s : State) (k : LsaKey) (h : Heap) : Prop :=
  (onHeap z image area beyond s k h).returned = true ∨ spfNext area beyond s k ≠ none →
    ∀ b, Taken (onHeap z image area beyond s k h).heap b ↔ Taken h b

end

def leadsNearer (area : Area) (beyond : Nat → UInt32) (v : Lsa) (k : LsaKey) (s : State)
    (item : Item) : Bool :=
  !item.skipped (ignored area beyond v) && match target area item with
    | none => false
    | some w => isCandidate k s w && isNearer k s item w

def meetsNearer (area : Area) (beyond : Nat → UInt32) (v : Lsa) (k : LsaKey) :
    State → List Item → Bool
  | _, [] => false
  | s, item :: rest => leadsNearer area beyond v k s item ||
    match examineSkipping (ignored area beyond v) isMaxAge area k s item with
    | none => false
    | some s => meetsNearer area beyond v k s rest

structure Working (l : Ledger Local) : Prop where
  v : l.held .v ≠ none
  lsah : l.held .lsah ≠ none
  others : ∀ x, x ≠ .v → x ≠ .lsah → x ≠ .wCopy → l.held x = none

def spoiled (l : Ledger Local) : Bool := l.lost || (l.held .wCopy).isSome

section

variable {z : Sizes} {image : Images} {area : Area} {beyond : Nat → UInt32}
variable {l : Ledger Local} {v : Lsa} {k : LsaKey} {s : State} {item : Item}

theorem copyOf_checked {x : Local} (ho : Local.v ≠ x) (hh : l.held .v ≠ none) {sz : UInt32}
    (pos : 0 < sz.toNat) (hs : sz.toNat ≤ 2 ^ 32 - 4) (bytes : Nat → UInt8) :
    l.Checked .v (copyOf x sz bytes) :=
  ⟨⟨pos,hs⟩,⟨hh,ho⟩,⟨sz.toNat,by simp [book],le_rfl⟩,trivial,trivial⟩

theorem copyOf_book (x : Local) (sz : UInt32) (bytes : Nat → UInt8) :
    l.bookAll (copyOf x sz bytes) =
      ⟨update l.held x (some sz.toNat), l.lost || (l.held x).isSome⟩ := rfl

theorem copyLsa_checked {x : Local} (ho : Local.v ≠ x) (hh : l.held .v ≠ none) (lsa : Lsa) :
    l.Checked .v (copyLsa image x lsa) := by
  have hs := lsa.length.toNat_lt
  refine checked_append.mpr ⟨copyOf_checked ho hh (by decide) (by decide) _,?_⟩
  simp [copyOf_book,Checked,Legal,Pinned,book,hh,ho]
  omega

theorem copyLsa_book (x : Local) (lsa : Lsa) : l.bookAll (copyLsa image x lsa) =
    ⟨update l.held x (some lsa.length.toNat), l.lost || (l.held x).isSome⟩ := by
  rw [copyLsa,bookAll_append,copyOf_book]
  simp [bookAll,book]

theorem ledger_ext {l l' : Ledger Local} (hh : ∀ x, l'.held x = l.held x) (hl : l'.lost = l.lost) :
    l' = l := by
  obtain ⟨_,_⟩ := l
  obtain ⟨_,_⟩ := l'
  simp_all [funext_iff]

theorem checkColour_spec (hw : Working l) : l.Checked .v (checkColour z image area v item) ∧
    l.bookAll (checkColour z image area v item) = l := by
  have copy := hw.others .testLsaCopy (by simp) (by simp) (by simp)
  have hdr := hw.others .testLsah (by simp) (by simp) (by simp)
  cases item with
  | attached rtr => exact ⟨trivial,rfl⟩
  | link pos link =>
    cases hf : lookupColoured area v with
    | none =>
      simp only [checkColour,hf]
      exact ⟨trivial,rfl⟩
    | some lsa =>
      simp only [checkColour,hf,checked_append,bookAll_append,copyLsa_book,copyOf_book]
      refine ⟨⟨⟨copyOf_checked (by simp) hw.v z.positive.2.1 z.small.2.1 _,
        copyLsa_checked (by simp) ?_ _⟩,?_⟩,ledger_ext (fun x => ?_) ?_⟩
      · simp [hw.v]
      · simp [Checked,Legal,Pinned,book]
      · cases x <;> simp [bookAll,book,copy,hdr]
      · simp [bookAll,book,copy,hdr]

theorem compareCandidate_spec (hh : l.held .v ≠ none) (w : OspfLsa) :
    l.Checked .v (compareCandidate z image k s item w) ∧
    (∀ x, x ≠ .wCopy → (l.bookAll (compareCandidate z image k s item w)).held x = l.held x) ∧
    spoiled (l.bookAll (compareCandidate z image k s item w)) =
      (spoiled l || (isCandidate k s w && isNearer k s item w)) := by
  unfold compareCandidate
  cases isCandidate k s w with
  | false => simp [Checked,bookAll]
  | true =>
    have hc := @copyOf_checked l .wCopy (by simp) hh z.vertex z.positive.1 z.small.1
      (image.vertex w.key)
    cases isNearer k s item w with
    | false =>
      simp only [↓reduceIte,Bool.false_eq_true,checked_append,bookAll_append,copyOf_book,hc]
      simp [Checked,Legal,Pinned,bookAll,book,spoiled]
      intro x ho
      simp [ho]
    | true =>
      simp only [↓reduceIte,append_nil,copyOf_book,hc]
      simp [spoiled]
      intro x ho
      simp [ho]

theorem visit_spec (hw : Working l) : l.Checked .v (visit z image area beyond v k s item) ∧
    Working (l.bookAll (visit z image area beyond v k s item)) ∧
    spoiled (l.bookAll (visit z image area beyond v k s item)) =
      (spoiled l || leadsNearer area beyond v k s item) := by
  have copy := hw.others .wLsaCopy (by simp) (by simp) (by simp)
  have hdr := hw.others .wLsah (by simp) (by simp) (by simp)
  unfold visit leadsNearer
  by_cases hs : item.skipped (ignored area beyond v)
  · simp only [hs,↓reduceIte,Bool.not_true,Bool.false_and,Bool.or_false]
    exact ⟨trivial,hw,rfl⟩
  simp only [hs,Bool.false_eq_true,↓reduceIte,Bool.not_false,Bool.true_and]
  cases target area item with
  | none =>
    simp only [Bool.or_false]
    exact ⟨trivial,hw,rfl⟩
  | some w =>
    simp only [checked_append,bookAll_append,copyOf_book]
    obtain ⟨hc,hh,hl⟩ := @compareCandidate_spec z image
      ⟨update (update l.held .wLsaCopy (some z.ospfLsa.toNat)) .wLsah
        (some lsaHeaderSize.toNat), (l.lost || (l.held .wLsaCopy).isSome) ||
          (update l.held .wLsaCopy (some z.ospfLsa.toNat) .wLsah).isSome⟩ k s item
      (by simp [hw.v]) w
    generalize bookAll _ (compareCandidate z image k s item w) = after at hh hl
    refine ⟨⟨⟨⟨copyOf_checked (by simp) hw.v z.positive.2.1 z.small.2.1 _,
      copyOf_checked (by simp) (by simp [hw.v]) (by decide) (by decide) _⟩,hc⟩,
      ?_⟩,⟨?_,?_,?_⟩,?_⟩
    · simp [Checked,Legal,Pinned,book,hh]
    · simp [bookAll,book,hh,hw.v]
    · simp [bookAll,book,hh,hw.lsah]
    · intro x notV notLsah notCopy
      have none := hw.others x notV notLsah notCopy
      cases x <;> simp_all [bookAll,book]
    · simpa [spoiled,bookAll,book,copy,hdr] using hl

theorem loopCalls_spec (hw : Working l) (items : List Item) :
    l.Checked .v (loopCalls z image area beyond v k s items) ∧
    Working (l.bookAll (loopCalls z image area beyond v k s items)) ∧
    spoiled (l.bookAll (loopCalls z image area beyond v k s items)) =
      (spoiled l || meetsNearer area beyond v k s items) := by
  induction items generalizing s l with
  | nil =>
    simp only [loopCalls,meetsNearer,Bool.or_false]
    exact ⟨trivial,hw,rfl⟩
  | cons item rest ih =>
    obtain ⟨hc,eq⟩ := @checkColour_spec z image area l v item hw
    obtain ⟨hv,hw',spoils⟩ := @visit_spec z image area beyond l v k s item hw
    simp only [loopCalls,meetsNearer,checked_append,bookAll_append,eq]
    generalize l.bookAll (visit z image area beyond v k s item) = after at hw' spoils
    cases examineSkipping (ignored area beyond v) isMaxAge area k s item with
    | none =>
      simp only [Bool.or_false]
      exact ⟨⟨⟨hc,hv⟩,trivial⟩,hw',spoils⟩
    | some s' =>
      obtain ⟨hl,hw'',spoils'⟩ := @ih after s' hw'
      exact ⟨⟨⟨hc,hv⟩,hl⟩,hw'',by rw [spoils',spoils,Bool.or_assoc]⟩

def begun (z : Sizes) : Ledger Local := empty.book (.malloc .v z.vertex)

def prepare (z : Sizes) (image : Images) (v : Vertex) : List (Op Local) :=
  [.fill .v z.vertex.toNat (image.vertex v.lsa.key)] ++ copyLsa image .lsah v.lsa ++
    if v.lsa.type = Lsa.routerLsa ∧ v.lsa.isRouterLsaVirtual then
      copyOf .areaCopy z.ospfArea image.area ++ [.free .areaCopy]
    else []

theorem prepare_spec (u : Vertex) : (begun z).Checked .v (prepare z image u) ∧
    Working ((begun z).bookAll (prepare z image u)) ∧
    spoiled ((begun z).bookAll (prepare z image u)) = false := by
  have hf : (begun z).Checked .v [.fill .v z.vertex.toNat (image.vertex u.lsa.key)] :=
    ⟨⟨z.vertex.toNat,by simp [begun,book],le_rfl⟩,trivial,trivial⟩
  have eq : (begun z).bookAll [.fill .v z.vertex.toNat (image.vertex u.lsa.key)] = begun z := rfl
  have hc := @copyLsa_checked image (begun z) .lsah (by simp) (by simp [begun,book]) u.lsa
  simp only [prepare,checked_append,bookAll_append,eq,copyLsa_book,hf,hc,true_and]
  split
  · simp only [checked_append,bookAll_append,copyOf_book]
    refine ⟨⟨copyOf_checked (by simp) ?_ z.positive.2.2 z.small.2.2 _,?_⟩,⟨?_,?_,?_⟩,?_⟩
    · simp [begun,book]
    · simp [Checked,Legal,Pinned]
    · simp [begun,bookAll,book]
    · simp [begun,bookAll,book]
    · intro x notV notLsah notCopy
      cases x <;> simp_all [begun,bookAll,book,empty]
    · simp [spoiled,begun,bookAll,book,empty]
  · refine ⟨trivial,⟨?_,?_,?_⟩,?_⟩
    · simp [begun,bookAll,book]
    · simp [begun,bookAll,book]
    · intro x notV notLsah notCopy
      cases x <;> simp_all [begun,bookAll,book,empty]
    · simp [spoiled,begun,bookAll,book,empty]

theorem epilogue_spec (hw : Working l) : l.Checked .v [.free .v, .free .lsah] ∧
    ((l.bookAll [.free .v, .free .lsah]).Balanced ↔ spoiled l = false) := by
  refine ⟨by simp [Checked,Legal,Pinned,book,hw.v,hw.lsah],?_⟩
  simp only [Ledger.Balanced,bookAll,foldl_cons,foldl_nil,book,spoiled,
    Bool.or_eq_false_iff,isSome_eq_false_iff,isNone_iff_eq_none]
  constructor
  · rintro ⟨none,hk⟩
    exact ⟨hk,by simpa using none .wCopy⟩
  rintro ⟨hk,copy⟩
  refine ⟨fun x => ?_,hk⟩
  have others := hw.others x
  cases x <;> simp_all

theorem heapCalls_eq (s : State) (k : LsaKey) : heapCalls z image area beyond s k =
    .malloc .v z.vertex :: (prepare z image (s.vertex k) ++
      loopCalls z image area beyond (s.vertex k).lsa k (markTransit s k)
        (itemsUpTo (s.vertex k).lsa (limit (s.vertex k).lsa)) ++ [.free .v, .free .lsah]) := rfl

end

end Pluglet

namespace Parallel

def root : OspfLsa := Pair.router 1 1 [2, 0x0A000001, 0x0100000A, 2, 0x0A000101, 0x01000014]

def neighbor : OspfLsa := Pair.router 1 2 [1, 0x0A000002, 0x0100000A, 1, 0x0A000102, 0x01000014]

def area : Area where
  lsdb := [root, neighbor]
  routerLsaSelf := root
  oiflist := [⟨1, .pointToPoint, 0, 1, 0x0A000001, 30, [⟨2, 0x0A000002⟩]⟩,
    ⟨2, .pointToPoint, 1, 2, 0x0A000101, 30, [⟨2, 0x0A000102⟩]⟩]
  vlinks := []
  now := 0
  distinct := by simp [root, neighbor, Pair.router, OspfLsa.key, Lsa.key]
  selfStored := mem_cons_self
  selfRouter := rfl

def sizes : Pluglet.Sizes := ⟨48, 112, 600, by decide, by decide⟩

def images : Pluglet.Images := ⟨fun _ _ => 0, fun _ _ => 0, fun _ _ => 0, fun _ => 0⟩

def heap : Heap := fresh exampleRegion fun _ => 0

end Parallel

end Frr.Spf
