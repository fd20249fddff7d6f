import Frr.PluginHeapSession

/-! The block list: what following `next_block` from `heap_start` visits. It is cut when the heap
grows after its last block was divided, because `divide_slot` does not move `heap_last_block`. -/
namespace Frr.PluginHeap

open ByteMemory List Option Trace

/-- Following `next_block` from an address visits exactly these blocks and ends. -/
def Chain (h : Heap) : List Nat → Nat → Prop
  | [], address => address = 0
  | block :: rest, address => address = block ∧ block ≠ 0 ∧ Chain h rest (h.nextBlock block)

def Blocks (h : Heap) (blocks : List Nat) : Prop :=
  if h.heapStart = h.heapEnd then blocks = [] else Chain h blocks h.heapStart

/-- The list is ordered by address, ends at `heap_last_block`, and misses no header ever written. -/
def Linked (h : Heap) : Prop :=
  ∃ blocks, Blocks h blocks ∧ blocks.Pairwise (· < ·) ∧
    blocks.getLast?.getD 0 = h.heapLastBlock ∧ ∀ b ∈ h.headers, b ∈ blocks

section

variable {r : Region} {h h' : Heap} {blocks : List Nat} {address : Nat}

theorem Chain.unique {other : List Nat} (chain : Chain h blocks address)
    (chain' : Chain h other address) : blocks = other := by
  induction blocks generalizing other address with
  | nil =>
    cases other with
    | nil => rfl
    | cons block rest => exact absurd (chain'.1.symm.trans chain) chain'.2.1
  | cons block rest ih =>
    cases other with
    | nil => exact absurd (chain.1.symm.trans chain') chain.2.1
    | cons block' rest' =>
      obtain rfl : block = block' := chain.1.symm.trans chain'.1
      rw [ih chain.2.2 chain'.2.2]

theorem Blocks.unique {other : List Nat} (walk : Blocks h blocks) (walk' : Blocks h other) :
    blocks = other := by
  simp only [Blocks] at walk walk'
  split at walk
  · next empty =>
    rw [if_pos empty] at walk'
    rw [walk,walk']
  next nonempty =>
  rw [if_neg nonempty] at walk'
  exact walk.unique walk'

theorem Chain.headers (layout : Layout r h) (chain : Chain h blocks address)
    (on : address = 0 ∨ address ∈ h.headers) : ∀ b ∈ blocks, b ∈ h.headers := by
  induction blocks generalizing address with
  | nil => simp
  | cons block rest ih =>
    obtain ⟨rfl,hn,chain⟩ := chain
    have hm := on.resolve_left hn
    intro b hb
    rcases mem_cons.mp hb with rfl | hb
    · exact hm
    · exact ih chain ((layout.next address hm).imp_right And.left) b hb

theorem Blocks.headers (layout : Layout r h) (walk : Blocks h blocks) :
    ∀ b ∈ blocks, b ∈ h.headers := by
  simp only [Blocks] at walk
  split at walk
  · simp [walk]
  next nonempty =>
  refine walk.headers layout (.inr ?_)
  rw [layout.start] at nonempty ⊢
  exact layout.first (Ne.symm nonempty)

theorem Chain.congr (chain : Chain h blocks address)
    (eq : ∀ b ∈ blocks, h'.nextBlock b = h.nextBlock b) : Chain h' blocks address := by
  induction blocks generalizing address with
  | nil => exact chain
  | cons block rest ih =>
    obtain ⟨rfl,hn,chain⟩ := chain
    refine ⟨rfl,hn,?_⟩
    rw [eq address (.head _)]
    exact ih chain (fun b hb => eq b (.tail _ hb))

theorem Chain.final {front : List Nat} {block : Nat}
    (chain : Chain h (front ++ [block]) address) : h.nextBlock block = 0 := by
  induction front generalizing address with
  | nil => exact chain.2.2
  | cons _ front ih => exact ih chain.2.2

theorem Chain.insert {front back : List Nat} {slot new : Nat}
    (chain : Chain h (front ++ slot :: back) address)
    (eq : ∀ b ∈ front ++ back, h'.nextBlock b = h.nextBlock b)
    (slotNext : h'.nextBlock slot = new) (newNext : h'.nextBlock new = h.nextBlock slot)
    (hn : new ≠ 0) : Chain h' (front ++ slot :: new :: back) address := by
  induction front generalizing address with
  | nil =>
    obtain ⟨rfl,slotNonzero,chain⟩ := chain
    refine ⟨rfl,slotNonzero,slotNext,hn,?_⟩
    rw [newNext]
    exact chain.congr eq
  | cons block front ih =>
    obtain ⟨rfl,blockNonzero,chain⟩ := chain
    refine ⟨rfl,blockNonzero,?_⟩
    rw [eq address (.head _)]
    exact ih chain (fun b hb => eq b (.tail _ hb))

theorem sorted_length {low high : Nat} (hs : blocks.Pairwise (· < ·))
    (bounds : ∀ b ∈ blocks, low ≤ b ∧ b < high) : blocks.length ≤ high-low := by
  induction blocks generalizing low with
  | nil => simp
  | cons block rest ih =>
    have hh := bounds block (.head _)
    have hl : rest.length ≤ high - (block+1) := ih (pairwise_cons.mp hs).2 fun b hb =>
      ⟨(pairwise_cons.mp hs).1 b hb,(bounds b (.tail _ hb)).2⟩
    simp only [length_cons]
    omega

structure SameLinks (h h' : Heap) : Prop where
  start : h'.heapStart = h.heapStart
  brk : h'.heapEnd = h.heapEnd
  last : h'.heapLastBlock = h.heapLastBlock
  headers : h'.headers = h.headers
  nexts : ∀ b ∈ h.headers, h'.nextBlock b = h.nextBlock b

theorem SameLinks.walk (links : SameLinks h h') (layout : Layout r h) {blocks : List Nat}
    (walk : Blocks h blocks) : Blocks h' blocks := by
  have mems := walk.headers layout
  simp only [Blocks,links.start,links.brk] at walk ⊢
  split at walk
  · next empty => rwa [if_pos empty]
  next nonempty =>
  rw [if_neg nonempty]
  exact walk.congr fun b hb => links.nexts b (mems b hb)

theorem SameLinks.linked (links : SameLinks h h') (layout : Layout r h) (hl : Linked h) :
    Linked h' := by
  obtain ⟨blocks,walk,hs,last,hc⟩ := hl
  exact ⟨blocks,links.walk layout walk,hs,last.trans links.last.symm,links.headers ▸ hc⟩

theorem SameLinks.symm (links : SameLinks h h') : SameLinks h' h :=
  ⟨links.start.symm,links.brk.symm,links.last.symm,links.headers.symm,
    fun b hb => (links.nexts b (links.headers ▸ hb)).symm⟩

theorem SameLinks.trans {h'' : Heap} (fst : SameLinks h h') (snd : SameLinks h' h'') :
    SameLinks h h'' :=
  ⟨snd.start.trans fst.start,snd.brk.trans fst.brk,snd.last.trans fst.last,
    snd.headers.trans fst.headers,
    fun b hb => (snd.nexts b (fst.headers ▸ hb)).trans (fst.nexts b hb)⟩

section

variable (layout : Layout r h)

include layout

theorem links_of_block {block : Nat} (mem : block ∈ h.headers)
    (start : h'.heapStart = h.heapStart) (brk : h'.heapEnd = h.heapEnd)
    (last : h'.heapLastBlock = h.heapLastBlock) (hdrs : h'.headers = h.headers)
    (ho : ∀ x, x < block ∨ block+metadataSize + h.size block ≤ x → h'.mem x = h.mem x)
    (nextBlock : h'.nextBlock block = h.nextBlock block) : SameLinks h h' := by
  refine ⟨start,brk,last,hdrs,fun b hb => ?_⟩
  by_cases eq : b = block
  · rw [eq,nextBlock]
  refine load_congr _ _ _ _ fun x low high => ho x ?_
  have m := metadataSize_eq
  rcases layout.headers_apart hb mem eq with hbe | ha <;> omega

section

variable {block val : Nat} (mem : block ∈ h.headers) (hb : val < 2 ^ 32)

include mem hb

theorem links_setAvailable : SameLinks h (h.setAvailable block val) := by
  have m := metadataSize_eq
  exact links_of_block layout mem rfl rfl rfl rfl (fun x ha => store_outside 4 h.mem _ _ (by omega))
    (h.setAvailable_self block val hb).2.2.1

theorem links_setId : SameLinks h (h.setId block val) := by
  have m := metadataSize_eq
  exact links_of_block layout mem rfl rfl rfl rfl
    (fun x ha => store_outside 4 h.mem _ _ (by omega)) (h.setId_self block val hb).2.2.1

theorem links_setSize : SameLinks h (h.setSize block val) := by
  have m := metadataSize_eq
  exact links_of_block layout mem rfl rfl rfl rfl
    (fun x ha => store_outside 4 h.mem _ _ (by omega)) (h.setSize_self block val hb).2.2.1

end

theorem links_free {block : Nat} (mem : block ∈ h.headers) :
    SameLinks h (pluginFree h (some (block+metadataSize))) := by
  rw [pluginFree_block layout mem]
  split
  · exact links_setAvailable layout mem (by omega)
  · exact ⟨rfl,rfl,rfl,rfl,fun _ _ => rfl⟩

theorem links_writePayload {block : Nat} (hm : block ∈ h.headers)
    (mem : Memory) (ho : ∀ x, x < block+metadataSize ∨
      block + metadataSize + h.size block ≤ x → mem x = h.mem x) :
    SameLinks h {h with mem := mem} := by
  have m := metadataSize_eq
  refine links_of_block layout hm rfl rfl rfl rfl (fun x ha => ho x (by omega)) ?_
  exact load_congr _ _ _ _ fun x low high => ho x (by omega)

end

theorem pairwise_insert {front back : List Nat} {slot new : Nat}
    (hs : (front ++ slot :: back).Pairwise (· < ·)) (hab : slot < new)
    (hbe : ∀ b ∈ back, new < b) : (front ++ slot :: new :: back).Pairwise (· < ·) := by
  rw [pairwise_append,pairwise_cons] at hs
  obtain ⟨fst,⟨-,hl⟩,hac⟩ := hs
  rw [pairwise_append,pairwise_cons,pairwise_cons]
  refine ⟨fst,⟨?_,hbe,hl⟩,?_⟩
  · intro b hb
    rcases mem_cons.mp hb with rfl | hb
    · exact hab
    · exact hab.trans (hbe b hb)
  intro a ha b hb
  have slotAbove := hac a ha slot (.head _)
  rcases mem_cons.mp hb with rfl | hb
  · exact slotAbove
  rcases mem_cons.mp hb with rfl | hb
  · exact slotAbove.trans hab
  · exact slotAbove.trans (hab.trans (hbe b hb))

theorem Divided.walk (layout : Layout r h) {slot sz : Nat} (mem : slot ∈ h.headers)
    (room : sz + metadataSize < h.size slot) (hd : Divided h h' slot sz)
    {front back : List Nat} (walk : Blocks h (front ++ slot :: back))
    (hs : (front ++ slot :: back).Pairwise (· < ·)) :
    Blocks h' (front ++ slot :: (slot+metadataSize+sz) :: back) ∧
    (front ++ slot :: (slot+metadataSize+sz) :: back).Pairwise (· < ·) := by
  have m := metadataSize_eq
  have mems := walk.headers layout
  have hn : h.heapStart ≠ h.heapEnd := by
    intro he
    rw [Blocks,if_pos he] at walk
    simp at walk
  have around := (pairwise_append.mp hs).2.2
  have ha := (pairwise_cons.mp (pairwise_append.mp hs).2.1).1
  constructor
  · rw [Blocks,if_neg hn] at walk
    rw [Blocks,hd.start,hd.brk,if_neg hn]
    refine walk.insert ?_ hd.slotNext hd.newNext (by omega)
    intro b hb
    have ne : b ≠ slot := by
      rcases mem_append.mp hb with hb | hb
      · exact (around b hb slot (.head _)).ne
      · exact (ha b hb).ne'
    have hb' : b ∈ h.headers := mems b (by
      rcases mem_append.mp hb with hb | hb
      · exact mem_append_left _ hb
      · exact mem_append_right _ (.tail _ hb))
    refine load_congr _ _ _ _ fun x low high => ?_
    rcases layout.headers_apart hb' mem ne with hbe | hbeh
    · exact hd.outside x (by omega) (by omega)
    · exact hd.outside x (by omega) (by omega)
  · refine pairwise_insert hs (by omega) fun b hb => ?_
    have := layout.apart slot mem b (mems b (mem_append_right _ (.tail _ hb))) (ha b hb)
    omega

theorem Appended.walk (layout : Layout r h) {sz : Nat}
    (ha : Appended {h with heapEnd := h.heapEnd + (sz+metadataSize)} h' h.heapEnd sz)
    (walk : Blocks h blocks) (hs : blocks.Pairwise (· < ·))
    (last : blocks.getLast?.getD 0 = h.heapLastBlock) :
    Blocks h' (blocks ++ [h.heapEnd]) ∧ (blocks ++ [h.heapEnd]).Pairwise (· < ·) := by
  have m := metadataSize_eq
  have mems := walk.headers layout
  have low := layout.low
  have hn : h.heapEnd ≠ 0 := by have := r.nonnull; omega
  have brk : h'.heapEnd = h.heapEnd + (sz+metadataSize) := ha.brk
  have hg : h'.heapStart ≠ h'.heapEnd := by
    have : h'.heapStart = r.base := ha.start.trans layout.start
    omega
  have hbe : ∀ b ∈ blocks, b < h.heapEnd := fun b hb => by
    have := (layout.inside b (mems b hb)).2; omega
  constructor
  · rw [Blocks,if_neg hg,ha.start]
    simp only [Blocks] at walk
    split at walk
    · next empty =>
      subst walk
      exact ⟨by simpa using empty,hn,ha.next⟩
    next nonempty =>
    obtain rfl | ⟨front,final,rfl⟩ := blocks.eq_nil_or_concat'
    · exact absurd walk layout.start_ne_zero
    simp only [getLast?_append,getLast?_singleton,some_or,getD_some] at last
    have lastNonzero : h.heapLastBlock ≠ 0 := by
      have := layout.inside final (mems final (by simp))
      have := r.nonnull
      omega
    rw [append_assoc]
    refine walk.insert ?_ (last ▸ ha.lastNext lastNonzero) ?_ hn
    · intro b hb
      simp only [append_nil] at hb
      have ne : b ≠ h.heapLastBlock := by
        rw [← last]
        exact ((pairwise_append.mp hs).2.2 b hb final (by simp)).ne
      exact load_congr _ _ _ _ fun x low high => layout.oldBytes ha b
        (mems b (by simp [hb])) x (by omega) (by omega) (.inr (.inr ne))
    · rw [ha.next,walk.final]
  · rw [pairwise_append]
    exact ⟨hs,by simp,fun b hb c hc => by rw [mem_singleton.mp hc]; exact hbe b hb⟩

/-- The last block is divided: `heap_last_block` is no longer the end of the list. -/
def SplitsLast (h : Heap) (size : UInt32) : Prop :=
  match slotFor h (alignSize size).toNat with
  | none => False
  | some slot => slot = h.heapLastBlock ∧ (alignSize size).toNat + metadataSize < h.size slot

theorem split_walk (layout : Layout r h) {n b : Nat} (hf : slotFor h n = some b)
    (room : n + metadataSize < h.size b) {front back : List Nat}
    (walk : Blocks h (front ++ b :: back)) (hs : (front ++ b :: back).Pairwise (· < ·)) :
    Blocks (divideSlot (h.setAvailable b 0) b n) (front ++ b :: (b+metadataSize+n) :: back) ∧
    (front ++ b :: (b+metadataSize+n) :: back).Pairwise (· < ·) ∧
    (divideSlot (h.setAvailable b 0) b n).heapLastBlock = h.heapLastBlock ∧
    (divideSlot (h.setAvailable b 0) b n).headers = (b+metadataSize+n) :: h.headers := by
  have hm := (slotFor_spec layout hf).1
  have links : SameLinks h (h.setAvailable b 0) := links_setAvailable layout hm (by omega)
  have lay' : Layout r (h.setAvailable b 0) := layout.setAvailable hm (by omega)
  have room' : n + metadataSize < (h.setAvailable b 0).size b :=
    (h.setAvailable_self b 0 (by omega)).1.symm ▸ room
  have hd := divideSlot_spec (h.setAvailable b 0) b n
    (by have := (layout.inside b hm).2; have := layout.high; have := r.fits; omega) room'
  obtain ⟨walk',hs'⟩ := hd.walk lay' hm room' (links.walk layout walk) hs
  exact ⟨walk',hs',hd.last,hd.headers⟩

theorem mem_insert_of_mem {front back : List Nat} {slot new c : Nat}
    (mem : c = new ∨ c ∈ front ++ slot :: back) : c ∈ front ++ slot :: new :: back := by
  simp only [mem_append,mem_cons] at mem ⊢
  tauto

section

variable (layout : Layout r h) (hl : Linked h) {sz : UInt32} {b : Nat}
  (hse : Allocated h (alignSize sz).toNat b h')

include layout hl b hse

theorem Allocated.linked (intact : ¬ SplitsLast h sz) : Linked h' := by
  obtain ⟨blocks,walk,hs,last,hco⟩ := hl
  cases hse with
  | whole hf _ =>
    have hm := (slotFor_spec layout hf).1
    exact (links_setAvailable layout hm (by omega)).linked layout ⟨blocks,walk,hs,last,hco⟩
  | split hf room =>
    obtain ⟨front,back,rfl⟩ := append_of_mem (hco b (slotFor_spec layout hf).1)
    obtain ⟨walk',hs',last',hdrs⟩ := split_walk layout hf room walk hs
    refine ⟨_,walk',hs',?_,?_⟩
    · -- The divided block is not the last one, so the end of the list stays.
      rw [last']
      cases back with
      | nil =>
        simp only [getLast?_append,getLast?_singleton,some_or,getD_some] at last
        exact absurd (by simpa [SplitsLast,hf] using ⟨last,room⟩) intact
      | cons c back => simpa [getLast?_append,getLast?_cons_cons] using last
    · intro c hc
      rw [hdrs] at hc
      exact mem_insert_of_mem ((mem_cons.mp hc).imp_right (hco c))
  | grown _ room =>
    have ha := layout.appended (alignSize sz).toNat_lt
    obtain ⟨walk',hs'⟩ := ha.walk layout walk hs last
    refine ⟨_,walk',hs',by rw [ha.last]; simp,?_⟩
    intro c hc
    rw [ha.headers] at hc
    rcases mem_cons.mp hc with rfl | hc
    · simp
    · exact mem_append_left _ (hco c hc)

theorem Allocated.not_linked (hs : SplitsLast h sz) : ¬ Linked h' := by
  obtain ⟨blocks,walk,hso,last,hc⟩ := hl
  cases hse with
  | whole hf tight =>
    simp only [SplitsLast,hf] at hs
    omega
  | grown none _ => simp [SplitsLast,none] at hs
  | split hf room =>
    simp only [SplitsLast,hf] at hs
    obtain ⟨front,back,rfl⟩ := append_of_mem (hc b (slotFor_spec layout hf).1)
    obtain ⟨walk',hs',last',-⟩ := split_walk layout hf room walk hso
    rintro ⟨ho,otherWalk,-,otherLast,-⟩
    obtain rfl := otherWalk.unique walk'
    -- The end of the list comes after the new slot, `heap_last_block` before it.
    rw [last',← hs.1,getLast?_append,getLast?_cons_cons,
      getLast?_eq_getLast_of_ne_nil (by simp),some_or,getD_some] at otherLast
    have inBack := getLast_mem (l := (b+metadataSize + (alignSize sz).toNat) :: back) (by simp)
    have ha := (pairwise_cons.mp (pairwise_append.mp hs').2.1).1 _ inBack
    omega

end

end

/-- The pointers belong to blocks, held or given back, and a store stays inside a payload. -/
def InBlocks (s : Session) : Call → Prop
  | .free ptr | .realloc ptr _ => ptr = none ∨ ∃ b ∈ s.heap.headers, ptr = some (b+metadataSize)
  | .write address _ => ∃ b ∈ s.heap.headers, b + metadataSize ≤ address ∧
      address < b+metadataSize + s.heap.size b
  | _ => True

def demand (s : Session) : Call → Option UInt32
  | .malloc size | .mallocWithId _ size | .realloc none size => some size
  | .realloc (some ptr) size =>
    if s.heap.size (ptr-metadataSize) < size.toNat then some size else none
  | _ => none

def DividesLast (s : Session) (c : Call) : Prop :=
  match demand s c with
  | none => False
  | some size => SplitsLast s.heap size

inductive Effect (s : Session) (c : Call) (h' : Heap) : Prop
  | quiet : ¬ DividesLast s c → SameLinks s.heap h' → Effect s c h'
  | served : demand s c = some size → Allocated s.heap (alignSize size).toNat b grown →
      SameLinks grown h' → Effect s c h'

section

variable {r : Region} {s : Session}

theorem not_splits_of_refused (layout : Layout r s.heap) {sz : UInt32}
    (hr : allocate s.heap sz = none) : ¬ SplitsLast s.heap sz := by
  intro hs
  cases hf : slotFor s.heap (alignSize sz).toNat with
  | none => simp [SplitsLast,hf] at hs
  | some slot =>
    simp only [SplitsLast,hf] at hs
    have hse := (allocate_iff layout sz).mpr (.split hf hs.2)
    rw [hr] at hse
    contradiction

theorem SameLinks.refl (h : Heap) : SameLinks h h := ⟨rfl,rfl,rfl,rfl,fun _ _ => rfl⟩

theorem refused_effect (layout : Layout r s.heap) {c : Call} {sz : UInt32}
    (ha : demand s c = some sz) (hr : allocate s.heap sz = none) : Effect s c s.heap :=
  .quiet (by simpa [DividesLast,ha] using not_splits_of_refused layout hr) (.refl _)

/-- Such a call keeps the layout, and affects the list in one of two ways. -/
theorem call_effect (layout : Layout r s.heap) {c : Call} (hi : InBlocks s c)
    (hf : Moves s c → RoundsUp c) :
    Layout r (advance s c).heap ∧ Effect s c (advance s c).heap := by
  have m := metadataSize_eq
  have mallocCase : ∀ sz : UInt32, Layout r (pluginMalloc s.heap sz).2 ∧
      ∀ c, demand s c = some sz → Effect s c (pluginMalloc s.heap sz).2 := by
    intro sz
    cases hs : allocate s.heap sz with
    | none =>
      simp only [pluginMalloc,hs]
      exact ⟨layout,fun c has => refused_effect layout has hs⟩
    | some pair =>
      simp only [pluginMalloc,hs]
      exact ⟨(allocate_handed layout hs).layout,
        fun c has => .served has ((allocate_iff layout sz).mp hs) (.refl _)⟩
  cases c with
  | malloc sz => exact ⟨(mallocCase sz).1,(mallocCase sz).2 _ rfl⟩
  | mallocWithId id sz =>
    cases hs : allocate s.heap sz with
    | none =>
      have eq : (advance s (.mallocWithId id sz)).heap = s.heap := by
        simp [advance,call,pluginMallocWithId,hs]
      rw [eq]
      exact ⟨layout,refused_effect layout rfl hs⟩
    | some pair =>
      obtain ⟨b,hg⟩ := pair
      have ha : (advance s (.mallocWithId id sz)).heap = hg.setId b id.toNat := by
        simp [advance,call,pluginMallocWithId,hs]
      have hh := allocate_handed layout hs
      rw [ha]
      exact ⟨hh.layout.setId hh.member id.toNat_lt,.served rfl ((allocate_iff layout sz).mp hs)
        (links_setId hh.layout hh.member id.toNat_lt)⟩
  | free ptr =>
    rcases hi with rfl | ⟨b,hb,rfl⟩
    · exact ⟨layout,.quiet (by simp [DividesLast,demand]) (.refl _)⟩
    exact ⟨(confined_free layout hb).layout,
      .quiet (by simp [DividesLast,demand]) (links_free layout hb)⟩
  | realloc ptr sz =>
    rcases hi with rfl | ⟨b,hb,rfl⟩
    · exact ⟨(mallocCase sz).1,(mallocCase sz).2 _ rfl⟩
    have out := pluginRealloc_block layout hb sz
    have ha : (advance s (.realloc (some (b+metadataSize)) sz)).heap =
      (pluginRealloc s.heap (some (b+metadataSize)) sz).2 := rfl
    rw [ha]
    generalize pluginRealloc s.heap (some (b+metadataSize)) sz = result at out
    obtain ⟨hr,heap⟩ := result
    cases out with
    | kept hsm =>
      refine ⟨layout.shrink hb hsm,.quiet ?_ (links_setSize layout hb sz.toNat_lt)⟩
      simp [DividesLast,demand,Nat.not_lt.mpr hsm]
    | refused hl none =>
      refine ⟨(confined_free layout hb).layout,.quiet ?_ (links_free layout hb)⟩
      simpa [DividesLast,demand,hl] using not_splits_of_refused layout none
    | moved hl hs =>
      rename_i tgt hg
      have hh := allocate_handed layout hs
      have hm : Moves s (.realloc (some (b+metadataSize)) sz) := by
        simpa [Moves,hs] using hl
      have hal := (alignSize_toNat sz (hf hm)).1
      have hin : ∀ x, x < tgt+metadataSize ∨
          tgt + metadataSize + hg.size tgt ≤ x →
          copy hg.mem (tgt+metadataSize) (b+metadataSize) (s.heap.size b) x =
            hg.mem x := by
        intro x haw
        have := hh.size
        exact copy_outside hg.mem _ _ _ (by omega)
      have hc := confined_writePayload hh.layout hh.member _ hin
      have links := links_writePayload hh.layout hh.member _ hin
      have hb' := hc.subset b (hh.subset b hb)
      exact ⟨(confined_free hc.layout hb').layout,.served (by simp [demand,hl])
        ((allocate_iff layout sz).mp hs) (links.trans (links_free hc.layout hb'))⟩
  | getMemoryWithId id => exact ⟨layout,.quiet (by simp [DividesLast,demand]) (.refl _)⟩
  | write address val =>
    obtain ⟨b,hb,low,high⟩ := hi
    have hou : ∀ x, x < b+metadataSize ∨ b+metadataSize + s.heap.size b ≤ x →
        poke s.heap.mem address val x = s.heap.mem x :=
      fun x haw => poke_other _ _ (by omega)
    exact ⟨(confined_writePayload layout hb _ hou).layout,
      .quiet (by simp [DividesLast,demand]) (links_writePayload layout hb _ hou)⟩

/-- One step decides: the list stays whole unless its last block is divided. -/
theorem linked_step (layout : Layout r s.heap) (hl : Linked s.heap) {c : Call}
    (hi : InBlocks s c) (hf : Moves s c → RoundsUp c) :
    Linked (advance s c).heap ↔ ¬ DividesLast s c := by
  obtain ⟨-,effect⟩ := call_effect layout hi hf
  cases effect with
  | quiet hw links => exact iff_of_true (links.linked layout hl) hw
  | served has ha links =>
    rename_i sz b hg
    have grownLayout := (ha.handed layout (alignSize sz).toNat_lt).layout
    rw [DividesLast,has]
    constructor
    · intro haf hs
      refine ha.not_linked layout hl hs ?_
      exact links.symm.linked (call_effect layout hi hf).1 haf
    · exact fun hw => links.linked grownLayout (ha.linked layout hl hw)

end

theorem start_linked (r : Region) (mem : Memory) : Linked (start r mem).heap :=
  ⟨[],by simp [Blocks,start,fresh],.nil,rfl,by simp [start,fresh]⟩

/-- The list reaches every header ever written, in order and up to `heap_last_block`, exactly as
long as no call divides the last block. -/
theorem list_complete_iff_last_undivided (r : Region) (mem : Memory) (calls : List Call)
    (disciplined : Throughout advance (fun s c => InBlocks s c ∧ (Moves s c → RoundsUp c))
      calls (start r mem)) :
    Throughout advance (fun s c => Linked (advance s c).heap) calls (start r mem) ↔
      Throughout advance (fun s c => ¬ DividesLast s c) calls (start r mem) := by
  have init : Layout r (start r mem).heap := fresh_layout r mem
  have hl := start_linked r mem
  generalize start r mem = s at disciplined init hl
  induction calls generalizing s with
  | nil => exact Iff.rfl
  | cons c calls ih =>
    obtain ⟨⟨hi,hf⟩,hla⟩ := disciplined
    have step := linked_step init hl hi hf
    have layout := (call_effect init hi hf).1
    rw [throughout_cons,throughout_cons,step]
    exact and_congr_right fun hw => ih _ hla layout (step.mpr hw)

theorem list_complete_after_first_fit : Throughout advance (fun s c => Linked (advance s c).heap)
      [.malloc 100, .malloc 8, .free (some 4120), .malloc 16] (start page blank) := by
  refine (list_complete_iff_last_undivided page blank
    [.malloc 100, .malloc 8, .free (some 4120), .malloc 16] ?_).mpr ⟨?_,?_,?_,?_,trivial⟩
  · refine ⟨⟨trivial,False.elim⟩,⟨trivial,False.elim⟩,⟨.inr ⟨4096,?_,rfl⟩,False.elim⟩,
      ⟨trivial,False.elim⟩,trivial⟩
    exact .tail _ (mem_singleton.mpr rfl)
  · exact False.elim
  · exact False.elim
  · exact False.elim
  · exact fun hd => absurd hd.1 (by decide)

/-- A freed last block is divided, and the next extension cuts its second half off. -/
theorem divided_last_block_is_lost :
    Throughout advance (fun s c => InBlocks s c ∧ (Moves s c → RoundsUp c))
      [.malloc 100, .free (some 4120), .malloc 4, .malloc 100] (start page blank) ∧
    ¬ Throughout advance (fun s c => Linked (advance s c).heap)
      [.malloc 100, .free (some 4120), .malloc 4, .malloc 100] (start page blank) := by
  constructor
  · exact ⟨⟨trivial,False.elim⟩,⟨.inr ⟨4096,mem_singleton.mpr rfl,rfl⟩,False.elim⟩,
      ⟨trivial,False.elim⟩,⟨trivial,False.elim⟩,trivial⟩
  rintro ⟨-,-,-,⟨blocks,walk,-,-,hc⟩,-⟩
  have hv : Blocks (run advance
      [.malloc 100, .free (some 4120), .malloc 4, .malloc 100] (start page blank)).heap
      [4096, 4220] := ⟨rfl,by decide,rfl,by decide,rfl⟩
  obtain rfl := walk.unique hv
  have hl : 4124 ∈ [4096, 4220] := hc 4124 (.tail _ (.head _))
  exact absurd hl (by decide)

end Frr.PluginHeap
