import Frr.PluginHeap

/-! How the blocks of a plugin heap lie in its memory: every header ever written, whether or not the
block list still reaches it. -/
namespace Frr.PluginHeap

open ByteMemory List Heap

theorem metadataSize_eq : metadataSize = 24 := rfl
/-- The byte ranges `[a, a + m)` and `[b, b + n)` do not meet. -/
def Apart (a m b n : Nat) : Prop := a+m ≤ b ∨ b+n ≤ a

namespace Heap

theorem size_lt (h : Heap) (b : Nat) : h.size b < 2 ^ 32 := load_lt 4 h.mem b

/-- Two heaps agree on the metadata of the block at `b`. -/
def SameHeader (h h' : Heap) (b : Nat) : Prop :=
  ∀ x, b ≤ x → x < b+metadataSize → h'.mem x = h.mem x

variable {h h' : Heap} {b : Nat}

section

variable (hs : SameHeader h h' b)

include hs

theorem SameHeader.size : h'.size b = h.size b :=
  load_congr _ _ _ _ fun x low high => hs x low (by have := metadataSize_eq; omega)

theorem SameHeader.available : h'.available b = h.available b :=
  load_congr _ _ _ _ fun x low high =>
    hs x (by omega) (by have := metadataSize_eq; omega)

theorem SameHeader.nextBlock : h'.nextBlock b = h.nextBlock b :=
  load_congr _ _ _ _ fun x low high =>
    hs x (by omega) (by have := metadataSize_eq; omega)

theorem SameHeader.id : h'.id b = h.id b := load_congr _ _ _ _ fun x low high =>
    hs x (by omega) (by have := metadataSize_eq; omega)

theorem SameHeader.magic : h'.magic b = h.magic b := load_congr _ _ _ _ fun x low high =>
    hs x (by omega) (by have := metadataSize_eq; omega)

end

section

variable (h : Heap) (b v : Nat) (hb : v < 2 ^ 32)

include hb

theorem setAvailable_self :
    (h.setAvailable b v).size b = h.size b ∧ (h.setAvailable b v).available b = v ∧
    (h.setAvailable b v).nextBlock b = h.nextBlock b ∧
    (h.setAvailable b v).id b = h.id b ∧ (h.setAvailable b v).magic b = h.magic b := by
  simp (disch := omega) only [setAvailable,Heap.size,available,nextBlock,Heap.id,
    magic,load_store_apart,load_store_same,true_and,and_true]
  exact Nat.mod_eq_of_lt hb

theorem setSize_self : (h.setSize b v).size b = v ∧ (h.setSize b v).available b = h.available b ∧
    (h.setSize b v).nextBlock b = h.nextBlock b ∧
    (h.setSize b v).id b = h.id b ∧ (h.setSize b v).magic b = h.magic b := by
  simp (disch := omega) only [setSize,Heap.size,available,nextBlock,Heap.id,
    magic,load_store_apart,load_store_same,and_true]
  exact Nat.mod_eq_of_lt hb

theorem setId_self : (h.setId b v).size b = h.size b ∧ (h.setId b v).available b = h.available b ∧
    (h.setId b v).nextBlock b = h.nextBlock b ∧
    (h.setId b v).id b = v ∧ (h.setId b v).magic b = h.magic b := by
  simp (disch := omega) only [setId,Heap.size,available,nextBlock,Heap.id,
    magic,load_store_apart,load_store_same,true_and,and_true]
  exact Nat.mod_eq_of_lt hb

end

end Heap

/-- The metadata `divide_slot` leaves behind, and the bytes it does not touch. -/
structure Divided (h h' : Heap) (slot size : Nat) : Prop where
  slotSize : h'.size slot = size
  slotAvailable : h'.available slot = h.available slot
  slotNext : h'.nextBlock slot = slot+metadataSize+size
  slotId : h'.id slot = h.id slot
  slotMagic : h'.magic slot = h.magic slot
  newSize : h'.size (slot+metadataSize+size) = h.size slot - size - metadataSize
  newAvailable : h'.available (slot+metadataSize+size) = 1
  newNext : h'.nextBlock (slot+metadataSize+size) = h.nextBlock slot
  newMagic : h'.magic (slot+metadataSize+size) = magicNumber
  outside : ∀ x, x < slot ∨ slot+metadataSize ≤ x →
    x < slot+metadataSize+size ∨ slot+2*metadataSize+size ≤ x → h'.mem x = h.mem x
  start : h'.heapStart = h.heapStart
  brk : h'.heapEnd = h.heapEnd
  last : h'.heapLastBlock = h.heapLastBlock
  headers : h'.headers = (slot+metadataSize+size) :: h.headers

theorem divideSlot_spec (h : Heap) (slot sz : Nat) (hf : slot + metadataSize + sz < 2 ^ 64)
    (room : sz + metadataSize < h.size slot) : Divided h (divideSlot h slot sz) slot sz := by
  have hb := h.size_lt slot
  have m := metadataSize_eq
  have sizeBound : sz < 2 ^ 32 := by omega
  have restBound : h.size slot - sz - metadataSize < 2 ^ 32 := by omega
  have next : load 8 h.mem (slot+8) < 256 ^ 8 := load_lt 8 h.mem _
  constructor
  all_goals simp only [divideSlot,setSize,setAvailable,setNextBlock,setMagic,
    Heap.size,available,nextBlock,Heap.id,magic] at restBound ⊢
  case outside =>
    intro x awaySlot awayNew
    simp (disch := omega) only [store_outside]
  all_goals simp (disch := omega) only [load_store_apart,load_store_same]
  · exact Nat.mod_eq_of_lt sizeBound
  · exact Nat.mod_eq_of_lt hf
  · exact Nat.mod_eq_of_lt restBound
  · rfl
  · exact Nat.mod_eq_of_lt next
  · rfl

/-- The metadata `extend` writes, and the bytes it does not touch. -/
structure Appended (h h' : Heap) (block size : Nat) : Prop where
  size : h'.size block = size
  available : h'.available block = 0
  next : h'.nextBlock block = 0
  magic : h'.magic block = magicNumber
  id : h'.id block = h.id block
  lastNext : h.heapLastBlock ≠ 0 → h'.nextBlock h.heapLastBlock = block
  outside : ∀ x, x < block ∨ block+metadataSize ≤ x →
    h.heapLastBlock = 0 ∨ x < h.heapLastBlock+8 ∨ h.heapLastBlock+16 ≤ x → h'.mem x = h.mem x
  start : h'.heapStart = h.heapStart
  brk : h'.heapEnd = h.heapEnd
  last : h'.heapLastBlock = block
  headers : h'.headers = block :: h.headers

theorem appendBlock_spec (h : Heap) (block sz : Nat) (hf : block < 2 ^ 64) (sizeBound : sz < 2 ^ 32)
    (ha : h.heapLastBlock = 0 ∨ h.heapLastBlock+metadataSize ≤ block) :
    Appended h (appendBlock h block sz) block sz := by
  have m := metadataSize_eq
  by_cases none : h.heapLastBlock = 0
  · constructor
    all_goals simp only [appendBlock,setSize,setAvailable,setNextBlock,
      setMagic,Heap.size,available,nextBlock,Heap.id,magic,none,ne_eq,
      not_true_eq_false,↓reduceIte,false_implies]
    case outside =>
      intro x awayBlock _
      simp (disch := omega) only [store_outside]
    all_goals simp (disch := omega) only [load_store_apart,load_store_same]
    · exact Nat.mod_eq_of_lt sizeBound
    · rfl
    · rfl
    · rfl
  · have hb : h.heapLastBlock + metadataSize ≤ block := ha.resolve_left none
    constructor
    all_goals simp only [appendBlock,setSize,setAvailable,setNextBlock,
      setMagic,Heap.size,available,nextBlock,Heap.id,magic,none,ne_eq,
      not_false_eq_true,↓reduceIte,true_implies,false_or]
    case outside =>
      intro x awayBlock awayLast
      simp (disch := omega) only [store_outside]
    all_goals simp (disch := omega) only [load_store_apart,load_store_same]
    · exact Nat.mod_eq_of_lt sizeBound
    · rfl
    · rfl
    · rfl
    · exact Nat.mod_eq_of_lt hf

/-- The memory between `heap_start` and `heap_end`. A block may be smaller than the room up to its
successor: `plugin_realloc` shrinks in place. -/
structure Layout (r : Region) (h : Heap) : Prop where
  start : h.heapStart = r.base
  low : r.base ≤ h.heapEnd
  high : h.heapEnd ≤ r.base+memBuffer
  inside : ∀ b ∈ h.headers, r.base ≤ b ∧ b+metadataSize + h.size b ≤ h.heapEnd
  apart : ∀ a ∈ h.headers, ∀ b ∈ h.headers, a < b → a+metadataSize + h.size a ≤ b
  magic : ∀ b ∈ h.headers, h.magic b = magicNumber
  next : ∀ b ∈ h.headers, h.nextBlock b = 0 ∨ (h.nextBlock b ∈ h.headers ∧ b < h.nextBlock b)
  first : h.heapEnd ≠ r.base → r.base ∈ h.headers
  last : h.heapLastBlock = 0 ∨ h.heapLastBlock ∈ h.headers
  none : h.heapLastBlock = 0 → h.headers = []

theorem fresh_layout (r : Region) (mem : Memory) : Layout r (fresh r mem) := by
  constructor <;> simp [fresh]

namespace Layout

variable {r : Region} {h h' : Heap}

section

variable (lay : Layout r h)

include lay

theorem start_ne_zero : h.heapStart ≠ 0 := by
  have := r.nonnull
  rw [lay.start]
  omega

theorem break_eq : currentBreak h = h.heapEnd := by
  have := lay.high
  rw [← lay.start] at this
  simp only [currentBreak,mySbrk]
  rw [if_neg (by omega)]
  rfl

theorem headers_apart {a b : Nat} (ha : a ∈ h.headers)
    (hb : b ∈ h.headers) (ne : a ≠ b) : Apart a (metadataSize + h.size a) b
      (metadataSize + h.size b) := by
  rcases Nat.lt_or_gt_of_ne ne with hl | hm
  · have := lay.apart a ha b hb hl
    exact .inl (by omega)
  have := lay.apart b hb a ha hm
  exact .inr (by omega)

theorem congr (start : h'.heapStart = h.heapStart)
    (brk : h'.heapEnd = h.heapEnd) (last : h'.heapLastBlock = h.heapLastBlock)
    (hdrs : h'.headers = h.headers) (hs : ∀ b ∈ h.headers, h.SameHeader h' b) :
    Layout r h' where
  start := start.trans lay.start
  low := brk ▸ lay.low
  high := brk ▸ lay.high
  inside := by
    intro b mem
    rw [hdrs] at mem
    rw [(hs b mem).size,brk]
    exact lay.inside b mem
  apart := by
    intro a ha b hb hl
    rw [hdrs] at ha hb
    rw [(hs a ha).size]
    exact lay.apart a ha b hb hl
  magic := by
    intro b mem
    rw [hdrs] at mem
    rw [(hs b mem).magic]
    exact lay.magic b mem
  next := by
    intro b mem
    rw [hdrs] at mem ⊢
    rw [(hs b mem).nextBlock]
    exact lay.next b mem
  first := by
    rw [brk,hdrs]
    exact lay.first
  last := by
    rw [last,hdrs]
    exact lay.last
  none := by
    rw [last,hdrs]
    exact lay.none

theorem rewriteHeader {block : Nat} (mem : block ∈ h.headers)
    (start : h'.heapStart = h.heapStart) (brk : h'.heapEnd = h.heapEnd)
    (last : h'.heapLastBlock = h.heapLastBlock) (hdrs : h'.headers = h.headers)
    (ho : ∀ x, x < block ∨ block+metadataSize ≤ x → h'.mem x = h.mem x)
    (sz : h'.size block ≤ h.size block) (nextBlock : h'.nextBlock block = h.nextBlock block)
    (magic : h'.magic block = h.magic block) : Layout r h' := by
  have hs : ∀ b ∈ h.headers, b ≠ block → h.SameHeader h' b := by
    intro b hb ne x low high
    apply ho
    rcases lay.headers_apart hb mem ne with hbe | haf <;> omega
  have sizes : ∀ b ∈ h.headers, h'.size b ≤ h.size b := by
    intro b hb
    by_cases eq : b = block
    · rw [eq]; exact sz
    · exact (hs b hb eq).size.le
  refine ⟨start.trans lay.start,brk ▸ lay.low,brk ▸ lay.high,?_,?_,?_,?_,?_,?_,?_⟩
  · intro b hb
    rw [hdrs] at hb
    have := lay.inside b hb
    have := sizes b hb
    rw [brk]
    omega
  · intro a ha b hb hl
    rw [hdrs] at ha hb
    have := lay.apart a ha b hb hl
    have := sizes a ha
    omega
  · intro b hb
    rw [hdrs] at hb
    by_cases eq : b = block
    · rw [eq,magic]; exact lay.magic block mem
    · rw [(hs b hb eq).magic]; exact lay.magic b hb
  · intro b hb
    rw [hdrs] at hb ⊢
    by_cases eq : b = block
    · rw [eq,nextBlock]; exact lay.next block mem
    · rw [(hs b hb eq).nextBlock]; exact lay.next b hb
  · rw [brk,hdrs]; exact lay.first
  · rw [last,hdrs]; exact lay.last
  · rw [last,hdrs]; exact lay.none

section

variable {block val : Nat} (mem : block ∈ h.headers)

include mem

theorem setAvailable (hb : val < 2 ^ 32) : Layout r (h.setAvailable block val) := by
  have m := metadataSize_eq
  obtain ⟨sz,-,next,-,magic⟩ := h.setAvailable_self block val hb
  exact lay.rewriteHeader mem rfl rfl rfl rfl
    (fun x ha => store_outside 4 h.mem _ _ (by omega)) sz.le next magic

theorem setId (hb : val < 2 ^ 32) : Layout r (h.setId block val) := by
  have m := metadataSize_eq
  obtain ⟨sz,-,next,-,magic⟩ := h.setId_self block val hb
  exact lay.rewriteHeader mem rfl rfl rfl rfl
    (fun x ha => store_outside 4 h.mem _ _ (by omega)) sz.le next magic

theorem shrink (hs : val ≤ h.size block) : Layout r (h.setSize block val) := by
  have m := metadataSize_eq
  have hb := h.size_lt block
  obtain ⟨sz,-,next,-,magic⟩ := h.setSize_self block val (by omega)
  exact lay.rewriteHeader mem rfl rfl rfl rfl
    (fun x ha => store_outside 4 h.mem _ _ (by omega)) (sz.trans_le hs) next magic

end

theorem divide {slot sz : Nat} (mem : slot ∈ h.headers)
    (room : sz + metadataSize < h.size slot) (hd : Divided h h' slot sz) :
    Layout r h' := by
  have m := metadataSize_eq
  have slotInside := lay.inside slot mem
  have around : ∀ b ∈ h.headers, b ≠ slot →
      b + metadataSize + h.size b ≤ slot ∨ slot+metadataSize + h.size slot ≤ b := by
    intro b hb ne
    rcases lay.headers_apart hb mem ne with hbe | haf <;> omega
  have hs : ∀ b ∈ h.headers, b ≠ slot → h.SameHeader h' b := by
    intro b hb ne x low high
    have := around b hb ne
    exact hd.outside x (by omega) (by omega)
  have newSize := hd.newSize
  have slotSize := hd.slotSize
  refine ⟨hd.start.trans lay.start,hd.brk ▸ lay.low,hd.brk ▸ lay.high,?_,?_,?_,?_,?_,?_,?_⟩
  · rw [hd.headers,hd.brk]
    refine forall_mem_cons.mpr ⟨by omega,fun b hb => ?_⟩
    by_cases eq : b = slot
    · subst b; omega
    · rw [(hs b hb eq).size]; exact lay.inside b hb
  · intro a ha b hb hl
    rw [hd.headers] at ha hb
    rcases mem_cons.mp ha with rfl | ha
    · rcases mem_cons.mp hb with rfl | hb
      · omega
      by_cases eq : b = slot
      · subst b; omega
      · have := around b hb eq; omega
    · by_cases eqa : a = slot
      · subst a
        rcases mem_cons.mp hb with rfl | hb
        · omega
        · have := around b hb (by omega); omega
      rw [(hs a ha eqa).size]
      rcases mem_cons.mp hb with rfl | hb
      · have := around a ha eqa; omega
      · exact lay.apart a ha b hb hl
  · rw [hd.headers]
    refine forall_mem_cons.mpr ⟨hd.newMagic,fun b hb => ?_⟩
    by_cases eq : b = slot
    · subst b; rw [hd.slotMagic]; exact lay.magic slot mem
    · rw [(hs b hb eq).magic]; exact lay.magic b hb
  · rw [hd.headers]
    refine forall_mem_cons.mpr ⟨?_,fun b hb => ?_⟩
    · rw [hd.newNext]
      rcases lay.next slot mem with null | ⟨tgt,haf⟩
      · exact .inl null
      have := around _ tgt (by omega)
      exact .inr ⟨.tail _ tgt,by omega⟩
    · by_cases eq : b = slot
      · subst b
        rw [hd.slotNext]
        exact .inr ⟨.head _,by omega⟩
      rw [(hs b hb eq).nextBlock]
      exact (lay.next b hb).imp_right fun ⟨tgt,haf⟩ => ⟨.tail _ tgt,haf⟩
  · rw [hd.brk,hd.headers]
    exact fun hn => .tail _ (lay.first hn)
  · rw [hd.last,hd.headers]
    exact lay.last.imp_right (mem_cons_of_mem _)
  · rw [hd.last]
    intro null
    rw [lay.none null] at mem
    contradiction

theorem appended {sz : Nat} (hf : sz < 2 ^ 32) :
    Appended {h with heapEnd := h.heapEnd + (sz+metadataSize)}
      (appendBlock {h with heapEnd := h.heapEnd + (sz+metadataSize)} h.heapEnd sz)
      h.heapEnd sz := by
  have m := metadataSize_eq
  have hb := r.fits
  have high := lay.high
  apply appendBlock_spec _ _ _ (by omega) hf
  rcases lay.last with null | mem
  · exact .inl null
  have := (lay.inside _ mem).2
  exact .inr (by simp only; omega)

theorem oldBytes {sz : Nat}
    (ha : Appended {h with heapEnd := h.heapEnd + (sz+metadataSize)} h' h.heapEnd sz) :
    ∀ b ∈ h.headers, ∀ x, b ≤ x → x < b+metadataSize + h.size b →
      x < b+8 ∨ b+16 ≤ x ∨ b ≠ h.heapLastBlock → h'.mem x = h.mem x := by
  intro b hb x low high haw
  have m := metadataSize_eq
  have below := (lay.inside b hb).2
  refine ha.outside x (by omega) ?_
  rcases lay.last with null | mem
  · exact .inl null
  by_cases eq : b = h.heapLastBlock
  · simp only; omega
  · rcases lay.headers_apart hb mem eq with hbe | haf <;> simp only <;> omega

theorem append {sz : Nat} (room : h.heapEnd + (sz+metadataSize) ≤ h.heapStart+memBuffer)
    (hap : Appended {h with heapEnd := h.heapEnd + (sz+metadataSize)} h' h.heapEnd sz) :
    Layout r h' := by
  have m := metadataSize_eq
  have hbe : ∀ b ∈ h.headers, b + metadataSize + h.size b ≤ h.heapEnd :=
    fun b hb => (lay.inside b hb).2
  have old := lay.oldBytes hap
  have sizes : ∀ b ∈ h.headers, h'.size b = h.size b := fun b hb =>
    load_congr _ _ _ _ fun x low high => old b hb x low (by omega) (.inl (by omega))
  have magics : ∀ b ∈ h.headers, h'.magic b = h.magic b := fun b hb =>
    load_congr _ _ _ _ fun x low high => old b hb x (by omega) (by omega) (.inr (.inl (by omega)))
  have nexts : ∀ b ∈ h.headers, b ≠ h.heapLastBlock → h'.nextBlock b = h.nextBlock b :=
    fun b hb ne => load_congr _ _ _ _ fun x low high =>
      old b hb x (by omega) (by omega) (.inr (.inr ne))
  have brk : h'.heapEnd = h.heapEnd + (sz+metadataSize) := hap.brk
  have low := lay.low
  rw [lay.start] at room
  refine ⟨hap.start.trans lay.start,by omega,by omega,?_,?_,?_,?_,?_,?_,?_⟩
  · rw [hap.headers]
    refine forall_mem_cons.mpr ⟨by rw [hap.size]; omega,fun b hb => ?_⟩
    rw [sizes b hb]
    have := lay.inside b hb
    omega
  · intro a ha b hb hl
    rw [hap.headers] at ha hb
    rcases mem_cons.mp ha with rfl | ha <;> rcases mem_cons.mp hb with rfl | hb
    · omega
    · have := hbe b hb; omega
    · rw [sizes a ha]; exact hbe a ha
    · rw [sizes a ha]; exact lay.apart a ha b hb hl
  · rw [hap.headers]
    exact forall_mem_cons.mpr ⟨hap.magic,fun b hb => (magics b hb).trans (lay.magic b hb)⟩
  · rw [hap.headers]
    refine forall_mem_cons.mpr ⟨.inl hap.next,fun b hb => ?_⟩
    by_cases eq : b = h.heapLastBlock
    · have hn : h.heapLastBlock ≠ 0 := by
        have := lay.inside b hb
        have := r.nonnull
        omega
      rw [eq,hap.lastNext hn]
      have := hbe b hb
      exact .inr ⟨.head _,by omega⟩
    · rw [nexts b hb eq]
      exact (lay.next b hb).imp_right fun ⟨tgt,haf⟩ => ⟨.tail _ tgt,haf⟩
  · intro _
    rw [hap.headers]
    by_cases he : h.heapEnd = r.base
    · rw [← he]; exact .head _
    · exact .tail _ (lay.first he)
  · rw [hap.last,hap.headers]
    exact .inr (.head _)
  · rw [hap.last]
    intro null
    have := r.nonnull
    omega

end

end Layout

end Frr.PluginHeap
