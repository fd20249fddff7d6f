import Frr.ByteMemory

/-! The bounded heap of the pluglets, `ubpf/tools/heap_management.c`. Block metadata lies in front
of each payload, so header accesses are byte accesses of the memory the pluglet also writes. A
pointer is an absolute address; `NULL` is `none`, and zero where it is stored. -/
namespace Frr.PluginHeap

open ByteMemory

abbrev Pointer := Option Nat

/-- `SIZE_PLUGIN_HEAP` of `ubpf_manager.h`. -/
def memBuffer : Nat := 64000

/-- `sizeof(meta_data)`: two words, the pointer `next_block`, two words. -/
def metadataSize : Nat := 24

def alignmentFactor : UInt32 := 4

/-- `MAGIC_NUMBER` is written `0123` in the source, an octal literal. -/
def magicNumber : Nat := 83

/-- `heap_t`. `headers` is a ghost: every header ever written, newest first. -/
structure Heap where
  mem : Memory
  heapStart : Nat
  heapEnd : Nat
  heapLastBlock : Nat
  headers : List Nat

namespace Heap

section

variable (h : Heap)

def size (block : Nat) : Nat := load 4 h.mem block
def available (h : Heap) (block : Nat) : Nat := load 4 h.mem (block+4)
def nextBlock (h : Heap) (block : Nat) : Nat := load 8 h.mem (block+8)
def id (h : Heap) (block : Nat) : Nat := load 4 h.mem (block+16)
def magic (h : Heap) (block : Nat) : Nat := load 4 h.mem (block+20)

section

variable (block value : Nat)

def setSize : Heap :=
  {h with mem := store 4 h.mem block value}

def setAvailable : Heap :=
  {h with mem := store 4 h.mem (block+4) value}

def setNextBlock : Heap :=
  {h with mem := store 8 h.mem (block+8) value}

def setId : Heap :=
  {h with mem := store 4 h.mem (block+16) value}

def setMagic : Heap :=
  {h with mem := store 4 h.mem (block+20) value}

end

def memcpy (target source length : Nat) : Heap :=
  {h with mem := copy h.mem target source length}

end

end Heap

def alignSize (size : UInt32) : UInt32 :=
  if size % alignmentFactor ≠ 0 then
    size + alignmentFactor - size % alignmentFactor
  else size

/-- The new break, or `NULL` without any change when the buffer is exhausted. -/
def mySbrk (h : Heap) (increment : Nat) : Option (Nat × Heap) :=
  if h.heapStart + memBuffer < h.heapEnd+increment then none
  else some (h.heapEnd+increment, {h with heapEnd := h.heapEnd + increment})

/-- `my_sbrk(0)` as a pointer value. -/
def currentBreak (h : Heap) : Nat :=
  match mySbrk h 0 with
  | none => 0
  | some (brk, _) => brk

/-- The loop of `find_slot`. The fuel bounds the blocks visited. -/
def firstFit (h : Heap) (size : Nat) : Nat → Nat → Option Nat
  | 0, _ => none
  | fuel + 1, iter =>
    if iter = 0 then none
    else if h.available iter ≠ 0 ∧ size ≤ h.size iter then some iter
    else firstFit h size fuel (h.nextBlock iter)

section

variable (h : Heap)

/-- The block `find_slot` returns, before it is marked as taken. -/
def slotFor (size : Nat) : Option Nat :=
  if h.heapStart = h.heapEnd then none
  else if currentBreak h < h.heapStart+size then none
  else firstFit h size memBuffer h.heapStart

def findSlot (size : Nat) : Option (Nat × Heap) :=
  (slotFor h size).map fun iter => (iter, h.setAvailable iter 0)

/-- `id` of the new slot is not written by the source. -/
def divideSlot (slot size : Nat) : Heap :=
  let newSlot := slot+metadataSize+size
  let h := h.setSize newSlot (h.size slot - size - metadataSize)
  let h := h.setAvailable newSlot 1
  let h := h.setNextBlock newSlot (h.nextBlock slot)
  let h := h.setMagic newSlot magicNumber
  let h := h.setSize slot size
  let h := h.setNextBlock slot newSlot
  {h with headers := newSlot :: h.headers}

def appendBlock (newBlock size : Nat) : Heap :=
  let h := h.setSize newBlock size
  let h := h.setAvailable newBlock 0
  let h := h.setNextBlock newBlock 0
  let h := h.setMagic newBlock magicNumber
  let h := if h.heapLastBlock ≠ 0 then h.setNextBlock h.heapLastBlock newBlock else h
  {h with heapLastBlock := newBlock, headers := newBlock :: h.headers}

def extend (size : Nat) : Option (Nat × Heap) :=
  match mySbrk h 0 with
  | none => none
  | some (newBlock, h) =>
    if h.heapStart + memBuffer < newBlock then none
    else match mySbrk h (size+metadataSize) with
      | none => none
      | some (_, h) => some (newBlock, appendBlock h newBlock size)

/-- Common to `plugin_malloc` and `plugin_malloc_with_id`: the block, its payload still to be
returned. -/
def allocate (size : UInt32) : Option (Nat × Heap) :=
  let size := (alignSize size).toNat
  if h.heapStart ≠ 0 then
    match findSlot h size with
    | some (slot, h) =>
      if size + metadataSize < h.size slot then some (slot, divideSlot h slot size)
      else some (slot, h)
    | none => extend h size
  else
    match mySbrk h 0 with
    | none => extend h size
    | some (start, h) => extend {h with heapStart := start} size

def pluginMalloc (size : UInt32) : Pointer × Heap :=
  match allocate h size with
  | none => (none, h)
  | some (slot, h) => (some (slot+metadataSize), h)

def pluginMallocWithId (id size : UInt32) : Pointer × Heap :=
  match allocate h size with
  | none => (none, h)
  | some (slot, h) => (some (slot+metadataSize), h.setId slot id.toNat)

end

/-- The loop of `plugin_get_memory_with_id`. -/
def findId (h : Heap) (id : Nat) : Nat → Nat → Option Nat
  | 0, _ => none
  | fuel + 1, iter =>
    if iter = 0 then none
    else if h.available iter = 0 ∧ h.id iter = id then some iter
    else findId h id fuel (h.nextBlock iter)

def pluginGetMemoryWithId (h : Heap) (id : UInt32) : Pointer :=
  if h.heapStart = h.heapEnd then none
  else (findId h id.toNat memBuffer h.heapStart).map (· + metadataSize)

def pluginFree (h : Heap) (ptr : Pointer) : Heap :=
  match ptr with
  | none => h
  | some ptr =>
    if h.heapStart = 0 then h
    else if h.heapStart + metadataSize ≤ ptr ∧ ptr < currentBreak h then
      if h.magic (ptr-metadataSize) = magicNumber then
        h.setAvailable (ptr-metadataSize) 1
      else h
    else h

/-- The range check has `&&` in the source: on a heap with a block no pointer fails it. -/
def pluginRealloc (h : Heap) (ptr : Pointer) (size : UInt32) : Pointer × Heap :=
  match ptr with
  | none => pluginMalloc h size
  | some ptr =>
    if ptr < h.heapStart+metadataSize ∧ currentBreak h ≤ ptr then (none, h)
    else if h.magic (ptr-metadataSize) ≠ magicNumber then (none, h)
    else
      let oldSize := h.size (ptr-metadataSize)
      if size.toNat ≤ oldSize then
        (some ptr, h.setSize (ptr-metadataSize) size.toNat)
      else
        match pluginMalloc h size with
        | (none, h) => (none, pluginFree h (some ptr))
        | (some newPtr, h) =>
          (some newPtr, pluginFree (h.memcpy newPtr ptr oldSize) (some ptr))

structure Region where
  base : Nat
  nonnull : 0 < base
  fits : base + memBuffer < 2 ^ 64

def fresh (r : Region) (mem : Memory) : Heap := ⟨mem, r.base, r.base, 0, []⟩

end Frr.PluginHeap
