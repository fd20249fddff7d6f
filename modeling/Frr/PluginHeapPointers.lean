import Frr.PluginHeapId

/-! Arbitrary pointers given to `plugin_free` and `plugin_realloc`. No pointer fails the range check
once the heap has a block, so only the word in front of the pointer protects other memory. -/
namespace Frr.PluginHeap

open ByteMemory

def Designates (h : Heap) (ptr : Pointer) : Prop :=
  ∃ b ∈ h.headers, h.available b = 0 ∧ ptr = some (b+metadataSize)

def KeepsContent (h : Heap) (block : Nat) (size : UInt32) : Prop :=
  ∃ q, (pluginRealloc h (some (block+metadataSize)) size).1 = some q ∧
    ∀ i < min (h.size block) size.toNat,
      (pluginRealloc h (some (block+metadataSize)) size).2.mem (q+i) =
        h.mem (block+metadataSize+i)

/-- A stray pointer changes nothing, and a taken block keeps its bytes. -/
structure Respected (h : Heap) (ptr : Pointer) (size : UInt32) : Prop where
  freed : ¬ Designates h ptr → pluginFree h ptr = h
  reallocated : ¬ Designates h ptr → pluginRealloc h ptr size = (none, h)
  content : ∀ b ∈ h.headers, h.available b = 0 → ptr = some (b+metadataSize) →
    KeepsContent h b size

/-- `plugin_free` looks at the block, and it is not marked free. -/
def Frees (h : Heap) (ptr : Nat) : Prop :=
  (h.heapStart+metadataSize ≤ ptr ∧ ptr < h.heapEnd) ∧ h.available (ptr-metadataSize) ≠ 1

/-- The range check of `plugin_realloc`, which only an empty heap makes possible. -/
def OutOfRange (h : Heap) (ptr : Nat) : Prop :=
  ptr < h.heapStart+metadataSize ∧ h.heapEnd ≤ ptr

/-- No magic number in front of it, or a block already free or out of reach, too small and
impossible to replace. -/
def Harmless (h : Heap) (size : UInt32) : Pointer → Prop
  | none => ¬ Serves h size
  | some ptr => OutOfRange h ptr ∨ (h.magic (ptr-metadataSize) = magicNumber →
      ¬ Frees h ptr ∧ h.size (ptr-metadataSize) < size.toNat ∧ ¬ Serves h size)

def Movable (h : Heap) (size : UInt32) (block : Nat) : Prop :=
  size.toNat ≤ h.size block ∨ (size.toNat ≤ 2 ^ 32 - 4 ∧ Serves h size)

structure Careful (h : Heap) (ptr : Pointer) (size : UInt32) : Prop where
  stray : ¬ Designates h ptr → Harmless h size ptr
  block : ∀ b ∈ h.headers, h.available b = 0 → ptr = some (b+metadataSize) → Movable h size b

section

variable {r : Region} {h : Heap} {size : UInt32} {b : Nat}

theorem setAvailable_eq_iff (h : Heap) (block : Nat) :
    h.setAvailable block 1 = h ↔ h.available block = 1 := by
  constructor
  · intro eq
    have one := (h.setAvailable_self block 1 (by omega)).2.1
    rwa [eq] at one
  intro one
  have hs := (store_eq_copy 4 h.mem (block+4) (block+4)).trans (copy_self ..)
  change store 4 h.mem (block+4) (h.available block) = h.mem at hs
  rw [one] at hs
  rw [Heap.setAvailable,hs]

theorem allocate_eq_none_iff (lay : Layout r h) : allocate h size = none ↔ ¬ Serves h size := by
  refine ⟨fun hr hse => ?_,allocate_none lay⟩
  have hs : ∃ b h', Allocated h (alignSize size).toNat b h' := by
    rcases hse with hf | ⟨none,room⟩
    · obtain ⟨slot,hf⟩ := Option.ne_none_iff_exists'.mp hf
      rcases lt_or_ge ((alignSize size).toNat + metadataSize) (h.size slot) with room | tight
      · exact ⟨_,_,.split hf room⟩
      · exact ⟨_,_,.whole hf tight⟩
    · exact ⟨_,_,.grown none room⟩
  obtain ⟨b,h',hs⟩ := hs
  rw [(allocate_iff lay size).mpr hs] at hr
  contradiction

theorem pluginFree_eq_iff (lay : Layout r h) (ptr : Nat) :
    pluginFree h (some ptr) = h ↔ (h.magic (ptr-metadataSize) = magicNumber → ¬ Frees h ptr) := by
  simp only [pluginFree,lay.start_ne_zero,↓reduceIte,lay.break_eq,Frees]
  by_cases hi : h.heapStart + metadataSize ≤ ptr ∧ ptr < h.heapEnd
  · by_cases hm : h.magic (ptr-metadataSize) = magicNumber
    · simp [hi,hm,setAvailable_eq_iff]
    · simp [hi,hm]
  · simp [hi]

theorem pluginRealloc_refused_iff (lay : Layout r h) (ptr : Pointer) :
    pluginRealloc h ptr size = (none, h) ↔ Harmless h size ptr := by
  cases ptr with
  | none =>
    simp only [pluginRealloc,pluginMalloc,Harmless,← allocate_eq_none_iff lay]
    cases allocate h size <;> simp
  | some ptr =>
    have free := pluginFree_eq_iff lay ptr
    simp only [pluginRealloc,lay.break_eq,Harmless,OutOfRange]
    by_cases ho : ptr < h.heapStart+metadataSize ∧ h.heapEnd ≤ ptr
    · simp [ho]
    by_cases hm : h.magic (ptr-metadataSize) = magicNumber
    · simp only [ho,hm,↓reduceIte,not_true_eq_false,ne_eq,false_or,forall_const] at free ⊢
      by_cases hs : size.toNat ≤ h.size (ptr-metadataSize)
      · rw [if_pos hs]
        exact iff_of_false (by simp) (by omega)
      rw [if_neg hs,← allocate_eq_none_iff lay,← free]
      cases hse : allocate h size with
      | none =>
        simp only [pluginMalloc,hse,Prod.mk.injEq,true_and,and_true]
        exact ⟨fun eq => ⟨eq,by omega⟩,fun hb => hb.1⟩
      | some res => simp [pluginMalloc,hse]
    · simp [ho,hm]

theorem Harmless.freed (lay : Layout r h) {ptr : Pointer} (hh : Harmless h size ptr) :
    pluginFree h ptr = h := by
  cases ptr with
  | none => rfl
  | some ptr =>
    rw [pluginFree_eq_iff lay]
    intro hm frees
    rcases hh with ho | hh
    · exact absurd ho.1 (Nat.not_lt.mpr frees.1.1)
    · exact (hh hm).1 frees

theorem moved_keeps (hme : b ∈ h.headers) (ht : h.available b = 0)
    {n tgt : Nat} {grown : Heap} (hh : Handed r h grown n tgt) (hfi : h.size b ≤ n)
    {i : Nat} (hi : i < h.size b) :
    (pluginFree (grown.memcpy (tgt+metadataSize) (b+metadataSize) (h.size b))
      (some (b+metadataSize))).mem (tgt+metadataSize+i) = h.mem (b+metadataSize+i) := by
  let hm := grown.memcpy (tgt+metadataSize) (b+metadataSize) (h.size b)
  have ne : tgt ≠ b := fun eq => hh.unused (eq ▸ hme) (eq ▸ ht)
  have room := hh.size
  have hc : Confined r grown hm tgt := confined_writePayload hh.layout hh.member _ fun x ha =>
      copy_outside grown.mem _ _ _ (by omega)
  have hf := confined_free hc.layout (hh.subset b hme)
  have hs : grown.SameHeader hm tgt := fun x low high =>
    copy_outside grown.mem _ _ _ (by omega)
  calc (pluginFree hm (some (b+metadataSize))).mem (tgt+metadataSize+i)
      = hm.mem (tgt+metadataSize+i) :=
        hf.payloads tgt hh.member ne _ (by omega) (by rw [hs.size]; omega)
    _ = grown.mem (b+metadataSize+i) := copy_inside grown.mem _ _ _ hi
    _ = h.mem (b+metadataSize+i) := hh.payloads b hme ne.symm _ (by omega) (by omega)

theorem keepsContent_of_movable (lay : Layout r h) (mem : b ∈ h.headers)
    (ht : h.available b = 0) (movable : Movable h size b) : KeepsContent h b size := by
  have out := pluginRealloc_block lay mem size
  unfold KeepsContent
  generalize pluginRealloc h (some (b+metadataSize)) size = result at out
  obtain ⟨hr,h'⟩ := result
  cases out with
  | kept hs =>
    refine ⟨_,rfl,fun i _ => store_outside 4 h.mem _ _ ?_⟩
    simp only [metadataSize_eq]
    omega
  | refused hl none =>
    rcases movable with hs | ⟨-,hser⟩
    · omega
    · exact absurd hser ((allocate_eq_none_iff lay).mp none)
  | moved hl hse =>
    rcases movable with hs | ⟨rounds,-⟩
    · omega
    have hf := (alignSize_toNat size rounds).1
    refine ⟨_,rfl,fun i hb => ?_⟩
    exact moved_keeps mem ht (allocate_handed lay hse) (by omega) (by omega)

theorem movable_of_keepsContent (lay : Layout r h) (mem : b ∈ h.headers)
    (rounds : size.toNat ≤ 2 ^ 32 - 4) (hk : KeepsContent h b size) : Movable h size b := by
  have out := pluginRealloc_block lay mem size
  obtain ⟨q,hr,-⟩ := hk
  rw [hr] at out
  generalize (pluginRealloc h (some (b+metadataSize)) size).2 = h' at out
  cases out with
  | kept hs => exact .inl hs
  | moved hl hse =>
    refine .inr ⟨rounds,?_⟩
    by_contra refused
    rw [allocate_none lay refused] at hse
    contradiction

end

def exampleRegion : Region := ⟨1000, by decide, by decide⟩

def strayMemory : Memory := fun x => if x = 96 then 83 else if x = 76 then 5 else 0

def strayHeap : Heap := (advance (start exampleRegion strayMemory) (.malloc 8)).heap

theorem strayHeap_layout : Layout exampleRegion strayHeap :=
  (malloc_kept (start_live exampleRegion _) 8).live.layout

end Frr.PluginHeap
