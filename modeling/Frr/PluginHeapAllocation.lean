import Frr.PluginHeapLayout

/-! One call of the allocator on a heap whose layout is intact. The three ways to serve a request
are stated once. -/
namespace Frr.PluginHeap

open ByteMemory List Option

theorem alignSize_toNat (sz : UInt32) (hf : sz.toNat ≤ 2 ^ 32 - 4) :
    sz.toNat ≤ (alignSize sz).toNat ∧ (alignSize sz).toNat % 4 = 0 := by
  have hb := sz.toNat_lt
  have rem : (sz%4).toNat = sz.toNat%4 := by simp
  by_cases ha : sz % 4 = 0
  · have : sz.toNat % 4 = 0 := by rw [← rem,ha]; rfl
    simp [alignSize,alignmentFactor,ha,this]
  have hn : sz.toNat % 4 ≠ 0 := by
    intro zero
    exact ha (UInt32.toNat_inj.mp (by rw [rem,zero]; rfl))
  -- No wrap: the rounded size still fits in 32 bits.
  have sum : (sz+4).toNat = sz.toNat+4 := by
    rw [UInt32.toNat_add]
    exact Nat.mod_eq_of_lt (by simp [UInt32.reduceToNat]; omega)
  have rounded : (sz+4-sz%4).toNat = sz.toNat+4-sz.toNat%4 := by
    rw [UInt32.toNat_sub_of_le _ _ (by rw [UInt32.le_iff_toNat_le,sum,rem]; omega),sum,rem]
  simp only [alignSize,alignmentFactor,ne_eq,ha,not_false_eq_true,↓reduceIte,rounded]
  omega

variable {r : Region} {h h' : Heap} {n b : Nat}

theorem firstFit_spec (layout : Layout r h) (fuel iter : Nat)
    (on : iter = 0 ∨ iter ∈ h.headers) (hf : firstFit h n fuel iter = some b) :
    b ∈ h.headers ∧ h.available b ≠ 0 ∧ n ≤ h.size b := by
  induction fuel generalizing iter with
  | zero => simp [firstFit] at hf
  | succ fuel ih =>
    simp only [firstFit] at hf
    split at hf
    · contradiction
    next nonzero =>
    have hm := on.resolve_left nonzero
    split at hf
    · next fit =>
      obtain rfl := some.inj hf
      exact ⟨hm,fit⟩
    · exact ih _ ((layout.next iter hm).imp_right And.left) hf

theorem slotFor_spec (layout : Layout r h) (hf : slotFor h n = some b) :
    b ∈ h.headers ∧ h.available b ≠ 0 ∧ n ≤ h.size b := by
  simp only [slotFor] at hf
  split at hf
  · contradiction
  next nonempty =>
  split at hf
  · contradiction
  refine firstFit_spec layout _ _ (.inr ?_) hf
  rw [layout.start] at nonempty ⊢
  exact layout.first (Ne.symm nonempty)

/-- With a free block as it is, with the front of one, or with a new block at the break. -/
inductive Allocated (h : Heap) (n : Nat) : Nat → Heap → Prop
  | whole : slotFor h n = some slot → h.size slot ≤ n+metadataSize →
      Allocated h n slot (h.setAvailable slot 0)
  | split : slotFor h n = some slot → n+metadataSize < h.size slot →
      Allocated h n slot (divideSlot (h.setAvailable slot 0) slot n)
  | grown : slotFor h n = none →
      h.heapEnd + (n+metadataSize) ≤ h.heapStart+memBuffer →
      Allocated h n h.heapEnd
        (appendBlock {h with heapEnd := h.heapEnd + (n+metadataSize)} h.heapEnd n)

theorem extend_eq (layout : Layout r h) (n : Nat) : extend h n =
    if h.heapEnd + (n+metadataSize) ≤ h.heapStart+memBuffer then
      some (h.heapEnd, appendBlock {h with heapEnd := h.heapEnd + (n+metadataSize)} h.heapEnd n)
    else none := by
  have high := layout.high
  rw [← layout.start] at high
  have now : mySbrk h 0 = some (h.heapEnd, h) := by
    simp only [mySbrk]
    rw [if_neg (by omega)]
    rfl
  simp only [extend,now]
  rw [if_neg (by omega)]
  simp only [mySbrk]
  by_cases room : h.heapEnd + (n+metadataSize) ≤ h.heapStart+memBuffer
  · rw [if_neg (by omega),if_pos room]
  · rw [if_pos (by omega),if_neg room]

theorem allocate_iff (layout : Layout r h) (sz : UInt32) :
    allocate h sz = some (b, h') ↔ Allocated h (alignSize sz).toNat b h' := by
  simp only [allocate,layout.start_ne_zero,ne_eq,not_false_eq_true,↓reduceIte,findSlot]
  cases hf : slotFor h (alignSize sz).toNat with
  | none =>
    simp only [map_none,extend_eq layout]
    constructor
    · intro hs
      split at hs
      · next room =>
        simp only [some.injEq,Prod.mk.injEq] at hs
        obtain ⟨rfl,rfl⟩ := hs
        exact .grown hf room
      · contradiction
    · intro hs
      cases hs with
      | whole ho _ => rw [hf] at ho; contradiction
      | split ho _ => rw [hf] at ho; contradiction
      | grown _ room => simp [room]
  | some slot =>
    have size_eq : (h.setAvailable slot 0).size slot = h.size slot :=
      (h.setAvailable_self slot 0 (by omega)).1
    simp only [map_some,size_eq]
    constructor
    · intro hs
      split at hs <;> simp only [some.injEq,Prod.mk.injEq] at hs <;>
        obtain ⟨rfl,rfl⟩ := hs
      · next room => exact .split hf room
      · next tight => exact .whole hf (by omega)
    · intro hs
      cases hs with
      | whole ho tight =>
        obtain rfl := some.inj (hf.symm.trans ho)
        rw [if_neg (by omega)]
      | split ho room =>
        obtain rfl := some.inj (hf.symm.trans ho)
        rw [if_pos room]
      | grown ho _ => rw [hf] at ho; contradiction

/-- What changed belongs to the block at `b`: other blocks keep metadata, apart from links, and
payloads. -/
structure Confined (r : Region) (h h' : Heap) (b : Nat) : Prop where
  layout : Layout r h'
  subset : ∀ c ∈ h.headers, c ∈ h'.headers
  sizes : ∀ c ∈ h.headers, c ≠ b → h'.size c = h.size c
  availables : ∀ c ∈ h.headers, c ≠ b → h'.available c = h.available c
  ids : ∀ c ∈ h.headers, c ≠ b → h'.id c = h.id c
  payloads : ∀ c ∈ h.headers, c ≠ b → ∀ x, c + metadataSize ≤ x →
    x < c+metadataSize + h.size c → h'.mem x = h.mem x

section

variable (layout : Layout r h)

include layout

theorem confined_of_block (ha : Layout r h') (mem : b ∈ h.headers) (hdrs : h'.headers = h.headers)
    (ho : ∀ x, x < b ∨ b+metadataSize + h.size b ≤ x → h'.mem x = h.mem x) :
    Confined r h h' b := by
  have m := metadataSize_eq
  have rest : ∀ c ∈ h.headers, c ≠ b → ∀ x, c ≤ x → x < c+metadataSize + h.size c →
      h'.mem x = h.mem x := by
    intro c hc ne x low high
    apply ho
    rcases layout.headers_apart hc mem ne with hb | ha <;> omega
  have eq : ∀ c ∈ h.headers, c ≠ b → h.SameHeader h' c :=
    fun c hc ne x low high => rest c hc ne x low (by omega)
  exact ⟨ha,fun c hc => hdrs ▸ hc,fun c hc d => (eq c hc d).size,
    fun c hc d => (eq c hc d).available,fun c hc d => (eq c hc d).id,
    fun c hc d x low high => rest c hc d x (by omega) high⟩

section

variable (mem : b ∈ h.headers) {val : Nat}

include mem

theorem confined_setAvailable (hb : val < 2 ^ 32) : Confined r h (h.setAvailable b val) b := by
  have m := metadataSize_eq
  exact confined_of_block layout (layout.setAvailable mem hb) mem rfl
    (fun x ha => store_outside 4 h.mem _ _ (by omega))

theorem confined_setId (hb : val < 2 ^ 32) : Confined r h (h.setId b val) b := by
  have m := metadataSize_eq
  exact confined_of_block layout (layout.setId mem hb) mem rfl
    (fun x ha => store_outside 4 h.mem _ _ (by omega))

theorem confined_shrink (hs : val ≤ h.size b) : Confined r h (h.setSize b val) b := by
  have m := metadataSize_eq
  exact confined_of_block layout (layout.shrink mem hs) mem rfl
    (fun x ha => store_outside 4 h.mem _ _ (by omega))

end

theorem confined_writePayload (hm : b ∈ h.headers) (mem : Memory)
    (ho : ∀ x, x < b+metadataSize ∨ b+metadataSize + h.size b ≤ x → mem x = h.mem x) :
    Confined r h {h with mem := mem} b := by
  have m := metadataSize_eq
  refine confined_of_block layout (layout.congr rfl rfl rfl rfl ?_) hm rfl
    (fun x haw => ho x (by omega))
  intro c hc x low high
  apply ho
  by_cases eq : c = b
  · subst c; omega
  · rcases layout.headers_apart hc hm eq with hb | ha <;> omega

end

/-- A taken block of the requested size that nobody was using, and the rest of the heap as it was.
-/
structure Handed (r : Region) (h h' : Heap) (n b : Nat) : Prop extends Confined r h h' b where
  member : b ∈ h'.headers
  size : n ≤ h'.size b
  taken : h'.available b = 0
  unused : b ∈ h.headers → h.available b ≠ 0
  created : ∀ c ∈ h'.headers, c ∈ h.headers ∨ c = b ∨ h'.available c = 1

section

variable (layout : Layout r h)

include layout

theorem handed_whole (hf : slotFor h n = some b) : Handed r h (h.setAvailable b 0) n b := by
  obtain ⟨mem,free,fit⟩ := slotFor_spec layout hf
  obtain ⟨sz,ht,-⟩ := h.setAvailable_self b 0 (by omega)
  exact ⟨confined_setAvailable layout mem (by omega),mem,sz.symm ▸ fit,ht,
    fun _ => free,fun _ hc => .inl hc⟩

theorem handed_split (hf : slotFor h n = some b) (room : n + metadataSize < h.size b) :
    Handed r h (divideSlot (h.setAvailable b 0) b n) n b := by
  have m := metadataSize_eq
  have hw := handed_whole layout hf
  obtain ⟨hm,free,fit⟩ := slotFor_spec layout hf
  have sz := (h.setAvailable_self b 0 (by omega)).1
  have roomNow : n + metadataSize < (h.setAvailable b 0).size b := sz.symm ▸ room
  have hi := layout.inside b hm
  have hd := divideSlot_spec (h.setAvailable b 0) b n
    (by have := layout.high; have := r.fits; omega) roomNow
  -- Both headers the division writes lie inside the divided block.
  have rest : ∀ c ∈ h.headers, c ≠ b → ∀ x, c ≤ x → x < c+metadataSize + h.size c →
      (divideSlot (h.setAvailable b 0) b n).mem x = (h.setAvailable b 0).mem x := by
    intro c hc ne x low high
    have := layout.headers_apart hc hm ne
    exact hd.outside x (by rcases this with h | h <;> omega) (by rcases this with h | h <;> omega)
  have eq : ∀ c ∈ h.headers, c ≠ b →
      (h.setAvailable b 0).SameHeader (divideSlot (h.setAvailable b 0) b n) c :=
    fun c hc ne x low high => rest c hc ne x low (by omega)
  refine ⟨⟨hw.layout.divide hw.member roomNow hd,?_,?_,?_,?_,?_⟩,?_,hd.slotSize.ge,?_,hw.unused,?_⟩
  · intro c hc; rw [hd.headers]; exact .tail _ hc
  · exact fun c hc d => (eq c hc d).size.trans (hw.sizes c hc d)
  · exact fun c hc d => (eq c hc d).available.trans (hw.availables c hc d)
  · exact fun c hc d => (eq c hc d).id.trans (hw.ids c hc d)
  · intro c hc d x low high
    exact (rest c hc d x (by omega) high).trans (hw.payloads c hc d x low high)
  · rw [hd.headers]; exact .tail _ hm
  · rw [hd.slotAvailable]; exact hw.taken
  intro c hc
  rw [hd.headers] at hc
  rcases mem_cons.mp hc with rfl | hc
  · exact .inr (.inr hd.newAvailable)
  · exact .inl hc

theorem handed_grown (hfi : n < 2 ^ 32)
    (room : h.heapEnd + (n+metadataSize) ≤ h.heapStart+memBuffer) :
    Handed r h (appendBlock {h with heapEnd := h.heapEnd + (n+metadataSize)} h.heapEnd n)
      n h.heapEnd := by
  have m := metadataSize_eq
  have ha := layout.appended hfi
  have hf : ∀ c ∈ h.headers, c ≠ h.heapEnd := by
    intro c hc; have := (layout.inside c hc).2; omega
  have old := layout.oldBytes ha
  refine ⟨⟨layout.append room ha,?_,?_,?_,?_,?_⟩,?_,ha.size.ge,
    ha.available,fun hb => absurd rfl (hf _ hb),?_⟩
  · intro c hc; rw [ha.headers]; exact .tail _ hc
  · exact fun c hc _ => load_congr _ _ _ _ fun x low high =>
      old c hc x low (by omega) (.inl (by omega))
  · exact fun c hc _ => load_congr _ _ _ _ fun x low high =>
      old c hc x (by omega) (by omega) (.inl (by omega))
  · exact fun c hc _ => load_congr _ _ _ _ fun x low high =>
      old c hc x (by omega) (by omega) (.inr (.inl (by omega)))
  · exact fun c hc _ x low high => old c hc x (by omega) high (.inr (.inl (by omega)))
  · rw [ha.headers]; exact .head _
  intro c hc
  rw [ha.headers] at hc
  rcases mem_cons.mp hc with rfl | hc
  · exact .inr (.inl rfl)
  · exact .inl hc

theorem Allocated.handed (hfi : n < 2 ^ 32) (hs : Allocated h n b h') : Handed r h h' n b := by
  cases hs with
  | whole hf _ => exact handed_whole layout hf
  | split hf room => exact handed_split layout hf room
  | grown _ room => exact handed_grown layout hfi room

theorem allocate_handed {sz : UInt32}
    (hs : allocate h sz = some (b, h')) : Handed r h h' (alignSize sz).toNat b :=
  ((allocate_iff layout sz).mp hs).handed layout (alignSize sz).toNat_lt

end

theorem Handed.setId (hh : Handed r h h' n b) (id : UInt32) :
    Handed r h (h'.setId b id.toNat) n b := by
  have hco := confined_setId hh.layout hh.member id.toNat_lt
  obtain ⟨sz,available,-⟩ := h'.setId_self b id.toNat id.toNat_lt
  have hs := hh.subset
  refine ⟨⟨hco.layout,hs,?_,?_,?_,?_⟩,hh.member,sz.symm ▸ hh.size,
    available.trans hh.taken,hh.unused,?_⟩
  · exact fun c hc d => (hco.sizes c (hs c hc) d).trans (hh.sizes c hc d)
  · exact fun c hc d => (hco.availables c (hs c hc) d).trans (hh.availables c hc d)
  · exact fun c hc d => (hco.ids c (hs c hc) d).trans (hh.ids c hc d)
  · intro c hc d x low high
    rw [hco.payloads c (hs c hc) d x low (by rwa [hh.sizes c hc d])]
    exact hh.payloads c hc d x low high
  intro c hc
  rcases hh.created c hc with old | rfl | new
  · exact .inl old
  · exact .inr (.inl rfl)
  by_cases eq : c = b
  · exact .inr (.inl eq)
  · exact .inr (.inr ((hco.availables c hc eq).trans new))

theorem pluginFree_block (layout : Layout r h) (mem : b ∈ h.headers) :
    pluginFree h (some (b+metadataSize)) =
      if b + metadataSize < h.heapEnd then h.setAvailable b 1 else h := by
  have hi := layout.inside b mem
  simp only [pluginFree,layout.break_eq,Nat.add_sub_cancel,layout.magic b mem,↓reduceIte]
  rw [if_neg layout.start_ne_zero,layout.start]
  by_cases hb : b + metadataSize < h.heapEnd
  · rw [if_pos ⟨by omega,hb⟩,if_pos hb]
  · rw [if_neg (fun hbo => hb hbo.2),if_neg hb]

theorem confined_free (layout : Layout r h) (mem : b ∈ h.headers) :
    Confined r h (pluginFree h (some (b+metadataSize))) b := by
  rw [pluginFree_block layout mem]
  split
  · exact confined_setAvailable layout mem (by omega)
  exact ⟨layout,fun _ hc => hc,fun _ _ _ => rfl,fun _ _ _ => rfl,fun _ _ _ => rfl,
    fun _ _ _ _ _ _ => rfl⟩

/-- The outcomes of `plugin_realloc` on the payload of a block. -/
inductive Reallocated (h : Heap) (block : Nat) (size : UInt32) : Pointer → Heap → Prop
  | kept : size.toNat ≤ h.size block →
      Reallocated h block size (some (block+metadataSize)) (h.setSize block size.toNat)
  | refused : h.size block < size.toNat → allocate h size = none →
      Reallocated h block size none (pluginFree h (some (block+metadataSize)))
  | moved : h.size block < size.toNat → allocate h size = some (target, grown) →
      Reallocated h block size (some (target+metadataSize))
        (pluginFree (grown.memcpy (target+metadataSize) (block+metadataSize) (h.size block))
          (some (block+metadataSize)))

theorem pluginRealloc_block (layout : Layout r h) (mem : b ∈ h.headers) (sz : UInt32) :
    Reallocated h b sz (pluginRealloc h (some (b+metadataSize)) sz).1
      (pluginRealloc h (some (b+metadataSize)) sz).2 := by
  have hi := layout.inside b mem
  have guard : ¬ (b+metadataSize < h.heapStart+metadataSize ∧ currentBreak h ≤ b+metadataSize) := by
    rw [layout.start]; omega
  simp only [pluginRealloc,guard,Nat.add_sub_cancel,layout.magic b mem,↓reduceIte,ne_eq,
    not_true_eq_false]
  split
  · next fits => exact .kept fits
  next large =>
  cases hs : allocate h sz with
  | none =>
    simp only [pluginMalloc,hs]
    exact .refused (by omega) hs
  | some res =>
    obtain ⟨tgt,hg⟩ := res
    simp only [pluginMalloc,hs]
    exact .moved (by omega) hs

end Frr.PluginHeap
