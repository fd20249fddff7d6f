import Frr.PluginHeapAllocation
import Frr.Trace

/-! A pluglet using its heap. The session also keeps the allocations the pluglet holds, to say which
calls it may make and what it was promised. -/
namespace Frr.PluginHeap

open ByteMemory List Trace

structure Allocation where
  ptr : Nat
  requested : Nat
  id : Option UInt32

structure Session where
  heap : Heap
  live : List Allocation

/-- The registered heap functions, and a byte store of the pluglet itself. -/
inductive Call where
  | malloc (size : UInt32)
  | mallocWithId (id size : UInt32)
  | free (ptr : Pointer)
  | realloc (ptr : Pointer) (size : UInt32)
  | getMemoryWithId (id : UInt32)
  | write (address : Nat) (value : UInt8)

namespace Call

def requested : Call → Nat
  | .malloc size | .mallocWithId _ size | .realloc _ size => size.toNat
  | _ => 0

def argument : Call → Pointer
  | .free ptr | .realloc ptr _ => ptr
  | _ => none

def allocates : Call → Bool
  | .malloc _ | .mallocWithId _ _ | .realloc _ _ => true
  | _ => false

def writes : Call → Bool
  | .write _ _ => true
  | _ => false

end Call

section

variable (live : List Allocation) (ptr : Pointer)

def release : List Allocation :=
  live.filter fun a => some a.ptr ≠ ptr

def hand (requested : Nat) (id : Option UInt32) : List Allocation :=
  match ptr with
  | none => live
  | some ptr => ⟨ptr, requested, id⟩ :: live

def idOf : Option UInt32 :=
  (live.find? fun a => some a.ptr = ptr).bind Allocation.id

end

/-- The pointer returned, and the session. A block reallocated in place keeps its id, a moved one
has none. -/
def call (s : Session) : Call → Pointer × Session
  | .malloc size =>
    let (ptr, heap) := pluginMalloc s.heap size
    (ptr, ⟨heap, hand s.live ptr size.toNat none⟩)
  | .mallocWithId id size =>
    let (ptr, heap) := pluginMallocWithId s.heap id size
    (ptr, ⟨heap, hand s.live ptr size.toNat (some id)⟩)
  | .free ptr => (none, ⟨pluginFree s.heap ptr, release s.live ptr⟩)
  | .realloc old size =>
    let (ptr, heap) := pluginRealloc s.heap old size
    (ptr, ⟨heap, hand (release s.live old) ptr size.toNat
      (if ptr = old then idOf s.live old else none)⟩)
  | .getMemoryWithId id => (pluginGetMemoryWithId s.heap id, s)
  | .write address value => (none, ⟨{s.heap with mem := poke s.heap.mem address value}, s.live⟩)

def advance (s : Session) (c : Call) : Session := (call s c).2

def start (r : Region) (mem : Memory) : Session := ⟨fresh r mem, []⟩

def Session.payload (s : Session) (ptr : Nat) : Nat := s.heap.size (ptr-metadataSize)

def Allowed (s : Session) : Call → Prop
  | .free ptr => ∃ a ∈ s.live, ptr = some a.ptr
  | .realloc ptr _ => ptr = none ∨ ∃ a ∈ s.live, ptr = some a.ptr
  | .write address _ => ∃ a ∈ s.live, a.ptr ≤ address ∧ address < a.ptr + s.payload a.ptr
  | _ => True

instance (s : Session) : (c : Call) → Decidable (Allowed s c)
  | .free ptr => inferInstanceAs (Decidable (∃ a ∈ s.live, ptr = some a.ptr))
  | .realloc ptr _ => inferInstanceAs (Decidable (ptr = none ∨ ∃ a ∈ s.live, ptr = some a.ptr))
  | .write address _ => inferInstanceAs (Decidable (∃ a ∈ s.live, a.ptr ≤ address ∧
      address < a.ptr + s.payload a.ptr))
  | .malloc _ | .mallocWithId _ _ | .getMemoryWithId _ => isTrue trivial

structure Separated (r : Region) (s : Session) : Prop where
  size : ∀ a ∈ s.live, a.requested ≤ s.payload a.ptr
  inside : ∀ a ∈ s.live, r.base ≤ a.ptr ∧ a.ptr + s.payload a.ptr ≤ r.base+memBuffer
  disjoint : s.live.Pairwise fun a b =>
    a.ptr ≠ b.ptr ∧ Apart a.ptr (s.payload a.ptr) b.ptr (s.payload b.ptr)
  headers : ∀ a ∈ s.live, ∀ b ∈ s.heap.headers, Apart a.ptr (s.payload a.ptr) b metadataSize

/-- What a call returns is held, all held payloads are separated, and no heap function changed a
payload it was not given. -/
structure Sound (r : Region) (s : Session) (c : Call) : Prop where
  returned : c.allocates = true → ∀ ptr, (call s c).1 = some ptr →
    ∃ a ∈ (advance s c).live, a.ptr = ptr ∧ a.requested = c.requested
  separated : Separated r (advance s c)
  frame : c.writes = false → ∀ a ∈ release s.live c.argument, ∀ x, a.ptr ≤ x →
    x < a.ptr + s.payload a.ptr → (advance s c).heap.mem x = s.heap.mem x

structure Live (r : Region) (s : Session) : Prop where
  layout : Layout r s.heap
  block : ∀ a ∈ s.live, ∃ b ∈ s.heap.headers, a.ptr = b+metadataSize ∧ s.heap.available b = 0
  distinct : s.live.Pairwise fun a b => a.ptr ≠ b.ptr

def Enough (s : Session) : Prop := ∀ a ∈ s.live, a.requested ≤ s.payload a.ptr

theorem start_live (r : Region) (mem : Memory) : Live r (start r mem) :=
  ⟨fresh_layout r mem,by simp [start],by simp [start]⟩

theorem mem_release {live : List Allocation} {ptr : Pointer} {a : Allocation} :
    a ∈ release live ptr ↔ a ∈ live ∧ some a.ptr ≠ ptr := by
  simp [release]

namespace Live

variable {r : Region} {s : Session} {h' : Heap} {b : Nat} {others : List Allocation}

section

variable (held : Live r s)

include held

theorem separated (he : Enough s) : Separated r s := by
  have m := metadataSize_eq
  have high := held.layout.high
  refine ⟨he,?_,?_,?_⟩
  · intro a ha
    obtain ⟨b,hb,ptr,-⟩ := held.block a ha
    have := held.layout.inside b hb
    simp only [Session.payload,ptr,Nat.add_sub_cancel]
    omega
  · refine held.distinct.imp_of_mem fun {a c} ha hc ne => ⟨ne,?_⟩
    obtain ⟨b,hb,ptr,-⟩ := held.block a ha
    obtain ⟨d,hd,ptr',-⟩ := held.block c hc
    have hap := held.layout.headers_apart hb hd (by omega)
    simp only [Session.payload,ptr,ptr',Nat.add_sub_cancel]
    rcases hap with hbe | haf
    · exact .inl (by omega)
    · exact .inr (by omega)
  · intro a ha c hc
    obtain ⟨b,hb,ptr,-⟩ := held.block a ha
    simp only [Session.payload,ptr,Nat.add_sub_cancel]
    by_cases eq : b = c
    · exact .inr (by omega)
    rcases held.layout.headers_apart hb hc eq with hbe | haf
    · exact .inl (by omega)
    · exact .inr (by omega)

section

variable (hco : Confined r s.heap h' b) (sub : others.Sublist s.live)
  (haw : ∀ a ∈ others, a.ptr ≠ b+metadataSize)

include hco sub haw

theorem keep : Live r ⟨h', others⟩ := by
  refine ⟨hco.layout,?_,held.distinct.sublist sub⟩
  intro a ha
  obtain ⟨c,hc,ptr,ht⟩ := held.block a (sub.subset ha)
  have ne : c ≠ b := fun eq => haw a ha (by rw [ptr,eq])
  exact ⟨c,hco.subset c hc,ptr,(hco.availables c hc ne).trans ht⟩

theorem frame :
    ∀ a ∈ others, ∀ x, a.ptr ≤ x → x < a.ptr + s.payload a.ptr → h'.mem x = s.heap.mem x := by
  intro a ha x low high
  obtain ⟨c,hc,ptr,-⟩ := held.block a (sub.subset ha)
  simp only [Session.payload,ptr,Nat.add_sub_cancel] at low high
  exact hco.payloads c hc (fun eq => haw a ha (by rw [ptr,eq])) x low high

end

theorem payload_eq (hco : Confined r s.heap h' b)
    {a : Allocation} (ha : a ∈ s.live) (haw : a.ptr ≠ b+metadataSize) :
    h'.size (a.ptr-metadataSize) = s.payload a.ptr := by
  obtain ⟨c,hc,ptr,-⟩ := held.block a ha
  simp only [Session.payload,ptr,Nat.add_sub_cancel]
  exact hco.sizes c hc (fun eq => haw (by rw [ptr,eq]))

theorem keepEnough (hco : Confined r s.heap h' b)
    (sub : others.Sublist s.live) (haw : ∀ a ∈ others, a.ptr ≠ b+metadataSize)
    (he : Enough s) : Enough ⟨h', others⟩ := by
  intro a ha
  have eq : Session.payload ⟨h', others⟩ a.ptr = s.payload a.ptr :=
    held.payload_eq hco (sub.subset ha) (haw a ha)
  rw [eq]
  exact he a (sub.subset ha)

theorem away_of_unused (hu : b ∈ s.heap.headers → s.heap.available b ≠ 0) :
    ∀ a ∈ s.live, a.ptr ≠ b+metadataSize := by
  intro a ha eq
  obtain ⟨c,hc,ptr,ht⟩ := held.block a ha
  obtain rfl : c = b := by omega
  exact hu hc ht

end

theorem cons {h : Heap} (held : Live r ⟨h, others⟩) (mem : b ∈ h.headers)
    (ht : h.available b = 0) (haw : ∀ a ∈ others, a.ptr ≠ b+metadataSize)
    (requested : Nat) (id : Option UInt32) : Live r ⟨h, ⟨b+metadataSize, requested, id⟩ :: others⟩ := by
  refine ⟨held.layout,?_,pairwise_cons.mpr ⟨fun a ha => (haw a ha).symm,held.distinct⟩⟩
  intro a ha
  rcases mem_cons.mp ha with rfl | ha
  · exact ⟨b,mem,rfl,ht⟩
  · exact held.block a ha

theorem consEnough {h : Heap} (he : Enough ⟨h, others⟩) {requested : Nat}
    (sz : requested ≤ h.size b) (id : Option UInt32) :
    Enough ⟨h, ⟨b+metadataSize, requested, id⟩ :: others⟩ := by
  intro a ha
  rcases mem_cons.mp ha with rfl | ha
  · simpa [Session.payload] using sz
  · exact he a ha

theorem release_sublist (ptr : Pointer) : (release s.live ptr).Sublist s.live := filter_sublist

theorem release_away {ptr : Nat} : ∀ c ∈ release s.live (some ptr), c.ptr ≠ ptr :=
  fun _ hc eq => (mem_release.mp hc).2 (by rw [eq])

end Live

structure Kept (r : Region) (s : Session) (c : Call) : Prop where
  live : Live r (advance s c)
  enough : c.requested ≤ 2 ^ 32 - 4 → Enough s → Enough (advance s c)
  returned : c.allocates = true → ∀ ptr, (call s c).1 = some ptr →
    ∃ a ∈ (advance s c).live, a.ptr = ptr ∧ a.requested = c.requested
  frame : c.writes = false → ∀ a ∈ release s.live c.argument, ∀ x, a.ptr ≤ x →
    x < a.ptr + s.payload a.ptr → (advance s c).heap.mem x = s.heap.mem x

section

variable {r : Region} {s : Session}

theorem release_none (live : List Allocation) : release live none = live := by
  simp [release]

section

variable (held : Live r s)

include held

theorem unchanged_kept {c : Call} (ptr : Pointer) (eq : call s c = (ptr, s))
    (hn : c.allocates → ptr = none) : Kept r s c := by
  refine ⟨?_,?_,?_,?_⟩
  · rwa [advance,eq]
  · rw [advance,eq]
    exact fun _ he => he
  · intro allocates ptr hr
    rw [eq,hn allocates] at hr
    contradiction
  intro _ a _ x _ _
  rw [advance,eq]

theorem handed_kept {c : Call} {heap : Heap} {n b : Nat} (id : Option UInt32)
    (argument : c.argument = none) (hh : Handed r s.heap heap n b)
    (sz : c.requested ≤ 2 ^ 32 - 4 → c.requested ≤ n)
    (ha : call s c = (some (b+metadataSize),
      ⟨heap, ⟨b+metadataSize, c.requested, id⟩ :: s.live⟩)) : Kept r s c := by
  have haw := held.away_of_unused hh.unused
  refine ⟨?_,?_,?_,?_⟩
  · rw [advance,ha]
    exact (held.keep hh.toConfined (.refl _) haw).cons hh.member hh.taken haw _ _
  · rw [advance,ha]
    intro hf he
    exact Live.consEnough (held.keepEnough hh.toConfined (.refl _) haw he) ((sz hf).trans hh.size) _
  · intro _ ptr hr
    rw [ha] at hr
    rw [advance,ha]
    exact ⟨_,.head _,Option.some.inj hr,rfl⟩
  intro _
  rw [argument,release_none,advance,ha]
  exact held.frame hh.toConfined (.refl _) haw

theorem malloc_kept (sz : UInt32) : Kept r s (.malloc sz) := by
  cases hs : allocate s.heap sz with
  | none =>
    exact unchanged_kept held none (by simp [call,pluginMalloc,hs,hand]) (fun _ => rfl)
  | some res =>
    obtain ⟨b,heap⟩ := res
    exact handed_kept held none rfl (allocate_handed held.layout hs)
      (fun hf => (alignSize_toNat sz hf).1)
      (by simp [call,pluginMalloc,hs,hand,Call.requested])

theorem mallocWithId_kept (id sz : UInt32) : Kept r s (.mallocWithId id sz) := by
  cases hs : allocate s.heap sz with
  | none =>
    exact unchanged_kept held none (by simp [call,pluginMallocWithId,hs,hand]) (fun _ => rfl)
  | some res =>
    obtain ⟨b,heap⟩ := res
    exact handed_kept held (some id) rfl ((allocate_handed held.layout hs).setId id)
      (fun hf => (alignSize_toNat sz hf).1)
      (by simp [call,pluginMallocWithId,hs,hand,Call.requested])

theorem dropped_kept {a : Allocation} {b : Nat} (ptr : a.ptr = b+metadataSize)
    {h' : Heap} (hco : Confined r s.heap h' b) {c : Call} (argument : c.argument = some a.ptr)
    (ha : call s c = (none, ⟨h', release s.live (some a.ptr)⟩)) : Kept r s c := by
  have haw : ∀ c ∈ release s.live (some a.ptr), c.ptr ≠ b+metadataSize := ptr ▸ Live.release_away
  have sub := Live.release_sublist (s := s) (some a.ptr)
  refine ⟨?_,?_,?_,?_⟩
  · rw [advance,ha]
    exact held.keep hco sub haw
  · rw [advance,ha]
    exact fun _ he => held.keepEnough hco sub haw he
  · intro _ q eq
    rw [ha] at eq
    contradiction
  rw [advance,ha,argument]
  exact fun _ => held.frame hco sub haw

theorem free_kept {a : Allocation} (ha : a ∈ s.live) : Kept r s (.free (some a.ptr)) := by
  obtain ⟨b,hb,ptr,-⟩ := held.block a ha
  have hco := confined_free held.layout hb
  rw [← ptr] at hco
  exact dropped_kept held ptr hco rfl rfl

theorem moved_kept {a : Allocation} {b tgt n : Nat}
    {grown : Heap} (hb : b ∈ s.heap.headers) (ptr : a.ptr = b+metadataSize)
    (hta : s.heap.available b = 0) (hh : Handed r s.heap grown n tgt)
    (hfi : s.heap.size b ≤ n) {c : Call} (argument : c.argument = some a.ptr)
    (sz : c.requested ≤ n)
    (ha : call s c = (some (tgt+metadataSize),
      ⟨pluginFree (grown.memcpy (tgt+metadataSize) (b+metadataSize) (s.heap.size b))
        (some (b+metadataSize)),
        ⟨tgt+metadataSize, c.requested, none⟩ :: release s.live (some a.ptr)⟩)) :
    Kept r s c := by
  let hm := grown.memcpy (tgt+metadataSize) (b+metadataSize) (s.heap.size b)
  have ne : b ≠ tgt := fun eq => hh.unused (eq ▸ hb) (eq ▸ hta)
  have ht := held.away_of_unused hh.unused
  -- First the new block, next to all held ones.
  have afterGrow := held.keep hh.toConfined (.refl _) ht
  have bytesGrow := held.frame hh.toConfined (.refl _) ht
  -- The copy stays inside the new payload.
  have hco : Confined r grown hm tgt := by
    refine confined_writePayload hh.layout hh.member _ fun x haw => ?_
    have := hh.size
    exact copy_outside grown.mem _ _ _ (by omega)
  have afterCopy := afterGrow.keep hco (.refl _) ht
  have bytesCopy := afterGrow.frame hco (.refl _) ht
  -- Then the old block is given back.
  have hb' : b ∈ hm.headers := hh.subset b hb
  have hf : Confined r hm (pluginFree hm (some (b+metadataSize))) b := confined_free hco.layout hb'
  have haw : ∀ c ∈ release s.live (some a.ptr), c.ptr ≠ b+metadataSize := ptr ▸ Live.release_away
  have sub := Live.release_sublist (s := s) (some a.ptr)
  have afterFree := afterCopy.keep hf sub haw
  have bytesFree := afterCopy.frame hf sub haw
  have hTarget : tgt ∈ hm.headers := hh.member
  have hs : grown.SameHeader hm tgt := fun x low high =>
    copy_outside grown.mem _ _ _ (by omega)
  have stillTaken := (hf.availables _ hTarget (Ne.symm ne)).trans (hs.available.trans hh.taken)
  have stillSize := (hf.sizes _ hTarget (Ne.symm ne)).trans hs.size
  refine ⟨?_,?_,?_,?_⟩
  · rw [advance,ha]
    exact afterFree.cons (hf.subset _ hTarget) stillTaken (fun c hc => ht c (sub.subset hc)) _ _
  · rw [advance,ha]
    intro _ he
    refine Live.consEnough (afterCopy.keepEnough hf sub haw (afterGrow.keepEnough hco
      (.refl _) ht (held.keepEnough hh.toConfined (.refl _) ht he))) ?_ _
    rw [stillSize]
    exact sz.trans hh.size
  · intro _ q hs
    rw [ha] at hs
    rw [advance,ha]
    exact ⟨_,.head _,Option.some.inj hs,rfl⟩
  · rw [advance,ha,argument]
    intro _ c hc x low high
    have hh' := sub.subset hc
    have sizeGrow : Session.payload ⟨grown, s.live⟩ c.ptr = s.payload c.ptr :=
      held.payload_eq hh.toConfined hh' (ht c hh')
    have sizeCopy : Session.payload ⟨hm, s.live⟩ c.ptr = Session.payload ⟨grown, s.live⟩ c.ptr :=
      afterGrow.payload_eq hco hh' (ht c hh')
    rw [bytesFree c hc x low (by rw [sizeCopy,sizeGrow]; exact high),
      bytesCopy c hh' x low (by rw [sizeGrow]; exact high),bytesGrow c hh' x low high]

end

def RoundsUp (c : Call) : Prop := c.requested ≤ 2 ^ 32 - 4

def Moves (s : Session) : Call → Prop
  | .realloc (some ptr) size =>
    s.heap.size (ptr-metadataSize) < size.toNat ∧ allocate s.heap size ≠ none
  | _ => False

theorem realloc_kept (held : Live r s) {a : Allocation} (ha : a ∈ s.live) {sz : UInt32}
    (hf : Moves s (.realloc (some a.ptr) sz) → RoundsUp (.realloc (some a.ptr) sz)) :
    Kept r s (.realloc (some a.ptr) sz) := by
  obtain ⟨b,hb,ptr,ht⟩ := held.block a ha
  have out := pluginRealloc_block held.layout hb sz
  rw [← ptr] at out
  have haf : call s (.realloc (some a.ptr) sz) =
      ((pluginRealloc s.heap (some a.ptr) sz).1, ⟨(pluginRealloc s.heap (some a.ptr) sz).2,
        hand (release s.live (some a.ptr)) (pluginRealloc s.heap (some a.ptr) sz).1 sz.toNat
          (if (pluginRealloc s.heap (some a.ptr) sz).1 = some a.ptr
            then idOf s.live (some a.ptr) else none)⟩) := rfl
  generalize pluginRealloc s.heap (some a.ptr) sz = result at out haf
  obtain ⟨hr,heap⟩ := result
  cases out with
  | kept hsm =>
    have hco := confined_shrink held.layout hb hsm
    obtain ⟨newSize,available,-⟩ := s.heap.setSize_self b sz.toNat sz.toNat_lt
    have haw : ∀ c ∈ release s.live (some a.ptr), c.ptr ≠ b+metadataSize := ptr ▸ Live.release_away
    have sub := Live.release_sublist (s := s) (some a.ptr)
    refine ⟨?_,?_,?_,?_⟩
    · rw [advance,haf]
      exact (held.keep hco sub haw).cons hb (available.trans ht) haw _ _
    · rw [advance,haf]
      exact fun _ hen => Live.consEnough (held.keepEnough hco sub haw hen) newSize.ge _
    · intro _ q same
      rw [haf] at same
      rw [advance,haf]
      exact ⟨_,.head _,Option.some.inj same,rfl⟩
    rw [advance,haf]
    exact fun _ => held.frame hco sub haw
  | refused _ _ => exact dropped_kept held ptr (confined_free held.layout hb) rfl haf
  | moved hl hs =>
    rename_i tgt hg
    have hh := allocate_handed held.layout hs
    have hm : Moves s (.realloc (some a.ptr) sz) := by
      simpa [Moves,ptr,hs] using hl
    have hal := (alignSize_toNat sz (hf hm)).1
    have ne : tgt ≠ b := fun eq => hh.unused (eq ▸ hb) (eq ▸ ht)
    have he : some (tgt+metadataSize) ≠ some a.ptr := by
      rw [ptr]; simpa using ne
    rw [if_neg he] at haf
    exact moved_kept held hb ptr ht hh (by omega) rfl hal haf

theorem write_kept (held : Live r s) {a : Allocation} (ha : a ∈ s.live) {addr : Nat}
    (low : a.ptr ≤ addr) (high : addr < a.ptr + s.payload a.ptr) (val : UInt8) :
    Kept r s (.write addr val) := by
  obtain ⟨b,hb,ptr,ht⟩ := held.block a ha
  simp only [Session.payload,ptr,Nat.add_sub_cancel] at high
  have hco := confined_writePayload held.layout hb (poke s.heap.mem addr val)
    (fun x haw => poke_other _ _ (by omega))
  have hs : ∀ d ∈ s.heap.headers,
      s.heap.SameHeader {s.heap with mem := poke s.heap.mem addr val} d := by
    intro d hd x low high
    apply poke_other
    by_cases eq : d = b
    · subst d; omega
    · rcases held.layout.headers_apart hd hb eq with hbe | haf <;> omega
  refine ⟨⟨hco.layout,?_,held.distinct⟩,?_,by simp [Call.allocates],by simp [Call.writes]⟩
  · intro c hc
    obtain ⟨d,hd,ptr',ht'⟩ := held.block c hc
    exact ⟨d,hd,ptr',(hs d hd).available.trans ht'⟩
  intro _ he c hc
  obtain ⟨d,hd,ptr',-⟩ := held.block c hc
  have sz := he c hc
  simp only [Session.payload,ptr',Nat.add_sub_cancel] at sz ⊢
  exact (hs d hd).size.symm ▸ sz

theorem call_kept (held : Live r s) {c : Call} (hal : Allowed s c)
    (hf : Moves s c → RoundsUp c) : Kept r s c := by
  cases c with
  | malloc sz => exact malloc_kept held sz
  | mallocWithId id sz => exact mallocWithId_kept held id sz
  | free ptr =>
    obtain ⟨a,ha,rfl⟩ := hal
    exact free_kept held ha
  | realloc ptr sz =>
    rcases hal with rfl | ⟨a,ha,rfl⟩
    · have hk := malloc_kept held sz
      have eq : call s (.realloc none sz) = call s (.malloc sz) := by
        have hd : pluginRealloc s.heap none sz = pluginMalloc s.heap sz := rfl
        cases res : pluginMalloc s.heap sz with
        | mk ptr heap =>
          rw [res] at hd
          cases ptr <;> simp [call,hd,res,release_none,hand]
      exact ⟨by rw [advance,eq]; exact hk.live,by rw [advance,eq]; exact hk.enough,
        by rw [advance,eq]; exact fun _ => hk.returned rfl,
        by rw [advance,eq]; exact hk.frame⟩
    · exact realloc_kept held ha hf
  | getMemoryWithId id =>
    exact unchanged_kept held (pluginGetMemoryWithId s.heap id) rfl (by simp [Call.allocates])
  | write addr val =>
    obtain ⟨a,ha,low,high⟩ := hal
    exact write_kept held ha low high val

end

/-- In every run of a pluglet that respects the interface and never asks for one of the three
largest sizes. -/
theorem payloads_stay_separated (r : Region) (mem : Memory) (calls : List Call)
    (disciplined : Throughout advance Allowed calls (start r mem))
    (roundsUp : ∀ c ∈ calls, RoundsUp c) :
    Throughout advance (Sound r) calls (start r mem) := by
  have hb : Throughout advance (fun s c => Allowed s c ∧ RoundsUp c) calls (start r mem) :=
    Throughout.and_of_forall disciplined roundsUp
  refine hb.guarantee (I := fun s => Live r s ∧ Enough s) (fun s c held step => ?_)
    ⟨start_live r mem,by simp [Enough,start]⟩
  have hk := call_kept held.1 step.1 (fun _ => step.2)
  have he := hk.enough step.2 held.2
  exact ⟨⟨hk.returned,hk.live.separated he,hk.frame⟩,hk.live,he⟩

def page : Region := ⟨4096, by decide, by decide⟩

def blank : Memory := fun _ => 0

theorem payloads_separated_after_reuse : Throughout advance (Sound page)
      [.malloc 40, .mallocWithId 7 10, .free (some 4120), .malloc 8] (start page blank) := by
  refine payloads_stay_separated page blank _ (by decide) ?_
  simp [RoundsUp,Call.requested]

/-- Rounding the third largest size wraps to zero: the caller gets no byte. -/
theorem wrapped_request_gets_no_payload :
    Throughout advance Allowed [.malloc 4294967293] (start page blank) ∧
    ¬ Throughout advance (Sound page) [.malloc 4294967293] (start page blank) := by
  refine ⟨⟨trivial,trivial⟩,fun hs => ?_⟩
  have size := hs.1.separated.size ⟨4120, 4294967293, none⟩ (mem_singleton.mpr rfl)
  exact absurd size (by decide)

end Frr.PluginHeap
