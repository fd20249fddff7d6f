import Frr.PluginHeapList
import Mathlib.Data.List.Nodup

/-! Memory shared between pluglets by number. `plugin_get_memory_with_id` trusts the id word of
every taken block; only `plugin_malloc_with_id` ever writes that word. -/
namespace Frr.PluginHeap

open ByteMemory List Option Trace

def FreshId (s : Session) : Call → Prop
  | .mallocWithId id _ => ∀ a ∈ s.live, a.id ≠ some id
  | _ => True

instance (s : Session) : (c : Call) → Decidable (FreshId s c)
  | .mallocWithId id _ => inferInstanceAs (Decidable (∀ a ∈ s.live, a.id ≠ some id))
  | .malloc _ | .free _ | .realloc _ _ | .getMemoryWithId _ | .write _ _ => isTrue trivial

structure Lookup (s : Session) : Prop where
  found : ∀ a ∈ s.live, ∀ id, a.id = some id → pluginGetMemoryWithId s.heap id = some a.ptr
  absent : ∀ id, (∀ a ∈ s.live, a.id ≠ some id) → pluginGetMemoryWithId s.heap id = none

def Grows (h : Heap) (size : UInt32) : Prop :=
  slotFor h (alignSize size).toNat = none ∧
    h.heapEnd + ((alignSize size).toNat + metadataSize) ≤ h.heapStart+memBuffer

def Serves (h : Heap) (size : UInt32) : Prop :=
  slotFor h (alignSize size).toNat ≠ none ∨ Grows h size

def Call.anonymous : Call → Bool
  | .malloc _ | .realloc _ _ => true
  | _ => false

def givenBack (s : Session) : Call → Pointer
  | .free ptr => ptr
  | .realloc (some ptr) size =>
    if s.heap.size (ptr-metadataSize) < size.toNat then some ptr else none
  | _ => none

/-- No memory is obtained without an id, the heap does not grow past a last block that has a
successor, and no empty block is given back at the break, where `plugin_free` would ignore it. -/
structure Tagging (s : Session) (c : Call) : Prop where
  tagged : c.anonymous = true → ∀ size, demand s c = some size → ¬ Serves s.heap size
  uncut : ∀ size, demand s c = some size → Grows s.heap size →
    s.heap.heapLastBlock ≠ 0 → s.heap.nextBlock s.heap.heapLastBlock = 0
  freed : givenBack s c ≠ some s.heap.heapEnd

/-- The block list visits every header, wherever `heap_last_block` points. -/
def Complete (h : Heap) : Prop :=
  ∃ blocks, Blocks h blocks ∧ blocks.Pairwise (· < ·) ∧ ∀ b ∈ h.headers, b ∈ blocks

section

variable {r : Region} {h h' : Heap} {blocks : List Nat} {addr : Nat}

theorem Chain.tail {front back : List Nat} {block : Nat}
    (chain : Chain h (front ++ block :: back) addr) (he : h.nextBlock block = 0) :
    back = [] := by
  induction front generalizing addr with
  | nil =>
    obtain ⟨-,-,chain⟩ := chain
    cases back with
    | nil => rfl
    | cons next back => exact absurd (chain.1.symm.trans he) chain.2.1
  | cons _ front ih => exact ih chain.2.2

theorem Blocks.last (lay : Layout r h) (walk : Blocks h blocks) (hc : ∀ b ∈ h.headers, b ∈ blocks)
    (hen : h.heapLastBlock ≠ 0 → h.nextBlock h.heapLastBlock = 0) :
    blocks.getLast?.getD 0 = h.heapLastBlock := by
  rcases lay.last with null | mem
  · have he : blocks = [] := eq_nil_iff_forall_not_mem.mpr fun b hb => by
      have := walk.headers lay b hb
      rw [lay.none null] at this
      contradiction
    rw [he,null]
    rfl
  · have hno : h.heapLastBlock ≠ 0 := by
      have := lay.inside _ mem
      have := r.nonnull
      omega
    obtain ⟨front,back,rfl⟩ := append_of_mem (hc _ mem)
    have hn : h.heapStart ≠ h.heapEnd := by
      intro he
      rw [Blocks,if_pos he] at walk
      simp at walk
    rw [Blocks,if_neg hn] at walk
    obtain rfl := walk.tail (hen hno)
    simp

theorem SameLinks.complete (links : SameLinks h h') (lay : Layout r h) (hc : Complete h) :
    Complete h' := by
  obtain ⟨blocks,walk,hs,all⟩ := hc
  exact ⟨blocks,links.walk lay walk,hs,links.headers ▸ all⟩

theorem Allocated.complete (lay : Layout r h) (hco : Complete h) {sz : UInt32} {b : Nat}
    (hse : Allocated h (alignSize sz).toNat b h')
    (uncut : Grows h sz → h.heapLastBlock ≠ 0 → h.nextBlock h.heapLastBlock = 0) :
    Complete h' := by
  obtain ⟨blocks,walk,hs,all⟩ := hco
  cases hse with
  | whole hf _ =>
    have hm := (slotFor_spec lay hf).1
    exact (links_setAvailable lay hm (by omega)).complete lay ⟨blocks,walk,hs,all⟩
  | split hf room =>
    obtain ⟨front,back,rfl⟩ := append_of_mem (all b (slotFor_spec lay hf).1)
    obtain ⟨walk',hs',-,hdrs⟩ := split_walk lay hf room walk hs
    refine ⟨_,walk',hs',fun c hc => ?_⟩
    rw [hdrs] at hc
    exact mem_insert_of_mem ((mem_cons.mp hc).imp_right (all c))
  | grown none room =>
    have ha := lay.appended (alignSize sz).toNat_lt
    have last := walk.last lay all (uncut ⟨none,room⟩)
    obtain ⟨walk',hs'⟩ := ha.walk lay walk hs last
    refine ⟨_,walk',hs',fun c hc => ?_⟩
    rw [ha.headers] at hc
    rcases mem_cons.mp hc with rfl | hc
    · simp
    · exact mem_append_left _ (all c hc)

theorem allocate_none (lay : Layout r h) {sz : UInt32} (hr : ¬ Serves h sz) :
    allocate h sz = none := by
  cases hs : allocate h sz with
  | none => rfl
  | some res =>
    obtain ⟨b,h'⟩ := res
    refine absurd ?_ hr
    cases (allocate_iff lay sz).mp hs with
    | whole hf _ => exact .inl (by simp [hf])
    | split hf _ => exact .inl (by simp [hf])
    | grown none room => exact .inr ⟨none,room⟩

theorem findId_chain (id : Nat) {fuel : Nat} (chain : Chain h blocks addr)
    (he : blocks.length ≤ fuel) :
    findId h id fuel addr = blocks.find? fun b => h.available b = 0 ∧ h.id b = id := by
  induction blocks generalizing addr fuel with
  | nil =>
    cases fuel with
    | zero => rfl
    | succ fuel => simp [findId,show addr = 0 from chain]
  | cons block rest ih =>
    obtain ⟨rfl,hn,chain⟩ := chain
    cases fuel with
    | zero => simp at he
    | succ fuel =>
      simp only [findId,hn,↓reduceIte,find?_cons]
      by_cases hit : h.available addr = 0 ∧ h.id addr = id
      · simp [hit]
      simp only [hit,↓reduceIte,decide_false]
      exact ih chain (by simpa using he)

theorem lookup_eq_find (lay : Layout r h) (walk : Blocks h blocks)
    (hs : blocks.Pairwise (· < ·)) (id : UInt32) :
    pluginGetMemoryWithId h id =
      (blocks.find? fun b => h.available b = 0 ∧ h.id b = id.toNat).map (· + metadataSize) := by
  have hsh : blocks.length ≤ memBuffer := by
    have := lay.high
    have m := metadataSize_eq
    refine (sorted_length hs fun b hb => ?_).trans
      (show r.base + memBuffer - r.base ≤ memBuffer by omega)
    have := lay.inside b (walk.headers lay b hb)
    omega
  simp only [Blocks] at walk
  split at walk
  · next empty => simp [pluginGetMemoryWithId,empty,walk]
  · next nonempty => rw [pluginGetMemoryWithId,if_neg nonempty,findId_chain _ walk hsh]

end

/-- A taken block is held under the id it records, each id once, and the list visits all blocks. -/
structure Tagged (r : Region) (s : Session) : Prop where
  live : Live r s
  complete : Complete s.heap
  owned : ∀ b ∈ s.heap.headers, s.heap.available b = 0 → ∃ a ∈ s.live,
    a.ptr = b+metadataSize ∧ ∃ id, a.id = some id ∧ s.heap.id b = id.toNat
  unique : s.live.Pairwise fun a b => a.id ≠ b.id

section

variable {r : Region} {s : Session}

theorem eq_of_pairwise_ne {β : Type} {f : Allocation → β} {live : List Allocation}
    (hd : live.Pairwise fun a b => f a ≠ f b) {a b : Allocation} (ha : a ∈ live)
    (hb : b ∈ live) (eq : f a = f b) : a = b :=
  inj_on_of_nodup_map (pairwise_map.mpr hd) ha hb eq

theorem Tagged.lookup (tagged : Tagged r s) : Lookup s := by
  obtain ⟨blocks,walk,hs,all⟩ := tagged.complete
  have lay := tagged.live.layout
  constructor
  · intro a ha id hn
    obtain ⟨b,hb,ptr,ht⟩ := tagged.live.block a ha
    rw [lookup_eq_find lay walk hs]
    -- The block of the allocation is a hit, and every hit is that block.
    have idOf : ∀ c ∈ s.heap.headers, s.heap.available c = 0 → s.heap.id c = id.toNat → c = b := by
      intro c hc ht eq
      obtain ⟨a',ha',ptr',id',hn',hr⟩ := tagged.owned c hc ht
      obtain rfl : id' = id := UInt32.toNat_inj.mp (hr.symm.trans eq)
      obtain rfl := eq_of_pairwise_ne tagged.unique ha' ha (hn'.trans hn.symm)
      omega
    have hr : s.heap.id b = id.toNat := by
      obtain ⟨a',ha',ptr',id',hn',hr⟩ := tagged.owned b hb ht
      obtain rfl := eq_of_pairwise_ne tagged.live.distinct ha' ha (ptr'.trans ptr.symm)
      obtain rfl := some.inj (hn'.symm.trans hn)
      exact hr
    cases hit : blocks.find? fun b => s.heap.available b = 0 ∧ s.heap.id b = id.toNat with
    | none =>
      have := find?_eq_none.mp hit b (all b hb)
      simp [ht,hr] at this
    | some c =>
      have hh := find?_some hit
      simp only [decide_eq_true_eq] at hh
      rw [idOf c (walk.headers lay c (mem_of_find?_eq_some hit)) hh.1 hh.2,ptr]
      rfl
  · intro id hu
    rw [lookup_eq_find lay walk hs,map_eq_none_iff,find?_eq_none]
    intro c hc hh
    simp only [decide_eq_true_eq] at hh
    obtain ⟨a,ha,-,id',hn,hr⟩ := tagged.owned c (walk.headers lay c hc) hh.1
    exact hu a ha (hn.trans (congrArg some (UInt32.toNat_inj.mp (hr.symm.trans hh.2))))

theorem Tagged.owner (tagged : Tagged r s) {h' : Heap} {b c : Nat}
    (hco : Confined r s.heap h' b) (hc : c ∈ s.heap.headers) (ne : c ≠ b)
    (ht : h'.available c = 0) : ∃ a ∈ s.live, a.ptr = c+metadataSize ∧
      a.ptr ≠ b+metadataSize ∧ ∃ id, a.id = some id ∧ h'.id c = id.toNat := by
  rw [hco.availables c hc ne] at ht
  obtain ⟨a,ha,ptr,id,hn,hr⟩ := tagged.owned c hc ht
  exact ⟨a,ha,ptr,by omega,id,hn,(hco.ids c hc ne).trans hr⟩

theorem Allowed.inBlocks (hh : Live r s) {c : Call} (hal : Allowed s c) : InBlocks s c := by
  have m := metadataSize_eq
  cases c with
  | free ptr =>
    obtain ⟨a,ha,rfl⟩ := hal
    obtain ⟨b,hb,ptr,-⟩ := hh.block a ha
    exact .inr ⟨b,hb,congrArg some ptr⟩
  | realloc ptr sz =>
    rcases hal with rfl | ⟨a,ha,rfl⟩
    · exact .inl rfl
    obtain ⟨b,hb,ptr,-⟩ := hh.block a ha
    exact .inr ⟨b,hb,congrArg some ptr⟩
  | write addr val =>
    obtain ⟨a,ha,low,high⟩ := hal
    obtain ⟨b,hb,ptr,-⟩ := hh.block a ha
    simp only [Session.payload,ptr,Nat.add_sub_cancel] at high
    exact ⟨b,hb,by omega,by omega⟩
  | malloc sz => trivial
  | mallocWithId id sz => trivial
  | getMemoryWithId id => trivial

/-- What a call has to restore beside the layout and the list. -/
structure Recorded (s : Session) : Prop where
  owned : ∀ b ∈ s.heap.headers, s.heap.available b = 0 → ∃ a ∈ s.live,
    a.ptr = b+metadataSize ∧ ∃ id, a.id = some id ∧ s.heap.id b = id.toNat
  unique : s.live.Pairwise fun a b => a.id ≠ b.id

section

variable (tagged : Tagged r s)

include tagged

theorem mallocWithId_recorded {id : UInt32} (sz : UInt32)
    (freshId : ∀ a ∈ s.live, a.id ≠ some id) : Recorded (advance s (.mallocWithId id sz)) := by
  cases hs : allocate s.heap sz with
  | none =>
    have he : advance s (.mallocWithId id sz) = s := by
      simp [advance,call,pluginMallocWithId,hs,hand]
    rw [he]
    exact ⟨tagged.owned,tagged.unique⟩
  | some res =>
    obtain ⟨b,hg⟩ := res
    have hh := (allocate_handed tagged.live.layout hs).setId id
    have haf : advance s (.mallocWithId id sz) =
        ⟨hg.setId b id.toNat, ⟨b+metadataSize, sz.toNat, some id⟩ :: s.live⟩ := by
      simp [advance,call,pluginMallocWithId,hs,hand]
    rw [haf]
    refine ⟨fun c hc ht => ?_,pairwise_cons.mpr ⟨fun a ha he => freshId a ha he.symm,tagged.unique⟩⟩
    by_cases eq : c = b
    · subst c
      exact ⟨_,.head _,rfl,id,rfl,(hg.setId_self b id.toNat id.toNat_lt).2.2.2.1⟩
    rcases hh.created c hc with old | new | free
    · obtain ⟨a,ha,ptr,-,id,hn,hr⟩ := tagged.owner hh.toConfined old eq ht
      exact ⟨a,.tail _ ha,ptr,id,hn,hr⟩
    · exact absurd new eq
    · exact absurd (free.symm.trans ht) (by decide)

theorem freed_recorded {b : Nat} (mem : b ∈ s.heap.headers)
    (hb : b + metadataSize ≠ s.heap.heapEnd) :
    Recorded ⟨pluginFree s.heap (some (b+metadataSize)),
      release s.live (some (b+metadataSize))⟩ := by
  have hi := (tagged.live.layout.inside b mem).2
  have hco := confined_free tagged.live.layout mem
  have hf : pluginFree s.heap (some (b+metadataSize)) = s.heap.setAvailable b 1 := by
    rw [pluginFree_block tagged.live.layout mem,if_pos (by omega)]
  rw [hf] at hco ⊢
  refine ⟨fun c hc ht => ?_,tagged.unique.sublist filter_sublist⟩
  by_cases eq : c = b
  · subst c
    exact absurd ((s.heap.setAvailable_self b 1 (by omega)).2.1.symm.trans ht) (by decide)
  obtain ⟨a,ha,ptr,haw,id,hn,hr⟩ := tagged.owner hco hc eq ht
  exact ⟨a,mem_release.mpr ⟨ha,fun hs => haw (some.inj hs)⟩,ptr,id,hn,hr⟩

theorem shrunk_recorded {a : Allocation} (ha : a ∈ s.live) {b : Nat}
    (mem : b ∈ s.heap.headers) (ptr : a.ptr = b+metadataSize) {sz : UInt32}
    (hsm : sz.toNat ≤ s.heap.size b) :
    Recorded ⟨s.heap.setSize b sz.toNat,
      ⟨a.ptr, sz.toNat, idOf s.live (some a.ptr)⟩ :: release s.live (some a.ptr)⟩ := by
  have hco := confined_shrink tagged.live.layout mem hsm
  obtain ⟨-,available,-,recordedId,-⟩ := s.heap.setSize_self b sz.toNat sz.toNat_lt
  have sameId : idOf s.live (some a.ptr) = a.id := by
    cases hit : s.live.find? fun c => some c.ptr = some a.ptr with
    | none => simpa using find?_eq_none.mp hit a ha
    | some c =>
      have at' := find?_some hit
      simp only [decide_eq_true_eq,some.injEq] at at'
      obtain rfl := eq_of_pairwise_ne tagged.live.distinct (mem_of_find?_eq_some hit) ha at'
      rw [idOf,hit]
      rfl
  rw [sameId]
  refine ⟨fun c hc ht => ?_,pairwise_cons.mpr
    ⟨fun c hc hs => ?_,tagged.unique.sublist filter_sublist⟩⟩
  · by_cases eq : c = b
    · subst c
      obtain ⟨a',ha',ptr',id,hn,hr⟩ := tagged.owned b mem (available.symm.trans ht)
      obtain rfl := eq_of_pairwise_ne tagged.live.distinct ha' ha (ptr'.trans ptr.symm)
      exact ⟨_,.head _,ptr,id,hn,recordedId.trans hr⟩
    obtain ⟨a',ha',ptr',haw,id,hn,hr⟩ := tagged.owner hco hc eq ht
    refine ⟨a',.tail _ (mem_release.mpr ⟨ha',fun hs => haw ?_⟩), ptr',id,hn,hr⟩
    exact (some.inj hs).trans ptr
  · obtain ⟨hm',haw⟩ := mem_release.mp hc
    obtain rfl := eq_of_pairwise_ne tagged.unique ha hm' hs
    exact haw rfl

theorem write_recorded {b addr : Nat} (hm : b ∈ s.heap.headers)
    (low : b + metadataSize ≤ addr) (high : addr < b+metadataSize + s.heap.size b)
    (val : UInt8) : Recorded (advance s (.write addr val)) := by
  have m := metadataSize_eq
  have hs : ∀ c ∈ s.heap.headers,
      s.heap.SameHeader {s.heap with mem := poke s.heap.mem addr val} c := by
    intro c hc x low high
    apply poke_other
    by_cases eq : c = b
    · subst c; omega
    · rcases tagged.live.layout.headers_apart hc hm eq with hb | haf <;> omega
  refine ⟨fun c hc ht => ?_,tagged.unique⟩
  obtain ⟨a,ha,ptr,id,hn,hr⟩ := tagged.owned c hc ((hs c hc).available.symm.trans ht)
  exact ⟨a,ha,ptr,id,hn,(hs c hc).id.trans hr⟩

theorem call_recorded {c : Call} (hal : Allowed s c)
    (freshId : FreshId s c) (ht : Tagging s c) : Recorded (advance s c) := by
  have lay := tagged.live.layout
  have hr : ∀ sz, c.anonymous → demand s c = some sz →
      allocate s.heap sz = none :=
    fun sz anonymous has => allocate_none lay (ht.tagged anonymous sz has)
  cases c with
  | malloc sz =>
    have eq : advance s (.malloc sz) = s := by
      simp [advance,call,pluginMalloc,hr sz rfl rfl,hand]
    rw [eq]
    exact ⟨tagged.owned,tagged.unique⟩
  | mallocWithId id sz => exact mallocWithId_recorded tagged sz freshId
  | free ptr =>
    obtain ⟨a,ha,rfl⟩ := hal
    obtain ⟨b,hb,ptr,-⟩ := tagged.live.block a ha
    have hbe : b + metadataSize ≠ s.heap.heapEnd :=
      fun atEnd => ht.freed (by rw [← atEnd,← ptr]; rfl)
    simpa [advance,call,ptr] using freed_recorded tagged hb hbe
  | realloc ptr sz =>
    rcases hal with rfl | ⟨a,ha,rfl⟩
    · have eq : advance s (.realloc none sz) = s := by
        simp [advance,call,pluginRealloc,pluginMalloc,hr sz rfl rfl,hand,release]
      rw [eq]
      exact ⟨tagged.owned,tagged.unique⟩
    obtain ⟨b,hb,ptr,-⟩ := tagged.live.block a ha
    have out := pluginRealloc_block lay hb sz
    rw [← ptr] at out
    have haf : advance s (.realloc (some a.ptr) sz) =
      ⟨(pluginRealloc s.heap (some a.ptr) sz).2,
        hand (release s.live (some a.ptr)) (pluginRealloc s.heap (some a.ptr) sz).1 sz.toNat
          (if (pluginRealloc s.heap (some a.ptr) sz).1 = some a.ptr
            then idOf s.live (some a.ptr) else none)⟩ := rfl
    generalize pluginRealloc s.heap (some a.ptr) sz = result at out haf
    obtain ⟨hre,heap⟩ := result
    cases out with
    | kept hs =>
      rw [← ptr,if_pos rfl] at haf
      rw [haf]
      exact shrunk_recorded tagged ha hb ptr hs
    | refused hl _ =>
      have hbe : b + metadataSize ≠ s.heap.heapEnd :=
        fun atEnd => ht.freed (by simp [givenBack,← atEnd,ptr,hl])
      rw [haf]
      exact ptr ▸ freed_recorded tagged hb hbe
    | moved hl hse =>
      have none := hr sz rfl (by simp [demand,ptr,hl])
      rw [hse] at none
      contradiction
  | getMemoryWithId id => exact ⟨tagged.owned,tagged.unique⟩
  | write addr val =>
    obtain ⟨b,hb,low,high⟩ := hal.inBlocks tagged.live
    exact write_recorded tagged hb low high val

theorem tagged_step {c : Call} (ha : Allowed s c)
    (freshId : FreshId s c) (ht : Tagging s c) : Tagged r (advance s c) := by
  have lay := tagged.live.layout
  -- A move would have obtained memory without an id.
  have hf : Moves s c → RoundsUp c := by
    intro hm
    cases c with
    | realloc ptr sz =>
      cases ptr with
      | none => exact hm.elim
      | some ptr =>
        refine absurd (allocate_none lay (ht.tagged rfl sz ?_)) hm.2
        simp [demand,hm.1]
    | _ => exact hm.elim
  have hr := call_recorded tagged ha freshId ht
  refine ⟨(call_kept tagged.live ha hf).live,?_,hr.owned,hr.unique⟩
  cases (call_effect lay (ha.inBlocks tagged.live) hf).2 with
  | quiet _ links => exact links.complete lay tagged.complete
  | served has hal links =>
    rename_i sz b hg
    exact links.complete (hal.handed lay (alignSize sz).toNat_lt).layout
      (hal.complete lay tagged.complete (ht.uncut sz has))

end

end

theorem start_tagged (r : Region) (mem : Memory) : Tagged r (start r mem) :=
  ⟨start_live r mem,⟨[],by simp [Blocks,start,fresh],.nil,by simp [start,fresh]⟩,
    by simp [start,fresh],.nil⟩

/-- In a run as `Tagging` wants, with an id held at most once, a lookup finds exactly the allocation
held under it. -/
theorem lookup_finds_held_allocation (r : Region) (mem : Memory) (calls : List Call)
    (disciplined : Throughout advance (fun s c => Allowed s c ∧ FreshId s c) calls (start r mem))
    (tagging : Throughout advance Tagging calls (start r mem)) :
    Throughout advance (fun s c => Lookup (advance s c)) calls (start r mem) := by
  have hb := disciplined.and tagging
  refine hb.guarantee (I := Tagged r) (fun s c tagged step => ?_) (start_tagged r mem)
  have ha := tagged_step tagged step.1.1 step.1.2 step.2
  exact ⟨ha.lookup,ha⟩

theorem lookup_finds_after_split : Throughout advance (fun s c => Lookup (advance s c))
      [.mallocWithId 7 60, .mallocWithId 8 20, .free (some 4120), .mallocWithId 9 4]
      (start page blank) := by
  refine lookup_finds_held_allocation page blank
    [.mallocWithId 7 60, .mallocWithId 8 20, .free (some 4120), .mallocWithId 9 4] (by decide)
    ⟨⟨nofun,?_,by decide⟩,⟨nofun,?_,by decide⟩,⟨nofun,nofun,by decide⟩,⟨nofun,?_,by decide⟩,trivial⟩
  · exact fun sz _ _ fst => absurd rfl fst
  · exact fun sz _ _ _ => rfl
  · exact fun sz _ _ _ => rfl

/-- A block keeps its id word when freed and handed out again without an id, and one behind a
divided last block is not on the list once the heap has grown. -/
theorem lookup_misled : (Throughout advance (fun s c => Allowed s c ∧ FreshId s c)
      [.mallocWithId 7 16, .free (some 4120), .malloc 16] (start page blank) ∧
    ¬ Throughout advance (fun s c => Lookup (advance s c))
      [.mallocWithId 7 16, .free (some 4120), .malloc 16] (start page blank)) ∧
    Throughout advance (fun s c => Allowed s c ∧ FreshId s c)
      [.mallocWithId 1 100, .free (some 4120), .mallocWithId 2 4, .mallocWithId 3 40,
        .mallocWithId 4 100] (start page blank) ∧
    ¬ Throughout advance (fun s c => Lookup (advance s c))
      [.mallocWithId 1 100, .free (some 4120), .mallocWithId 2 4, .mallocWithId 3 40,
        .mallocWithId 4 100] (start page blank) := by
  refine ⟨⟨by decide,?_⟩,by decide,?_⟩
  · rintro ⟨-,-,lookup,-⟩
    exact absurd (lookup.absent 7 (by decide)) (by decide)
  rintro ⟨-,-,-,-,lookup,-⟩
  have hh : (⟨4148, 40, some 3⟩ : Allocation) ∈ (run advance [.mallocWithId 1 100,
      .free (some 4120), .mallocWithId 2 4, .mallocWithId 3 40, .mallocWithId 4 100]
      (start page blank)).live := .tail _ (.head _)
  exact absurd (lookup.found _ hh 3 rfl) (by decide)

end Frr.PluginHeap
