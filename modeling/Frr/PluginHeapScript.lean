import Frr.PluginHeapPointers

/-! The heap calls of one execution of a pluglet. A script names pointers by local variables, and a
ledger says which of these hold a block and whether one was lost. A checked script takes and gives
back exactly the blocks the ledger says. -/
namespace Frr.PluginHeap

open ByteMemory Function Option

inductive Op (L : Type) where
  | malloc (x : L) (size : UInt32)
  | realloc (x : L) (size : UInt32)
  | fill (x : L) (length : Nat) (bytes : Nat → UInt8)
  | free (x : L)

def fillBytes (h : Heap) (ptr : Pointer) (length : Nat) (bytes : Nat → UInt8) : Heap :=
  match ptr with
  | none => h
  | some ptr => {h with mem := fun x =>
      if ptr ≤ x ∧ x < ptr+length then bytes (x-ptr) else h.mem x}

/-- The heap, the local variables, and whether it returned for lack of memory. -/
structure Machine (L : Type) where
  heap : Heap
  locals : L → Pointer
  returned : Bool

section

variable {L : Type} [DecidableEq L]

def Machine.start (h : Heap) : Machine L := ⟨h, fun _ => none, false⟩

section

variable (m : Machine L)

def Op.exec : Op L → Machine L
  | .malloc x size =>
    let (ptr, heap) := pluginMalloc m.heap size
    ⟨heap, update m.locals x ptr, ptr.isNone⟩
  | .realloc x size =>
    let (ptr, heap) := pluginRealloc m.heap (m.locals x) size
    ⟨heap, update m.locals x ptr, ptr.isNone⟩
  | .fill x length bytes => {m with heap := fillBytes m.heap (m.locals x) length bytes}
  | .free x => {m with heap := pluginFree m.heap (m.locals x)}

def Machine.step (op : Op L) : Machine L :=
  if m.returned then m else op.exec m

def Machine.execute (ops : List (Op L)) : Machine L := Trace.run .step ops m

def Op.demand : Op L → Option UInt32
  | .malloc _ size => some size
  | .realloc x size =>
    match m.locals x with
    | none => some size
    | some ptr => if m.heap.size (ptr-metadataSize) < size.toNat then some size else none
  | _ => none

def Supplied (op : Op L) : Prop :=
  ∀ size, op.demand m = some size → Serves m.heap size

end

instance (h : Heap) (size : UInt32) : Decidable (Grows h size) :=
  inferInstanceAs (Decidable (_ ∧ _))

instance (h : Heap) (size : UInt32) : Decidable (Serves h size) :=
  inferInstanceAs (Decidable (_ ∨ _))

instance (m : Machine L) (op : Op L) : Decidable (Supplied m op) :=
  match demand : op.demand m with
  | none => isTrue fun _ asked => by simp [demand] at asked
  | some size => decidable_of_iff (Serves m.heap size) ⟨fun serves other asked => by
      rw [demand] at asked
      exact some.inj asked ▸ serves,fun supplied => supplied size demand⟩

/-- The variables that hold a block, with the bytes to be filled, and whether one was overwritten
while it held one. -/
structure Ledger (L : Type) where
  held : L → Option Nat
  lost : Bool

def Ledger.empty : Ledger L := ⟨fun _ => none, false⟩

section

variable (l : Ledger L)

def Ledger.book : Op L → Ledger L
  | .malloc x size =>
    ⟨update l.held x (some size.toNat), l.lost || (l.held x).isSome⟩
  | .realloc x size => {l with held := update l.held x (some size.toNat)}
  | .fill _ _ _ => l
  | .free x => {l with held := update l.held x none}

def Ledger.bookAll (ops : List (Op L)) : Ledger L := ops.foldl .book l

def Ledger.Balanced : Prop := (∀ x, l.held x = none) ∧ l.lost = false

def Ledger.Legal : Op L → Prop
  | .malloc _ size => 0 < size.toNat ∧ size.toNat ≤ 2 ^ 32 - 4
  | .realloc x size => l.held x ≠ none ∧ size.toNat ≤ 2 ^ 32 - 4
  | .fill x length _ => ∃ n, l.held x = some n ∧ length ≤ n
  | .free x => l.held x ≠ none

def Ledger.Pinned (y : L) : Op L → Prop
  | .malloc x _ | .realloc x _ => l.held y ≠ none ∧ y ≠ x
  | _ => True

end

/-- Every operation is legal, and `y` is held whenever memory is asked for. -/
def Ledger.Checked (y : L) : Ledger L → List (Op L) → Prop
  | _, [] => True
  | l, op :: rest => l.Legal op ∧ l.Pinned y op ∧ (l.book op).Checked y rest

def Taken (h : Heap) (b : Nat) : Prop := b ∈ h.headers ∧ h.available b = 0

structure Frame (r : Region) (h h' : Heap) (touched : List Nat) : Prop where
  layout : Layout r h'
  members : ∀ c ∈ h.headers, c ∈ h'.headers
  sizes : ∀ c ∈ h.headers, c ∉ touched → h'.size c = h.size c
  taken : ∀ c, c ∉ touched → (Taken h' c ↔ Taken h c)
  high : h.heapEnd ≤ h'.heapEnd

/-- Beside the blocks taken at the start, those taken are the lost ones and those the variables
hold. -/
structure Accounts (r : Region) (start : Nat → Prop) (block : L → Nat) (lost : Nat → Prop)
    (m : Machine L) (l : Ledger L) : Prop where
  layout : Layout r m.heap
  ptr : ∀ x, l.held x ≠ none → m.locals x = some (block x + metadataSize)
  size : ∀ x n, l.held x = some n → n ≤ m.heap.size (block x)
  inner : ∀ x, l.held x ≠ none → block x + metadataSize < m.heap.heapEnd
  distinct : ∀ x y, l.held x ≠ none → l.held y ≠ none → block x = block y → x = y
  new : ∀ x, l.held x ≠ none → ¬ start (block x) ∧ ¬ lost (block x)
  gone : ∀ b, lost b → ¬ start b
  any : l.lost = true ↔ ∃ b, lost b
  taken : ∀ b, Taken m.heap b ↔ start b ∨ lost b ∨ ∃ x, l.held x ≠ none ∧ block x = b

end

section

variable {r : Region} {h h' h'' : Heap} {b n : Nat}

theorem Frame.trans {fst snd : List Nat} (one : Frame r h h' fst)
    (two : Frame r h' h'' snd) : Frame r h h'' (fst ++ snd) := by
  refine ⟨two.layout,fun c hm => two.members c (one.members c hm),
    fun c hm ha => ?_,fun c ha => ?_,one.high.trans two.high⟩
  · rw [List.mem_append,not_or] at ha
    exact (two.sizes c (one.members c hm) ha.2).trans (one.sizes c hm ha.1)
  rw [List.mem_append,not_or] at ha
  exact (two.taken c ha.2).trans (one.taken c ha.1)

theorem Frame.mono {touched more : List Nat} (frm : Frame r h h' touched)
    (hs : ∀ c ∈ touched, c ∈ more) : Frame r h h' more :=
  ⟨frm.layout,frm.members,fun c hm ha => frm.sizes c hm (mt (hs c) ha),
    fun c ha => frm.taken c (mt (hs c) ha),frm.high⟩

theorem Confined.frame (hc : Confined r h h' b) (hdrs : h'.headers = h.headers)
    (high : h'.heapEnd = h.heapEnd) : Frame r h h' [b] := by
  refine ⟨hc.layout,hc.subset,
    fun c mem ha => hc.sizes c mem (by simpa using ha),fun c ha => ?_,high.ge⟩
  have ho : c ≠ b := by simpa using ha
  simp only [Taken,hdrs]
  exact and_congr_right fun mem => by rw [hc.availables c mem ho]

theorem Allocated.high (hs : Allocated h n b h') : h.heapEnd ≤ h'.heapEnd := by
  cases hs with
  | whole => exact le_rfl
  | split => exact le_rfl
  | grown =>
    have eq : ∀ (h : Heap) (block : Nat), (appendBlock h block n).heapEnd = h.heapEnd := by
      intro h block
      simp only [appendBlock]
      split <;> rfl
    rw [eq]
    exact Nat.le_add_right _ _

theorem Handed.frame (hh : Handed r h h' n b) (high : h.heapEnd ≤ h'.heapEnd) :
    Frame r h h' [b] := by
  refine ⟨hh.layout,hh.subset,
    fun c mem ha => hh.sizes c mem (by simpa using ha),fun c ha => ?_,high⟩
  have ho : c ≠ b := by simpa using ha
  constructor
  · rintro ⟨mem,ht⟩
    rcases hh.created c mem with old | eq | free
    · exact ⟨old,(hh.availables c old ho).symm.trans ht⟩
    · exact absurd eq ho
    rw [free] at ht
    contradiction
  · rintro ⟨mem,ht⟩
    exact ⟨hh.subset c mem,(hh.availables c mem ho).trans ht⟩

section

variable (layout : Layout r h)

include layout

theorem pluginMalloc_served {sz : UInt32} (pos : 0 < sz.toNat)
    (rounds : sz.toNat ≤ 2 ^ 32 - 4) (hse : Serves h sz) :
    ∃ b h', pluginMalloc h sz = (some (b+metadataSize), h') ∧ Frame r h h' [b] ∧
      ¬ Taken h b ∧ Taken h' b ∧ sz.toNat ≤ h'.size b ∧ b+metadataSize < h'.heapEnd := by
  obtain ⟨⟨b,h'⟩,hs⟩ := ne_none_iff_exists'.mp
    (mt (allocate_eq_none_iff layout).mp (not_not_intro hse))
  have hh := allocate_handed layout hs
  have hf := (alignSize_toNat sz rounds).1.trans hh.size
  have hi := hh.layout.inside b hh.member
  refine ⟨b,h',by simp [pluginMalloc,hs],
    hh.frame ((allocate_iff layout sz).mp hs).high,
    fun ht => hh.unused ht.1 ht.2,⟨hh.member,hh.taken⟩,hf,by omega⟩

theorem pluginMalloc_refused {sz : UInt32} (hr : ¬ Serves h sz) :
    pluginMalloc h sz = (none, h) := by
  simp [pluginMalloc,allocate_none layout hr]

theorem pluginFree_taken (ht : Taken h b) (inner : b + metadataSize < h.heapEnd) :
    Frame r h (pluginFree h (some (b+metadataSize))) [b] ∧
      ¬ Taken (pluginFree h (some (b+metadataSize))) b := by
  have hc := confined_free layout ht.1
  rw [pluginFree_block layout ht.1,if_pos inner] at hc ⊢
  refine ⟨hc.frame rfl rfl,fun hs => ?_⟩
  have hm := (h.setAvailable_self b 1 (by omega)).2.1
  rw [hs.2] at hm
  contradiction

theorem fillBytes_frame (ht : Taken h b) {len : Nat}
    (hf : len ≤ h.size b) (bytes : Nat → UInt8) :
    Frame r h (fillBytes h (some (b+metadataSize)) len bytes) [b] ∧
      Taken (fillBytes h (some (b+metadataSize)) len bytes) b ∧
      (fillBytes h (some (b+metadataSize)) len bytes).size b = h.size b := by
  have ho : ∀ x, x < b+metadataSize ∨ b+metadataSize + h.size b ≤ x →
      (fillBytes h (some (b+metadataSize)) len bytes).mem x = h.mem x := by
    intro x ha
    simp only [fillBytes]
    rw [if_neg (by omega)]
  have hc := confined_writePayload layout ht.1 _ ho
  have eq : h.SameHeader (fillBytes h (some (b+metadataSize)) len bytes) b :=
    fun x low high => ho x (.inl high)
  exact ⟨hc.frame rfl rfl,⟨ht.1,eq.available.trans ht.2⟩,eq.size⟩

theorem pluginRealloc_served (ht : Taken h b)
    (inner : b + metadataSize < h.heapEnd) {sz : UInt32} (rounds : sz.toNat ≤ 2 ^ 32 - 4)
    (hser : h.size b < sz.toNat → Serves h sz) :
    ∃ t h', pluginRealloc h (some (b+metadataSize)) sz = (some (t+metadataSize), h') ∧
      Frame r h h' [t, b] ∧ (t ≠ b → ¬ Taken h t ∧ ¬ Taken h' b) ∧ Taken h' t ∧
      sz.toNat ≤ h'.size t ∧ t+metadataSize < h'.heapEnd := by
  have out := pluginRealloc_block layout ht.1 sz
  generalize pluginRealloc h (some (b+metadataSize)) sz = result at out
  obtain ⟨ptr,haf⟩ := result
  cases out with
  | kept hsm =>
    have frm := (confined_shrink layout ht.1 hsm).frame rfl rfl
    obtain ⟨newSize,available,-⟩ := h.setSize_self b sz.toNat sz.toNat_lt
    exact ⟨b,_,rfl,frm.mono (by simp),fun ho => absurd rfl ho,
      ⟨ht.1,available.trans ht.2⟩,newSize.ge,inner⟩
  | refused hl none =>
    exact absurd (hser hl) ((allocate_eq_none_iff layout).mp none)
  | @moved tgt hg hl hse =>
    have hh := allocate_handed layout hse
    have hfi := (alignSize_toNat sz rounds).1.trans hh.size
    have ne : b ≠ tgt := fun eq => hh.unused (eq ▸ ht.1) (eq ▸ ht.2)
    have grew := hh.frame ((allocate_iff layout sz).mp hse).high
    have hc : hg.memcpy (tgt+metadataSize) (b+metadataSize) (h.size b) =
        fillBytes hg (some (tgt+metadataSize)) (h.size b)
          (fun i => hg.mem (b+metadataSize+i)) := rfl
    rw [hc]
    obtain ⟨hf,hs,sameSize⟩ := fillBytes_frame grew.layout ⟨hh.member,hh.taken⟩
      (by omega : h.size b ≤ hg.size tgt) (fun i => hg.mem (b+metadataSize+i))
    generalize fillBytes hg (some (tgt+metadataSize)) (h.size b)
      (fun i => hg.mem (b+metadataSize+i)) = moved at hf hs sameSize
    have old : Taken moved b := by
      rw [hf.taken b (by simpa using ne),grew.taken b (by simpa using ne)]
      exact ht
    have inner' : b + metadataSize < moved.heapEnd := inner.trans_le (grew.high.trans hf.high)
    obtain ⟨hfr,hgi⟩ := pluginFree_taken hf.layout old inner'
    have ha : tgt ∉ [b] := by simpa using ne.symm
    have hf' : sz.toNat ≤ (pluginFree moved (some (b+metadataSize))).size tgt := by
      rw [hfr.sizes tgt hs.1 ha,sameSize]
      exact hfi
    have hhe := (hfr.taken tgt ha).mpr hs
    have hi := hfr.layout.inside tgt hhe.1
    have hw : tgt + metadataSize < (pluginFree moved (some (b+metadataSize))).heapEnd := by
      omega
    exact ⟨tgt,_,rfl,((grew.trans hf).trans hfr).mono (by simp),
      fun _ => ⟨fun hu => hh.unused hu.1 hu.2,hgi⟩,hhe,hf',hw⟩

end

end

namespace Accounts

variable {L : Type} {r : Region} {start lost : Nat → Prop} {block : L → Nat}
variable {m : Machine L} {l : Ledger L} {h' : Heap} {x y : L} {b n : Nat}

theorem initial {h : Heap} (layout : Layout r h) :
    Accounts r (Taken h) (fun _ => 0) (fun _ => False) (Machine.start h) (.empty : Ledger L) := by
  refine ⟨layout,?_,?_,?_,?_,?_,?_,?_,?_⟩ <;> simp [Ledger.empty,Machine.start]

section

variable (acc : Accounts r start block lost m l)

include acc

theorem held_taken (hh : l.held x ≠ none) : Taken m.heap (block x) :=
  (acc.taken _).mpr (.inr (.inr ⟨x,hh,rfl⟩))

theorem unknown (free : ¬ Taken m.heap b) :
    ¬ start b ∧ ¬ lost b ∧ ∀ y, l.held y ≠ none → block y ≠ b :=
  ⟨fun old => free ((acc.taken b).mpr (.inl old)),
    fun old => free ((acc.taken b).mpr (.inr (.inl old))),
    fun _ hh eq => free (eq ▸ acc.held_taken hh)⟩

theorem fill (hho : l.held x ≠ none) (frm : Frame r m.heap h' [block x]) (now : Taken h' (block x))
    (sz : h'.size (block x) = m.heap.size (block x)) :
    Accounts r start block lost {m with heap := h'} l := by
  have sizes : ∀ y, l.held y ≠ none → h'.size (block y) = m.heap.size (block y) := by
    intro y hh
    by_cases eq : block y = block x
    · rw [eq,sz]
    · exact frm.sizes _ (acc.held_taken hh).1 (by simpa using eq)
  refine ⟨frm.layout,acc.ptr,fun y k hh => ?_,
    fun y hh => (acc.inner y hh).trans_le frm.high,acc.distinct,acc.new,acc.gone,acc.any,
    fun c => ?_⟩
  · rw [sizes y (by simp [hh])]
    exact acc.size y k hh
  rw [← acc.taken c]
  by_cases eq : c = block x
  · exact eq ▸ iff_of_true now (acc.held_taken hho)
  · exact frm.taken c (by simpa using eq)

theorem balanced_iff : (∀ b, Taken m.heap b ↔ start b) ↔ l.Balanced := by
  constructor
  · intro eq
    refine ⟨fun x => ?_,?_⟩
    · by_contra holds
      exact (acc.new x holds).1 ((eq _).mp (acc.held_taken holds))
    by_contra leak
    obtain ⟨b,old⟩ := acc.any.mp (by simpa using leak)
    exact acc.gone b old ((eq b).mp ((acc.taken b).mpr (.inr (.inl old))))
  · rintro ⟨none,hk⟩ b
    have hn : ¬ ∃ b, lost b := fun leak => by simp [acc.any.mpr leak] at hk
    rw [acc.taken b]
    refine ⟨?_,.inl⟩
    rintro (old | old | ⟨x,holds,-⟩)
    · exact old
    · exact absurd ⟨b,old⟩ hn
    · exact absurd (none x) holds

end

variable [DecidableEq L]

section

variable (acc : Accounts r start block lost m l)

include acc

theorem assign {lost' : Nat → Prop} {leaks : Bool}
    {changed : List Nat} (frm : Frame r m.heap h' changed)
    (ha : ∀ y, y ≠ x → l.held y ≠ none → block y ≠ b ∧ block y ∉ changed ∧ ¬ lost' (block y))
    (hf : ¬ start b ∧ ¬ lost' b) (hg : ∀ c, lost' c → ¬ start c)
    (any : leaks = true ↔ ∃ c, lost' c) (now : Taken h' b)
    (ht : ∀ c, c ≠ b → (Taken h' c ↔
      start c ∨ lost' c ∨ ∃ y, y ≠ x ∧ l.held y ≠ none ∧ block y = c))
    (hfi : n ≤ h'.size b) (inner : b + metadataSize < h'.heapEnd) (returned : Bool) :
    Accounts r start (update block x b) lost'
      ⟨h', update m.locals x (some (b+metadataSize)), returned⟩
      ⟨update l.held x (some n), leaks⟩ := by
  refine ⟨frm.layout,?_,?_,?_,?_,?_,hg,any,?_⟩
  · intro y hh
    by_cases eq : y = x
    · simp [eq]
    simp only [update_of_ne eq] at hh ⊢
    exact acc.ptr y hh
  · intro y k hh
    by_cases eq : y = x
    · subst eq
      simp only [update_self,some.injEq] at hh ⊢
      exact hh ▸ hfi
    simp only [update_of_ne eq] at hh ⊢
    have hh' : l.held y ≠ none := by simp [hh]
    rw [frm.sizes _ (acc.held_taken hh').1 (ha y eq hh').2.1]
    exact acc.size y k hh
  · intro y hh
    by_cases eq : y = x
    · simpa [eq] using inner
    simp only [update_of_ne eq] at hh ⊢
    exact (acc.inner y hh).trans_le frm.high
  · intro y z heldY heldZ he
    by_cases sameY : y = x <;> by_cases sameZ : z = x
    · rw [sameY,sameZ]
    · subst sameY
      simp only [update_self,update_of_ne sameZ] at heldZ he
      exact absurd he.symm (ha z sameZ heldZ).1
    · subst sameZ
      simp only [update_self,update_of_ne sameY] at heldY he
      exact absurd he (ha y sameY heldY).1
    simp only [update_of_ne sameY,update_of_ne sameZ] at heldY heldZ he
    exact acc.distinct y z heldY heldZ he
  · intro y hh
    by_cases eq : y = x
    · subst eq
      simpa using hf
    simp only [update_of_ne eq] at hh ⊢
    exact ⟨(acc.new y hh).1,(ha y eq hh).2.2⟩
  · intro c
    by_cases eq : c = b
    · subst eq
      exact iff_of_true now (.inr (.inr ⟨x,by simp⟩))
    rw [ht c eq]
    refine or_congr_right (or_congr_right (exists_congr fun y => ?_))
    by_cases sameY : y = x
    · simp [sameY,Ne.symm eq]
    · simp [sameY]

theorem malloc (x : L) (frm : Frame r m.heap h' [b])
    (free : ¬ Taken m.heap b) (now : Taken h' b) (hf : n ≤ h'.size b)
    (inner : b + metadataSize < h'.heapEnd) (returned : Bool) :
    Accounts r start (update block x b) (fun c => lost c ∨ l.held x ≠ none ∧ c = block x)
      ⟨h', update m.locals x (some (b+metadataSize)), returned⟩
      ⟨update l.held x (some n), l.lost || (l.held x).isSome⟩ := by
  obtain ⟨hn,notLost,notHeld⟩ := acc.unknown free
  refine acc.assign frm (fun y ho hh => ⟨notHeld y hh,by simpa using notHeld y hh,?_⟩)
    ⟨hn,?_⟩ ?_ ?_ now (fun c eq => ?_) hf inner returned
  · rintro (old | ⟨heldX,equal⟩)
    · exact (acc.new y hh).2 old
    · exact ho (acc.distinct y x hh heldX equal)
  · rintro (old | ⟨heldX,equal⟩)
    · exact notLost old
    · exact notHeld x heldX equal.symm
  · rintro c (old | ⟨heldX,rfl⟩)
    · exact acc.gone c old
    · exact (acc.new x heldX).1
  · simp only [Bool.or_eq_true,acc.any,isSome_iff_ne_none]
    constructor
    · rintro (⟨c,old⟩ | heldX)
      · exact ⟨c,.inl old⟩
      · exact ⟨_,.inr ⟨heldX,rfl⟩⟩
    rintro ⟨c,old | ⟨heldX,-⟩⟩
    · exact .inl ⟨c,old⟩
    · exact .inr heldX
  · rw [frm.taken c (by simpa using eq),acc.taken c]
    constructor
    · rintro (old | old | ⟨y,hh,rfl⟩)
      · exact .inl old
      · exact .inr (.inl (.inl old))
      by_cases sameY : y = x
      · exact .inr (.inl (.inr ⟨sameY ▸ hh,by rw [sameY]⟩))
      · exact .inr (.inr ⟨y,sameY,hh,rfl⟩)
    · rintro (old | (old | ⟨heldX,rfl⟩) | ⟨y,-,hh,equal⟩)
      · exact .inl old
      · exact .inr (.inl old)
      · exact .inr (.inr ⟨x,heldX,rfl⟩)
      · exact .inr (.inr ⟨y,hh,equal⟩)

theorem realloc (hho : l.held x ≠ none) (frm : Frame r m.heap h' [b, block x])
    (hm : b ≠ block x → ¬ Taken m.heap b ∧ ¬ Taken h' (block x)) (now : Taken h' b)
    (hfi : n ≤ h'.size b) (inner : b + metadataSize < h'.heapEnd) (returned : Bool) :
    Accounts r start (update block x b) lost
      ⟨h', update m.locals x (some (b+metadataSize)), returned⟩
      {l with held := update l.held x (some n)} := by
  have ne : ∀ y, y ≠ x → l.held y ≠ none → block y ≠ block x :=
    fun y ho hh eq => ho (acc.distinct y x hh hho eq)
  have ha : ∀ y, y ≠ x → l.held y ≠ none → block y ≠ b := fun y ho hh eq =>
    (hm (eq ▸ ne y ho hh)).1 (eq ▸ acc.held_taken hh)
  have hf : ¬ start b ∧ ¬ lost b := by
    by_cases eq : b = block x
    · exact eq ▸ acc.new x hho
    obtain ⟨hn,notLost,-⟩ := acc.unknown (hm eq).1
    exact ⟨hn,notLost⟩
  refine acc.assign frm (fun y ho hh => ⟨ha y ho hh,
    by simp [ha y ho hh,ne y ho hh],(acc.new y hh).2⟩) hf acc.gone acc.any
    now (fun c eq => ?_) hfi inner returned
  by_cases old : c = block x
  · subst old
    refine iff_of_false (hm (Ne.symm eq)).2 ?_
    rintro (old | old | ⟨y,ho,hh,he⟩)
    · exact (acc.new x hho).1 old
    · exact (acc.new x hho).2 old
    · exact ne y ho hh he
  · rw [frm.taken c (by simp [eq,old]),acc.taken c]
    refine or_congr_right (or_congr_right (exists_congr fun y => ?_))
    refine ⟨fun ⟨hh,he⟩ => ⟨?_,hh,he⟩,And.right⟩
    rintro rfl
    exact old he.symm

theorem free (hho : l.held x ≠ none)
    (frm : Frame r m.heap h' [block x]) (hg : ¬ Taken h' (block x)) :
    Accounts r start block lost {m with heap := h'} {l with held := update l.held x none} := by
  have hs : ∀ y, update l.held x none y ≠ none → y ≠ x ∧ l.held y ≠ none := by
    intro y hh
    by_cases eq : y = x
    · simp [eq] at hh
    · exact ⟨eq,by simpa [eq] using hh⟩
  have ha : ∀ y, y ≠ x → l.held y ≠ none → block y ≠ block x :=
    fun y ho hh eq => ho (acc.distinct y x hh hho eq)
  refine ⟨frm.layout,fun y hh => acc.ptr y (hs y hh).2,?_,
    fun y hh => (acc.inner y (hs y hh).2).trans_le frm.high,
    fun y z heldY heldZ => acc.distinct y z (hs y heldY).2 (hs z heldZ).2,
    fun y hh => acc.new y (hs y hh).2,acc.gone,acc.any,?_⟩
  · intro y k hh
    obtain ⟨ho,hh'⟩ := hs y (hh.trans_ne (some_ne_none k))
    rw [frm.sizes _ (acc.held_taken hh').1 (by simpa using ha y ho hh')]
    exact acc.size y k (by simpa [ho] using hh)
  intro c
  by_cases eq : c = block x
  · subst eq
    refine iff_of_false hg ?_
    rintro (was | was | ⟨y,hh,equal⟩)
    · exact (acc.new x hho).1 was
    · exact (acc.new x hho).2 was
    · exact ha y (hs y hh).1 (hs y hh).2 equal
  · rw [frm.taken c (by simpa using eq),acc.taken c]
    constructor
    · rintro (was | was | ⟨y,hh,rfl⟩)
      · exact .inl was
      · exact .inr (.inl was)
      have ho : y ≠ x := fun sameY => eq (by rw [sameY])
      exact .inr (.inr ⟨y,by simpa [ho] using hh,rfl⟩)
    · rintro (was | was | ⟨y,hh,equal⟩)
      · exact .inl was
      · exact .inr (.inl was)
      · exact .inr (.inr ⟨y,(hs y hh).2,equal⟩)

end

end Accounts

section

variable {L : Type} [DecidableEq L] {r : Region} {start lost : Nat → Prop} {block : L → Nat}
variable {m : Machine L} {l : Ledger L} {y : L}

theorem Accounts.supplied (acc : Accounts r start block lost m l) {op : Op L} (hl : l.Legal op)
    (hr : m.returned = false) (hsu : Supplied m op) :
    (op.exec m).returned = false ∧
      ∃ block' lost', Accounts r start block' lost' (op.exec m) (l.book op) := by
  cases op with
  | malloc x sz =>
    obtain ⟨pos,rounds⟩ := hl
    obtain ⟨b,h',hs,frm,free,now,hf,inner⟩ := pluginMalloc_served acc.layout pos rounds (hsu sz rfl)
    simp only [Op.exec,hs,isNone_some,true_and]
    exact ⟨_,_,acc.malloc x frm free now hf inner false⟩
  | realloc x sz =>
    obtain ⟨hh,rounds⟩ := hl
    have hse : m.heap.size (block x) < sz.toNat → Serves m.heap sz := by
      intro hla
      refine hsu sz ?_
      simp [Op.demand,acc.ptr x hh,hla,↓reduceIte]
    obtain ⟨t,h',hs,frm,hm,now,hf,inner⟩ :=
      pluginRealloc_served acc.layout (acc.held_taken hh) (acc.inner x hh) rounds hse
    simp only [Op.exec,acc.ptr x hh,hs,isNone_some,true_and]
    exact ⟨_,_,acc.realloc hh frm hm now hf inner false⟩
  | fill x len bytes =>
    obtain ⟨n,hhe,hf⟩ := hl
    have hh : l.held x ≠ none := by simp [hhe]
    obtain ⟨frm,now,sz⟩ := fillBytes_frame acc.layout (acc.held_taken hh)
      (hf.trans (acc.size x n hhe)) bytes
    simp only [Op.exec,acc.ptr x hh]
    exact ⟨hr,_,_,acc.fill hh frm now sz⟩
  | free x =>
    obtain ⟨frm,hg⟩ := pluginFree_taken acc.layout (acc.held_taken hl) (acc.inner x hl)
    simp only [Op.exec,acc.ptr x hl]
    exact ⟨hr,_,_,acc.free hl frm hg⟩

theorem Accounts.refused (acc : Accounts r start block lost m l) {op : Op L} (hl : l.Legal op)
    (pinned : l.Pinned y op) (hr : ¬ Supplied m op) :
    (op.exec m).returned ∧ ∃ b, Taken (op.exec m).heap b ∧ ¬ start b := by
  simp only [Supplied,not_forall] at hr
  obtain ⟨sz,demand,none⟩ := hr
  cases op with
  | malloc x sz' =>
    cases some.inj demand
    simp only [Op.exec,pluginMalloc_refused acc.layout none,isNone_none,true_and]
    exact ⟨_,acc.held_taken pinned.1,(acc.new y pinned.1).1⟩
  | realloc x sz' =>
    obtain ⟨hh,-⟩ := hl
    obtain ⟨heldY,ho⟩ := pinned
    simp only [Op.demand,acc.ptr x hh,Nat.add_sub_cancel] at demand
    split at demand
    · next larger =>
      cases some.inj demand
      have out := pluginRealloc_block acc.layout (acc.held_taken hh).1 sz
      simp only [Op.exec,acc.ptr x hh]
      generalize pluginRealloc m.heap (some (block x + metadataSize)) sz = result at out
      obtain ⟨ptr,ha⟩ := result
      cases out with
      | kept hsm => omega
      | moved _ hs =>
        rw [allocate_none acc.layout none] at hs
        contradiction
      | refused =>
        obtain ⟨frm,-⟩ := pluginFree_taken acc.layout (acc.held_taken hh) (acc.inner x hh)
        refine ⟨rfl,_,(frm.taken (block y) ?_).mpr (acc.held_taken heldY),(acc.new y heldY).1⟩
        simpa using fun eq => ho (acc.distinct y x heldY hh eq)
    · contradiction
  | fill x len bytes => simp [Op.demand] at demand
  | free x => simp [Op.demand] at demand

theorem execute_returned (ops : List (Op L)) (hr : m.returned) : m.execute ops = m := by
  induction ops with
  | nil => rfl
  | cons op rest ih =>
    have hs : m.step op = m := by simp [Machine.step,hr]
    rw [Machine.execute,Trace.run_cons,hs]
    exact ih

/-- If no request is refused a checked script does what the ledger says, otherwise it leaves a block
behind. -/
theorem Accounts.execute (acc : Accounts r start block lost m l) {ops : List (Op L)}
    (hc : l.Checked y ops) (hru : m.returned = false) :
    (Trace.Throughout .step Supplied ops m → (m.execute ops).returned = false ∧
      ∃ block' lost', Accounts r start block' lost' (m.execute ops) (l.bookAll ops)) ∧
    (¬ Trace.Throughout .step Supplied ops m → (m.execute ops).returned ∧
      ∃ b, Taken (m.execute ops).heap b ∧ ¬ start b) := by
  induction ops generalizing m l block lost with
  | nil => exact ⟨fun _ => ⟨hru,_,_,acc⟩,fun hr => absurd trivial hr⟩
  | cons op rest ih =>
    obtain ⟨hl,pinned,hla⟩ := hc
    have hst : m.step op = op.exec m := by simp [Machine.step,hru]
    have unfolded : m.execute (op :: rest) = (op.exec m).execute rest := by
      rw [Machine.execute,Trace.run_cons,hst]
      rfl
    rw [Trace.throughout_cons,hst,unfolded]
    by_cases hs : Supplied m op
    · obtain ⟨hr',block',lost',acc'⟩ := acc.supplied hl hru hs
      obtain ⟨hw,cut⟩ := ih acc' hla hr'
      exact ⟨fun hb => hw hb.2,fun hr => cut fun all => hr ⟨hs,all⟩⟩
    obtain ⟨hre,left⟩ := acc.refused hl pinned hs
    rw [execute_returned rest hre]
    exact ⟨fun hb => absurd hb.1 hs,fun _ => ⟨hre,left⟩⟩

theorem Ledger.bookAll_append (l : Ledger L) (fst snd : List (Op L)) :
    l.bookAll (fst ++ snd) = (l.bookAll fst).bookAll snd := List.foldl_append ..

theorem Ledger.checked_append {fst snd : List (Op L)} :
    l.Checked y (fst ++ snd) ↔ l.Checked y fst ∧ (l.bookAll fst).Checked y snd := by
  induction fst generalizing l with
  | nil => exact ⟨fun hc => ⟨trivial,hc⟩,And.right⟩
  | cons op rest ih =>
    simp only [List.cons_append,Ledger.Checked,ih,and_assoc]
    rfl

end

end Frr.PluginHeap
