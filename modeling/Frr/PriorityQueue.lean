import Mathlib.Order.Lattice

/-! A binary heap in an array, `lib/pqueue.c`: every slot that is written is reported to the node
that moved there. The comparison only has to agree with some key on the nodes present. -/
namespace Frr.PriorityQueue

/-- The array beyond `size` is not part of the queue. `position` is what each node was last told. -/
structure Queue (α : Type) where
  array : Nat → α
  size : Nat
  position : α → Int

def parentOf (x : Nat) : Nat := (x-1) / 2

def leftOf (x : Nat) : Nat := 2*x+1

def rightOf (x : Nat) : Nat := 2*x+2

section

variable {α : Type} [DecidableEq α]

def Queue.place (q : Queue α) (index : Nat) (node : α) : Queue α :=
  {q with
    array := fun i => if i = index then node else q.array i
    position := fun x => if x = node then index else q.position x}

/-- The loop of `trickle_up`; every turn halves the index. -/
def trickleUpFrom (cmp : α → α → Int) (tmp : α) : Nat → Nat → Queue α → Queue α
  | 0, index, q => q.place index tmp
  | fuel + 1, index, q =>
    if 0 < index ∧ cmp tmp (q.array (parentOf index)) < 0 then
      trickleUpFrom cmp tmp fuel (parentOf index) (q.place index (q.array (parentOf index)))
    else q.place index tmp

section

variable (cmp : α → α → Int)

def trickleUp (index : Nat) (q : Queue α) : Queue α :=
  trickleUpFrom cmp (q.array index) index index q

def properChild (q : Queue α) (index : Nat) : Nat :=
  if rightOf index < q.size ∧ 0 < cmp (q.array (leftOf index)) (q.array (rightOf index)) then
    rightOf index
  else leftOf index

/-- The loop of `trickle_down`; the index grows every turn. -/
def trickleDownFrom (cmp : α → α → Int) (tmp : α) : Nat → Nat → Queue α → Queue α
  | 0, index, q => q.place index tmp
  | fuel + 1, index, q =>
    if index < q.size/2 then
      let which := properChild cmp q index
      if 0 < cmp (q.array which) tmp then q.place index tmp
      else trickleDownFrom cmp tmp fuel which (q.place index (q.array which))
    else q.place index tmp

def trickleDown (index : Nat) (q : Queue α) : Queue α :=
  trickleDownFrom cmp (q.array index) q.size index q

def enqueue (data : α) (q : Queue α) : Queue α :=
  let q := trickleUp cmp q.size (q.place q.size data)
  {q with size := q.size + 1}

/-- The last node is put in the place of another, without a report. -/
def Queue.cut (q : Queue α) (index : Nat) : Queue α :=
  {q with
    array := fun i => if i = index then q.array (q.size-1) else q.array i
    size := q.size - 1}

def removeAt (index : Nat) (q : Queue α) : Queue α :=
  let q := q.cut index
  if 0 < index ∧ cmp (q.array index) (q.array (parentOf index)) < 0 then trickleUp cmp index q
  else trickleDown cmp index q

/-- The loop of `pqueue_remove`, which goes on behind a slot that it has filled anew. -/
def removeFrom (data : α) : Nat → Nat → Queue α → Queue α
  | 0, _, q => q
  | fuel + 1, i, q =>
    if i < q.size then
      removeFrom data fuel (i+1) (if q.array i = data then removeAt cmp i q else q)
    else q

def remove (data : α) (q : Queue α) : Queue α := removeFrom cmp data q.size 0 q

/-- The last node is put in the first slot without a report; `trickle_down` makes it. -/
def dequeue (q : Queue α) : α × Queue α :=
  let last := q.array (q.size-1)
  (q.array 0, trickleDown cmp 0 {q with
    array := fun i => if i = 0 then last else q.array i
    size := q.size - 1})

end

end

section

variable {α : Type} {β : Type} [LinearOrder β]

def Indexed (q : Queue α) : Prop := ∀ i < q.size, q.position (q.array i) = i

def Contains (q : Queue α) (x : α) : Prop := ∃ i < q.size, q.array i = x

def Ordered (key : α → β) (q : Queue α) : Prop :=
  ∀ i, 0 < i → i < q.size → key (q.array (parentOf i)) ≤ key (q.array i)

structure Agrees (cmp : α → α → Int) (key : α → β) (nodes : α → Prop) : Prop where
  less : ∀ x y, nodes x → nodes y → (cmp x y < 0 ↔ key x < key y)
  greater : ∀ x y, nodes x → nodes y → (0 < cmp x y ↔ key y < key x)

theorem parentOf_lt {i : Nat} (pos : 0 < i) : parentOf i < i := by
  unfold parentOf; omega

theorem parentOf_eq {i j : Nat} (pos : 0 < i) : parentOf i = j ↔ i = leftOf j ∨ i = rightOf j := by
  unfold parentOf leftOf rightOf; omega

theorem Ordered.first {key : α → β} {q : Queue α} (ho : Ordered key q) {x : α}
    (hp : Contains q x) : key (q.array 0) ≤ key x := by
  obtain ⟨i,hi,rfl⟩ := hp
  induction i using Nat.strongRecOn with
  | ind i ih =>
    rcases Nat.eq_zero_or_pos i with rfl | pos
    · exact le_rfl
    have ha := parentOf_lt pos
    exact (ih _ ha (by omega)).trans (ho i pos hi)

end

section

variable {α : Type} [DecidableEq α] {β : Type} [LinearOrder β]
variable {q : Queue α} {hole : Nat} {tmp : α} {nodes : α → Prop} {before : α → Int}
variable {key : α → β} {cmp : α → α → Int}

section

variable (q : Queue α)

@[simp] theorem place_size (idx : Nat) (node : α) : (q.place idx node).size = q.size := rfl

@[simp] theorem place_same (idx : Nat) (node : α) :
    (q.place idx node).array idx = node := by simp [Queue.place]

theorem place_other {idx i : Nat} (node : α) (ne : i ≠ idx) :
    (q.place idx node).array i = q.array i := by simp [Queue.place,ne]

@[simp] theorem place_told (idx : Nat) (node : α) :
    (q.place idx node).position node = idx := by simp [Queue.place]

theorem place_untold (idx : Nat) {node x : α} (ne : x ≠ node) :
    (q.place idx node).position x = q.position x := by simp [Queue.place,ne]

end

/-- One slot is to be filled: `tmp` and the other nodes make up `nodes`, and all but `tmp` know
where they are. -/
structure Hole (q : Queue α) (hole : Nat) (tmp : α) (nodes : α → Prop) (before : α → Int) :
    Prop where
  inside : hole < q.size
  told : ∀ i < q.size, i ≠ hole → q.position (q.array i) = i
  apart : ∀ i < q.size, i ≠ hole → q.array i ≠ tmp
  all : ∀ x, nodes x ↔ x = tmp ∨ ∃ i < q.size, i ≠ hole ∧ q.array i = x
  others : ∀ x, ¬ nodes x → q.position x = before x

namespace Hole

omit [DecidableEq α] in
theorem slot (h : Hole q hole tmp nodes before) {i : Nat} (hi : i < q.size)
    (ne : i ≠ hole) : nodes (q.array i) := (h.all _).mpr (.inr ⟨i,hi,ne,rfl⟩)

section

variable (h : Hole q hole tmp nodes before)

include h

theorem move {other : Nat} (hin : other < q.size) (ne : other ≠ hole) :
    Hole (q.place hole (q.array other)) other tmp nodes before := by
  have hd : ∀ i < q.size, i ≠ hole → i ≠ other → q.array i ≠ q.array other := by
    intro i hi ha hap hs
    have ht := h.told i hi ha
    rw [hs,h.told other hin ne] at ht
    omega
  constructor
  · exact hin
  · intro i hi ha
    by_cases eq : i = hole
    · subst i; simp
    rw [place_other _ _ eq,place_untold _ _ (hd i hi eq ha)]
    exact h.told i hi eq
  · intro i hi ha
    by_cases eq : i = hole
    · subst i; simpa using h.apart other hin ne
    rw [place_other _ _ eq]
    exact h.apart i hi eq
  · intro x
    rw [h.all]
    refine or_congr_right ⟨?_,?_⟩
    · rintro ⟨i,hi,ha,rfl⟩
      by_cases eq : i = other
      · exact ⟨hole,h.inside,Ne.symm ne,by simp [eq]⟩
      · exact ⟨i,hi,eq,place_other _ _ ha⟩
    rintro ⟨i,hi,ha,rfl⟩
    by_cases eq : i = hole
    · exact ⟨other,hin,ne,by simp [eq]⟩
    · exact ⟨i,hi,eq,(place_other _ _ eq).symm⟩
  · intro x hab
    have ne' : x ≠ q.array other := by
      rintro rfl
      exact hab (h.slot hin ne)
    rw [place_untold _ _ ne']
    exact h.others x hab

theorem indexed : Indexed (q.place hole tmp) := by
  intro i hi
  by_cases eq : i = hole
  · subst i; simp
  rw [place_other _ _ eq,place_untold _ _ (h.apart i hi eq)]
  exact h.told i hi eq

theorem contains (x : α) : Contains (q.place hole tmp) x ↔ nodes x := by
  rw [h.all]
  constructor
  · rintro ⟨i,hi,rfl⟩
    by_cases eq : i = hole
    · exact .inl (by simp [eq])
    · exact .inr ⟨i,hi,eq,(place_other _ _ eq).symm⟩
  rintro (rfl | ⟨i,hi,away,rfl⟩)
  · exact ⟨hole,h.inside,place_same _ _ _⟩
  · exact ⟨i,hi,place_other _ _ away⟩

theorem untouched {x : α} (ha : ¬ nodes x) : (q.place hole tmp).position x = before x := by
  have ne : x ≠ tmp := fun eq => ha ((h.all x).mpr (.inl eq))
  rw [place_untold _ _ ne]
  exact h.others x ha

end

end Hole

/-- Whatever the comparison: exactly `nodes`, all knowing their slots, while the others were told
nothing. -/
structure Rearranged (q : Queue α) (nodes : α → Prop) (before : α → Int) : Prop where
  indexed : Indexed q
  contains : ∀ x, Contains q x ↔ nodes x
  untouched : ∀ x, ¬ nodes x → q.position x = before x

theorem Hole.rearranged (h : Hole q hole tmp nodes before) :
    Rearranged (q.place hole tmp) nodes before :=
  ⟨h.indexed,h.contains,fun _ => h.untouched⟩

theorem trickleUpFrom_rearranged (cmp : α → α → Int) (fuel : Nat)
    (h : Hole q hole tmp nodes before) :
    Rearranged (trickleUpFrom cmp tmp fuel hole q) nodes before := by
  induction fuel generalizing q hole with
  | zero => exact h.rearranged
  | succ fuel ih =>
    simp only [trickleUpFrom]
    split
    · next rise =>
      have ha := parentOf_lt rise.1
      exact ih (h.move (ha.trans h.inside) ha.ne)
    · exact h.rearranged

omit [DecidableEq α] in
theorem properChild_inside (cmp : α → α → Int) (q : Queue α) (some : hole < q.size/2) :
    hole < properChild cmp q hole ∧ properChild cmp q hole < q.size := by
  unfold properChild
  split
  · next better =>
    have hi := better.1
    unfold rightOf at *
    omega
  unfold leftOf
  omega

theorem trickleDownFrom_rearranged (cmp : α → α → Int) (fuel : Nat)
    (h : Hole q hole tmp nodes before) :
    Rearranged (trickleDownFrom cmp tmp fuel hole q) nodes before := by
  induction fuel generalizing q hole with
  | zero => exact h.rearranged
  | succ fuel ih =>
    simp only [trickleDownFrom]
    split
    · next some =>
      obtain ⟨deeper,hi⟩ := properChild_inside cmp q some
      split
      · exact h.rearranged
      · exact ih (h.move hi deeper.ne')
    · exact h.rearranged

structure Rising (key : α → β) (q : Queue α) (hole : Nat) (tmp : α) : Prop where
  rest : ∀ i, 0 < i → i < q.size → i ≠ hole → parentOf i ≠ hole →
    key (q.array (parentOf i)) ≤ key (q.array i)
  below : ∀ i, 0 < i → i < q.size → parentOf i = hole → key tmp ≤ key (q.array i)
  across : 0 < hole → ∀ i, 0 < i → i < q.size → parentOf i = hole →
    key (q.array (parentOf hole)) ≤ key (q.array i)

/-- An edge of the heap, once the hole is filled. -/
theorem edge_place {i : Nat} {x : α} (hi : 0 < i)
    (above : i = hole → key (q.array (parentOf hole)) ≤ key x)
    (below : parentOf i = hole → key x ≤ key (q.array i))
    (rest : i ≠ hole → parentOf i ≠ hole → key (q.array (parentOf i)) ≤ key (q.array i)) :
    key ((q.place hole x).array (parentOf i)) ≤ key ((q.place hole x).array i) := by
  by_cases eq : i = hole
  · subst i
    rw [place_same,place_other _ _ (parentOf_lt hi).ne]
    exact above rfl
  rw [place_other _ _ eq]
  by_cases child : parentOf i = hole
  · rw [child,place_same]
    exact below child
  rw [place_other _ _ child]
  exact rest eq child

theorem Rising.move (hr : Rising key q hole tmp) (pos : 0 < hole) (hin : hole < q.size)
    (hl : key tmp < key (q.array (parentOf hole))) :
    Rising key (q.place hole (q.array (parentOf hole))) (parentOf hole) tmp := by
  have hab := parentOf_lt pos
  have grand : 0 < parentOf hole →
      key (q.array (parentOf (parentOf hole))) ≤ key (q.array (parentOf hole)) := fun inner =>
    hr.rest _ inner (by omega) (by omega) (by have := parentOf_lt inner; omega)
  -- The other child of the parent was below the parent all along.
  have sibling : ∀ i, 0 < i → i < q.size → i ≠ hole → parentOf i = parentOf hole →
      key (q.array (parentOf hole)) ≤ key (q.array i) := by
    intro i hi hin ha hs
    rw [← hs]
    exact hr.rest i hi hin ha (by omega)
  constructor
  · intro i hi hin _ hap
    exact edge_place hi (fun eq => absurd (congrArg parentOf eq) hap) (hr.across pos i hi hin)
      (hr.rest i hi hin)
  · intro i hi hin child
    by_cases eq : i = hole
    · rw [eq,place_same]
      exact hl.le
    rw [place_other _ _ eq]
    exact hl.le.trans (sibling i hi hin eq child)
  · intro inner i hi hin child
    have ha : parentOf (parentOf hole) ≠ hole := by have := parentOf_lt inner; omega
    rw [place_other _ _ ha]
    by_cases eq : i = hole
    · rw [eq,place_same]
      exact grand inner
    rw [place_other _ _ eq]
    exact (grand inner).trans (sibling i hi hin eq child)

theorem Rising.finish (hr : Rising key q hole tmp)
    (stop : 0 < hole → key (q.array (parentOf hole)) ≤ key tmp) :
    Ordered key (q.place hole tmp) := by
  intro i hi hin
  exact edge_place hi (fun eq => stop (eq ▸ hi)) (hr.below i hi hin) (hr.rest i hi hin)

theorem trickleUpFrom_ordered (hag : Agrees cmp key nodes) {fuel : Nat} (he : hole ≤ fuel)
    (h : Hole q hole tmp nodes before) (hr : Rising key q hole tmp) :
    Ordered key (trickleUpFrom cmp tmp fuel hole q) := by
  have hh : nodes tmp := (h.all tmp).mpr (.inl rfl)
  induction fuel generalizing q hole with
  | zero => exact hr.finish (by omega)
  | succ fuel ih =>
    simp only [trickleUpFrom]
    by_cases pos : 0 < hole
    · have ha := parentOf_lt pos
      have hl := hag.less tmp _ hh (h.slot (ha.trans h.inside) ha.ne)
      split
      · next rise =>
        exact ih (by omega) (h.move (ha.trans h.inside) ha.ne) (hr.move pos h.inside (hl.mp rise.2))
      next stop =>
      exact hr.finish fun _ => not_lt.mp fun hlo => stop ⟨pos,hl.mpr hlo⟩
    · rw [if_neg (fun hb => pos hb.1)]
      exact hr.finish (fun hb => absurd hb pos)

structure Sinking (key : α → β) (q : Queue α) (hole : Nat) (tmp : α) : Prop where
  rest : ∀ i, 0 < i → i < q.size → i ≠ hole → parentOf i ≠ hole →
    key (q.array (parentOf i)) ≤ key (q.array i)
  above : 0 < hole → key (q.array (parentOf hole)) ≤ key tmp
  across : 0 < hole → ∀ i, 0 < i → i < q.size → parentOf i = hole →
    key (q.array (parentOf hole)) ≤ key (q.array i)

theorem Sinking.move (hs : Sinking key q hole tmp) {which : Nat} (pos : 0 < which)
    (child : parentOf which = hole)
    (hl : ∀ i, 0 < i → i < q.size → parentOf i = hole → key (q.array which) ≤ key (q.array i))
    (hst : key (q.array which) ≤ key tmp) (hin : which < q.size) :
    Sinking key (q.place hole (q.array which)) which tmp := by
  have deeper : hole < which := child ▸ parentOf_lt pos
  constructor
  · intro i hi hh _ _
    exact edge_place hi (fun eq => hs.across (eq ▸ hi) which pos hin child) (hl i hi hh)
      (hs.rest i hi hh)
  · intro _
    rw [child,place_same]
    exact hst
  · intro _ i hi hh hb
    have ha : i ≠ hole := by have := parentOf_lt hi; omega
    rw [child,place_same,place_other _ _ ha,← hb]
    exact hs.rest i hi hh ha (by omega)

theorem Sinking.finish (hs : Sinking key q hole tmp)
    (stop : ∀ i, 0 < i → i < q.size → parentOf i = hole → key tmp ≤ key (q.array i)) :
    Ordered key (q.place hole tmp) := by
  intro i hi hin
  exact edge_place hi (fun eq => hs.above (eq ▸ hi)) (stop i hi hin) (hs.rest i hi hin)

omit [DecidableEq α] in
theorem properChild_spec (ha : Agrees cmp key nodes) (h : Hole q hole tmp nodes before)
    (some : hole < q.size/2) :
    parentOf (properChild cmp q hole) = hole ∧
    ∀ i, 0 < i → i < q.size → parentOf i = hole →
      key (q.array (properChild cmp q hole)) ≤ key (q.array i) := by
  have left : leftOf hole < q.size ∧ leftOf hole ≠ hole := by unfold leftOf; omega
  have right : rightOf hole ≠ hole := by unfold rightOf; omega
  have parentLeft : parentOf (leftOf hole) = hole := by unfold parentOf leftOf; omega
  have parentRight : parentOf (rightOf hole) = hole := by unfold parentOf rightOf; omega
  unfold properChild
  split
  · next better =>
    have hle := (ha.greater _ _ (h.slot left.1 left.2) (h.slot better.1 right)).mp better.2
    refine ⟨parentRight,fun i hi hin child => ?_⟩
    rcases (parentOf_eq hi).mp child with rfl | rfl
    · exact hle.le
    · exact le_rfl
  · next worse =>
    refine ⟨parentLeft,fun i hi hin child => ?_⟩
    rcases (parentOf_eq hi).mp child with rfl | rfl
    · exact le_rfl
    refine not_lt.mp fun hl => worse ⟨hin,?_⟩
    exact (ha.greater _ _ (h.slot left.1 left.2) (h.slot hin right)).mpr hl

theorem trickleDownFrom_ordered (ha : Agrees cmp key nodes) {fuel : Nat}
    (he : q.size ≤ hole+fuel) (h : Hole q hole tmp nodes before)
    (hs : Sinking key q hole tmp) :
    Ordered key (trickleDownFrom cmp tmp fuel hole q) := by
  have hhe : nodes tmp := (h.all tmp).mpr (.inl rfl)
  induction fuel generalizing q hole with
  | zero => have := h.inside; omega
  | succ fuel ih =>
    simp only [trickleDownFrom]
    split
    · next some =>
      obtain ⟨deeper,hin⟩ := properChild_inside cmp q some
      obtain ⟨child,hl⟩ := properChild_spec ha h some
      have hg := ha.greater _ tmp (h.slot hin deeper.ne') hhe
      split
      · next stop =>
        exact hs.finish fun i hi hh hb =>
          (hg.mp stop).le.trans (hl i hi hh hb)
      next sink =>
      apply ih
      · rw [place_size]; omega
      · exact h.move hin deeper.ne'
      have hst := not_lt.mp fun hlo => sink (hg.mpr hlo)
      exact hs.move (by omega) child hl hst hin
    · next none =>
      refine hs.finish fun i hi hin child => ?_
      have := (parentOf_eq hi).mp child
      unfold leftOf rightOf at this
      omega

omit [DecidableEq α] in
theorem hole_of_indexed (hin : Indexed q) {idx : Nat} (hins : idx < q.size) :
    Hole q idx (q.array idx) (Contains q) q.position := by
  have hd : ∀ i < q.size, i ≠ idx → q.array i ≠ q.array idx := by
    intro i hi ha hs
    have ht := hin i hi
    rw [hs,hin idx hins] at ht
    omega
  refine ⟨hins,fun i hi _ => hin i hi,hd,fun x => ⟨?_,?_⟩,fun _ _ => rfl⟩
  · rintro ⟨i,hi,rfl⟩
    by_cases eq : i = idx
    · exact .inl (by rw [eq])
    · exact .inr ⟨i,hi,eq,rfl⟩
  rintro (rfl | ⟨i,hi,-,rfl⟩)
  · exact ⟨idx,hins,rfl⟩
  · exact ⟨i,hi,rfl⟩

theorem trickleUp_rearranged (cmp : α → α → Int) (hi : Indexed q) {idx : Nat}
    (hin : idx < q.size) :
    Rearranged (trickleUp cmp idx q) (Contains q) q.position :=
  trickleUpFrom_rearranged cmp idx (hole_of_indexed hi hin)

theorem trickleUp_ordered {old : α → β} (hind : Indexed q) (ho : Ordered old q)
    {idx : Nat} (hin : idx < q.size) (hag : Agrees cmp key (Contains q))
    (hl : key (q.array idx) ≤ old (q.array idx))
    (eq : ∀ x, x ≠ q.array idx → key x = old x) :
    Ordered key (trickleUp cmp idx q) := by
  have h := hole_of_indexed hind hin
  refine trickleUpFrom_ordered hag le_rfl h ⟨?_,?_,?_⟩
  · intro i hi hh ha hap
    have hab := parentOf_lt hi
    rw [eq _ (h.apart i hh ha),eq _ (h.apart _ (by omega) hap)]
    exact ho i hi hh
  · intro i hi hh child
    have ha : i ≠ idx := by have := parentOf_lt hi; omega
    rw [eq _ (h.apart i hh ha)]
    exact hl.trans (child ▸ ho i hi hh)
  intro pos i hi hh child
  have ha : i ≠ idx := by have := parentOf_lt hi; omega
  have hab := parentOf_lt pos
  rw [eq _ (h.apart i hh ha),eq _ (h.apart _ (by omega) hab.ne)]
  exact (ho idx pos hin).trans (child ▸ ho i hi hh)

def Queue.grown (q : Queue α) (data : α) : Queue α :=
  {q.place q.size data with size := q.size + 1}

theorem trickleUpFrom_size (fuel idx : Nat) (q : Queue α) :
    (trickleUpFrom cmp tmp fuel idx q).size = q.size := by
  induction fuel generalizing idx q with
  | zero => rfl
  | succ fuel ih =>
    simp only [trickleUpFrom]
    split
    · rw [ih]; rfl
    · rfl

theorem trickleUpFrom_resize (cmp : α → α → Int) (tmp : α) (fuel idx sz : Nat)
    (q : Queue α) : trickleUpFrom cmp tmp fuel idx {q with size := sz} =
      {trickleUpFrom cmp tmp fuel idx q with size := sz} := by
  induction fuel generalizing idx q with
  | zero => rfl
  | succ fuel ih =>
    simp only [trickleUpFrom]
    split
    · exact ih (parentOf idx) (q.place idx (q.array (parentOf idx)))
    · rfl

theorem enqueue_eq (cmp : α → α → Int) (data : α) (q : Queue α) :
    enqueue cmp data q = trickleUpFrom cmp data q.size q.size (q.grown data) := by
  have resized := trickleUpFrom_resize cmp data q.size q.size (q.size+1) (q.place q.size data)
  rw [enqueue,trickleUp,trickleUpFrom_size,place_same]
  exact resized.symm

theorem grown_old {i : Nat} (hi : i < q.size) (data : α) :
    (q.grown data).array i = q.array i := place_other _ _ hi.ne

theorem grown_hole (hin : Indexed q) {data : α} (new : ¬ Contains q data) :
    Hole (q.grown data) q.size data (fun x => x = data ∨ Contains q x) q.position := by
  have inner : ∀ {i}, i < (q.grown data).size → i ≠ q.size → i < q.size := by
    intro i hi ha
    have : i < q.size+1 := hi
    omega
  refine ⟨Nat.lt_succ_self _,?_,?_,?_,?_⟩
  · intro i hi ha
    rw [grown_old (inner hi ha)]
    exact (place_untold _ _ (fun eq => new ⟨i,inner hi ha,eq⟩)).trans (hin i (inner hi ha))
  · intro i hi ha
    rw [grown_old (inner hi ha)]
    exact fun eq => new ⟨i,inner hi ha,eq⟩
  · intro x
    refine or_congr_right ⟨?_,?_⟩
    · rintro ⟨i,hi,rfl⟩
      exact ⟨i,Nat.lt_succ_of_lt hi,hi.ne,grown_old hi data⟩
    rintro ⟨i,hi,ha,rfl⟩
    exact ⟨i,inner hi ha,(grown_old (inner hi ha) data).symm⟩
  · intro x hab
    exact place_untold _ _ (fun eq => hab (.inl eq))

theorem enqueue_rearranged (cmp : α → α → Int) (hi : Indexed q) {data : α}
    (new : ¬ Contains q data) :
    Rearranged (enqueue cmp data q) (fun x => x = data ∨ Contains q x) q.position := by
  rw [enqueue_eq]
  exact trickleUpFrom_rearranged cmp q.size (grown_hole hi new)

theorem enqueue_ordered (hind : Indexed q) (ho : Ordered key q) {data : α}
    (new : ¬ Contains q data) (ha : Agrees cmp key (fun x => x = data ∨ Contains q x)) :
    Ordered key (enqueue cmp data q) := by
  have par : ∀ {i}, 0 < i → i < (q.grown data).size → parentOf i < q.size := by
    intro i hi hin
    have := parentOf_lt hi
    have : i < q.size+1 := hin
    omega
  rw [enqueue_eq]
  refine trickleUpFrom_ordered ha (le_refl q.size) (grown_hole hind new) ⟨?_,?_,?_⟩
  · intro i hi hin haw _
    have inner : i < q.size := by have : i < q.size+1 := hin; omega
    rw [grown_old inner,grown_old (par hi hin)]
    exact ho i hi inner
  · intro i hi hin child
    exact absurd child (par hi hin).ne
  intro _ i hi hin child
  exact absurd child (par hi hin).ne

section

omit [DecidableEq α]

theorem Indexed.distinct (hin : Indexed q) {i j : Nat} (hi : i < q.size) (hj : j < q.size)
    (eq : q.array i = q.array j) : i = j := by
  have ht := hin i hi
  rw [eq,hin j hj] at ht
  omega

theorem cut_same (q : Queue α) (idx : Nat) : (q.cut idx).array idx = q.array (q.size-1) := by
  simp [Queue.cut]

theorem cut_other {idx i : Nat} (ne : i ≠ idx) : (q.cut idx).array i = q.array i := by
  simp [Queue.cut,ne]

theorem cut_hole (hin : Indexed q) {idx : Nat} (inner : idx < q.size-1) :
    Hole (q.cut idx) idx (q.array (q.size-1)) (fun x => x ≠ q.array idx ∧ Contains q x)
      q.position := by
  refine ⟨inner,?_,?_,?_,fun _ _ => rfl⟩
  · intro i hi ha
    have hi : i < q.size-1 := hi
    rw [cut_other ha]
    exact hin i (by omega)
  · intro i hi ha eq
    have hi : i < q.size-1 := hi
    rw [cut_other ha] at eq
    have := hin.distinct (by omega) (by omega) eq
    omega
  · intro x
    constructor
    · rintro ⟨ho,i,hi,rfl⟩
      have away : i ≠ idx := fun eq => ho (by rw [eq])
      by_cases last : i = q.size-1
      · exact .inl (by rw [last])
      · exact .inr ⟨i,show i < q.size - 1 by omega,away,cut_other away⟩
    · rintro (rfl | ⟨i,hi,away,rfl⟩)
      · refine ⟨fun eq => ?_,q.size-1,by omega,rfl⟩
        have := hin.distinct (by omega) (by omega) eq
        omega
      have hi : i < q.size-1 := hi
      rw [cut_other away]
      exact ⟨fun eq => away (hin.distinct (by omega) (by omega) eq),i,by omega,rfl⟩

end

section

variable (cmp : α → α → Int)

theorem sunk_eq (q : Queue α) (idx : Nat) : trickleDown cmp idx (q.cut idx) =
      trickleDownFrom cmp (q.array (q.size-1)) (q.size-1) idx (q.cut idx) := by
  rw [trickleDown,cut_same]
  rfl

theorem sunk_last {idx : Nat} (last : idx = q.size-1) :
    trickleDown cmp idx (q.cut idx) = (q.cut idx).place idx (q.array idx) := by
  have none : ¬ idx < (q.cut idx).size / 2 := by simp only [Queue.cut]; omega
  rw [sunk_eq,← last]
  cases idx with
  | zero => rfl
  | succ n => rw [trickleDownFrom,if_neg none]

theorem sunk_stays {idx i : Nat} (last : idx = q.size-1)
    (hi : i < q.size-1) : (trickleDown cmp idx (q.cut idx)).array i = q.array i := by
  rw [sunk_last cmp last,place_other _ _ (by omega),cut_other (by omega)]

theorem sunk_rearranged (hind : Indexed q) {idx : Nat} (hi : idx < q.size) :
    Rearranged (trickleDown cmp idx (q.cut idx)) (fun x => x ≠ q.array idx ∧ Contains q x)
      q.position := by
  by_cases inner : idx < q.size-1
  · rw [sunk_eq]
    exact trickleDownFrom_rearranged cmp _ (cut_hole hind inner)
  have last : idx = q.size-1 := by omega
  have size : (trickleDown cmp idx (q.cut idx)).size = q.size-1 := by rw [sunk_last cmp last]; rfl
  have other : ∀ {i}, i < q.size-1 → q.array i ≠ q.array idx := fun inside eq =>
    absurd (hind.distinct (by omega) hi eq) (by omega)
  refine ⟨fun i hin => ?_,fun x => ⟨?_,?_⟩,fun x _ => ?_⟩
  · rw [size] at hin
    rw [sunk_stays cmp last hin,sunk_last cmp last,place_untold _ _ (other hin)]
    exact hind i (by omega)
  · rintro ⟨i,hin,rfl⟩
    rw [size] at hin
    rw [sunk_stays cmp last hin]
    exact ⟨other hin,i,by omega,rfl⟩
  · rintro ⟨ho,i,hin,rfl⟩
    have away : i ≠ idx := fun eq => ho (by rw [eq])
    exact ⟨i,by omega,sunk_stays cmp last (by omega)⟩
  rw [sunk_last cmp last]
  by_cases eq : x = q.array idx
  · rw [eq,place_told,hind idx hi]
  · exact place_untold _ _ eq

end

omit [DecidableEq α] in
theorem cut_rest (ho : Ordered key q) {idx i : Nat} (hi : 0 < i) (hin : i < (q.cut idx).size)
    (ha : i ≠ idx) (hap : parentOf i ≠ idx) :
    key ((q.cut idx).array (parentOf i)) ≤ key ((q.cut idx).array i) := by
  have hin : i < q.size-1 := hin
  rw [cut_other ha,cut_other hap]
  exact ho i hi (by omega)

omit [DecidableEq α] in
/-- Whatever was in the slot, its children were below its parent. -/
theorem cut_across (ho : Ordered key q) {idx : Nat} (pos : 0 < idx) {i : Nat} (hi : 0 < i)
    (hin : i < (q.cut idx).size) (child : parentOf i = idx) :
    key ((q.cut idx).array (parentOf idx)) ≤ key ((q.cut idx).array i) := by
  have hin : i < q.size-1 := hin
  have above := parentOf_lt hi
  rw [cut_other (parentOf_lt pos).ne,cut_other (by omega)]
  exact (ho idx pos (by omega)).trans (child ▸ ho i hi (by omega))

theorem sunk_ordered (hind : Indexed q) (ho : Ordered key q) {idx : Nat} (hi : idx < q.size)
    (ha : Agrees cmp key (fun x => x ≠ q.array idx ∧ Contains q x))
    (above : 0 < idx → key (q.array (parentOf idx)) ≤ key (q.array (q.size-1))) :
    Ordered key (trickleDown cmp idx (q.cut idx)) := by
  by_cases inner : idx < q.size-1
  · rw [sunk_eq]
    refine trickleDownFrom_ordered ha (Nat.le_add_left _ _) (cut_hole hind inner) ⟨?_,?_,?_⟩
    · exact fun i hi hin away apart => cut_rest ho hi hin away apart
    · intro pos
      rw [cut_other (parentOf_lt pos).ne]
      exact above pos
    · exact fun pos i hi hin child => cut_across ho pos hi hin child
  have last : idx = q.size-1 := by omega
  intro i hi hin
  rw [sunk_last cmp last] at hin
  have hin : i < q.size-1 := hin
  have above := parentOf_lt hi
  rw [sunk_stays cmp last hin,sunk_stays cmp last (by omega)]
  exact ho i hi (by omega)

theorem dequeue_rearranged (cmp : α → α → Int) (hind : Indexed q) (hn : 0 < q.size) :
    Rearranged (dequeue cmp q).2 (fun x => x ≠ q.array 0 ∧ Contains q x) q.position :=
  sunk_rearranged cmp hind hn

theorem dequeue_ordered (hind : Indexed q) (ho : Ordered key q) (hn : 0 < q.size)
    (ha : Agrees cmp key (fun x => x ≠ q.array 0 ∧ Contains q x)) :
    Ordered key (dequeue cmp q).2 :=
  sunk_ordered hind ho hn ha fun pos => absurd pos (lt_irrefl 0)

/-- What a removal leaves, where `q` was a heap. -/
structure Removed (key : α → β) (q : Queue α) (data : α) (q' : Queue α) : Prop extends
    Rearranged q' (fun x => x ≠ data ∧ Contains q x) q.position where
  ordered : Ordered key q'

section

variable (hind : Indexed q) (ho : Ordered key q) (ha : Agrees cmp key (Contains q))

include hind ho ha

theorem removeAt_removed {idx : Nat} (hi : idx < q.size) :
    Removed key q (q.array idx) (removeAt cmp idx q) := by
  have fewer : Agrees cmp key (fun x => x ≠ q.array idx ∧ Contains q x) :=
    ⟨fun x y hx hy => ha.less x y hx.2 hy.2,fun x y hx hy => ha.greater x y hx.2 hy.2⟩
  have less : 0 < idx → (cmp (q.array (q.size-1)) (q.array (parentOf idx)) < 0 ↔
      key (q.array (q.size-1)) < key (q.array (parentOf idx))) := fun pos =>
    ha.less _ _ ⟨_,by omega,rfl⟩ ⟨_,(parentOf_lt pos).trans hi,rfl⟩
  by_cases rise : 0 < idx ∧ key (q.array (q.size-1)) < key (q.array (parentOf idx))
  · have up : removeAt cmp idx q = trickleUpFrom cmp (q.array (q.size-1)) idx idx (q.cut idx) := by
      simp [removeAt,trickleUp,cut_same,cut_other (parentOf_lt rise.1).ne,(less rise.1).mpr rise.2,rise.1,and_self]
    -- The last node itself is not above its parent.
    have inner : idx < q.size-1 := by
      refine lt_of_le_of_ne (by omega) fun last => ?_
      exact absurd rise.2 (not_lt.mpr (last ▸ ho idx rise.1 hi))
    have hole := cut_hole hind inner
    rw [up]
    refine ⟨trickleUpFrom_rearranged cmp idx hole,trickleUpFrom_ordered fewer le_rfl hole ⟨?_,?_,?_⟩⟩
    · exact fun i hi hin away apart => cut_rest ho hi hin away apart
    · intro i hi hin child
      have across := cut_across ho rise.1 hi hin child
      rw [cut_other (parentOf_lt rise.1).ne] at across
      exact rise.2.le.trans across
    · exact fun pos i hi hin child => cut_across ho pos hi hin child
  have down : removeAt cmp idx q = trickleDown cmp idx (q.cut idx) := by
    refine if_neg fun both => rise ⟨both.1,(less both.1).mp ?_⟩
    have above := both.2
    rwa [cut_same,cut_other (parentOf_lt both.1).ne] at above
  rw [down]
  exact ⟨sunk_rearranged cmp hind hi,
    sunk_ordered hind ho hi fewer fun pos => not_lt.mp fun lower => rise ⟨pos,lower⟩⟩

omit hind ho ha in
theorem removeFrom_absent {data : α} (absent : ¬ Contains q data) (fuel i : Nat) :
    removeFrom cmp data fuel i q = q := by
  induction fuel generalizing i with
  | zero => rfl
  | succ fuel ih =>
    rw [removeFrom]
    split
    · next hi => rw [if_neg fun eq => absent ⟨i,hi,eq⟩,ih]
    · rfl

theorem removeFrom_present {idx : Nat} (hi : idx < q.size) {fuel i : Nat} (before : i ≤ idx)
    (enough : q.size ≤ i+fuel) :
    removeFrom cmp (q.array idx) fuel i q = removeAt cmp idx q := by
  induction fuel generalizing i with
  | zero => omega
  | succ fuel ih =>
    rw [removeFrom,if_pos (by omega)]
    by_cases here : i = idx
    · subst here
      rw [if_pos rfl]
      have gone := (removeAt_removed hind ho ha hi).contains (q.array i)
      exact removeFrom_absent (fun present => (gone.mp present).1 rfl) fuel (i+1)
    · rw [if_neg fun eq => here (hind.distinct (by omega) hi eq)]
      exact ih (by omega) (by omega)

theorem remove_removed (data : α) : Removed key q data (remove cmp data q) := by
  by_cases present : Contains q data
  · obtain ⟨idx,hi,rfl⟩ := present
    rw [remove,removeFrom_present hind ho ha hi (Nat.zero_le _) (Nat.le_add_left _ _)]
    exact removeAt_removed hind ho ha hi
  · rw [remove,removeFrom_absent present]
    refine ⟨⟨hind,fun x => ⟨fun old => ⟨?_,old⟩,And.right⟩,fun _ _ => rfl⟩,ho⟩
    rintro rfl
    exact present old

end

end

end Frr.PriorityQueue
