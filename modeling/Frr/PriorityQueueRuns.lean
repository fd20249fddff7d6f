import Frr.PriorityQueue
import Frr.Trace
import Mathlib.Data.Multiset.Range

/-! Whole lives of a priority queue: the keys that its comparison reads may fall while nodes are in
it. A total preorder on the nodes is given by their keys. -/
namespace Frr.PriorityQueue

open Trace Function Multiset

variable {α β : Type}

/-- `bag` is a ghost: what was enqueued and not taken out. -/
structure Session (α β : Type) where
  queue : Queue α
  key : α → β
  bag : Multiset α

/-- `decrease` is a caller that lowers the key of a node and has it trickle up. -/
inductive Call (α β : Type) where
  | enqueue (data : α)
  | dequeue
  | removeAt (index : Nat)
  | remove (data : α)
  | decrease (data : α) (key : β)

def contents (q : Queue α) : Multiset α := (range q.size).map q.array

section

variable [DecidableEq α]

def Session.step (cmp : (α → β) → α → α → Int) (s : Session α β) : Call α β → Session α β
  | .enqueue data =>
    {s with queue := PriorityQueue.enqueue (cmp s.key) data s.queue, bag := data ::ₘ s.bag}
  | .dequeue =>
    let (data,queue) := PriorityQueue.dequeue (cmp s.key) s.queue
    {s with queue := queue, bag := s.bag.erase data}
  | .removeAt index =>
    {s with
      queue := PriorityQueue.removeAt (cmp s.key) index s.queue
      bag := s.bag.erase (s.queue.array index)}
  | .remove data =>
    {s with
      queue := PriorityQueue.remove (cmp s.key) data s.queue
      bag := s.bag.filter (· ≠ data)}
  | .decrease data key =>
    let key := update s.key data key
    {s with queue := trickleUp (cmp key) (s.queue.position data).toNat s.queue, key := key}

end

/-- What the callers see to. -/
def Session.Allowed [LE β] (s : Session α β) : Call α β → Prop
  | .enqueue _ => True
  | .dequeue => 0 < s.queue.size
  | .removeAt index => index < s.queue.size
  | .remove _ => True
  | .decrease data key => data ∈ s.bag ∧ key ≤ s.key data

def Session.Single (s : Session α β) : Call α β → Prop
  | .enqueue data => data ∉ s.bag
  | _ => True

theorem mem_contents {q : Queue α} {x : α} : x ∈ contents q ↔ Contains q x := by
  simp [contents,Contains]

theorem Indexed.nodup {q : Queue α} (hin : Indexed q) : (contents q).Nodup :=
  (nodup_range _).map_on fun _ hi _ hj eq =>
    hin.distinct (mem_range.mp hi) (mem_range.mp hj) eq

section

variable [LinearOrder β]

theorem Rearranged.contents_eq {q : Queue α} {nodes : α → Prop} {hb : α → Int}
    (h : Rearranged q nodes hb) {bag : Multiset α} (nodup : bag.Nodup)
    (all : ∀ x, x ∈ bag ↔ nodes x) : contents q = bag :=
  (h.indexed.nodup.ext nodup).mpr fun x => by rw [mem_contents,h.contains,all]

structure Session.Exact (s : Session α β) : Prop where
  ordered : Ordered s.key s.queue
  held : contents s.queue = s.bag
  indexed : Indexed s.queue

namespace Session

variable {s : Session α β}

section

variable (h : s.Exact)

include h

theorem Exact.mem (x : α) : x ∈ s.bag ↔ Contains s.queue x := by rw [← h.held,mem_contents]

theorem Exact.nodup : s.bag.Nodup := h.held ▸ h.indexed.nodup

theorem Exact.removed {data : α} {q : Queue α} (hr : Removed s.key s.queue data q)
    {bag : Multiset α} (nodup : bag.Nodup) (hf : ∀ x, x ∈ bag ↔ x ≠ data ∧ x ∈ s.bag) :
    Exact {s with queue := q, bag := bag} := by
  refine ⟨hr.ordered,hr.contents_eq nodup fun x => ?_,hr.indexed⟩
  rw [hf,h.mem]

variable [DecidableEq α] {cmp : (α → β) → α → α → Int}

theorem Exact.step (hag : ∀ key nodes, Agrees (cmp key) key nodes) (call : Call α β)
    (ha : s.Allowed call) (hs : s.Single call) : (s.step cmp call).Exact := by
  cases call with
  | enqueue data =>
    have new : ¬ Contains s.queue data := fun hp => hs ((h.mem data).mpr hp)
    have queue := enqueue_rearranged (cmp s.key) h.indexed new
    refine ⟨enqueue_ordered h.indexed h.ordered new (hag _ _),?_,queue.indexed⟩
    refine queue.contents_eq (nodup_cons.mpr ⟨hs,h.nodup⟩) fun x => ?_
    exact mem_cons.trans (or_congr_right (h.mem x))
  | dequeue =>
    have queue := dequeue_rearranged (cmp s.key) h.indexed ha
    exact h.removed ⟨queue,dequeue_ordered h.indexed h.ordered ha (hag _ _)⟩
      (h.nodup.erase _) fun x => h.nodup.mem_erase_iff
  | removeAt idx =>
    exact h.removed (removeAt_removed h.indexed h.ordered (hag _ _) ha) (h.nodup.erase _)
      fun x => h.nodup.mem_erase_iff
  | remove data =>
    refine h.removed (remove_removed h.indexed h.ordered (hag _ _) data) (h.nodup.filter _)
      fun x => ?_
    rw [mem_filter,and_comm]
  | decrease data key =>
    obtain ⟨i,hi,rfl⟩ := (h.mem data).mp ha.1
    have ht : (s.queue.position (s.queue.array i)).toNat = i := by rw [h.indexed i hi]; rfl
    simp only [Session.step,ht]
    have queue := trickleUp_rearranged (cmp (update s.key (s.queue.array i) key)) h.indexed hi
    refine ⟨?_,queue.contents_eq h.nodup h.mem,queue.indexed⟩
    refine trickleUp_ordered h.indexed h.ordered hi (hag _ _) ?_ fun x ho => ?_
    · have hl : key ≤ s.key (s.queue.array i) := ha.2
      simpa using hl
    · exact update_of_ne ho _ _

end

variable [DecidableEq α] {cmp : (α → β) → α → α → Int}

theorem run_exact (hag : ∀ key nodes, Agrees (cmp key) key nodes) (calls : List (Call α β))
    (h : s.Exact) (ha : Throughout (Session.step cmp) Allowed calls s)
    (hs : Throughout (Session.step cmp) Single calls s) :
    (run (Session.step cmp) calls s).Exact := by
  induction calls generalizing s with
  | nil => exact h
  | cons call rest ih =>
    exact ih (h.step hag call ha.1 hs.1) ha.2 hs.2

theorem queue_exact (cmp : (α → β) → α → α → Int) (ha : ∀ key nodes, Agrees (cmp key) key nodes)
    (q : Queue α) (he : q.size = 0) (key : α → β) (calls : List (Call α β))
    (hal : Throughout (Session.step cmp) Allowed calls ⟨q,key,0⟩)
    (hs : Throughout (Session.step cmp) Single calls ⟨q,key,0⟩) :
    let s := run (Session.step cmp) calls ⟨q,key,0⟩
    Ordered s.key s.queue ∧ contents s.queue = s.bag ∧ Indexed s.queue ∧
      (s.bag ≠ 0 → (dequeue (cmp s.key) s.queue).1 ∈ s.bag ∧
        ∀ x ∈ s.bag, s.key (dequeue (cmp s.key) s.queue).1 ≤ s.key x) ∧
      ∀ x, x ∉ contents (remove (cmp s.key) x s.queue) := by
  have start : Exact (⟨q,key,0⟩ : Session α β) :=
    ⟨fun i _ hi => absurd (he ▸ hi) (Nat.not_lt_zero i),by simp [contents,he],
      fun i hi => absurd (he ▸ hi) (Nat.not_lt_zero i)⟩
  have h := run_exact ha calls start hal hs
  refine ⟨h.ordered,h.held,h.indexed,fun some => ⟨?_,fun x mem => ?_⟩,fun x mem => ?_⟩
  · obtain ⟨x,mem⟩ := exists_mem_of_ne_zero some
    obtain ⟨i,hi,-⟩ := (h.mem x).mp mem
    exact (h.mem _).mpr ⟨0,by omega,rfl⟩
  · exact h.ordered.first ((h.mem x).mp mem)
  · have hr := remove_removed h.indexed h.ordered (ha _ _) x
    exact ((hr.contains x).mp (mem_contents.mp mem)).1 rfl

end Session

end

section

/-- Keys are compared by their difference. -/
def difference (key : Nat → Nat) (x y : Nat) : Int := key x - key y

theorem difference_agrees (key : Nat → Nat) (nodes : Nat → Prop) :
    Agrees (difference key) key nodes :=
  ⟨fun x y _ _ => by unfold difference; omega,fun x y _ _ => by unfold difference; omega⟩

def nothing : Queue Nat := ⟨fun _ => 0,0,fun _ => -1⟩

theorem three_exact : (run (Session.step difference)
    [.enqueue 5,.enqueue 3,.enqueue 9,.decrease 9 1,.removeAt 1] ⟨nothing,id,0⟩).queue.array 0 = 9 ∧
    Indexed (run (Session.step difference)
      [.enqueue 5,.enqueue 3,.enqueue 9,.decrease 9 1,.removeAt 1] ⟨nothing,id,0⟩).queue :=
  ⟨by decide,(Session.queue_exact difference difference_agrees nothing rfl id
    [.enqueue 5,.enqueue 3,.enqueue 9,.decrease 9 1,.removeAt 1]
    ⟨trivial,trivial,trivial,⟨by decide,by decide⟩,show 1 < _ by decide,trivial⟩
    ⟨show _ ∉ _ by decide,show _ ∉ _ by decide,show _ ∉ _ by decide,trivial,trivial,trivial⟩).2.2.1⟩

/-- A node that was enqueued twice and is removed: the second replaces the first, where the scan
does not look again. -/
theorem second_left : let s := run (Session.step difference) [.enqueue 7,.enqueue 7] ⟨nothing,id,0⟩
    Throughout (Session.step difference) Session.Allowed [.enqueue 7,.enqueue 7] ⟨nothing,id,0⟩ ∧
      7 ∈ contents (remove (difference s.key) 7 s.queue) :=
  ⟨⟨trivial,trivial,trivial⟩,mem_contents.mpr ⟨0,by decide,by decide⟩⟩

end

end Frr.PriorityQueue
