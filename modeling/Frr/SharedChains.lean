import Mathlib.Data.List.Basic

/-! Sorted linked lists that share their tails: every node has one pointer, and once two chains meet
they stay together. A node is inserted in or removed from one chain after the other, and a chain may
find the work done. -/
namespace Frr.SharedChains

open List Function

section

variable {α : Type} {next next' : α → Option α} {h k m : Option α} {l l₁ l₂ : List α}

/-- The pointers from `h` run through `l` and arrive at `m`. -/
def Segment (next : α → Option α) : Option α → List α → Option α → Prop
  | h, [], m => h = m
  | h, a :: l, m => h = some a ∧ Segment next (next a) l m

theorem segment_append :
    Segment next h (l₁ ++ l₂) m ↔ ∃ k, Segment next h l₁ k ∧ Segment next k l₂ m := by
  induction l₁ generalizing h with
  | nil => simp [Segment]
  | cons a l₁ ih => simp [Segment,ih,and_assoc]

theorem Segment.congr (seg : Segment next h l m) (eq : ∀ a ∈ l, next' a = next a) :
    Segment next' h l m := by
  induction l generalizing h with
  | nil => exact seg
  | cons a l ih =>
    refine ⟨seg.1,?_⟩
    rw [eq a (.head _)]
    exact ih seg.2 fun b mem => eq b (.tail _ mem)

theorem Segment.head (seg : Segment next h l none) : h = l.head? := by
  cases l with
  | nil => exact seg
  | cons a l => exact seg.1

theorem segment_concat {p : α} :
    Segment next h (l ++ [p]) m ↔ Segment next h l (some p) ∧ next p = m := by
  rw [segment_append]
  simp [Segment]

end

section

variable {α : Type}

/-- Up to the first node where the walk stops: the node before, if any, and that node. None if it
does not end. -/
def seek (next : α → Option α) (stop : α → Bool) :
    Nat → Option α → Option α → Option (Option α × Option α)
  | 0, _, _ => none
  | _ + 1, prev, none => some (prev,none)
  | fuel + 1, prev, some a =>
    if stop a then some (prev,some a) else seek next stop fuel (some a) (next a)

theorem seek_segment {next : α → Option α} {stop : α → Bool} {h k prev : Option α} {l : List α}
    {fuel : Nat} (seg : Segment next h l k) (hp : ∀ a ∈ l, stop a = false)
    (hs : ∀ a, k = some a → stop a) (he : l.length < fuel) :
    seek next stop fuel prev h = some (l.getLast?.or prev,k) := by
  induction l generalizing h prev fuel with
  | nil =>
    obtain ⟨fuel,rfl⟩ := Nat.exists_eq_add_of_lt he
    cases seg
    cases k with
    | none => simp [seek]
    | some a => simp [seek,hs a rfl]
  | cons a l ih =>
    obtain ⟨rfl,rest⟩ := seg
    cases fuel with
    | zero => simp at he
    | succ fuel =>
      have hh := hp a (.head _)
      rw [seek,hh,if_neg Bool.false_ne_true,
        ih rest (fun b mem => hp b (.tail _ mem)) (by simpa using he)]
      cases last : l.getLast? with
      | none => simp [getLast?_cons,last]
      | some b => simp [getLast?_cons,last]

def walk (next : α → Option α) : Nat → Option α → Option (List α)
  | 0, _ => none
  | _ + 1, none => some []
  | fuel + 1, some a => (walk next fuel (next a)).map (a :: ·)

theorem walk_segment {next : α → Option α} {h : Option α} {l : List α} {fuel : Nat}
    (seg : Segment next h l none) (he : l.length < fuel) : walk next fuel h = some l := by
  induction l generalizing h fuel with
  | nil =>
    obtain ⟨fuel,rfl⟩ := Nat.exists_eq_add_of_lt he
    cases seg
    simp [walk]
  | cons a l ih =>
    obtain ⟨rfl,rest⟩ := seg
    cases fuel with
    | zero => simp at he
    | succ fuel => simp [walk,ih rest (by simpa using he)]

end

structure Chains (α σ : Type) where
  head : σ → Option α
  next : α → Option α

section

variable {α σ : Type} [DecidableEq α] [DecidableEq σ]

/-- The pointer that leads from `prev`, or from the start of the chain. -/
def Chains.setPointer (c : Chains α σ) (s : σ) (prev target : Option α) : Chains α σ :=
  match prev with
  | none => {c with head := update c.head s target}
  | some p => {c with next := update c.next p target}

/-- Insertion in one chain; none if the chain continues elsewhere than the node does. -/
def install (before : α → α → Bool) (fuel : Nat) (e : α) (c : Chains α σ) (s : σ) :
    Option (Chains α σ) :=
  (seek c.next (fun a => decide (a = e) || before e a) fuel none (c.head s)).bind
    fun (prev,cur) =>
      if cur = some e then some c
      else match c.next e with
        | none => some ({c with next := update c.next e cur}.setPointer s prev (some e))
        | some y => if cur = some y ∨ cur = none then some (c.setPointer s prev (some e)) else none

def uninstall (fuel : Nat) (e : α) (c : Chains α σ) (s : σ) : Option (Chains α σ) :=
  (seek c.next (fun a => decide (a = e)) fuel none (c.head s)).map fun (prev,cur) =>
    if cur = some e then c.setPointer s prev (c.next e) else c

end

section

variable {α σ : Type} {before : α → α → Bool}
  {mem : σ → α → Bool} {A B : List α} {e : α} {c : Chains α σ} {s t : σ}

abbrev chain (mem : σ → α → Bool) (s : σ) (l : List α) : List α := l.filter (mem s)

def Chains.Linked (c : Chains α σ) (mem : σ → α → Bool) (s : σ) (l : List α) : Prop :=
  Segment c.next (c.head s) (chain mem s l) none

/-- The nodes before and after `e`; chains stay together once they have met. -/
structure Place (before : α → α → Bool) (mem : σ → α → Bool) (A : List α) (e : α) (B : List α) :
    Prop where
  irrefl : ∀ a, before a a = false
  left : ∀ a ∈ A, before a e = true ∧ before e a = false
  right : ∀ b ∈ B, before e b = true
  across : ∀ a ∈ A, ∀ b ∈ B, before a b = true
  sorted : A.Pairwise fun a b => before a b = true
  meet : ∀ s t a b, mem s a = true → mem t a = true → before a b = true → mem s b = mem t b

section

variable (place : Place before mem A e B)

include place

theorem Place.not_mem_left : e ∉ A := fun hm => by
  simpa [place.irrefl e] using (place.left e hm).1

theorem Place.not_mem_right : e ∉ B := fun hm => by
  simpa [place.irrefl e] using place.right e hm

theorem Place.not_mem_both {a : α} (left : a ∈ A) : a ∉ B :=
  fun right => by simpa [place.irrefl a] using place.across a left a right

theorem Place.chain_right (hs : mem s e)
    (ht : mem t e) : chain mem s B = chain mem t B :=
  filter_congr fun b hm => place.meet s t e b hs ht (place.right b hm)

end

theorem exists_of_getLast? {f : α → Bool} {p : α} (last : (A.filter f).getLast? = some p) :
    ∃ A₁ A₂, A = A₁ ++ p :: A₂ ∧ f p ∧ ∀ a ∈ A₂, f a = false := by
  rw [getLast?_eq_head?_reverse,← filter_reverse,head?_filter] at last
  obtain ⟨hh,as,bs,split,others⟩ := find?_eq_some_iff_append.mp last
  refine ⟨bs.reverse,as.reverse,?_,hh,fun a mem => ?_⟩
  · have := congrArg reverse split
    simpa using this
  · simpa using others a (mem_reverse.mp mem)

def Chains.Either (c : Chains α σ) (mem : σ → α → Bool) (A : List α) (e : α) (B : List α) (t : σ) :
    Prop := c.Linked mem t (A ++ B) ∨ c.Linked mem t (A ++ e :: B)

theorem linked_without : c.Linked mem t (A ++ B) ↔
    ∃ k, Segment c.next (c.head t) (chain mem t A) k ∧ Segment c.next k (chain mem t B) none := by
  unfold Chains.Linked chain
  rw [filter_append,segment_append]

theorem linked_with (hi : mem t e) : c.Linked mem t (A ++ e :: B) ↔
    Segment c.next (c.head t) (chain mem t A) (some e) ∧
      Segment c.next (c.next e) (chain mem t B) none := by
  unfold Chains.Linked chain
  rw [filter_append,filter_cons_of_pos hi,segment_append]
  simp [Segment]

theorem linked_of_not_mem (ho : mem t e = false) :
    c.Linked mem t (A ++ e :: B) ↔ c.Linked mem t (A ++ B) := by
  unfold Chains.Linked
  rw [chain,filter_append,filter_cons_of_neg (by simp [ho]),← filter_append]

theorem foldlM_done {β : Type} {op : β → σ → Option β} {inv : β → Prop} {ok : σ → Prop}
    (hd : β → σ → Prop)
    (step : ∀ c s, inv c → ok s → ∃ c', op c s = some c' ∧ inv c' ∧ hd c' s ∧ ∀ t, hd c t → hd c' t)
    (slots : List σ) (c : β) (start : inv c) (ht : ∀ s ∈ slots, ok s) :
    ∃ c', slots.foldlM op c = some c' ∧ inv c' ∧ ∀ t, t ∈ slots ∨ hd c t → hd c' t := by
  induction slots generalizing c with
  | nil => exact ⟨c,rfl,start,fun t which => which.resolve_left not_mem_nil⟩
  | cons s rest ih =>
    obtain ⟨c₁,fst,start,hh,hk⟩ := step c s start (ht s (.head _))
    obtain ⟨c',all,inv,which'⟩ := ih c₁ start fun t hm => ht t (.tail _ hm)
    refine ⟨c',by simp [foldlM_cons,fst,all],inv,fun t which => which' t ?_⟩
    rcases which with hm | before
    · rcases mem_cons.mp hm with rfl | hm
      · exact .inr hh
      · exact .inl hm
    · exact .inr (hk t before)

variable [DecidableEq α] [DecidableEq σ]

/-- The pointer after the nodes before `e` in one chain is set. The chains through the last of them
become chains through `e`. -/
theorem Place.redirect (place : Place before mem A e B) (hs : mem s e) {k₀ k : Option α}
    (tgt : Option α) (here : Segment c.next (c.head s) (chain mem s A) k₀)
    (there : Segment c.next (c.head t) (chain mem t A) k) :
    let c' := c.setPointer s (chain mem s A).getLast? tgt
    Segment c'.next (c'.head t) (chain mem t A) k ∧ t ≠ s ∨
      Segment c'.next (c'.head t) (chain mem t A) tgt ∧ k = k₀ ∧ mem t e := by
  intro c'
  cases last : (chain mem s A).getLast? with
  | none =>
    have he : chain mem s A = [] := by simpa using last
    have hc : c' = {c with head := update c.head s tgt} := by
      simp only [c',last]
      rfl
    by_cases eq : t = s
    · subst eq
      rw [he] at here there ⊢
      right
      exact ⟨by simp [hc,Segment],(there.symm.trans here),hs⟩
    left
    exact ⟨by simpa [hc,eq] using there,eq⟩
  | some p =>
    obtain ⟨A₁,A₂,rfl,hi,hl⟩ := exists_of_getLast? last
    have hc : c' = {c with next := update c.next p tgt} := by
      simp only [c',last]
      rfl
    by_cases ht : mem t p
    · -- The nodes after the last one are in neither chain.
      have hso := pairwise_append.mp place.sorted
      have ha : ∀ a ∈ A₂, before p a := (pairwise_cons.mp hso.2.1).1
      have hf : p ∉ A₁ := fun hm => by
        simpa [place.irrefl p] using hso.2.2 p hm p (.head _)
      have split (u : σ) (hp : mem u p) :
          chain mem u (A₁ ++ p :: A₂) = chain mem u A₁ ++ [p] := by
        have none : A₂.filter (mem u) = [] := by
          rw [filter_eq_nil_iff]
          intro a hm
          rw [place.meet u s p a hp hi (ha a hm),hl a hm]
          exact Bool.false_ne_true
        simp [chain,filter_append,hp,none]
      rw [split s hi,segment_concat] at here
      rw [split t ht,segment_concat] at there
      right
      refine ⟨?_,there.2.symm.trans here.2,?_⟩
      · rw [split t ht,segment_concat,hc]
        refine ⟨there.1.congr fun a hm => update_of_ne ?_ ..,by simp⟩
        rintro rfl
        exact hf (mem_of_mem_filter hm)
      rw [← hs]
      exact place.meet t s p e ht hi (place.left p (by simp)).1
    · left
      constructor
      · rw [hc]
        refine there.congr fun a hm => update_of_ne ?_ ..
        rintro rfl
        exact ht (of_mem_filter hm)
      rintro rfl
      exact ht hi

theorem next_setPointer {tgt : Option α} {a : α}
    (ho : a ∉ A) : (c.setPointer s (chain mem s A).getLast? tgt).next a = c.next a := by
  cases last : (chain mem s A).getLast? with
  | none => rfl
  | some p =>
    refine update_of_ne ?_ ..
    rintro rfl
    exact ho (mem_of_mem_filter (mem_of_getLast? last))

theorem Place.segment_right (place : Place before mem A e B) (s : σ) (tgt : Option α)
    {k : Option α} (seg : Segment c.next k (chain mem t B) none) :
    Segment (c.setPointer s (chain mem s A).getLast? tgt).next k (chain mem t B) none :=
  seg.congr fun _ hm => next_setPointer fun left =>
    place.not_mem_both left (mem_of_mem_filter hm)

variable {live : σ → Prop}

/-- What holds while `e` is inserted. -/
structure Inserting (live : σ → Prop) (mem : σ → α → Bool) (A : List α) (e : α) (B : List α)
    (c : Chains α σ) : Prop where
  either : ∀ t, live t → c.Either mem A e B t
  pointer : c.next e = none ∨ ∀ t, mem t e = true → c.next e = (chain mem t B).head?

theorem Place.install_step (place : Place before mem A e B) (c : Chains α σ)
    (hin : Inserting live mem A e B c) (ha : live s) (hs : mem s e) {fuel : Nat}
    (he : (A ++ B).length + 1 < fuel) :
    ∃ c', install before fuel e c s = some c' ∧ Inserting live mem A e B c' ∧
      c'.Linked mem s (A ++ e :: B) ∧
      ∀ t, live t → c.Linked mem t (A ++ e :: B) → c'.Linked mem t (A ++ e :: B) := by
  have hsh : (chain mem s A).length < fuel := by
    have : (chain mem s A).length ≤ A.length := length_filter_le ..
    simp only [length_append] at he
    omega
  have hp : ∀ a ∈ chain mem s A, (decide (a = e) || before e a) = false := by
    intro a hm
    have left := mem_of_mem_filter hm
    have ho : a ≠ e := fun eq => place.not_mem_left (eq ▸ left)
    simp [ho,(place.left a left).2]
  rcases hin.either s ha with without | hd
  · obtain ⟨k,hh,rest⟩ := linked_without.mp without
    have fst : k = (chain mem s B).head? := rest.head
    have new : k ≠ some e := by
      rintro rfl
      exact place.not_mem_right (mem_of_mem_filter (mem_of_mem_head? fst.symm))
    have hst : ∀ a, k = some a → (decide (a = e) || before e a) = true := by
      rintro a rfl
      have right := mem_of_mem_filter (mem_of_mem_head? fst.symm)
      simp [place.right a right]
    let c₁ : Chains α σ := {c with next := update c.next e k}
    let c' := c₁.setPointer s (chain mem s A).getLast? (some e)
    have hins : install before fuel e c s = some c' := by
      unfold install
      rw [seek_segment hh hp hst hsh,Option.or_none,Option.bind_some]
      simp only [if_neg new]
      cases ptr : c.next e with
      | none => rfl
      | some y =>
        -- The node continues as the chain does, so the assertion holds.
        have eq : k = some y := by
          have := hin.pointer.resolve_left (by simp [ptr]) s hs
          rw [fst,← this,ptr]
        have hu : c₁ = c := by
          simp [c₁,eq,← ptr,update_eq_self]
        simp only [eq,true_or,if_true]
        rw [← hu]
    have ptr : c'.next e = k := by
      rw [next_setPointer place.not_mem_left]
      exact update_self ..
    have lift {h m : Option α} {l : List α} (seg : Segment c.next h l m) (out : e ∉ l) :
        Segment c₁.next h l m :=
      seg.congr fun a hm => update_of_ne (by rintro rfl; exact out hm) ..
    have outLeft (t : σ) : e ∉ chain mem t A := fun hm =>
      place.not_mem_left (mem_of_mem_filter hm)
    have outRight (t : σ) : e ∉ chain mem t B := fun hm =>
      place.not_mem_right (mem_of_mem_filter hm)
    have ofWithout (t : σ) (hl : c.Linked mem t (A ++ B)) :
        c'.Linked mem t (A ++ B) ∧ t ≠ s ∨ c'.Linked mem t (A ++ e :: B) := by
      obtain ⟨k',ht,rest'⟩ := linked_without.mp hl
      have right := place.segment_right s (some e) (lift rest' (outRight t))
      rcases place.redirect hs (some e) (lift hh (outLeft s)) (lift ht (outLeft t)) with
        ⟨seg,ho⟩ | ⟨seg,rfl,hi⟩
      · exact .inl ⟨linked_without.mpr ⟨k',seg,right⟩,ho⟩
      · exact .inr ((linked_with hi).mpr ⟨seg,ptr ▸ right⟩)
    have ofWith (t : σ) (hl : c.Linked mem t (A ++ e :: B)) : c'.Linked mem t (A ++ e :: B) := by
      by_cases hi : mem t e
      · obtain ⟨ht,-⟩ := (linked_with hi).mp hl
        rcases place.redirect hs (some e) (lift hh (outLeft s)) (lift ht (outLeft t)) with
          ⟨seg,-⟩ | ⟨-,eq,-⟩
        · refine (linked_with hi).mpr ⟨seg,ptr ▸ ?_⟩
          rw [← place.chain_right hs hi]
          exact place.segment_right s (some e) (lift rest (outRight s))
        · exact absurd eq.symm new
      · have hou : mem t e = false := by simpa using hi
        rw [linked_of_not_mem hou] at hl
        rcases ofWithout t hl with ⟨hl,-⟩ | hl
        · exact (linked_of_not_mem hou).mpr hl
        · exact hl
    refine ⟨c',hins,⟨fun t ha => ?_,.inr fun t hi => ?_⟩,?_,fun t _ => ofWith t⟩
    · rcases hin.either t ha with hl | hl
      · exact (ofWithout t hl).imp And.left id
      · exact .inr (ofWith t hl)
    · rw [ptr,fst,place.chain_right hs hi]
    · exact (ofWithout s without).resolve_left fun ho => ho.2 rfl
  · have hh := (linked_with hs).mp hd
    refine ⟨c,?_,hin,hd,fun t _ => id⟩
    unfold install
    rw [seek_segment hh.1 hp (by simp) hsh]
    simp

theorem Place.install_all (place : Place before mem A e B) {fuel : Nat}
    (he : (A ++ B).length + 1 < fuel) (slots : List σ) (c : Chains α σ)
    (hi : Inserting live mem A e B c)
    (ht : ∀ s ∈ slots, live s ∧ mem s e) :
    ∃ c', slots.foldlM (install before fuel e) c = some c' ∧ Inserting live mem A e B c' ∧
      ∀ t, live t → t ∈ slots ∨ c.Linked mem t (A ++ e :: B) → c'.Linked mem t (A ++ e :: B) := by
  obtain ⟨c',all,haf,hl⟩ := foldlM_done (fun c t => live t → c.Linked mem t (A ++ e :: B))
    (fun c s inv ok => by
      obtain ⟨c',fst,inv,hh,hk⟩ := place.install_step c inv ok.1 ok.2 he
      exact ⟨c',fst,inv,fun _ => hh,fun t old ha => hk t ha (old ha)⟩)
    slots c hi ht
  exact ⟨c',all,haf,fun t ha which => hl t (which.imp_right fun old _ => old) ha⟩

/-- What holds while `e` is removed. -/
structure Removing (live : σ → Prop) (mem : σ → α → Bool) (A : List α) (e : α) (B : List α)
    (c : Chains α σ) : Prop where
  either : ∀ t, live t → c.Either mem A e B t
  pointer : ∀ t, mem t e = true → Segment c.next (c.next e) (chain mem t B) none

theorem Place.uninstall_step (place : Place before mem A e B) (c : Chains α σ)
    (hr : Removing live mem A e B c) (ha : live s) (hs : mem s e) {fuel : Nat}
    (he : (A ++ B).length + 1 < fuel) :
    ∃ c', uninstall fuel e c s = some c' ∧ Removing live mem A e B c' ∧
      c'.Linked mem s (A ++ B) ∧
      ∀ t, live t → c.Linked mem t (A ++ B) → c'.Linked mem t (A ++ B) := by
  have ho : e ∉ A ++ B := by
    simp [place.not_mem_left,place.not_mem_right]
  rcases hr.either s ha with hd | hl
  · -- The whole chain is walked, and the node is not met.
    have hsh : (chain mem s (A ++ B)).length < fuel := by
      have : (chain mem s (A ++ B)).length ≤ (A ++ B).length := length_filter_le ..
      omega
    refine ⟨c,?_,hr,hd,fun t _ => id⟩
    unfold uninstall
    rw [seek_segment hd (fun a hm => decide_eq_false ?_) (by simp) hsh]
    · simp
    rintro rfl
    exact ho (mem_of_mem_filter hm)
  · obtain ⟨hh,rest⟩ := (linked_with hs).mp hl
    have hsh : (chain mem s A).length < fuel := by
      have : (chain mem s A).length ≤ A.length := length_filter_le ..
      simp only [length_append] at he
      omega
    let c' := c.setPointer s (chain mem s A).getLast? (c.next e)
    have hre : uninstall fuel e c s = some c' := by
      unfold uninstall
      rw [seek_segment hh (fun a hm => decide_eq_false ?_) (by simp) hsh]
      · simp [c']
      rintro rfl
      exact place.not_mem_left (mem_of_mem_filter hm)
    have ptr : c'.next e = c.next e := next_setPointer place.not_mem_left
    have ofWithout (t : σ) (hl : c.Linked mem t (A ++ B)) : c'.Linked mem t (A ++ B) := by
      obtain ⟨k,ht,rest'⟩ := linked_without.mp hl
      rcases place.redirect hs (c.next e) hh ht with ⟨seg,-⟩ | ⟨-,eq,-⟩
      · exact linked_without.mpr ⟨k,seg,place.segment_right s _ rest'⟩
      -- The chain would lead to the node.
      have fst := rest'.head
      rw [eq] at fst
      exact absurd (mem_of_mem_filter (mem_of_mem_head? fst.symm)) place.not_mem_right
    have ofWith (t : σ) (hl : c.Linked mem t (A ++ e :: B)) :
        c'.Linked mem t (A ++ e :: B) ∧ t ≠ s ∨ c'.Linked mem t (A ++ B) := by
      by_cases hi : mem t e
      · obtain ⟨ht,rest'⟩ := (linked_with hi).mp hl
        have right := place.segment_right s (c.next e) rest'
        rcases place.redirect hs (c.next e) hh ht with ⟨seg,hot⟩ | ⟨seg,-,-⟩
        · exact .inl ⟨(linked_with hi).mpr ⟨seg,ptr ▸ right⟩,hot⟩
        · exact .inr (linked_without.mpr ⟨_,seg,right⟩)
      · have ho : mem t e = false := by simpa using hi
        exact .inr (ofWithout t ((linked_of_not_mem ho).mp hl))
    refine ⟨c',hre,⟨fun t ha => ?_,fun t hi => ?_⟩,?_,fun t _ => ofWithout t⟩
    · rcases hr.either t ha with hl | hl
      · exact .inl (ofWithout t hl)
      · exact ((ofWith t hl).imp And.left id).symm
    · rw [ptr]
      exact place.segment_right s _ (hr.pointer t hi)
    · exact (ofWith s hl).resolve_left fun hot => hot.2 rfl

theorem Place.uninstall_all (place : Place before mem A e B) {fuel : Nat}
    (he : (A ++ B).length + 1 < fuel) (slots : List σ) (c : Chains α σ)
    (hr : Removing live mem A e B c)
    (ht : ∀ s ∈ slots, live s ∧ mem s e) :
    ∃ c', slots.foldlM (uninstall fuel e) c = some c' ∧ Removing live mem A e B c' ∧
      ∀ t, live t → t ∈ slots ∨ c.Linked mem t (A ++ B) → c'.Linked mem t (A ++ B) := by
  obtain ⟨c',all,haf,hl⟩ := foldlM_done (fun c t => live t → c.Linked mem t (A ++ B))
    (fun c s inv ok => by
      obtain ⟨c',fst,inv,hh,hk⟩ := place.uninstall_step c inv ok.1 ok.2 he
      exact ⟨c',fst,inv,fun _ => hh,fun t old ha => hk t ha (old ha)⟩)
    slots c hr ht
  exact ⟨c',all,haf,fun t ha which => hl t (which.imp_right fun old _ => old) ha⟩

end

end Frr.SharedChains
