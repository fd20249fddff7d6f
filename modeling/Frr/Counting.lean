import Mathlib

/-! Counting the members of a list without repetitions, when the property changes for one member. -/
namespace Frr.Counting

open List

variable {α : Type}

section

variable {p q : α → Bool} {n : α} {l : List α} (nodup : l.Nodup) (mem : n ∈ l)

include nodup mem

theorem countP_gain (off : p n = false) (on : q n) (hs : ∀ m, m ≠ n → q m = p m) :
    l.countP q = l.countP p + 1 := by
  induction l with
  | nil => cases mem
  | cons a l ih =>
    obtain ⟨ha,rest⟩ := nodup_cons.mp nodup
    by_cases hh : a = n
    · subst hh
      have others : l.countP q = l.countP p := by
        apply countP_congr
        intro m hm
        rw [hs m fun eq => ha (eq ▸ hm)]
      rw [countP_cons_of_pos on,countP_cons_of_neg (by simp [off]),others]
    · have hm : n ∈ l := (mem_cons.mp mem).resolve_left fun eq => hh eq.symm
      simp only [countP_cons,hs a hh,ih rest hm]
      omega

theorem countP_loss (on : p n) (off : q n = false) (eq : ∀ m, m ≠ n → q m = p m) :
    l.countP q + 1 = l.countP p :=
  (countP_gain nodup mem off on fun m ne => (eq m ne).symm).symm

end

theorem countP_same {p q : α → Bool} {l : List α} (eq : ∀ m ∈ l, q m = p m) :
    l.countP q = l.countP p := by
  apply countP_congr
  intro m mem
  rw [eq m mem]

theorem countP_erase_off [DecidableEq α] {p : α → Bool} {n : α} {l : List α} (off : p n = false) :
    (l.erase n).countP p = l.countP p := by
  rw [countP_erase]
  simp [off]

def Shift (up : Bool) (x y : Nat) : Prop := if up then y = x+1 else x = y+1

section

variable {n : α} {l : List α} (nodup : l.Nodup) (mem : n ∈ l)

include nodup mem

theorem countP_shift {up : Bool} {p q : α → Bool} (hb : p n = !up) (ha : q n = up) (eq : ∀ m, m ≠ n → q m = p m) :
    Shift up (l.countP p) (l.countP q) := by
  cases up with
  | true => exact countP_gain nodup mem hb ha eq
  | false => exact (countP_loss nodup mem hb ha eq).symm

theorem sum_gain {f g : α → Nat} (hmo : g n = f n + 1) (hs : ∀ m, m ≠ n → g m = f m) :
    (l.map g).sum = (l.map f).sum + 1 := by
  induction l with
  | nil => cases mem
  | cons a l ih =>
    obtain ⟨ha,rest⟩ := nodup_cons.mp nodup
    simp only [map_cons,sum_cons]
    by_cases hh : a = n
    · subst hh
      have others : l.map g = l.map f := by
        apply map_congr_left
        intro m hm
        exact hs m fun eq => ha (eq ▸ hm)
      rw [others,hmo]
      omega
    · have hm : n ∈ l := (mem_cons.mp mem).resolve_left fun eq => hh eq.symm
      rw [hs a hh,ih rest hm]
      omega

theorem sum_shift {up : Bool} {f g : α → Nat} (shift : Shift up (f n) (g n)) (eq : ∀ m, m ≠ n → g m = f m) :
    Shift up (l.map f).sum (l.map g).sum := by
  cases up with
  | true => exact sum_gain nodup mem shift eq
  | false => exact sum_gain nodup mem shift fun m ne => (eq m ne).symm

end

theorem sum_same {f g : α → Nat} {l : List α} (eq : ∀ m ∈ l, g m = f m) :
    (l.map g).sum = (l.map f).sum := by
  rw [map_congr_left eq]

end Frr.Counting
