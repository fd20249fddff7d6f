import Mathlib.Order.Basic
import Mathlib.Data.Nat.Find
import Mathlib.Data.List.Perm.Subperm
import Mathlib.Data.List.Nodup

/-! Shortest paths from one vertex, found by settling the closest candidate first. The search is
described by what it has explored, so that a program may take edges one at a time and in any order.
-/
namespace Frr.ShortestPath

open List

variable {V : Type} (edge : V → V → Nat → Prop) (root : V)

inductive Walk : V → Nat → Prop
  | start : Walk root 0
  | step : Walk v cost → edge v w weight → Walk w (cost+weight)

def Least (v : V) (cost : Nat) : Prop :=
  Walk edge root v cost ∧ ∀ other, Walk edge root v other → cost ≤ other

variable {edge root}

theorem Least.unique {v : V} {fst snd : Nat} (hl : Least edge root v fst)
    (hl' : Least edge root v snd) : fst = snd :=
  le_antisymm (hl.2 _ hl'.1) (hl'.2 _ hl.1)

theorem Walk.exists_least {v : V} {total : Nat} (walk : Walk edge root v total) :
    ∃ cost, Least edge root v cost := by
  classical
  exact ⟨Nat.find ⟨total,walk⟩,Nat.find_spec ⟨total,walk⟩,fun _ ho => Nat.find_min' _ ho⟩

section

variable {bound : Nat} (pos : 0 < bound) (hbo : ∀ v w e, edge v w e → e ≤ bound)

include pos hbo

theorem Walk.exists_between {v : V} {total cost level : Nat}
    (walk : Walk edge root v total) (hl : Least edge root v cost) (hb : level ≤ cost) :
    ∃ u at', Least edge root u at' ∧ level ≤ at' ∧ at' < level+bound := by
  induction walk generalizing cost with
  | start =>
    have zero := hl.2 0 .start
    exact ⟨root,cost,hl,hb,by omega⟩
  | @step v total w e walk hre ih =>
    obtain ⟨hbe,hle⟩ := walk.exists_least
    by_cases hr : level ≤ hbe
    · exact ih hle hr
    have edge := hbo v w e hre
    have next := hl.2 _ (.step hle.1 hre)
    exact ⟨w,cost,hl,hb,by omega⟩

theorem Least.lt_of_bounded {vertices : List V}
    (hin : ∀ v total, Walk edge root v total → v ∈ vertices) {v : V} {cost : Nat}
    (hl : Least edge root v cost) : cost < vertices.length*bound := by
  have level : ∀ i : Nat, ∃ u, i ≤ cost/bound → ∃ at', Least edge root u at' ∧
      i * bound ≤ at' ∧ at' < i*bound+bound := by
    intro i
    by_cases low : i ≤ cost/bound
    · have hb : i * bound ≤ cost := (Nat.le_div_iff_mul_le pos).mp low
      obtain ⟨u,at',hf⟩ := hl.1.exists_between pos hbo hl hb
      exact ⟨u,fun _ => ⟨at',hf⟩⟩
    · exact ⟨root,fun high => absurd high low⟩
  -- One vertex at each level, and the levels do not overlap.
  choose u hf using level
  have nodup : ((range (cost/bound+1)).map u).Nodup := by
    refine List.Nodup.map_on (fun i hi j hj eq => ?_) nodup_range
    obtain ⟨fst,leastI,lowI,highI⟩ := hf i (Nat.lt_succ_iff.mp (mem_range.mp hi))
    obtain ⟨snd,leastJ,lowJ,highJ⟩ := hf j (Nat.lt_succ_iff.mp (mem_range.mp hj))
    have he : fst = snd := (eq ▸ leastI).unique leastJ
    have upper : i * bound < (j+1) * bound := by rw [Nat.succ_mul]; omega
    have hlo : j * bound < (i+1) * bound := by rw [Nat.succ_mul]; omega
    have := Nat.lt_of_mul_lt_mul_right upper
    have := Nat.lt_of_mul_lt_mul_right hlo
    omega
  have hs : (range (cost/bound+1)).map u ⊆ vertices := by
    intro x mem
    obtain ⟨i,hi,rfl⟩ := mem_map.mp mem
    obtain ⟨at',leastI,-⟩ := hf i (Nat.lt_succ_iff.mp (mem_range.mp hi))
    exact hin _ _ leastI.1
  have count := (subperm_of_subset nodup hs).length_le
  rw [length_map,length_range] at count
  exact (Nat.div_lt_iff_lt_mul pos).mp count

end

theorem least_root : Least edge root root 0 := ⟨.start,fun _ _ => Nat.zero_le _⟩

variable (edge root)

/-- Explored edges start at settled vertices, the candidates are where they lead, each at the least
cost found. -/
structure Search (explored : V → V → Nat → Prop) (settled candidate : V → Prop)
    (cost : V → Nat) : Prop where
  edges : ∀ v w e, explored v w e → edge v w e ∧ settled v
  origin : settled root ∧ cost root = 0
  apart : ∀ v, settled v → ¬ candidate v
  least : ∀ v, settled v → Least edge root v (cost v)
  found : ∀ v w e, explored v w e → settled w ∨ candidate w ∧ cost w ≤ cost v + e
  reached : ∀ w, candidate w → ∃ v e, explored v w e ∧ cost w = cost v + e
  order : ∀ v w, settled v → candidate w → cost v ≤ cost w

def Exhausted (explored : V → V → Nat → Prop) (settled : V → Prop) : Prop :=
  ∀ v w e, settled v → edge v w e → explored v w e

variable {edge root} {explored explored' : V → V → Nat → Prop} {settled candidate : V → Prop}
variable {cost : V → Nat}

theorem search_start (zero : cost root = 0) :
    Search edge root (fun _ _ _ => False) (· = root) (fun _ => False) cost := by
  refine ⟨?_,⟨rfl,zero⟩,?_,?_,?_,?_,?_⟩
  · exact fun _ _ _ none => none.elim
  · exact fun _ _ none => none
  · rintro v rfl
    rw [zero]
    exact least_root
  · exact fun _ _ _ none => none.elim
  · exact fun _ none => none.elim
  · exact fun _ _ _ none => none.elim

namespace Search

section

variable (search : Search edge root explored settled candidate cost)

include search

theorem congr {hs' cand' : V → Prop} {cost' : V → Nat}
    (sameEdges : ∀ v w e, explored' v w e ↔ explored v w e)
    (sameSettled : ∀ v, hs' v ↔ settled v) (hsa : ∀ v, cand' v ↔ candidate v)
    (hs : ∀ v, settled v ∨ candidate v → cost' v = cost v) :
    Search edge root explored' hs' cand' cost' := by
  obtain rfl : explored' = explored := by funext v w e; exact propext (sameEdges v w e)
  obtain rfl : hs' = settled := by funext v; exact propext (sameSettled v)
  obtain rfl : cand' = candidate := by funext v; exact propext (hsa v)
  refine ⟨search.edges,⟨search.origin.1,?_⟩,search.apart,?_,?_,?_,?_⟩
  · rw [hs _ (.inl search.origin.1)]
    exact search.origin.2
  · intro v mem
    rw [hs v (.inl mem)]
    exact search.least v mem
  · intro v w e hk
    refine (search.found v w e hk).imp_right fun ⟨mem,bound⟩ => ⟨mem,?_⟩
    rw [hs w (.inr mem),hs v (.inl (search.edges v w e hk).2)]
    exact bound
  · intro w mem
    obtain ⟨v,e,hk,exact'⟩ := search.reached w mem
    refine ⟨v,e,hk,?_⟩
    rw [hs w (.inr mem),hs v (.inl (search.edges v w e hk).2)]
    exact exact'
  · intro v w mem hm'
    rw [hs v (.inl mem),hs w (.inr hm')]
    exact search.order v w mem hm'

/-- One more edge of the vertex settled last. A better cost replaces the one before; a settled
vertex is left alone. -/
theorem explore {v w : V} {e : Nat}
    (mem : settled v) (latest : ∀ u, settled u → cost u ≤ cost v) (hr : edge v w e)
    {cand' : V → Prop} {cost' : V → Nat}
    (hsa : ∀ x, x ≠ w → (cand' x ↔ candidate x))
    (hsam : ∀ x, x ≠ w → cost' x = cost x)
    (out : settled w ∧ cost' w = cost w ∧ ¬ cand' w ∨
      ¬ settled w ∧ candidate w ∧ cost w ≤ cost v + e ∧ cand' w ∧ cost' w = cost w ∨
      ¬ settled w ∧ (candidate w → cost v + e ≤ cost w) ∧ cand' w ∧ cost' w = cost v + e) :
    Search edge root (fun x y c => explored x y c ∨ x = v ∧ y = w ∧ c = e) settled cand'
      cost' := by
  -- Settled vertices keep their cost in all three outcomes.
  have hke : ∀ x, settled x → cost' x = cost x := by
    intro x hs
    by_cases eq : x = w
    · subst x
      rcases out with ⟨-,he,-⟩ | ⟨ha,-⟩ | ⟨ha,-⟩
      · exact he
      · exact absurd hs ha
      · exact absurd hs ha
    · exact hsam x eq
  have hl : cand' w → ¬ settled w ∧ cost' w ≤ cost v + e ∧
      (candidate w → cost' w ≤ cost w) ∧
      (cost' w = cost v + e ∨ candidate w ∧ cost' w = cost w) := by
    intro now
    rcases out with ⟨-,-,ha⟩ | ⟨open',was,bound,-,he⟩ | ⟨open',better,-,he⟩
    · exact absurd now ha
    · exact ⟨open',he ▸ bound,fun _ => he.le,.inr ⟨was,he⟩⟩
    · exact ⟨open',he.le,fun was => he ▸ better was,.inl he⟩
  have arrives : settled w ∨ cand' w := by
    rcases out with ⟨old,-⟩ | ⟨-,-,-,now,-⟩ | ⟨-,-,now,-⟩
    · exact .inl old
    · exact .inr now
    · exact .inr now
  refine ⟨?_,?_,?_,?_,?_,?_,?_⟩
  · rintro x y c (hk | ⟨rfl,rfl,rfl⟩)
    · exact search.edges x y c hk
    · exact ⟨hr,mem⟩
  · exact ⟨search.origin.1,(hke root search.origin.1).trans search.origin.2⟩
  · intro x hs now
    by_cases eq : x = w
    · exact (hl (eq ▸ now)).1 (eq ▸ hs)
    · exact search.apart x hs ((hsa x eq).mp now)
  · intro x hs
    rw [hke x hs]
    exact search.least x hs
  · rintro x y c (hk | ⟨rfl,rfl,rfl⟩)
    · have from' := (search.edges x y c hk).2
      rw [hke x from']
      rcases search.found x y c hk with old | ⟨was,bound⟩
      · exact .inl old
      by_cases eq : y = w
      · subst y
        rcases arrives with old | now
        · exact .inl old
        · exact .inr ⟨now,((hl now).2.2.1 was).trans bound⟩
      refine .inr ⟨(hsa y eq).mpr was,?_⟩
      rw [hsam y eq]
      exact bound
    · rw [hke x mem]
      exact arrives.imp_right fun now => ⟨now,(hl now).2.1⟩
  · intro x now
    by_cases eq : x = w
    · subst x
      rcases (hl now).2.2.2 with exact' | ⟨was,he⟩
      · exact ⟨v,e,.inr ⟨rfl,rfl,rfl⟩,by rw [hke v mem]; exact exact'⟩
      obtain ⟨u,c,hk,exact'⟩ := search.reached w was
      exact ⟨u,c,.inl hk,by rw [hke u (search.edges u w c hk).2,he]; exact exact'⟩
    · obtain ⟨u,c,hk,exact'⟩ := search.reached x ((hsa x eq).mp now)
      exact ⟨u,c,.inl hk,by
        rw [hke u (search.edges u x c hk).2,hsam x eq]; exact exact'⟩
  · intro x y hs now
    rw [hke x hs]
    by_cases eq : y = w
    · subst y
      rcases (hl now).2.2.2 with exact' | ⟨was,he⟩
      · rw [exact']
        exact (latest x hs).trans (Nat.le_add_right _ _)
      rw [he]
      exact search.order x w hs was
    · rw [hsam y eq]
      exact search.order x y hs ((hsa y eq).mp now)

section

variable (he : Exhausted edge explored settled)

include he

theorem frontier {x : V} {total : Nat} (walk : Walk edge root x total) :
    settled x ∨ ∃ y, candidate y ∧ cost y ≤ total := by
  induction walk with
  | start => exact .inl search.origin.1
  | @step v cost' w weight walk hr ih =>
    rcases ih with hm | ⟨y,open',bound⟩
    · have hb := (search.least v hm).2 _ walk
      rcases search.found v w weight (he v w weight hm hr) with old | ⟨now,bound⟩
      · exact .inl old
      · exact .inr ⟨w,now,by omega⟩
    · exact .inr ⟨y,open',by omega⟩

theorem beyond {w x : V} {total : Nat} (hc : ∀ x, candidate x → cost w ≤ cost x) (ho : ¬ settled x)
    (walk : Walk edge root x total) : cost w ≤ total := by
  rcases search.frontier he walk with old | ⟨y,open',bound⟩
  · exact absurd old ho
  · exact (hc y open').trans bound

theorem closest {w : V} (mem : candidate w)
    (hc : ∀ x, candidate x → cost w ≤ cost x) : Least edge root w (cost w) := by
  obtain ⟨v,e,hk,exact'⟩ := search.reached w mem
  obtain ⟨hr,from'⟩ := search.edges v w e hk
  refine ⟨exact' ▸ .step (search.least v from').1 hr,fun total walk => ?_⟩
  exact search.beyond he hc (fun old => search.apart w old mem) walk

theorem settle {w : V} (mem : candidate w) (hc : ∀ x, candidate x → cost w ≤ cost x) :
    Search edge root explored (fun x => settled x ∨ x = w) (fun x => candidate x ∧ x ≠ w)
      cost := by
  have hl := search.closest he mem hc
  refine ⟨?_,⟨.inl search.origin.1,search.origin.2⟩,?_,?_,?_,?_,?_⟩
  · intro x y c hk
    exact ⟨(search.edges x y c hk).1,.inl (search.edges x y c hk).2⟩
  · rintro x (old | rfl) ⟨now,different⟩
    · exact search.apart x old now
    · exact different rfl
  · rintro x (old | rfl)
    · exact search.least x old
    · exact hl
  · intro x y c hk
    rcases search.found x y c hk with old | ⟨now,bound⟩
    · exact .inl (.inl old)
    by_cases eq : y = w
    · exact .inl (.inr eq)
    · exact .inr ⟨⟨now,eq⟩,bound⟩
  · intro x now
    exact search.reached x now.1
  · rintro x y (old | rfl) now
    · exact search.order x y old now.1
    · exact hc y now.1

theorem complete (none : ∀ x, ¬ candidate x) {x : V} {total : Nat}
    (walk : Walk edge root x total) : settled x := by
  rcases search.frontier he walk with old | ⟨y,now,-⟩
  · exact old
  · exact absurd now (none y)

end

end

end Search

end Frr.ShortestPath
