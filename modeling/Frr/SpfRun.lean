import Frr.SpfTurn
import Mathlib.Data.List.Perm.Subperm

/-! Whole calculations: what the turns of a round, and the rounds of the loop, keep. -/
namespace Frr.Spf

open PriorityQueue List

variable {area : Area} {s s' : State} {k : LsaKey}

section

variable {α β : Type} {f : β → α → Option β} {P : List α → β → Prop} {all : List α} {start : β}

section

variable (initial : P [] start)
  (step : ∀ done x b b', x ∈ all → P done b → f b x = some b' → P (done ++ [x]) b')

include initial step

/-- A loop over a list that may fail: the invariant knows what was done. -/
theorem foldlM_cases : (∃ result, all.foldlM f start = some result ∧ P all result) ∨
      all.foldlM f start = none ∧ ∃ done, ∃ x ∈ all, ∃ b, P done b ∧ f b x = none := by
  have rest : ∀ (done more : List α) (b : β), done ++ more = all → P done b →
      (∃ result, more.foldlM f b = some result ∧ P all result) ∨
        more.foldlM f b = none ∧ ∃ done, ∃ x ∈ all, ∃ b, P done b ∧ f b x = none := by
    intro done more
    induction more generalizing done with
    | nil =>
      intro b split hi
      rw [← split,append_nil]
      exact .inl ⟨b,rfl,hi⟩
    | cons x more ih =>
      intro b split hi
      have mem : x ∈ all := split ▸ mem_append_right done mem_cons_self
      rw [foldlM_cons]
      cases next : f b x with
      | none => exact .inr ⟨rfl,done,x,mem,b,hi,next⟩
      | some b' =>
        exact ih (done ++ [x]) b' (by rw [append_assoc]; exact split)
          (step done x b b' mem hi next)
  exact rest [] all start rfl initial

theorem foldlM_invariant
    {res : β} (ha : all.foldlM f start = some res) : P all res := by
  obtain ⟨_,eq,hi⟩ | ⟨eq,-⟩ := foldlM_cases initial step
  · cases eq.symm.trans ha
    exact hi
  · cases eq.symm.trans ha

theorem foldlM_failure
    (ha : all.foldlM f start = none) : ∃ done, ∃ x ∈ all, ∃ b, P done b ∧ f b x = none := by
  obtain ⟨_,eq,-⟩ | ⟨-,hf⟩ := foldlM_cases initial step
  · cases eq.symm.trans ha
  · exact hf

end

end

def taken (s : State) : State :=
  {s with
    candidate := {(dequeue (cmp s) s.candidate).2 with
      position := fun x => if x = s.candidate.array 0 then inSpfTree
        else (dequeue (cmp s) s.candidate).2.position x}
    tree := s.candidate.array 0 :: s.tree}

theorem extract_eq (s : State) :
    extract s = (s.candidate.array 0,addToParents (taken s) (s.candidate.array 0)) := rfl

section

variable (kept : Kept area s) (some : 0 < s.candidate.size)

include kept some

theorem taken_contains (x : LsaKey) :
    Contains (taken s).candidate x ↔ x ≠ s.candidate.array 0 ∧ Contains s.candidate x :=
  (dequeue_rearranged (cmp s) kept.indexed some).contains x

theorem taken_known (x : LsaKey) : (taken s).Known x ↔ s.Known x := by
  have fst : Contains s.candidate (s.candidate.array 0) := ⟨0,some,rfl⟩
  simp only [State.Known,taken_contains kept some]
  constructor
  · rintro (mem | ⟨-,hq⟩)
    · rcases mem_cons.mp mem with rfl | old
      · exact .inr fst
      · exact .inl old
    · exact .inr hq
  · rintro (mem | hq)
    · exact .inl (mem_cons_of_mem _ mem)
    by_cases eq : x = s.candidate.array 0
    · exact .inl (eq ▸ mem_cons_self)
    · exact .inr ⟨eq,hq⟩

theorem taken_kept : Kept area (taken s) := by
  have queue := dequeue_rearranged (cmp s) kept.indexed some
  have fst : Contains s.candidate (s.candidate.array 0) := ⟨0,some,rfl⟩
  have stat : ∀ x, x ≠ s.candidate.array 0 →
      (taken s).stat x = (dequeue (cmp s) s.candidate).2.position x := fun x ne =>
    if_neg ne
  have self : (taken s).stat (s.candidate.array 0) = inSpfTree := if_pos rfl
  have ho : ∀ x, x ≠ s.candidate.array 0 → ¬ Contains (taken s).candidate x →
      (taken s).stat x = s.stat x := by
    intro x ne ha
    rw [stat x ne]
    exact queue.untouched x fun node => ha ((taken_contains kept some x).mpr node)
  have hin : Indexed (taken s).candidate := by
    intro i hi
    have node : Contains (taken s).candidate ((taken s).candidate.array i) := ⟨i,hi,rfl⟩
    have ne := ((taken_contains kept some _).mp node).1
    exact (stat _ ne).trans (queue.indexed i hi)
  have ht : ∀ {x}, Contains (taken s).candidate x → 0 ≤ (taken s).stat x := by
    rintro x ⟨i,hi,rfl⟩
    have slot : (taken s).stat ((taken s).candidate.array i) = i := hin i hi
    rw [slot]
    exact Int.natCast_nonneg i
  -- Four kinds of vertices: the one that leaves, those that stay, the tree, the rest.
  refine ⟨hin,?_,?_,?_,?_,?_,?_,?_⟩
  · intro x
    by_cases eq : x = s.candidate.array 0
    · exact .inr (.inl (eq ▸ self))
    by_cases hq : Contains (taken s).candidate x
    · exact .inr (.inr (ht hq))
    rw [ho x eq hq]
    exact kept.range x
  · intro x hn
    by_contra ha
    by_cases eq : x = s.candidate.array 0
    · rw [eq,self] at hn
      exact absurd hn (by decide)
    rw [ho x eq ha] at hn
    exact ha ((taken_contains kept some x).mpr ⟨eq,kept.queued x hn⟩)
  · intro x
    by_cases eq : x = s.candidate.array 0
    · exact ⟨fun _ => eq ▸ mem_cons_self,fun _ => eq ▸ self⟩
    have tree : x ∈ (taken s).tree ↔ x ∈ s.tree := by
      simp [taken,eq]
    rw [tree]
    by_cases hq : Contains (taken s).candidate x
    · have old := ((taken_contains kept some x).mp hq).2
      refine ⟨fun hinT => ?_,fun mem => absurd mem (kept.apart old)⟩
      have hn := ht hq
      rw [hinT] at hn
      exact absurd hn (by decide)
    · rw [ho x eq hq]
      exact kept.joined x
  · exact nodup_cons.mpr ⟨kept.apart fst,kept.nodup⟩
  · intro x hk
    exact kept.stored x ((taken_known kept some x).mp hk)
  · intro x hk
    exact kept.linked x ((taken_known kept some x).mp hk)
  · exact ⟨mem_cons_of_mem _ kept.origin.1,kept.origin.2⟩

theorem extract_kept :
    Kept area (extract s).2 := (addToParents_alike _ _).kept (taken_kept kept some)

end

theorem extract_member (s : State) : (extract s).1 ∈ (extract s).2.tree := by
  rw [extract_eq,(addToParents_alike _ _).tree]
  exact mem_cons_self

theorem initial_kept (area : Area) : Kept area (initial area) := by
  have none : ∀ x, ¬ Contains (initial area).candidate x := fun x ⟨i,hi,_⟩ =>
    absurd hi (Nat.not_lt_zero i)
  have hk : ∀ x, (initial area).Known x → x = area.root := fun x hk =>
    hk.elim (fun mem => mem_singleton.mp mem) (fun hq => absurd hq (none x))
  have stat : ∀ x, (initial area).stat x = if x = area.root then inSpfTree else notExplored :=
    fun _ => rfl
  refine ⟨fun i hi => absurd hi (Nat.not_lt_zero i),?_,?_,?_,nodup_singleton _,?_,?_,?_⟩
  · intro x
    rw [stat]
    split
    · exact .inr (.inl rfl)
    · exact .inl rfl
  · intro x hn
    rw [stat] at hn
    split at hn <;> exact absurd hn (by decide)
  · intro x
    rw [stat,initial,mem_singleton]
    split
    · next eq => exact ⟨fun _ => eq,fun _ => rfl⟩
    next ne =>
    exact ⟨fun hs => absurd hs (by decide),fun hs => absurd hs ne⟩
  · intro x mem
    exact ⟨area.routerLsaSelf,area.selfStored,(hk x mem).symm,rfl,.inl area.selfRouter⟩
  · intro x mem ne
    exact absurd (hk x mem) ne
  · exact ⟨mem_singleton.mpr rfl,rfl,rfl⟩

/-- The tree stays as it is, and a candidate only comes closer. -/
structure Onward (s s' : State) : Prop where
  tree : s'.tree = s.tree
  settled : ∀ x ∈ s.tree, s'.vertex x = s.vertex x
  closer : ∀ x, s.Known x → s'.Known x ∧ (s'.vertex x).distance ≤ (s.vertex x).distance

theorem Onward.refl (s : State) : Onward s s :=
  ⟨rfl,fun _ _ => rfl,fun _ hk => ⟨hk,UInt32.le_refl _⟩⟩

theorem Onward.trans {t : State} (fst : Onward s s') (snd : Onward s' t) : Onward s t := by
  refine ⟨snd.tree.trans fst.tree,fun x mem => ?_,fun x hk => ?_⟩
  · rw [snd.settled x (fst.tree ▸ mem)]
    exact fst.settled x mem
  have between := fst.closer x hk
  have hl := snd.closer x between.1
  exact ⟨hl.1,UInt32.le_trans hl.2 between.2⟩

theorem LinkedWith.onward {tooOld : OspfLsa → Bool} {item : Item} {w : OspfLsa}
    (h : LinkedWith tooOld area k s item w s') : Onward s s' := by
  refine ⟨h.tree,fun x mem => ?_,fun x hk => ⟨(h.known x).mpr (.inr hk),?_⟩⟩
  · exact h.others x fun hs => h.outside (hs ▸ mem)
  by_cases eq : x = w.key
  · subst eq
    rw [h.distance]
    exact h.better (hk.resolve_left h.outside)
  rw [h.others x eq]
  exact UInt32.le_refl _

theorem examineWith_keeps {tooOld : OspfLsa → Bool} {item : Item} (kept : Kept area s)
    (mem : k ∈ s.tree) (ha : examineWith tooOld area k s item = some s') :
    Kept area s' ∧ Onward s s' := by
  have turn := examineWith_turn tooOld kept mem item
  rw [ha] at turn
  cases turn with
  | idle none => exact ⟨kept,.refl s⟩
  | farther w ho hq hw => exact ⟨kept,.refl s⟩
  | linked w ha h => exact ⟨h.kept kept,h.onward⟩

theorem examine_keeps {item : Item} (kept : Kept area s) (mem : k ∈ s.tree)
    (ha : examine area k s item = some s') : Kept area s' ∧ Onward s s' :=
  examineWith_keeps kept mem ha

theorem markTransit_onward (s : State) (k : LsaKey) : Onward s (markTransit s k) := by
  unfold markTransit
  split
  · exact ⟨rfl,fun _ _ => rfl,fun _ hk => ⟨hk,UInt32.le_refl _⟩⟩
  · exact .refl s

theorem spfNext_keeps (kept : Kept area s) (mem : k ∈ s.tree)
    (ha : spfNext area s k = some s') : Kept area s' ∧ Onward s s' := by
  apply foldlM_invariant (P := fun _ t => Kept area t ∧ Onward s t) _ _ ha
  · exact ⟨(markTransit_alike s k).kept kept,markTransit_onward s k⟩
  rintro done item t t' - ⟨keptT,onward⟩ turn
  obtain ⟨keptT',ho'⟩ := examine_keeps keptT (onward.tree.symm ▸ mem) turn
  exact ⟨keptT',onward.trans ho'⟩

section

variable {R D : LsaKey → State → Prop}
  (round : ∀ k s s', R k s → spfNext area s k = some s' → D k s')
  (next : ∀ k s, D k s → 0 < s.candidate.size → R (extract s).1 (extract s).2)

include round next

/-- `R` before the links of a vertex are examined, `D` after. -/
theorem loop_invariant (fuel : Nat) {k : LsaKey} {s s' : State} (hr : R k s)
    (ha : loop area fuel k s = .finished s') :
    ∃ k', D k' s' ∧ s'.candidate.size = 0 := by
  fun_induction loop area fuel k s with
  | case1 => cases ha
  | case2 => cases ha
  | case3 fuel k s t turn he =>
    cases ha
    exact ⟨k,round k s _ hr turn,he⟩
  | case4 fuel k s t turn he ih =>
    exact ih (next k t (round k s t hr turn) (Nat.pos_of_ne_zero he)) ha

theorem loop_safe (safe : ∀ k s, R k s → spfNext area s k ≠ none)
    (fuel : Nat) {k : LsaKey} {s : State} (hr : R k s) :
    loop area fuel k s ≠ .aborted := by
  fun_induction loop area fuel k s with
  | case1 => nofun
  | case2 fuel k s turn => exact absurd turn (safe k s hr)
  | case3 => nofun
  | case4 fuel k s t turn he ih => exact ih (next k t (round k s t hr turn) (Nat.pos_of_ne_zero he))

end

theorem Kept.length_le (kept : Kept area s) : s.tree.length ≤ area.lsdb.length := by
  have hi : s.tree ⊆ area.lsdb.map OspfLsa.key := by
    intro x mem
    obtain ⟨lsa,has,key,-⟩ := kept.stored x (.inl mem)
    exact mem_map.mpr ⟨lsa,has,key⟩
  have hb := (subperm_of_subset kept.nodup hi).length_le
  rwa [length_map] at hb

theorem loop_running (fuel : Nat) {k : LsaKey} {s s' : State} (kept : Kept area s)
    (mem : k ∈ s.tree) (ha : loop area fuel k s = .running s') :
    s.tree.length + fuel ≤ area.lsdb.length := by
  fun_induction loop area fuel k s with
  | case1 => exact kept.length_le
  | case2 => cases ha
  | case3 => cases ha
  | case4 fuel k s t turn he ih =>
    obtain ⟨keptT,ho⟩ := spfNext_keeps kept mem turn
    have hb := ih (extract_kept keptT (Nat.pos_of_ne_zero he)) (extract_member t) ha
    have hg : (extract t).2.tree.length = s.tree.length+1 := by
      rw [extract_eq,(addToParents_alike _ _).tree,← ho.tree]
      rfl
    omega

theorem spfCalculate_stops (area : Area) {fuel : Nat} (he : area.lsdb.length ≤ fuel)
    (s : State) : spfCalculate area fuel ≠ .running s := by
  intro hr
  have hb := loop_running fuel (initial_kept area) (mem_singleton.mpr rfl) hr
  have one : (initial area).tree.length = 1 := rfl
  omega

end Frr.Spf
