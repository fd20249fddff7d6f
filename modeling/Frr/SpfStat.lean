import Frr.SpfChain

/-! The `stat` of an LSA in every state of the main loop of `ospf_spf_calculate`: a place among the
candidates, the mark of the tree, or not explored. -/
namespace Frr.Spf

open PriorityQueue List

section

variable {area : Area} {s s' : State} {k x : LsaKey} {item : Item} {log : List LsaKey}

/-- What a turn of `ospf_spf_next` enqueues: the LSA is there, not too old, links back, was not
explored, and a next hop is found. -/
def enqueued (area : Area) (k : LsaKey) (s : State) (item : Item) : Option LsaKey :=
  (target area item).bind fun w =>
    if w.isMaxAge area.now ∨ w.data.hasLink (s.vertex k).lsa = none ∨ s.stat w.key ≠ notExplored ∨
      nexthops area s k w.data item = [] then none
    else some w.key

theorem Kept.unexplored_iff (hk : Kept area s) : s.stat x = notExplored ↔ ¬ s.Known x :=
  ⟨hk.unexplored,(hk.known_or x).resolve_right⟩

theorem enqueued_iff_offers (hk : Kept area s) : enqueued area k s item = some x ↔
    ∃ w, OffersWith (·.isMaxAge area.now) area s k item w ∧ w.key = x ∧ ¬ s.Known x := by
  simp only [enqueued,Option.bind_eq_some_iff,Option.ite_none_left_eq_some,not_or,not_not]
  constructor
  · rintro ⟨w,hf,⟨hfr,back,new,hops⟩,key⟩
    obtain rfl := Option.some.inj key
    exact ⟨w,⟨hf,Bool.eq_false_iff.mpr hfr,back,hops⟩,rfl,hk.unexplored new⟩
  · rintro ⟨w,ho,rfl,new⟩
    exact ⟨w,ho.found,⟨Bool.eq_false_iff.mp ho.fresh,ho.back,
      hk.unexplored_iff.mpr new,ho.hops⟩,rfl⟩

/-- A turn enqueues exactly what becomes known by it. -/
theorem enqueued_iff (hk : Kept area s) (mem : k ∈ s.tree)
    (ha : examine area k s item = some s') :
    enqueued area k s item = some x ↔ s'.Known x ∧ ¬ s.Known x := by
  rw [enqueued_iff_offers hk]
  have turn := examine_turn hk mem item
  rw [ha] at turn
  cases turn with
  | idle none =>
    refine ⟨?_,fun h => absurd h.1 h.2⟩
    rintro ⟨w,ho,rfl,new⟩
    exact absurd (.inl (none w ho)) new
  | farther w ho hq hw =>
    refine ⟨?_,fun h => absurd h.1 h.2⟩
    rintro ⟨v,hot,rfl,new⟩
    obtain rfl := Option.some.inj (hot.found.symm.trans ho.found)
    exact absurd (.inr hq) new
  | linked w ha h =>
    rw [h.known x]
    constructor
    · rintro ⟨v,hot,rfl,new⟩
      obtain rfl := Option.some.inj (hot.found.symm.trans h.offers.found)
      exact ⟨.inl rfl,new⟩
    · rintro ⟨rfl | old,new⟩
      · exact ⟨w,h.offers,rfl,new⟩
      · exact absurd old new

/-- The states of the main loop: the vertex whose links are examined, those that are left, and what
was enqueued so far. -/
inductive Reached (area : Area) : LsaKey → List Item → List LsaKey → State → Prop
  | start : Reached area area.root (items area.routerLsaSelf.data) []
      (markTransit (initial area) area.root)
  | turn {k : LsaKey} {item : Item} {left : List Item} {log : List LsaKey} {s s' : State}
      (h : Reached area k (item :: left) log s) (after : examine area k s item = some s') :
      Reached area k left (log ++ (enqueued area k s item).toList) s'
  | next {k : LsaKey} {log : List LsaKey} {s : State} (h : Reached area k [] log s)
      (some : 0 < s.candidate.size) :
      Reached area (extract s).1 (items ((extract s).2.vertex (extract s).1).lsa) log
        (markTransit (extract s).2 (extract s).1)

/-- All but the root were enqueued to become known, each once. -/
structure Logged (area : Area) (k : LsaKey) (log : List LsaKey) (s : State) : Prop where
  kept : Kept area s
  member : k ∈ s.tree
  once : log.Nodup
  all : ∀ x, x ∈ log ↔ s.Known x ∧ x ≠ area.root

theorem Logged.turn (h : Logged area k log s) (ha : examine area k s item = some s') :
    Logged area k (log ++ (enqueued area k s item).toList) s' := by
  obtain ⟨hke,ho⟩ := examine_keeps h.kept h.member ha
  have new := fun x => @enqueued_iff area s s' k x item h.kept h.member ha
  refine ⟨hke,ho.tree ▸ h.member,?_,fun x => ?_⟩
  · have hs : (enqueued area k s item).toList.Nodup := by cases enqueued area k s item <;> simp
    refine h.once.append hs fun x old mem => ?_
    exact ((new x).mp (Option.mem_toList.mp mem)).2 ((h.all x).mp old).1
  · rw [mem_append,h.all,Option.mem_toList,new]
    have root : s.Known area.root := .inl h.kept.origin.1
    have hst := fun old => (ho.closer x old).1
    constructor
    · rintro (⟨old,ne⟩ | ⟨hk,new⟩)
      · exact ⟨hst old,ne⟩
      · exact ⟨hk,fun eq => new (eq ▸ root)⟩
    · rintro ⟨hk,ne⟩
      by_cases old : s.Known x
      · exact .inl ⟨old,ne⟩
      · exact .inr ⟨hk,old⟩

theorem Logged.next (h : Logged area k log s) (some : 0 < s.candidate.size) :
    Logged area (extract s).1 log (markTransit (extract s).2 (extract s).1) := by
  have hm := markTransit_alike (extract s).2 (extract s).1
  refine ⟨hm.kept (extract_kept h.kept some),hm.tree.symm ▸ extract_member s,h.once,fun x => ?_⟩
  rw [h.all,hm.known,extract_eq,(addToParents_alike _ _).known,taken_known h.kept some]

theorem Reached.logged {left : List Item} (h : Reached area k left log s) : Logged area k log s := by
  induction h with
  | start =>
    have hm := markTransit_alike (initial area) area.root
    have hk := hm.kept (initial_kept area)
    refine ⟨hk,hk.origin.1,nodup_nil,fun x => ⟨nofun,fun h => absurd ?_ h.2⟩⟩
    rcases (hm.known x).mp h.1 with mem | ⟨i,hi,-⟩
    · exact mem_singleton.mp mem
    · exact absurd hi (Nat.not_lt_zero i)
  | turn _ ha ih => exact ih.turn ha
  | next _ some ih => exact ih.next some

/-- What `ospf_spf_next` ends in was reached turn by turn. -/
theorem Reached.spfNext (h : Reached area k (items (s.vertex k).lsa) log (markTransit s k))
    (ha : spfNext area s k = some s') : ∃ log', Reached area k [] log' s' := by
  suffices ∀ left log t, Reached area k left log t → left.foldlM (examine area k) t = some s' →
      ∃ log', Reached area k [] log' s' from this _ _ _ h ha
  intro left
  induction left with
  | nil =>
    intro log t h he
    obtain rfl := Option.some.inj he
    exact ⟨log,h⟩
  | cons item left ih =>
    intro log t h rest
    obtain ⟨t',turn,rest⟩ := Option.bind_eq_some_iff.mp rest
    exact ih _ _ (h.turn turn) rest

end

/-- The loop is in a reached state whenever it is looked at. -/
theorem spfCalculate_reached (area : Area) (fuel : Nat) (s : State)
    (ha : spfCalculate area fuel = .finished s) : ∃ k log, Reached area k [] log s := by
  obtain ⟨k,⟨log,h⟩,-⟩ := loop_invariant
    (R := fun k s => ∃ log, Reached area k (items (s.vertex k).lsa) log (markTransit s k))
    (D := fun k s => ∃ log, Reached area k [] log s)
    (fun _ _ _ ⟨_,h⟩ turn => h.spfNext turn) (fun _ _ ⟨log,h⟩ some => ⟨log,h.next some⟩)
    fuel ⟨[],.start⟩ ha
  exact ⟨k,log,h⟩

theorem stat_exact (area : Area) (k : LsaKey) (left : List Item) (log : List LsaKey) (s : State)
    (h : Reached area k left log s) :
    (∀ x, 0 ≤ s.stat x ↔ ∃ i < s.candidate.size, s.stat x = i ∧ s.candidate.array i = x) ∧
      (∀ x, s.stat x = inSpfTree ↔ x ∈ s.tree) ∧
      (∀ item x, enqueued area k s item = some x → s.stat x ≠ inSpfTree ∧ x ∉ log) ∧
      log.Nodup ∧ s.tree.Nodup ∧ s.tree.length ≤ area.lsdb.length ∧
      ∀ fuel, area.lsdb.length ≤ fuel → ∀ t, spfCalculate area fuel ≠ .running t := by
  obtain ⟨hk,hm,ho,all⟩ := h.logged
  refine ⟨fun x => ⟨fun hn => ?_,?_⟩,hk.joined,fun item x new => ?_,ho,hk.nodup,
    hk.length_le,fun fuel he t => spfCalculate_stops area he t⟩
  · obtain ⟨i,hi,rfl⟩ := hk.queued x hn
    exact ⟨i,hi,hk.indexed i hi,rfl⟩
  · rintro ⟨i,-,stat,-⟩
    rw [stat]
    exact Int.natCast_nonneg i
  · obtain ⟨-,-,-,unknown⟩ := (enqueued_iff_offers hk).mp new
    exact ⟨fun mark => unknown (.inl ((hk.joined x).mp mark)),
      fun old => unknown ((all x).mp old).1⟩

theorem chain_stat_exact : ∃ k log s, Reached (Chain.area 2 (by decide) (by decide)) k [] log s ∧
    s.tree.length ≤ 2 := by
  obtain ⟨s,hf⟩ := Chain.finishes 2 (by decide) (by decide) (by decide)
  obtain ⟨k,log,h⟩ := spfCalculate_reached _ _ s hf
  exact ⟨k,log,s,h,(stat_exact _ k [] log s h).2.2.2.2.2.1⟩

end Frr.Spf
