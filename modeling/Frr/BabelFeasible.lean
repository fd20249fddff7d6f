import Frr.Babel

/-! Feasibility of the installed routes of babeld, over all runs. -/
namespace Frr.Babel

open List Option Trace Table

section

variable {now later : Int} {src : Source} {seqno refmetric : UInt16} {metric : Nat}

theorem updateFeasible_some :
    updateFeasible now (some src) seqno refmetric ↔
      src.expired now ∨ infinity ≤ refmetric.toNat ∨ src.Better seqno refmetric := by
  unfold updateFeasible
  by_cases he : src.expired now
  · simp [he]
  · by_cases hr : infinity ≤ refmetric.toNat <;> simp [he,hr]

theorem updateFeasible_later {source : Option Source} (le : now ≤ later)
    (hf : updateFeasible now source seqno refmetric) :
    updateFeasible later source seqno refmetric := by
  cases source with
  | none => rfl
  | some src =>
    rw [updateFeasible_some] at hf ⊢
    refine hf.imp_left fun he => ?_
    unfold Source.expired at he ⊢
    omega

theorem updateSource_feasible (hw : refmetric.toNat < metric ∨ infinity ≤ metric)
    (hf : updateFeasible now (some src) seqno refmetric) :
    updateFeasible now (some (updateSource now src seqno metric)) seqno refmetric := by
  unfold updateSource
  split
  · exact hf
  next finite =>
  have hl := hw.resolve_right finite
  rw [updateFeasible_some] at hf ⊢
  right
  right
  split
  · refine .inr ⟨rfl,?_⟩
    have hb : metric < 65536 := by
      unfold infinity at finite
      omega
    rw [UInt16.lt_iff_toNat_lt]
    simpa [Nat.mod_eq_of_lt hb] using hl
  · next kept =>
    push Not at kept
    have hr : ¬infinity ≤ refmetric.toNat := by omega
    exact (hf.resolve_left (by simpa using kept.1)).resolve_left hr

theorem updateSource_routeCount :
    (updateSource now src seqno metric).routeCount = src.routeCount := by
  unfold updateSource
  split
  · rfl
  · split <;> rfl

theorem routeMetric_worse {r : Route} (pos : 0 < r.cost.toNat+r.addMetric.toNat) :
    r.refmetric.toNat < routeMetric r ∨ infinity ≤ routeMetric r := by
  unfold routeMetric
  omega

theorem routeMetricNoninterfering_worse (c : Config) (r : Route) :
    r.refmetric.toNat < routeMetricNoninterfering c r ∨
      infinity ≤ routeMetricNoninterfering c r := by
  unfold routeMetricNoninterfering
  dsimp only
  omega

theorem seqnoPlus_feasible (src : Source) : src.Better (seqnoPlus src.seqno 1) refmetric := by
  left
  unfold seqnoCompare seqnoPlus
  have ho : src.seqno + 1 ≠ src.seqno := by
    intro eq
    simp at eq
  have negative : src.seqno - (src.seqno+1) = 0xffff := by grind
  rw [if_neg ho,negative]
  decide

theorem expireSource_some {kept : Source} (res : expireSource now src = some kept) :
    kept.routeCount = src.routeCount ∧
      ∀ seqno refmetric, updateFeasible now (some src) seqno refmetric →
        updateFeasible now (some kept) seqno refmetric := by
  simp only [expireSource] at res
  by_cases ahead : now < src.time
  · rw [if_pos ahead] at res
    split at res
    · cases res
    cases res
    refine ⟨rfl,fun _ _ hf => ?_⟩
    rw [updateFeasible_some] at hf ⊢
    have hfr : ¬src.expired now := by
      unfold Source.expired sourceGcTime
      omega
    exact .inr (hf.resolve_left hfr)
  · rw [if_neg ahead] at res
    split at res
    · cases res
    cases res
    exact ⟨rfl,fun _ _ => id⟩

theorem expireSource_used (hu : 0 < src.routeCount) : (expireSource now src).isSome := by
  simp only [expireSource]
  by_cases ahead : now < src.time
  · rw [if_pos ahead,if_neg fun hs => hs.2 hu]
    rfl
  rw [if_neg ahead,if_neg fun hs => hs.2 hu]
  rfl

end

section

/-- For the routes and sources of one destination. `extra` counts the references that a function in
progress has still to release. -/
structure Core (now : Int) (routes : List Route) (sources : RouterId → Option Source)
    (extra : RouterId → Nat) : Prop where
  distinct : (routes.map Route.via).Nodup
  held : ∀ r ∈ routes, (sources r.src).isSome
  counted : ∀ id src, sources id = some src →
    src.routeCount = routes.countP (·.src = id) + extra id
  feasible : ∀ r ∈ routes, r.installed = true →
    updateFeasible now (sources r.src) r.seqno r.refmetric = true
  positive : ∀ r ∈ routes, 0 < r.cost.toNat+r.addMetric.toNat

def First (routes : List Route) : Prop := ∀ r ∈ routes.tail, r.installed = false

variable {now : Int} {routes : List Route} {sources : RouterId → Option Source}
  {extra : RouterId → Nat} {via : Via} {f : Route → Route} {r route : Route}

def assigned (via : Via) (f : Route → Route) (routes : List Route) : List Route :=
  routes.map fun r => if r.via = via then f r else r

theorem mem_assigned :
    r ∈ assigned via f routes ↔
      (∃ old ∈ routes, old.via = via ∧ f old = r) ∨ r ∈ routes ∧ r.via ≠ via := by
  unfold assigned
  rw [List.mem_map]
  constructor
  · rintro ⟨old,mem,rfl⟩
    by_cases hh : old.via = via
    · rw [if_pos hh]
      exact .inl ⟨old,mem,hh,rfl⟩
    rw [if_neg hh]
    exact .inr ⟨mem,hh⟩
  · rintro (⟨old,mem,hh,rfl⟩ | ⟨mem,elsewhere⟩)
    · exact ⟨old,mem,if_pos hh⟩
    · exact ⟨r,mem,if_neg elsewhere⟩

theorem map_via_assigned (hk : ∀ r ∈ routes, r.via = via → (f r).via = via) :
    (assigned via f routes).map Route.via = routes.map Route.via := by
  unfold assigned
  rw [List.map_map]
  refine map_congr_left fun r mem => ?_
  by_cases hh : r.via = via
  · simp [hh,hk r mem hh]
  · simp [hh]

theorem countP_assigned (distinct : (routes.map Route.via).Nodup) (mem : r ∈ routes)
    (hh : r.via = via) (id : RouterId) :
    (assigned via f routes).countP (·.src = id) + (if r.src = id then 1 else 0) =
      routes.countP (·.src = id) + (if (f r).src = id then 1 else 0) := by
  induction routes with
  | nil => cases mem
  | cons head rest ih =>
    rw [map_cons,nodup_cons] at distinct
    simp only [assigned,map_cons,countP_cons,decide_eq_true_eq]
    rcases mem_cons.mp mem with rfl | mem
    · -- No other route has the same next hop.
      have rest_same : (rest.map fun r => if r.via = via then f r else r) = rest := by
        refine (map_congr_left fun ho hi => if_neg fun eq => ?_).trans (map_id _)
        exact distinct.1 (hh ▸ eq ▸ mem_map_of_mem hi)
      rw [rest_same,if_pos hh]
      omega
    · have he : head.via ≠ via := fun eq =>
        distinct.1 (eq ▸ hh ▸ mem_map_of_mem mem)
      have later := ih distinct.2 mem
      simp only [assigned] at later
      rw [if_neg he]
      omega

theorem First.all (fst : First routes) (head : ∀ r ∈ routes.head?, r.installed = false) :
    ∀ r ∈ routes, r.installed = false := by
  intro r mem
  cases routes with
  | nil => cases mem
  | cons h rest =>
    rcases mem_cons.mp mem with rfl | mem
    · exact head _ rfl
    · exact fst r mem

theorem First.only (fst : First routes) (mem : route ∈ routes)
    (hi : route.installed) (ho : r ∈ routes) (also : r.installed) :
    r = route := by
  cases routes with
  | nil => cases mem
  | cons h rest =>
    rcases mem_cons.mp mem with rfl | mem
    · rcases mem_cons.mp ho with rfl | ho
      · rfl
      · exact absurd (fst r ho) (by simp [also])
    · exact absurd (fst route mem) (by simp [hi])

theorem First.assigned (fst : First routes)
    (off : ∀ r ∈ routes, r.via = via → (f r).installed → r.installed) :
    First (assigned via f routes) := by
  intro r mem
  unfold Babel.assigned at mem
  rw [← map_tail,List.mem_map] at mem
  obtain ⟨old,mem,rfl⟩ := mem
  have hb := fst old mem
  by_cases hh : old.via = via
  · rw [if_pos hh]
    have hi := mem_of_mem_tail mem
    by_contra on
    simp [off old hi hh (by simpa using on)] at hb
  · rwa [if_neg hh]

theorem perm_move (hfo : routes.find? (·.via = via) = some route) :
    routes.Perm (route :: routes.eraseP (·.via = via)) := by
  obtain ⟨hh,hb,ha,rfl,others⟩ := find?_eq_some_iff_append.mp hfo
  rw [eraseP_append_right _ (by simpa using others),eraseP_cons,hh]
  exact perm_middle

section

variable (distinct : (routes.map Route.via).Nodup) (hfo : routes.find? (·.via = via) = some route)

include distinct hfo

theorem via_of_mem_eraseP (mem : r ∈ routes.eraseP (·.via = via)) : r.via ≠ via := by
  have nodup := ((perm_move hfo).map Route.via).nodup_iff.mp distinct
  have hh : route.via = via := by simpa using find?_some hfo
  rw [map_cons,nodup_cons,hh] at nodup
  rintro rfl
  exact nodup.1 (mem_map_of_mem mem)

theorem eq_of_find (mem : r ∈ routes) (hh : r.via = via) : r = route := by
  rcases mem_cons.mp ((perm_move hfo).mem_iff.mp mem) with rfl | hi
  · rfl
  · exact absurd hh (via_of_mem_eraseP distinct hfo hi)

end

def owed (id k : RouterId) : Nat := if k = id then 1 else 0

theorem feasible_recounted (id : RouterId) {k : RouterId} {seqno refmetric : UInt16} (count : Nat → Nat) :
    updateFeasible now (Function.update sources id ((sources id).map
      fun src => {src with routeCount := count src.routeCount}) k) seqno refmetric =
        updateFeasible now (sources k) seqno refmetric := by
  by_cases hh : k = id
  · subst hh
    rw [Function.update_self]
    cases sources k <;> rfl
  · rw [Function.update_of_ne hh]

namespace Core

section

variable (core : Core now routes sources extra)

include core

theorem perm {routes' : List Route}
    (perm : routes.Perm routes') : Core now routes' sources extra where
  distinct := (perm.map Route.via).nodup_iff.mp core.distinct
  held r hm := core.held r (perm.mem_iff.mpr hm)
  counted id src hk := by rw [← perm.countP_eq]; exact core.counted id src hk
  feasible r hm := core.feasible r (perm.mem_iff.mpr hm)
  positive r hm := core.positive r (perm.mem_iff.mpr hm)

theorem assigned (hk : ∀ r ∈ routes, r.via = via → (f r).via = via ∧ (f r).src = r.src)
    (hf : ∀ r ∈ routes, r.via = via → (f r).installed →
      updateFeasible now (sources r.src) (f r).seqno (f r).refmetric)
    (pos : ∀ r ∈ routes, r.via = via → 0 < (f r).cost.toNat + (f r).addMetric.toNat) :
    Core now (assigned via f routes) sources extra where
  distinct := by
    rw [map_via_assigned fun r hm hh => (hk r hm hh).1]
    exact core.distinct
  held r hm := by
    obtain ⟨old,hi,hh,rfl⟩ | ⟨hi,-⟩ := mem_assigned.mp hm
    · rw [(hk old hi hh).2]
      exact core.held old hi
    · exact core.held r hi
  counted id src hkn := by
    rw [core.counted id src hkn,Babel.assigned,countP_map]
    refine congrArg (· + extra id) (countP_congr fun r hm => ?_)
    by_cases hh : r.via = via
    · simp [hh,(hk r hm hh).2]
    · simp [hh]
  feasible r hm hin := by
    obtain ⟨old,hi,hh,rfl⟩ | ⟨hi,-⟩ := mem_assigned.mp hm
    · rw [(hk old hi hh).2]
      exact hf old hi hh hin
    · exact core.feasible r hi hin
  positive r hm := by
    obtain ⟨old,hi,hh,rfl⟩ | ⟨hi,-⟩ := mem_assigned.mp hm
    · exact pos old hi hh
    · exact core.positive r hi

theorem recount {id : RouterId} {g : Source → Source} {extra' : RouterId → Nat}
    (count : ∀ src ∈ sources id, (g src).routeCount + extra id = src.routeCount + extra' id)
    (others : ∀ k ≠ id, extra' k = extra k)
    (hf : ∀ r ∈ routes, r.installed → r.src = id → ∀ src ∈ sources id,
      updateFeasible now (some (g src)) r.seqno r.refmetric) :
    Core now routes (Function.update sources id ((sources id).map g)) extra' where
  __ := core
  held r hm := by
    have hb := core.held r hm
    by_cases hh : r.src = id
    · subst hh
      simpa using hb
    · rwa [Function.update_of_ne hh]
  counted k src hk := by
    by_cases hh : k = id
    · subst hh
      rw [Function.update_self] at hk
      obtain ⟨old,hb,rfl⟩ := map_eq_some_iff.mp hk
      have hc := core.counted k old hb
      have eq := count old hb
      omega
    · rw [Function.update_of_ne hh] at hk
      rw [others k hh,core.counted k src hk]
  feasible r hm hi := by
    by_cases hh : r.src = id
    · obtain ⟨src,hk⟩ := isSome_iff_exists.mp (core.held r hm)
      rw [hh] at hk ⊢
      rw [Function.update_self,hk]
      exact hf r hm hi hh src hk
    rw [Function.update_of_ne hh]
    exact core.feasible r hm hi

theorem later {after : Int} (le : now ≤ after) : Core after routes sources extra :=
  {core with feasible := fun r mem hi =>
      updateFeasible_later le (core.feasible r mem hi)}

theorem expire : Core now routes (fun id => (sources id).bind (expireSource now)) extra where
  __ := core
  held r hm := by
    obtain ⟨src,hk⟩ := isSome_iff_exists.mp (core.held r hm)
    have hu : 0 < routes.countP (·.src = r.src) := countP_pos_iff.mpr ⟨r,hm,by simp⟩
    have count := core.counted _ src hk
    simp only [hk,bind_some]
    exact expireSource_used (by omega)
  counted id src hk := by
    obtain ⟨old,hb,hke⟩ := bind_eq_some_iff.mp hk
    rw [(expireSource_some hke).1]
    exact core.counted id old hb
  feasible r hm hi := by
    have hb := core.feasible r hm hi
    obtain ⟨src,hk⟩ := isSome_iff_exists.mp (core.held r hm)
    simp only [hk,bind_some] at hb ⊢
    cases res : expireSource now src with
    | none => rfl
    | some hke => exact (expireSource_some res).2 _ _ hb

end

section

variable {id : RouterId}

theorem create {src : Source} (core : Core now routes sources fun _ => 0)
    (none : sources id = none) (hf : src.routeCount = 0) :
    Core now routes (Function.update sources id (some src)) fun _ => 0 := by
  have he : ∀ r ∈ routes, r.src ≠ id := fun r mem hh => by
    simpa [hh,none] using core.held r mem
  refine {core with held := fun r mem => ?_, counted := fun k hk => ?_, feasible := ?_}
  · rw [Function.update_of_ne (he r mem)]
    exact core.held r mem
  · by_cases hh : k = id
    · subst hh
      rw [Function.update_self]
      rintro ⟨⟩
      rw [hf,eq_comm,Nat.add_zero,countP_eq_zero]
      exact fun r mem => by simpa using he r mem
    · rw [Function.update_of_ne hh]
      exact core.counted k hk
  · intro r mem
    rw [Function.update_of_ne (he r mem)]
    exact core.feasible r mem

theorem recounted_feasible (core : Core now routes sources extra) (mem : r ∈ routes)
    (hi : r.installed) (hh : r.src = id) {src : Source} (hk : src ∈ sources id)
    {count : Nat} :
    updateFeasible now (some {src with routeCount := count}) r.seqno r.refmetric := by
  have hf := core.feasible r mem hi
  rwa [hh,mem_def.mp hk] at hf

theorem retain (core : Core now routes sources fun _ => 0) :
    Core now routes (Function.update sources id
      ((sources id).map fun src => {src with routeCount := src.routeCount + 1})) (owed id) :=
  core.recount (fun _ _ => by simp [owed]) (fun _ ho => if_neg ho)
    fun _ mem hi hh _ hk => core.recounted_feasible mem hi hh hk

theorem release (core : Core now routes sources (owed id)) :
    Core now routes (Function.update sources id
      ((sources id).map fun src => {src with routeCount := src.routeCount - 1})) fun _ => 0 := by
  refine core.recount (fun src hk => ?_) (fun _ ho => (if_neg ho).symm)
    fun _ mem hi hh _ hk => core.recounted_feasible mem hi hh hk
  have hc := core.counted id src hk
  simp only [owed,if_true] at hc ⊢
  omega

theorem reassign (core : Core now routes sources (owed id))
    (hkn : (sources id).isSome) (hfo : routes.find? (·.via = via) = some r)
    (hk : (f r).via = via ∧ (f r).src = id)
    (hf : (f r).installed →
      updateFeasible now (sources id) (f r).seqno (f r).refmetric)
    (pos : 0 < (f r).cost.toNat + (f r).addMetric.toNat) :
    Core now (Babel.assigned via f routes) sources (owed r.src) := by
  have hme := mem_of_find?_eq_some hfo
  have hh : r.via = via := by simpa using find?_some hfo
  have eq : ∀ old ∈ routes, old.via = via → old = r := fun old => eq_of_find core.distinct hfo
  constructor
  case distinct =>
    rw [map_via_assigned fun old hi at_via => eq old hi at_via ▸ hk.1]
    exact core.distinct
  case held =>
    intro r' hc
    obtain ⟨old,hi,at_via,rfl⟩ | ⟨hi,-⟩ := mem_assigned.mp hc
    · rw [eq old hi at_via,hk.2]
      exact hkn
    · exact core.held r' hi
  case counted =>
    intro k src hs
    have hb := core.counted k src hs
    have hm := countP_assigned (f := f) core.distinct hme hh k
    rw [hk.2] at hm
    simp only [owed,eq_comm] at hb hm ⊢
    omega
  case feasible =>
    intro r' hc hin
    obtain ⟨old,hi,at_via,rfl⟩ | ⟨hi,-⟩ := mem_assigned.mp hc
    · rw [eq old hi at_via] at hin ⊢
      rw [hk.2]
      exact hf hin
    · exact core.feasible r' hi hin
  case positive =>
    intro r' hc
    obtain ⟨old,hi,at_via,rfl⟩ | ⟨hi,-⟩ := mem_assigned.mp hc
    · rw [eq old hi at_via]
      exact pos
    · exact core.positive r' hi

end

theorem insert (core : Core now routes sources (owed r.src)) (hk : (sources r.src).isSome)
    (new : routes.find? (·.via = r.via) = none) (hi : r.installed = false)
    (pos : 0 < r.cost.toNat+r.addMetric.toNat) :
    Core now (routes ++ [r]) sources fun _ => 0 where
  distinct := by
    rw [map_append,map_singleton,nodup_append]
    refine ⟨core.distinct,nodup_singleton _,fun via hm ho hs => ?_⟩
    rw [mem_singleton] at hs
    subst hs
    obtain ⟨old,hin,rfl⟩ := mem_map.mp hm
    simpa using find?_eq_none.mp new old hin
  held r' hm := by
    rcases mem_append.mp hm with hm | hm
    · exact core.held r' hm
    rw [mem_singleton.mp hm]
    exact hk
  counted k src hst := by
    rw [core.counted k src hst,countP_append]
    simp [owed,eq_comm]
  feasible r' hm on := by
    rcases mem_append.mp hm with hm | hm
    · exact core.feasible r' hm on
    rw [mem_singleton.mp hm,hi] at on
    cases on
  positive r' hm := by
    rcases mem_append.mp hm with hm | hm
    · exact core.positive r' hm
    rw [mem_singleton.mp hm]
    exact pos

theorem remove (core : Core now routes sources fun _ => 0)
    (hfo : routes.find? (·.via = via) = some r) :
    Core now (routes.eraseP (·.via = via)) sources (owed r.src) := by
  have hm := core.perm (perm_move hfo)
  constructor
  case distinct => exact (nodup_cons.mp hm.distinct).2
  case held => exact fun r' mem => hm.held r' (.tail _ mem)
  case feasible => exact fun r' mem => hm.feasible r' (.tail _ mem)
  case positive => exact fun r' mem => hm.positive r' (.tail _ mem)
  case counted =>
    intro k src hs
    rw [hm.counted k src hs,countP_cons]
    simp [owed,eq_comm]

end Core

end

namespace Table

structure Sound (extra : Destination → RouterId → Nat) (t : Table) : Prop where
  core : ∀ d, Core t.now (t.routes d) (t.sources d) (extra d)
  first : ∀ d, First (t.routes d)

section

variable {c : Config} {env : Env} {t : Table} {d : Destination} {via : Via} {route : Route}
  {extra extra' : Destination → RouterId → Nat}

theorem Sound.setRoutes {routes : List Route} (sound : t.Sound extra)
    (eq : ∀ ho ≠ d, extra' ho = extra ho)
    (core : Core t.now routes (t.sources d) (extra' d)) (fst : First routes) :
    (t.setRoutes d routes).Sound extra' := by
  constructor
  · intro ho
    by_cases hh : ho = d
    · subst hh
      simpa [Table.setRoutes] using core
    · simpa [Table.setRoutes,hh,eq ho hh] using sound.core ho
  · intro ho
    by_cases hh : ho = d
    · subst hh
      simpa [Table.setRoutes] using fst
    · simpa [Table.setRoutes,hh] using sound.first ho

theorem Sound.setSource {id : RouterId} {src : Option Source} (sound : t.Sound extra)
    (eq : ∀ ho ≠ d, extra' ho = extra ho)
    (core : Core t.now (t.routes d) (Function.update (t.sources d) id src) (extra' d)) :
    (t.setSource d id src).Sound extra' := by
  refine ⟨fun ho => ?_,sound.first⟩
  by_cases hh : ho = d
  · subst hh
    simpa [Table.setSource] using core
  · simpa [Table.setSource,hh,eq ho hh] using sound.core ho

theorem Sound.kernelRoute (sound : t.Sound extra) : t.kernelRoute.2.Sound extra :=
  ⟨sound.core,sound.first⟩

theorem mem_of_findRoute (hfo : t.findRoute d via = some route) :
    route ∈ t.routes d ∧ route.via = via :=
  ⟨mem_of_find?_eq_some hfo,by simpa using find?_some hfo⟩

theorem Sound.unique (sound : t.Sound extra) (hfo : t.findRoute d via = some route) {r : Route}
    (mem : r ∈ t.routes d) (hh : r.via = via) : r = route :=
  eq_of_find (sound.core d).distinct hfo mem hh

theorem findRoute_modify (f : Route → Route) (hk : ∀ r, (f r).via = r.via) :
    (t.modify d via f).findRoute d via = (t.findRoute d via).map f := by
  have tested : (fun r : Route => decide ((if r.via = via then f r else r).via = via)) =
      fun r => decide (r.via = via) := by
    funext r
    split <;> simp [hk]
  simp only [findRoute,modify,setRoutes,Function.update_self,find?_map,Function.comp_def,tested]
  cases hfo : (t.routes d).find? (·.via = via) with
  | none => rfl
  | some r =>
    have hh : r.via = via := by simpa using find?_some hfo
    simp [hh]

theorem findRoute_modify_of_ne {f : Route → Route} {other : Via} (hk : ∀ r, (f r).via = r.via)
    (he : other ≠ via) : (t.modify d via f).findRoute d other = t.findRoute d other := by
  have tested : (fun r : Route => decide ((if r.via = via then f r else r).via = other)) =
      fun r => decide (r.via = other) := by
    funext r
    split <;> simp [hk]
  simp only [findRoute,modify,setRoutes,Function.update_self,find?_map,Function.comp_def,tested]
  cases hfo : (t.routes d).find? (·.via = other) with
  | none => rfl
  | some r =>
    have hh : r.via = other := by simpa using find?_some hfo
    simp [hh,he]

theorem Sound.modify {f : Route → Route} (sound : t.Sound extra)
    (hk : ∀ r, (f r).via = r.via ∧ (f r).src = r.src)
    (off : ∀ r, (f r).installed → r.installed)
    (hf : ∀ r ∈ t.routes d, r.via = via → (f r).installed →
      updateFeasible t.now (t.sources d r.src) (f r).seqno (f r).refmetric)
    (pos : ∀ r ∈ t.routes d, r.via = via → 0 < (f r).cost.toNat + (f r).addMetric.toNat) :
    (t.modify d via f).Sound extra :=
  sound.setRoutes (fun _ _ => rfl) ((sound.core d).assigned (fun r _ hh => hh ▸ hk r) hf pos)
    ((sound.first d).assigned fun r _ _ => off r)

theorem routes_modify (t : Table) (d : Destination) (via : Via) (f : Route → Route) :
    (t.modify d via f).routes d = assigned via f (t.routes d) := by
  simp [modify,setRoutes,assigned]

theorem setRoutes_setRoutes (t : Table) (d : Destination) (fst snd : List Route) :
    (t.setRoutes d fst).setRoutes d snd = t.setRoutes d snd := by
  simp [setRoutes]

section

variable (sound : t.Sound extra)

include sound

theorem Sound.promote (free : ∀ r ∈ t.routes d, r.installed = false)
    (hfo : t.findRoute d via = some route) (hf : t.routeFeasible d route) :
    ((t.modify d via ({· with installed := true})).moveInstalledRoute d via).Sound extra := by
  have core : Core t.now (assigned via ({· with installed := true}) (t.routes d)) (t.sources d)
      (extra d) :=
    (sound.core d).assigned (fun r _ hh => ⟨hh,rfl⟩)
      (fun r hin hh _ => sound.unique hfo hin hh ▸ hf)
      (fun r hin _ => (sound.core d).positive r hin)
  have hm : (t.modify d via ({· with installed := true})).findRoute d via =
      some {route with installed := true} := by
    refine (findRoute_modify ({· with installed := true}) fun _ => rfl).trans ?_
    rw [hfo]
    rfl
  unfold moveInstalledRoute
  simp only [hm]
  rw [findRoute,routes_modify] at hm
  rw [routes_modify,Table.modify,setRoutes_setRoutes]
  refine sound.setRoutes (fun _ _ => rfl) (core.perm (perm_move hm)) fun r hin => ?_
  have he := via_of_mem_eraseP core.distinct hm hin
  obtain ⟨old,-,hh,rfl⟩ | ⟨old,-⟩ := mem_assigned.mp (mem_of_mem_eraseP hin)
  · exact absurd hh he
  · exact free r old

theorem Sound.installRoute
    (hf : ∀ route ∈ t.findRoute d via, t.routeFeasible d route) :
    (t.installRoute d via).Sound extra := by
  unfold Table.installRoute
  split
  · exact sound
  next r hfo =>
  split
  · exact sound
  next off =>
  split
  · exact sound
  next free =>
  split
  next accepted t' answer =>
  have ha : t' = t.kernelRoute.2 := by rw [answer]
  subst ha
  split
  · refine sound.kernelRoute.promote ((sound.first d).all fun head fst => ?_) hfo (hf r hfo)
    -- The head is not installed, or it is the route itself.
    by_contra on
    rw [mem_def] at fst
    have on : head.installed := by simpa using on
    by_cases hh : head.via = via
    · have eq := sound.unique hfo (mem_of_mem_head? fst) hh
      exact off (eq ▸ on)
    · exact free (by simp [fst,hh,on])
  · exact sound.kernelRoute

theorem Sound.turnOff : (t.modify d via ({· with installed := false})).Sound extra :=
  sound.modify (fun _ => ⟨rfl,rfl⟩) (fun _ on => nomatch on) (fun _ _ _ on => nomatch on)
    (fun r hi _ => (sound.core d).positive r hi)

theorem Sound.uninstallRoute : (t.uninstallRoute d via).Sound extra := by
  unfold Table.uninstallRoute
  split
  · exact sound
  split
  · exact sound.kernelRoute.turnOff
  · exact sound

theorem Sound.switchRoutes {old : Option Via} {new : Via}
    (hfo : t.findRoute d new = some route) (off : route.installed = false)
    (hf : t.routeFeasible d route) : (t.switchRoutes d old new).Sound extra := by
  unfold Table.switchRoutes
  split
  · exact sound.installRoute fun r mem => by
      rw [mem_def,hfo] at mem
      cases mem
      exact hf
  next old =>
  split
  · next on =>
    split
    next accepted t' answer =>
    have ha : t' = t.kernelRoute.2 := by rw [answer]
    subst ha
    split
    · obtain ⟨oldRoute,hk,on⟩ := (any_eq_true _ _).mp on
      obtain ⟨hi,hh⟩ := mem_of_findRoute hk
      have he : new ≠ old := by
        rintro rfl
        rw [hk] at hfo
        cases hfo
        rw [off] at on
        cases on
      refine sound.kernelRoute.turnOff.promote (fun r mem => ?_)
        ((findRoute_modify_of_ne (by exact fun _ => rfl) he).trans hfo) hf
      -- The old route was the only one.
      rw [routes_modify] at mem
      obtain ⟨r,-,-,rfl⟩ | ⟨mem,ho⟩ := mem_assigned.mp mem
      · rfl
      by_contra also
      refine ho ?_
      rw [(sound.first d).only hi on mem (by simpa using also)]
      exact hh
    · exact sound.kernelRoute
  · exact sound

theorem Sound.changeRouteMetric {refmetric cost add : UInt16}
    (hf : ∀ r ∈ t.routes d, r.via = via → r.installed →
      updateFeasible t.now (t.sources d r.src) r.seqno refmetric)
    (pos : 0 < cost.toNat+add.toNat) :
    (t.changeRouteMetric c d via refmetric cost add).Sound extra := by
  unfold Table.changeRouteMetric
  split
  · exact sound
  next r hfo =>
  have hc : ∀ t' : Table, t'.now = t.now → t'.routes = t.routes → t'.sources = t.sources →
      (t'.modify d via
        ({· with refmetric := refmetric, cost := cost, addMetric := add})).Sound extra := by
    rintro ⟨_,_,_,_,_⟩ rfl rfl rfl
    exact Sound.modify ⟨sound.core,sound.first⟩ (fun _ => ⟨rfl,rfl⟩) (fun _ => id) hf
      (fun _ _ _ => pos)
  by_cases ha : r.installed ∧ metricToKernel c (routeMetric r) ≠
      metricToKernel c (min (refmetric.toNat+cost.toNat+add.toNat) infinity)
  · simp only [if_pos ha]
    split
    · exact hc _ rfl rfl rfl
    · exact sound.kernelRoute
  simp only [if_neg ha]
  exact hc t rfl rfl rfl

theorem Sound.retractRoute : (t.retractRoute c d via).Sound extra := by
  refine sound.changeRouteMetric (fun r mem _ _ => ?_) (by decide)
  obtain ⟨src,hk⟩ := isSome_iff_exists.mp ((sound.core d).held r mem)
  rw [hk,updateFeasible_some]
  exact .inr (.inl (by decide))

end

theorem mem_of_findInstalledRoute (hfo : t.findInstalledRoute d = some route) :
    route ∈ t.routes d ∧ route.installed := by
  obtain ⟨head,on⟩ := filter_eq_some_iff.mp hfo
  exact ⟨mem_of_mem_head? head,on⟩

section

variable (sound : t.Sound extra)

include sound

theorem Sound.advertise (advert : Advert) : (t.advertise c advert).Sound extra := by
  unfold Table.advertise
  split
  · exact sound
  next route hfo =>
  obtain ⟨mem,on⟩ := mem_of_findInstalledRoute hfo
  refine sound.setSource (fun _ _ => rfl) ((sound.core _).recount
    (fun _ _ => congrArg (· + _) updateSource_routeCount) (fun _ _ => rfl) fun r hi also hh src hk => ?_)
  rw [(sound.first _).only mem on hi also]
  have hb := (sound.core _).feasible route mem on
  rw [mem_def.mp hk] at hb
  refine updateSource_feasible ?_ hb
  split
  · exact routeMetric_worse ((sound.core _).positive route mem)
  · exact routeMetricNoninterfering_worse c route

theorem Sound.flushupdates (adverts : List Advert) : (t.flushupdates c adverts).Sound extra := by
  unfold Table.flushupdates
  induction adverts generalizing t with
  | nil => exact sound
  | cons advert rest ih => exact ih (sound.advertise advert)

theorem Sound.sendUpdate : (t.sendUpdate c).Sound extra :=
  Sound.flushupdates (t := {t with flushes := t.flushes.tail}) ⟨sound.core,sound.first⟩ _

theorem Sound.sendTriggeredUpdate : (t.sendTriggeredUpdate c d via).Sound extra := by
  unfold Table.sendTriggeredUpdate
  split
  · exact sound.sendUpdate
  · exact sound

theorem Sound.considerRoute : (t.considerRoute c env d via).Sound extra := by
  unfold Table.considerRoute
  split
  · exact sound
  next route hfo =>
  split
  · exact sound
  next off =>
  split
  · exact sound
  next feasible =>
  have switched (old : Option Via) : (t.switchRoutes d old via).Sound extra :=
    sound.switchRoutes hfo (by simpa using off) (by simpa using feasible)
  split
  · exact sound
  split
  · exact (switched none).sendUpdate
  split
  · exact sound
  split
  · exact (switched _).sendUpdate
  · exact sound

theorem Sound.reconsider : (t.reconsider c env d via).Sound extra := by
  unfold Table.reconsider
  split
  · exact sound
  split
  · split
    · exact sound
    split
    · exact sound.considerRoute
    · exact sound
  · exact sound

theorem Sound.routeChanged : (t.routeChanged c env d via).Sound extra := by
  unfold Table.routeChanged
  dsimp only
  split
  · exact sound.reconsider.sendTriggeredUpdate
  · exact sound.reconsider.considerRoute

theorem Sound.routeLost {oldmetric : Nat} : (t.routeLost c env d oldmetric).Sound extra := by
  unfold Table.routeLost
  split
  · exact sound.considerRoute
  split
  · exact sound.sendUpdate
  · exact sound

end

end

section

variable {c : Config} {env : Env} {t : Table} {d : Destination} {via : Via} {r : Route}

abbrev noneHeld : Destination → RouterId → Nat := fun _ _ => 0

def one (d : Destination) (id : RouterId) : Destination → RouterId → Nat :=
  Function.update noneHeld d (owed id)

theorem one_self (d : Destination) (id : RouterId) : one d id d = owed id := Function.update_self ..

theorem one_of_ne {other : Destination} (id : RouterId) (he : other ≠ d) :
    one d id other = fun _ => 0 := Function.update_of_ne he ..

theorem Sound.retainSource {id : RouterId} (sound : t.Sound noneHeld) :
    (t.retainSource d id).Sound (one d id) :=
  sound.setSource (fun _ he => one_of_ne id he) (one_self d id ▸ (sound.core d).retain)

theorem Sound.releaseSource {id : RouterId} (sound : t.Sound (one d id)) :
    (t.releaseSource d id).Sound noneHeld :=
  sound.setSource (fun _ he => (one_of_ne id he).symm) (Core.release (one_self d id ▸ sound.core d))

theorem Sound.findSource {id : RouterId} {seqno : UInt16} (sound : t.Sound noneHeld) :
    (t.findSource d id seqno).Sound noneHeld := by
  unfold Table.findSource
  split
  · exact sound
  · next unknown => exact sound.setSource (fun _ _ => rfl) ((sound.core d).create unknown rfl)

theorem Sound.insertRoute (sound : t.Sound (one d r.src)) (hk : (t.sources d r.src).isSome)
    (new : t.findRoute d r.via = none) (off : r.installed = false)
    (pos : 0 < r.cost.toNat+r.addMetric.toNat) : (t.insertRoute d r).Sound noneHeld := by
  refine sound.setRoutes (fun _ he => (one_of_ne _ he).symm)
    (Core.insert (one_self d r.src ▸ sound.core d) hk new off pos) fun ho hm => ?_
  cases routes : t.routes d with
  | nil => simp [routes] at hm
  | cons head rest =>
    simp only [routes,cons_append,tail_cons,mem_append,mem_singleton] at hm
    rcases hm with hm | rfl
    · exact sound.first d ho (by simpa [routes] using hm)
    · exact off

theorem findRoute_uninstallRoute (hfo : t.findRoute d via = some r) :
    (t.uninstallRoute d via).findRoute d via = some {r with installed := false} := by
  unfold uninstallRoute
  simp only [hfo]
  split
  · refine (findRoute_modify ({· with installed := false}) fun _ => rfl).trans ?_
    have eq : t.kernelRoute.2.findRoute d via = some r := hfo
    rw [eq]
    rfl
  next off =>
  rw [hfo]
  cases r
  simp_all

theorem First.eraseP {routes : List Route} {p : Route → Bool} (fst : First routes) :
    First (routes.eraseP p) := by
  cases routes with
  | nil => exact fst
  | cons head rest =>
    rw [eraseP_cons]
    intro r mem
    cases hh : p head <;> rw [hh] at mem
    · exact fst r (mem_of_mem_eraseP mem)
    · exact fst r (mem_of_mem_tail mem)

section

variable (sound : t.Sound noneHeld)

include sound

theorem Sound.removeRoute (hfo : t.findRoute d via = some r) :
    (t.setRoutes d ((t.routes d).eraseP (·.via = via))).Sound (one d r.src) := by
  refine sound.setRoutes (fun _ he => one_of_ne _ he) ?_ (First.eraseP (sound.first d))
  rw [one_self]
  exact (sound.core d).remove hfo

theorem Sound.flushRoute : (t.flushRoute c env d via).Sound noneHeld := by
  unfold Table.flushRoute
  split
  · exact sound
  next r hfo =>
  by_cases on : r.installed
  · simp only [if_pos on]
    have hr := sound.uninstallRoute.removeRoute (findRoute_uninstallRoute hfo)
    exact hr.routeLost.releaseSource
  simp only [if_neg on]
  exact (sound.removeRoute hfo).releaseSource

theorem Sound.xrouteAddNewRoute : (t.xrouteAddNewRoute c d).Sound noneHeld := by
  unfold Table.xrouteAddNewRoute
  cases t.findInstalledRoute d with
  | none => exact sound.sendUpdate
  | some r => exact sound.uninstallRoute.sendUpdate

theorem Sound.retractNeighbourRoute : (t.retractNeighbourRoute c env d via).Sound noneHeld := by
  unfold Table.retractNeighbourRoute
  split
  · exact sound
  split
  · dsimp only
    split
    · exact sound.retractRoute.routeChanged
    · exact sound.retractRoute
  · exact sound

theorem Sound.renumber (seqno : UInt16) (hfo : t.findRoute d via = some r)
    (next : ∀ src ∈ t.sources d r.src, seqno = seqnoPlus src.seqno 1) :
    (t.modify d via ({· with seqno := seqno})).Sound noneHeld := by
  refine sound.modify (fun _ => ⟨rfl,rfl⟩) (fun _ => id) (fun ho mem hh _ => ?_)
    (fun ho mem _ => (sound.core d).positive ho mem)
  rw [sound.unique hfo mem hh]
  obtain ⟨src,hk⟩ := isSome_iff_exists.mp ((sound.core d).held r (mem_of_findRoute hfo).1)
  rw [next src hk,hk,updateFeasible_some]
  exact .inr (.inr (seqnoPlus_feasible src))

theorem Sound.updateRouteMetric (costs : ∀ n, 0 < (env.neighbourCost n).toNat) :
    (t.updateRouteMetric c env d via).Sound noneHeld := by
  unfold Table.updateRouteMetric
  split
  · exact sound
  next r hfo =>
  dsimp only
  split
  · split
    · have renumbered := sound.renumber
        ((t.sources d r.src).elim r.seqno fun src => seqnoPlus src.seqno 1) hfo
        fun src hk => by rw [mem_def.mp hk]; rfl
      split
      · exact renumbered.retractRoute.routeChanged
      · exact renumbered.retractRoute
    · exact sound
  · have hc : (t.changeRouteMetric c d via r.refmetric (env.neighbourCost via.neigh)
        (env.inputFilter r.src d via.neigh)).Sound noneHeld := by
      refine sound.changeRouteMetric (fun ho mem hh on => ?_) ?_
      · rw [sound.unique hfo mem hh] at on ⊢
        exact (sound.core d).feasible r (mem_of_findRoute hfo).1 on
      have := costs via.neigh
      omega
    split
    · exact hc.routeChanged
    · exact hc

end

theorem Sound.reassign {id : RouterId} {f : Route → Route} (sound : t.Sound (one d id))
    (hkn : (t.sources d id).isSome) (hfo : t.findRoute d via = some r)
    (hk : (f r).via = via ∧ (f r).src = id) (off : (f r).installed → r.installed)
    (hf : (f r).installed →
      updateFeasible t.now (t.sources d id) (f r).seqno (f r).refmetric)
    (pos : 0 < (f r).cost.toNat + (f r).addMetric.toNat) :
    (t.modify d via f).Sound (one d r.src) := by
  have core := sound.core d
  rw [one_self] at core
  refine sound.setRoutes (fun _ he => (one_of_ne _ he).trans (one_of_ne _ he).symm)
    (one_self d r.src ▸ core.reassign hkn hfo hk hf pos)
    ((sound.first d).assigned fun ho mem hh => ?_)
  rw [sound.unique hfo mem hh]
  exact off

theorem modify_modify {f g : Route → Route} (hk : ∀ r, (f r).via = r.via) :
    (t.modify d via f).modify d via g = t.modify d via (g ∘ f) := by
  unfold modify
  rw [setRoutes_setRoutes]
  refine congrArg (t.setRoutes d) ?_
  simp only [setRoutes,Function.update_self,List.map_map]
  refine map_congr_left fun r _ => ?_
  by_cases hh : r.via = via
  · simp [hh,hk]
  · simp [hh]

theorem changeRouteMetric_accepted (refmetric cost add : UInt16) (hfo : t.findRoute d via = some r)
    (hac : r.installed → metricToKernel c (routeMetric r) ≠
      metricToKernel c (min (refmetric.toNat+cost.toNat+add.toNat) infinity) →
        t.kernel.headD true) :
    ∃ kernel, t.changeRouteMetric c d via refmetric cost add = {t with kernel := kernel}.modify
      d via ({· with refmetric := refmetric, cost := cost, addMetric := add}) := by
  simp only [changeRouteMetric,hfo]
  by_cases ha : r.installed ∧ metricToKernel c (routeMetric r) ≠
      metricToKernel c (min (refmetric.toNat+cost.toNat+add.toNat) infinity)
  · simp only [if_pos ha,kernelRoute,if_pos (hac ha.1 ha.2)]
    exact ⟨_,rfl⟩
  simp only [if_neg ha,if_true]
  exact ⟨t.kernel,rfl⟩

section

variable {u : Update} {add : UInt16} (sound : t.Sound noneHeld)
  (hk : (t.sources u.dest u.routerId).isSome)

include sound hk

theorem Sound.assignUpdate {fresh : Bool} (hfo : t.findRoute u.dest u.via = some r)
    (pos : 0 < (env.neighbourCost u.via.neigh).toNat + add.toNat)
    (hf : r.installed →
      updateFeasible t.now (t.sources u.dest u.routerId) u.seqno u.refmetric)
    (ha : r.installed → metricToKernel c (routeMetric r) ≠ metricToKernel c
      (min (u.refmetric.toNat + (env.neighbourCost u.via.neigh).toNat + add.toNat) infinity) →
        t.kernel.headD true) :
    let t := (t.retainSource u.dest u.routerId).modify u.dest u.via (u.assign t.now fresh)
    let t := t.changeRouteMetric c u.dest u.via u.refmetric (env.neighbourCost u.via.neigh) add
    (t.modify u.dest u.via ({· with holdTime := holdTime u.interval})).Sound
      (one u.dest r.src) := by
  intro t1 t2
  have found1 : t1.findRoute u.dest u.via = some (u.assign t.now fresh r) := by
    refine (findRoute_modify (u.assign t.now fresh) fun _ => rfl).trans ?_
    have eq : (t.retainSource u.dest u.routerId).findRoute u.dest u.via = some r := hfo
    rw [eq]
    rfl
  obtain ⟨kernel,hc⟩ := changeRouteMetric_accepted u.refmetric
    (env.neighbourCost u.via.neigh) add found1 ha
  let t' : Table := {t.retainSource u.dest u.routerId with kernel := kernel}
  have retained : (t.retainSource u.dest u.routerId).Sound (one u.dest u.routerId) :=
    sound.retainSource
  have hb : t'.Sound (one u.dest u.routerId) := ⟨retained.core,retained.first⟩
  have hk' : (t'.sources u.dest u.routerId).isSome := by
    simpa [t',Table.retainSource,Table.modifySource,Table.setSource] using hk
  have eq : t2 = (t'.modify u.dest u.via (u.assign t.now fresh)).modify u.dest u.via
      ({ · with refmetric := u.refmetric, cost := env.neighbourCost u.via.neigh
                addMetric := add }) := hc
  rw [eq,modify_modify,modify_modify]
  · refine hb.reassign hk' hfo ⟨(mem_of_findRoute hfo).2,rfl⟩ id (fun on => ?_) pos
    have recounted := hf on
    rw [← feasible_recounted u.routerId (· + 1)] at recounted
    simpa [t',Update.assign,Table.retainSource,Table.modifySource,Table.setSource] using recounted
  · exact fun _ => rfl
  · exact fun _ => rfl

theorem Sound.updateKnown (hfo : t.findRoute u.dest u.via = some r)
    (pos : 0 < (env.neighbourCost u.via.neigh).toNat + add.toNat) {feasible : Bool}
    (eq : feasible = updateFeasible t.now (t.sources u.dest u.routerId) u.seqno u.refmetric)
    (hp : r.installed → if feasible then
      metricToKernel c (routeMetric r) ≠ metricToKernel c
        (min (u.refmetric.toNat + (env.neighbourCost u.via.neigh).toNat + add.toNat) infinity) →
          t.kernel.headD true
      else r.src ≠ u.routerId) :
    (t.updateKnown c env u r feasible add).Sound noneHeld := by
  unfold Table.updateKnown
  by_cases hl : (!feasible && r.installed && decide (r.src ≠ u.routerId)) = true
  · -- The route is no longer installed when the update is stored.
    simp only [hl,if_true]
    have off := findRoute_uninstallRoute hfo
    have sources : (t.uninstallRoute u.dest u.via).sources = t.sources := by
      unfold Table.uninstallRoute
      split
      · rfl
      · split <;> rfl
    refine (sound.uninstallRoute.assignUpdate ?_ off pos (fun on => nomatch on)
      (fun on => nomatch on)).routeChanged.routeLost.releaseSource
    rw [sources]
    exact hk
  · simp only [hl,if_false,Bool.false_eq_true]
    have hf' (on : r.installed) : feasible := by
      by_contra unfeasible
      have ho := hp on
      rw [if_neg unfeasible] at ho
      simp [unfeasible,on,ho] at hl
    refine (sound.assignUpdate hk hfo pos (fun on => eq ▸ hf' on)
      (fun on => ?_)).routeChanged.releaseSource
    have ha := hp on
    rwa [if_pos (hf' on)] at ha

theorem Sound.updateNew {feasible : Bool} (new : t.findRoute u.dest u.via = none)
    (pos : 0 < (env.neighbourCost u.via.neigh).toNat + add.toNat) :
    (t.updateNew c env u feasible add).Sound noneHeld := by
  unfold Table.updateNew
  split
  · exact sound
  split
  · exact sound
  refine (Sound.insertRoute sound.retainSource ?_ (by exact new) rfl pos).considerRoute
  simpa [Table.retainSource,Table.modifySource,Table.setSource] using hk

end

theorem findSource_feasible {u : Update} :
    updateFeasible t.now ((t.findSource u.dest u.routerId u.seqno).sources u.dest u.routerId)
      u.seqno u.refmetric =
        updateFeasible t.now (t.sources u.dest u.routerId) u.seqno u.refmetric := by
  unfold findSource
  split
  · rfl
  next unknown =>
  simp only [setSource,Function.update_self,unknown]
  refine (updateFeasible_some.mpr ?_).trans rfl
  right
  by_cases hr : infinity ≤ u.refmetric.toNat
  · exact .inl hr
  refine .inr (.inr ⟨rfl,?_⟩)
  rw [UInt16.lt_iff_toNat_lt]
  exact Nat.not_le.mp hr

theorem isSome_findSource {id : RouterId} {seqno : UInt16} :
    ((t.findSource d id seqno).sources d id).isSome := by
  unfold findSource
  split
  · next known => simp [known]
  · simp [setSource]

/-- An update for an installed route that is feasible with a metric the kernel accepts, or comes
from another router. -/
def ProperUpdate (c : Config) (env : Env) (t : Table) (u : Update) : Prop :=
  ∀ r ∈ t.findRoute u.dest u.via, r.installed = true →
    if updateFeasible t.now (t.sources u.dest u.routerId) u.seqno u.refmetric then
      metricToKernel c (routeMetric r) ≠ metricToKernel c
        (min (u.refmetric.toNat + (env.neighbourCost u.via.neigh).toNat +
          (env.inputFilter u.routerId u.dest u.via.neigh).toNat) infinity) →
            env.kernel.headD true = true
    else r.src ≠ u.routerId

instance (c : Config) (env : Env) (t : Table) (u : Update) : Decidable (ProperUpdate c env t u) := by
  delta ProperUpdate
  infer_instance

theorem Sound.updateRoute {u : Update} (sound : t.Sound noneHeld) (kernel : t.kernel = env.kernel)
    (costs : ∀ n, 0 < (env.neighbourCost n).toNat) (hpr : ProperUpdate c env t u) :
    (t.updateRoute c env u).Sound noneHeld := by
  unfold Table.updateRoute
  split
  · exact sound
  split
  · exact sound
  dsimp only
  split
  · exact sound
  have pos : 0 < (env.neighbourCost u.via.neigh).toNat +
      (env.inputFilter u.routerId u.dest u.via.neigh).toNat := by
    have := costs u.via.neigh
    omega
  -- The table once the source is known to exist.
  generalize source : (if (t.findRoute u.dest u.via).any (·.src = u.routerId) then t
    else t.findSource u.dest u.routerId u.seqno) = t'
  have hp : t'.Sound noneHeld ∧ (t'.sources u.dest u.routerId).isSome ∧
      t'.routes = t.routes ∧ t'.kernel = t.kernel ∧ t'.now = t.now ∧
      updateFeasible t.now (t'.sources u.dest u.routerId) u.seqno u.refmetric =
        updateFeasible t.now (t.sources u.dest u.routerId) u.seqno u.refmetric := by
    subst source
    split
    · next hh =>
      obtain ⟨r,hfo,hh⟩ := (any_eq_true _ _).mp hh
      have hhe := (sound.core u.dest).held r (mem_of_findRoute hfo).1
      rw [of_decide_eq_true hh] at hhe
      exact ⟨sound,hhe,rfl,rfl,rfl,rfl⟩
    · refine ⟨sound.findSource,isSome_findSource,?_,?_,?_,findSource_feasible⟩ <;>
      · unfold Table.findSource
        split <;> rfl
  obtain ⟨hs',hk,routes,kernel',now,hf⟩ := hp
  have findRoute : t'.findRoute u.dest u.via = t.findRoute u.dest u.via := by
    unfold Table.findRoute
    rw [routes]
  split
  · next r hfo =>
    refine hs'.updateKnown hk (findRoute.trans hfo) pos rfl fun on => ?_
    have := hpr r hfo on
    rwa [now,hf,kernel',kernel]
  · next new => exact hs'.updateNew hk (findRoute.trans new) pos

end

def Proper (c : Config) (t : Table) : Event → Prop
  | .perform env action => (∀ n, 0 < (env.neighbourCost n).toNat) ∧
      ∀ u, action = .updateRoute u → ProperUpdate c env t u
  | _ => True

theorem Sound.step {c : Config} {t : Table} {ev : Event} (sound : t.Sound noneHeld)
    (hp : t.Proper c ev) : (t.step c ev).Sound noneHeld := by
  cases ev with
  | tick seconds => exact ⟨fun d => (sound.core d).later (Int.le_add_of_nonneg_right (Int.natCast_nonneg seconds)),
      sound.first⟩
  | expireSources => exact ⟨fun d => (sound.core d).expire,sound.first⟩
  | perform env act =>
    have hr : Sound noneHeld {t with kernel := env.kernel, flushes := env.flushes} :=
      ⟨sound.core,sound.first⟩
    cases act with
    | updateRoute u => exact hr.updateRoute rfl hp.1 (hp.2 u rfl)
    | updateRouteMetric d via => exact hr.updateRouteMetric hp.1
    | retractNeighbourRoute d via => exact hr.retractNeighbourRoute
    | flushRoute d via => exact hr.flushRoute
    | uninstallRoute d via => exact hr.uninstallRoute
    | xrouteAddNewRoute d => exact hr.xrouteAddNewRoute
    | flushupdates adverts => exact hr.flushupdates adverts

theorem empty_sound (now : Int) : (empty now).Sound noneHeld where
  core _ := {
    distinct := nodup_nil
    held := fun _ hm => nomatch hm
    counted := fun _ _ hk => nomatch hk
    feasible := fun _ hm => nomatch hm
    positive := fun _ hm => nomatch hm}
  first _ _ hm := nomatch hm

/-- Every installed route with a finite metric is feasible for its source, which is in the
table. -/
def Feasible (t : Table) : Prop :=
  ∀ d, ∀ r ∈ t.routes d, r.installed = true → routeMetric r < infinity →
    ∃ src, t.sources d r.src = some src ∧ (src.expired t.now ∨ src.Better r.seqno r.refmetric)

theorem Sound.isFeasible {t : Table} (sound : t.Sound noneHeld) : t.Feasible := by
  intro d r mem hi finite
  obtain ⟨src,hk⟩ := isSome_iff_exists.mp ((sound.core d).held r mem)
  have hf := (sound.core d).feasible r mem hi
  rw [hk,updateFeasible_some] at hf
  have announced : ¬infinity ≤ r.refmetric.toNat := by
    unfold routeMetric at finite
    omega
  refine ⟨src,hk,hf.imp_right fun better => ?_⟩
  exact better.resolve_left announced

theorem installed_feasible (c : Config) (now : Int) (events : List Event)
    (proper : Throughout (step c) (Proper c) events (empty now)) :
    Throughout (step c) (fun t event => t.Feasible ∧ (t.step c event).Feasible) events
      (empty now) :=
  Throughout.guarantee (I := Sound noneHeld) (fun _ _ sound proper =>
      have next := sound.step proper
      ⟨⟨sound.isFeasible,next.isFeasible⟩,next⟩)
    (empty_sound now) proper

section

def plain : Config :=
  { myid := 1, martianPrefix := fun _ => false, keepUnfeasible := false, diversityFactor := 256
    kernelMetric := 0 }

def quiet (cost : UInt16) (kernel : List Bool) : Env :=
  { neighbourCost := fun _ => cost, inputFilter := fun _ _ _ => 0, xroute := fun _ => false
    smoothedMetric := fun _ => routeMetric, kernel := kernel, flushes := [] }

def network : Destination := {address := 42, plen := 64}

def announced (seqno refmetric : UInt16) : Update :=
  { routerId := 7, dest := network, seqno := seqno, refmetric := refmetric, interval := 400
    via := {neigh := 0, nexthop := 5} }

def learnt (cost : UInt16) : List Event :=
  [.perform (quiet cost []) (.updateRoute (announced 1 100)),
    .perform (quiet cost []) (.flushupdates [(network,true)])]

/-- A better metric, then a later sequence number with a worse one. -/
theorem reannounced_feasible :
    let events := learnt 96 ++ [.perform (quiet 96 []) (.updateRoute (announced 1 50)),
      .perform (quiet 96 []) (.updateRoute (announced 2 1000))]
    Throughout (step plain) (Proper plain) events (empty 0) ∧
      Throughout (step plain) (fun t ev => t.Feasible ∧ (t.step plain ev).Feasible)
        events (empty 0) := by
  intro events
  have hp : Throughout (step plain) (Proper plain) events (empty 0) := by
    have cost : 0 < (96 : UInt16).toNat := by decide
    refine ⟨⟨fun _ => cost,?_⟩,⟨fun _ => cost,?_⟩,⟨fun _ => cost,?_⟩,⟨fun _ => cost,?_⟩,trivial⟩
    all_goals
      rintro u ⟨⟩
      try decide +kernel
  exact ⟨hp,installed_feasible plain 0 events hp⟩

def report (t : Table) : List (Bool × UInt16 × Nat × Bool) :=
  (t.routes network).map fun r =>
    (r.installed,r.refmetric,routeMetric r,t.routeFeasible network r)

/-- An unfeasible update of the same router changes the installed route. So does a retraction that
the kernel refuses, without the metric; and a neighbour without cost makes its route unfeasible by
announcing it. -/
theorem unfeasible_installed :
    report (run (step plain) (learnt 96) (empty 0)) = [(true,100,196,true)] ∧
    report (run (step plain) (learnt 96 ++
      [.perform (quiet 96 []) (.updateRoute (announced 1 1000))]) (empty 0)) =
        [(true,1000,1096,false)] ∧
    report (run (step plain) (learnt 96 ++
      [.perform (quiet 96 [false]) (.updateRoute (announced 0 0xffff))]) (empty 0)) =
        [(true,100,196,false)] ∧
    report (run (step plain) (learnt 0) (empty 0)) = [(true,100,100,false)] := by
  decide +kernel

end

end Table

end Frr.Babel
