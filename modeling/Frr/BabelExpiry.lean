import Frr.BabelFeasible

/-! The routes that `expire_routes` of babeld flushes, and the requests it sends for them. -/
namespace Frr.Babel

open List Option Trace Table

inductive Sign where
  | request (neigh : Nat) (d : Destination)
  | flush (d : Destination) (r : Route)
  deriving DecidableEq

namespace Table

section

variable (c : Config) (env : Env) (d : Destination)

/-- The loop of `expire_routes` over one slot, for at most so many visits, and what it does in turn. A
flush starts the slot again. -/
def expireSlot : Nat → Table → Option Via → Table × List Sign
  | 0, t, _ | _ + 1, t, none => (t,[])
  | fuel + 1, t, some via =>
    match t.findRoute d via with
    | none => (t,[])
    | some r =>
      if t.now < r.time ∨ routeOld t.now r then
        let t := t.flushRoute c env d via
        let (t,signs) := expireSlot fuel t ((t.routes d).head?.map Route.via)
        (t,.flush d r :: signs)
      else
        let t := t.updateRouteMetric c env d via
        let sends := (t.findRoute d via).any fun r =>
          r.installed ∧ r.refmetric.toNat < infinity ∧ routeOld t.now r
        let next := ((t.routes d).dropWhile (·.via ≠ via)).tail.head?
        let (t,signs) := expireSlot fuel t (next.map Route.via)
        (t,if sends then .request via.neigh d :: signs else signs)

def expireRoutes (fuel : Nat) : List Destination → Table → Table × List Sign
  | [], t => (t,[])
  | d :: slots, t =>
    let (t,signs) := expireSlot c env d fuel t ((t.routes d).head?.map Route.via)
    let (t,more) := expireRoutes fuel slots t
    (t,signs ++ more)

end

section

def clock (r : Route) : Int × UInt16 := (r.time,r.holdTime)

/-- No route that is found has aged otherwise. -/
structure Unaged (t t' : Table) : Prop where
  now : t'.now = t.now
  clocks : ∀ d via, (t'.findRoute d via).map clock = (t.findRoute d via).map clock

variable {c : Config} {env : Env} {s t : Table} {d : Destination} {via : Via}

theorem findRoute_of_ne {routes : List Route} {other : Destination} (ne : other ≠ d) :
    (t.setRoutes d routes).findRoute other via = t.findRoute other via := by
  simp [findRoute,setRoutes,ne]

namespace Unaged

variable (h : s.Unaged t)

include h

theorem modify {f : Route → Route} (hv : ∀ r, (f r).via = r.via) (hc : ∀ r, clock (f r) = clock r) :
    s.Unaged (t.modify d via f) := by
  refine ⟨h.now,fun d' via' => (h.clocks d' via').symm ▸ ?_⟩
  by_cases hd : d' = d
  · subst hd
    by_cases hh : via' = via
    · subst hh
      rw [findRoute_modify f hv,Option.map_map]
      exact congrArg (Option.map · _) (funext hc)
    · rw [findRoute_modify_of_ne hv hh]
  · rw [Table.modify,findRoute_of_ne hd]

theorem moveInstalledRoute : s.Unaged (t.moveInstalledRoute d via) := by
  unfold Table.moveInstalledRoute
  split
  · exact h
  next r hf =>
  refine ⟨h.now,fun d' via' => (h.clocks d' via').symm ▸ congrArg _ ?_⟩
  by_cases hd : d' = d
  · subst hd
    obtain ⟨hv,front,rest,eq,ho⟩ := find?_eq_some_iff_append.mp hf
    simp only [findRoute,setRoutes,Function.update_self] at hf ⊢
    by_cases hh : via' = via
    · simp [hh,hv,hf]
    · have ne : ¬r.via = via' := fun hs => hh (hs ▸ of_decide_eq_true hv)
      rw [eq,eraseP_append_right _ (by simpa using ho),eraseP_cons,hv]
      simp [find?_append,ne]
  · rw [findRoute_of_ne hd]

theorem kernelRoute : s.Unaged t.kernelRoute.2 := ⟨h.now,h.clocks⟩

theorem installRoute : s.Unaged (t.installRoute d via) := by
  unfold Table.installRoute
  split
  · exact h
  split
  · exact h
  split
  · exact h
  dsimp only
  split
  · refine .moveInstalledRoute (.modify h.kernelRoute ?_ ?_) <;> exact fun _ => rfl
  · exact h.kernelRoute

theorem switchRoutes {old : Option Via} : s.Unaged (t.switchRoutes d old via) := by
  unfold Table.switchRoutes
  split
  · exact h.installRoute
  split
  · dsimp only
    split
    · refine .moveInstalledRoute (.modify (.modify h.kernelRoute ?_ ?_) ?_ ?_) <;> exact fun _ => rfl
    · exact h.kernelRoute
  · exact h

theorem changeRouteMetric {refm cost add : UInt16} :
    s.Unaged (t.changeRouteMetric c d via refm cost add) := by
  unfold Table.changeRouteMetric
  split
  · exact h
  dsimp only
  split
  · split
    · exact .modify h.kernelRoute (fun _ => rfl) fun _ => rfl
    · exact h.kernelRoute
  · exact .modify h (fun _ => rfl) fun _ => rfl

theorem retractRoute : s.Unaged (t.retractRoute c d via) := h.changeRouteMetric

theorem sendUpdate : s.Unaged (t.sendUpdate c) := by
  have hf (adverts : List Advert) {t : Table} (h : s.Unaged t) : s.Unaged (t.flushupdates c adverts) := by
    unfold flushupdates
    induction adverts generalizing t with
    | nil => exact h
    | cons advert rest ih =>
      refine ih ?_
      unfold advertise
      split
      · exact h
      · exact ⟨h.now,h.clocks⟩
  exact hf _ ⟨h.now,h.clocks⟩

theorem considerRoute : s.Unaged (t.considerRoute c env d via) := by
  unfold Table.considerRoute
  split
  · exact h
  split
  · exact h
  split
  · exact h
  split
  · exact h
  split
  · exact h.switchRoutes.sendUpdate
  split
  · exact h
  split
  · exact h.switchRoutes.sendUpdate
  · exact h

theorem routeChanged : s.Unaged (t.routeChanged c env d via) := by
  have hr : s.Unaged (t.reconsider c env d via) := by
    unfold reconsider
    split
    · exact h
    split
    · split
      · exact h
      split
      · exact h.considerRoute
      · exact h
    · exact h
  unfold Table.routeChanged sendTriggeredUpdate
  dsimp only
  split
  · exact hr.sendUpdate
  · exact hr.considerRoute

theorem updateRouteMetric : s.Unaged (t.updateRouteMetric c env d via) := by
  unfold Table.updateRouteMetric
  split
  · exact h
  dsimp only
  split
  · split
    · split
      · refine .routeChanged (.retractRoute (.modify h ?_ ?_)) <;> exact fun _ => rfl
      · refine .retractRoute (.modify h ?_ ?_) <;> exact fun _ => rfl
    · exact h
  · split
    · exact h.changeRouteMetric.routeChanged
    · exact h.changeRouteMetric

end Unaged

/-- The route that is looked at is too young for a request before its metric is updated, and no older
after it. -/
theorem expireSlot_silent (fuel : Nat) (t : Table) (via : Option Via) (neigh : Nat)
    (d' : Destination) : .request neigh d' ∉ (expireSlot c env d fuel t via).2 := by
  induction fuel generalizing t via with
  | zero => exact not_mem_nil
  | succ fuel ih =>
    cases via with
    | none => exact not_mem_nil
    | some via =>
      rw [expireSlot]
      split
      · exact not_mem_nil
      next r hf =>
      split
      · simpa using ih _ _
      next young =>
      have hk : t.Unaged (t.updateRouteMetric c env d via) :=
        .updateRouteMetric ⟨rfl,fun _ _ => rfl⟩
      have hc := hk.clocks d via
      rw [hf] at hc
      obtain ⟨r',hf',eq⟩ := map_eq_some_iff.mp hc
      obtain ⟨time,hold⟩ := Prod.mk.inj eq
      have hs : routeOld (t.updateRouteMetric c env d via).now r' = routeOld t.now r := by
        rw [routeOld,routeOld,hk.now,time,hold]
      dsimp only
      rw [hf',Option.any_some,hs,if_neg (by simp_all)]
      exact ih _ _

theorem expireRoutes_silent (fuel : Nat) (slots : List Destination) (t : Table) (neigh : Nat)
    (d : Destination) : .request neigh d ∉ (expireRoutes c env fuel slots t).2 := by
  induction slots generalizing t with
  | nil => exact not_mem_nil
  | cons slot slots ih =>
    rw [expireRoutes,mem_append]
    exact not_or.mpr ⟨expireSlot_silent _ _ _ _ _,ih _⟩

end

end Table

section

structure Watch where
  table : Table
  log : List Sign

inductive Round where
  | event (event : Event)
  | expireRoutes (env : Env) (fuel : Nat) (slots : List Destination)

def Watch.step (c : Config) (w : Watch) : Round → Watch
  | .event event => {w with table := w.table.step c event}
  | .expireRoutes env fuel slots =>
    let (table,signs) := w.table.expireRoutes c env fuel slots
    ⟨table,w.log ++ signs⟩

/-- An installed route with a finite metric is asked for before it is flushed. -/
def Warned (log : List Sign) : Prop :=
  ∀ before d r after, log = before ++ .flush d r :: after → r.installed = true →
    r.refmetric.toNat < infinity → .request r.via.neigh d ∈ before

theorem run_silent (c : Config) (rounds : List Round) (w : Watch) (neigh : Nat) (d : Destination)
    (h : .request neigh d ∉ w.log) : .request neigh d ∉ (run (Watch.step c) rounds w).log := by
  induction rounds generalizing w with
  | nil => exact h
  | cons round rounds ih =>
    refine ih _ ?_
    cases round with
    | event ev => exact h
    | expireRoutes env fuel slots =>
      exact fun mem => (mem_append.mp mem).elim h (expireRoutes_silent _ _ _ _ _)

/-- No request is ever sent, so a run is as it should be only where no such route is flushed. -/
theorem warned_iff (c : Config) (t : Table) (rounds : List Round) :
    let log := (run (Watch.step c) rounds ⟨t,[]⟩).log
    Warned log ↔ ∀ d r, .flush d r ∈ log → r.installed → ¬r.refmetric.toNat < infinity := by
  intro log
  constructor
  · intro hw d r mem on hf
    obtain ⟨hb,ha,eq⟩ := append_of_mem mem
    have has := hw hb d r ha eq on hf
    refine run_silent c rounds ⟨t,[]⟩ r.via.neigh d not_mem_nil ?_
    exact (eq ▸ mem_append_left _ has : _ ∈ log)
  · intro none hb d r ha eq on hf
    exact absurd hf (none d r (eq ▸ mem_append_right _ (.head _)) on)

/-- A route learnt with a hold time of 24 seconds is gone after 22, each with its round of
`expire_routes`. -/
theorem flushed_unwarned :
    let snd : List Round := [.event (.tick 1),.expireRoutes (quiet 96 []) 4 [network]]
    let rounds := (learnt 96).map Round.event ++ (replicate 22 snd).flatten
    (run (Watch.step plain) rounds ⟨empty 0,[]⟩).log.map (fun
      | .request .. => none
      | .flush d r => some (d,r.installed,r.refmetric,r.time,r.holdTime)) =
        [some (network,true,100,0,24)] := by
  decide +kernel

end

end Frr.Babel
