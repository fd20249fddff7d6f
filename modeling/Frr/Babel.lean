import Frr.Trace
import Mathlib.Data.List.Nodup

/-! The route and source tables of babeld. A destination has a list of routes, the installed one at
its head, and a source for every router that announces it. Given with each event: costs, filters,
smoothed metrics, whether the kernel accepts a change, and which buffered updates go out. -/
namespace Frr.Babel

open Function

def infinity : Nat := 0xffff

def sourceGcTime : Int := 200

abbrev RouterId := BitVec 64

structure Destination where
  address : BitVec 128
  plen : UInt8
  deriving DecidableEq

/-- `struct source`, but for its key. -/
structure Source where
  seqno : UInt16
  metric : UInt16
  routeCount : Nat
  time : Int
  deriving DecidableEq

structure Via where
  neigh : Nat
  nexthop : BitVec 128
  deriving DecidableEq

/-- `struct babel_route`. The source is given by its router, as the destination is that of the
list. -/
structure Route where
  src : RouterId
  refmetric : UInt16
  cost : UInt16
  addMetric : UInt16
  seqno : UInt16
  via : Via
  time : Int
  holdTime : UInt16
  installed : Bool
  deriving DecidableEq

structure Config where
  myid : RouterId
  martianPrefix : Destination → Bool
  keepUnfeasible : Bool
  diversityFactor : Nat
  kernelMetric : Nat

/-- An update that goes out for a destination, on an interface that interferes with its route or
not. -/
abbrev Advert := Destination × Bool

structure Env where
  neighbourCost : Nat → UInt16
  inputFilter : RouterId → Destination → Nat → UInt16
  xroute : Destination → Bool
  smoothedMetric : Destination → Route → Nat
  kernel : List Bool
  flushes : List (List Advert)

structure Table where
  now : Int
  routes : Destination → List Route
  sources : Destination → RouterId → Option Source
  kernel : List Bool
  flushes : List (List Advert)

section

def seqnoCompare (s1 s2 : UInt16) : Int :=
  if s1 = s2 then 0 else if (s2-s1) &&& 0x8000 ≠ 0 then 1 else -1

def seqnoPlus (s plus : UInt16) : UInt16 := s+plus

def routeMetric (r : Route) : Nat :=
  min (r.refmetric.toNat+r.cost.toNat+r.addMetric.toNat) infinity

def routeMetricNoninterfering (c : Config) (r : Route) : Nat :=
  let m := r.refmetric.toNat + (c.diversityFactor*r.cost.toNat+128) / 256 + r.addMetric.toNat
  min (max m (r.refmetric.toNat+1)) infinity

def Source.expired (now : Int) (src : Source) : Prop := src.time < now-sourceGcTime

instance (now : Int) (src : Source) : Decidable (src.expired now) :=
  inferInstanceAs (Decidable (_ < _))

def Source.Better (src : Source) (seqno refmetric : UInt16) : Prop :=
  seqnoCompare seqno src.seqno > 0 ∨ src.seqno = seqno ∧ refmetric < src.metric

instance (src : Source) (seqno refmetric : UInt16) : Decidable (src.Better seqno refmetric) :=
  inferInstanceAs (Decidable (_ ∨ _))

def updateFeasible (now : Int) (src : Option Source) (seqno refmetric : UInt16) : Bool :=
  match src with
  | none => true
  | some src =>
    if src.expired now then true
    else if infinity ≤ refmetric.toNat then true
    else decide (src.Better seqno refmetric)

def updateSource (now : Int) (src : Source) (seqno : UInt16) (metric : Nat) : Source :=
  if infinity ≤ metric then src
  else
    let src := if src.expired now ∨ seqnoCompare src.seqno seqno < 0 ∨
        src.seqno = seqno ∧ metric < src.metric.toNat then
      {src with seqno := seqno, metric := metric.toUInt16} else src
    {src with time := now}

/-- `route_old` and `route_expired`. -/
def routeOld (now : Int) (r : Route) : Bool := r.time < now - (r.holdTime.toNat*7 / 8 : Nat)

def routeExpired (now : Int) (r : Route) : Bool := r.time < now-r.holdTime.toNat

end

namespace Table

section

variable (t : Table) (d : Destination) (via : Via)

def findRoute : Option Route := (t.routes d).find? (·.via = via)

def findInstalledRoute : Option Route := (t.routes d).head?.filter (·.installed)

def setRoutes (routes : List Route) : Table :=
  {t with routes := update t.routes d routes}

def setSource (id : RouterId) (src : Option Source) : Table :=
  {t with sources := update t.sources d (update (t.sources d) id src)}

def modify (f : Route → Route) : Table :=
  t.setRoutes d ((t.routes d).map fun r => if r.via = via then f r else r)

def modifySource (id : RouterId) (f : Source → Source) : Table :=
  t.setSource d id ((t.sources d id).map f)

def routeFeasible (r : Route) : Bool := updateFeasible t.now (t.sources d r.src) r.seqno r.refmetric

def moveInstalledRoute : Table :=
  match t.findRoute d via with
  | none => t
  | some r => t.setRoutes d (r :: (t.routes d).eraseP (·.via = via))

/-- `kernel_route`: whether the kernel accepts the change. -/
def kernelRoute : Bool × Table := (t.kernel.headD true,{t with kernel := t.kernel.tail})

end

section

variable (c : Config) (t : Table) (d : Destination) (via : Via)

def metricToKernel (metric : Nat) : Nat := if metric < infinity then c.kernelMetric else infinity

def installRoute : Table :=
  match t.findRoute d via with
  | none => t
  | some r =>
    if r.installed then t
    else if (t.routes d).head?.any fun head => head.via ≠ via ∧ head.installed then t
    else
      let (accepted,t) := t.kernelRoute
      if accepted then (t.modify d via ({· with installed := true})).moveInstalledRoute d via
      else t

def uninstallRoute : Table :=
  match t.findRoute d via with
  | none => t
  | some r =>
    if r.installed then (t.kernelRoute.2).modify d via ({· with installed := false}) else t

def switchRoutes (old : Option Via) (new : Via) : Table :=
  match old with
  | none => t.installRoute d new
  | some old =>
    if (t.findRoute d old).any (·.installed) then
      let (accepted,t) := t.kernelRoute
      if accepted then
        ((t.modify d old ({· with installed := false})).modify d new
          ({· with installed := true})).moveInstalledRoute d new
      else t
    else t

def changeRouteMetric (refmetric cost add : UInt16) : Table :=
  match t.findRoute d via with
  | none => t
  | some r =>
    let newmetric := min (refmetric.toNat+cost.toNat+add.toNat) infinity
    let (accepted,t) :=
      if r.installed ∧ metricToKernel c (routeMetric r) ≠ metricToKernel c newmetric then
        t.kernelRoute
      else (true,t)
    if accepted then
      t.modify d via ({· with refmetric := refmetric, cost := cost, addMetric := add})
    else t

def retractRoute : Table := t.changeRouteMetric c d via 0xffff 0xffff 0

end

section

variable (c : Config) (env : Env) (t : Table) (d : Destination) (via : Via)

/-- An update of a route in `flushupdates`: it is sent, and the source keeps its metric. -/
def advertise (advert : Advert) : Table :=
  match t.findInstalledRoute advert.1 with
  | none => t
  | some r =>
    let metric := if advert.2 then routeMetric r else routeMetricNoninterfering c r
    t.modifySource advert.1 r.src fun src => updateSource t.now src r.seqno metric

def flushupdates (adverts : List Advert) : Table := adverts.foldl (advertise c) t

/-- `send_update`, which may find a buffer full and flush it. -/
def sendUpdate : Table :=
  flushupdates c {t with flushes := t.flushes.tail} (t.flushes.headD [])

/-- `send_triggered_update`. Updates for small changes are left to those that are flushed. -/
def sendTriggeredUpdate : Table :=
  if (t.findRoute d via).any (·.installed) then t.sendUpdate c else t

def routeAcceptable (feasible : Bool) (exclude : Option Nat) (r : Route) : Bool :=
  !routeExpired t.now r && (!feasible || t.routeFeasible d r) &&
    !exclude.any fun neigh => r.via.neigh = neigh

def findBestRoute (feasible : Bool) (exclude : Option Nat) : Option Route :=
  match (t.routes d).dropWhile fun r => !t.routeAcceptable d feasible exclude r with
  | [] => none
  | route :: rest => some (rest.foldl (fun route r =>
      if t.routeAcceptable d feasible exclude r ∧
        env.smoothedMetric d r < env.smoothedMetric d route then r else route) route)

def considerRoute : Table :=
  match t.findRoute d via with
  | none => t
  | some route =>
    if route.installed then t
    else if !t.routeFeasible d route then t
    else if env.xroute d then t
    else
      match t.findInstalledRoute d with
      | none => (t.switchRoutes d none via).sendUpdate c
      | some installed =>
        if infinity ≤ routeMetric route then t
        else if infinity ≤ routeMetric installed ∨ routeMetric route ≤ routeMetric installed ∧
            env.smoothedMetric d route < env.smoothedMetric d installed then
          (t.switchRoutes d (some installed.via) via).sendUpdate c
        else t

/-- The first half of `route_changed`: a better route is looked for. -/
def reconsider : Table :=
  match t.findRoute d via with
  | none => t
  | some route =>
    if route.installed then
      match t.findBestRoute env d true none with
      | none => t
      | some better =>
        if routeMetric better < routeMetric route then t.considerRoute c env d better.via else t
    else t

def routeChanged : Table :=
  let t := t.reconsider c env d via
  if (t.findRoute d via).any (·.installed) then t.sendTriggeredUpdate c d via
  else t.considerRoute c env d via

def routeLost (oldmetric : Nat) : Table :=
  match t.findBestRoute env d true none with
  | some new => t.considerRoute c env d new.via
  | none => if oldmetric < infinity then t.sendUpdate c else t

end

section

variable (t : Table) (d : Destination) (id : RouterId)

/-- `find_source`, which creates the source. -/
def findSource (seqno : UInt16) : Table :=
  match t.sources d id with
  | some _ => t
  | none => t.setSource d id
      (some {seqno := seqno, metric := 0xffff, routeCount := 0, time := t.now})

/-- `retain_source`, but for its assertion. -/
def retainSource : Table :=
  t.modifySource d id fun src => {src with routeCount := src.routeCount + 1}

/-- `release_source`, but for its assertion. -/
def releaseSource : Table :=
  t.modifySource d id fun src => {src with routeCount := src.routeCount - 1}

/-- What `expire_sources` and `flush_source` do to one source. -/
def expireSource (now : Int) (src : Source) : Option Source :=
  let src := if now < src.time then {src with time := now} else src
  if src.expired now ∧ ¬0 < src.routeCount then none else some src

def expireSources : Table :=
  {t with sources := fun d id => (t.sources d id).bind (expireSource t.now)}

end

/-- The arguments of `update_route`, but for the channels. -/
structure Update where
  routerId : RouterId
  dest : Destination
  seqno : UInt16
  refmetric : UInt16
  interval : UInt16
  via : Via

section

variable (c : Config) (env : Env) (t : Table)

def holdTime (interval : UInt16) : UInt16 :=
  (max (4*interval.toNat/100+interval.toNat/50) 15).toUInt16

def Update.assign (u : Update) (now : Int) (fresh : Bool) (r : Route) : Route :=
  {r with src := u.routerId, time := if fresh then now else r.time, seqno := u.seqno}

/-- `update_route` for a route that is in the table. -/
def updateKnown (u : Update) (r : Route) (feasible : Bool) (add : UInt16) : Table :=
  let lost := !feasible && r.installed && r.src ≠ u.routerId
  let t := if lost then t.uninstallRoute u.dest u.via else t
  let t := t.retainSource u.dest u.routerId
  let fresh := (feasible || c.keepUnfeasible) && decide (u.refmetric.toNat < infinity)
  let t := t.modify u.dest u.via (u.assign t.now fresh)
  let t := t.changeRouteMetric c u.dest u.via u.refmetric (env.neighbourCost u.via.neigh) add
  let t := t.modify u.dest u.via ({· with holdTime := holdTime u.interval})
  let t := t.routeChanged c env u.dest u.via
  let t := if lost then t.routeLost c env u.dest (routeMetric r) else t
  t.releaseSource u.dest r.src

section

variable (d : Destination)

def insertRoute (r : Route) : Table :=
  t.setRoutes d (t.routes d ++ [r])

/-- `update_route` for a route that is not in the table. -/
def updateNew (u : Update) (feasible : Bool) (add : UInt16) : Table :=
  if infinity ≤ u.refmetric.toNat then t
  else if !feasible && !c.keepUnfeasible then t
  else
    let t := t.retainSource u.dest u.routerId
    let t := t.insertRoute u.dest
      { src := u.routerId, refmetric := u.refmetric
        cost := env.neighbourCost u.via.neigh, addMetric := add, seqno := u.seqno, via := u.via
        time := t.now, holdTime := holdTime u.interval, installed := false }
    t.considerRoute c env u.dest u.via

def updateRoute (u : Update) : Table :=
  if u.routerId = c.myid then t
  else if c.martianPrefix u.dest then t
  else
    let add := env.inputFilter u.routerId u.dest u.via.neigh
    if infinity ≤ add.toNat then t
    else
      let route := t.findRoute u.dest u.via
      let t := if route.any (·.src = u.routerId) then t
        else t.findSource u.dest u.routerId u.seqno
      let feasible := updateFeasible t.now (t.sources u.dest u.routerId) u.seqno u.refmetric
      match route with
      | some r => t.updateKnown c env u r feasible add
      | none => t.updateNew c env u feasible add

def updateRouteMetric (via : Via) : Table :=
  match t.findRoute d via with
  | none => t
  | some r =>
    let oldmetric := routeMetric r
    let oldSmoothed := env.smoothedMetric d r
    if routeExpired t.now r then
      if r.refmetric.toNat < infinity then
        let seqno := (t.sources d r.src).elim r.seqno fun src => seqnoPlus src.seqno 1
        let t := (t.modify d via ({· with seqno := seqno})).retractRoute c d via
        if oldmetric < infinity then t.routeChanged c env d via else t
      else t
    else
      let t := t.changeRouteMetric c d via r.refmetric (env.neighbourCost via.neigh)
        (env.inputFilter r.src d via.neigh)
      if (t.findRoute d via).any fun r =>
          routeMetric r ≠ oldmetric ∨ env.smoothedMetric d r ≠ oldSmoothed then
        t.routeChanged c env d via
      else t

/-- What `retract_neighbour_routes` does for one route. -/
def retractNeighbourRoute (via : Via) : Table :=
  match t.findRoute d via with
  | none => t
  | some r =>
    if r.refmetric.toNat ≠ infinity then
      let t := t.retractRoute c d via
      if routeMetric r ≠ infinity then t.routeChanged c env d via else t
    else t

def flushRoute (via : Via) : Table :=
  match t.findRoute d via with
  | none => t
  | some r =>
    let t := if r.installed then t.uninstallRoute d via else t
    let t := t.setRoutes d ((t.routes d).eraseP (·.via = via))
    let t := if r.installed then t.routeLost c env d (routeMetric r) else t
    t.releaseSource d r.src

/-- `xroute_add_new_route` as far as the installed route is concerned. -/
def xrouteAddNewRoute : Table :=
  ((t.findInstalledRoute d).elim t fun r => t.uninstallRoute d r.via).sendUpdate c

end

end

end Table

/-- The functions that change the tables; going through all routes is one of these for each. -/
inductive Action where
  | updateRoute (u : Table.Update)
  | updateRouteMetric (d : Destination) (via : Via)
  | retractNeighbourRoute (d : Destination) (via : Via)
  | flushRoute (d : Destination) (via : Via)
  | uninstallRoute (d : Destination) (via : Via)
  | xrouteAddNewRoute (d : Destination)
  | flushupdates (adverts : List Advert)

inductive Event where
  | tick (seconds : Nat)
  | expireSources
  | perform (env : Env) (action : Action)

section

variable (c : Config)

def Table.perform (env : Env) (t : Table) : Action → Table
  | .updateRoute u => t.updateRoute c env u
  | .updateRouteMetric d via => t.updateRouteMetric c env d via
  | .retractNeighbourRoute d via => t.retractNeighbourRoute c env d via
  | .flushRoute d via => t.flushRoute c env d via
  | .uninstallRoute d via => t.uninstallRoute d via
  | .xrouteAddNewRoute d => t.xrouteAddNewRoute c d
  | .flushupdates adverts => t.flushupdates c adverts

def Table.step (t : Table) : Event → Table
  | .tick seconds => {t with now := t.now + seconds}
  | .expireSources => t.expireSources
  | .perform env action =>
    Table.perform c env {t with kernel := env.kernel, flushes := env.flushes} action

end

def Table.empty (now : Int) : Table :=
  {now := now, routes := fun _ => [], sources := fun _ _ => none, kernel := [], flushes := []}

end Frr.Babel
