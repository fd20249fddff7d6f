import Frr.Trace
import Mathlib.Tactic.Ring

/-! The timer of the SPF calculation. Moments are in microseconds, the configured times in
milliseconds. -/
namespace Frr.SpfSchedule

open Trace

/-- `timers throttle spf`. -/
structure Config where
  delay : Nat
  holdtime : Nat
  maxHoldtime : Nat
  range : delay ≤ 600000 ∧ holdtime ≤ 600000 ∧ maxHoldtime ≤ 600000

/-- The timer. Besides its expiry it records the trigger, the hold time then and the start of the
run before. -/
structure Pending where
  due : Nat
  trigger : Nat
  hold : Nat
  previous : Nat
  deriving DecidableEq

/-- `started` is a ghost: when the last run began. -/
structure State where
  now : Nat := 0
  multiplier : Nat := 1
  tsSpf : Nat := 0
  tSpfCalc : Option Pending := none
  started : Nat := 0

inductive Event where
  | wait (time : Nat)
  | trigger
  | expire
  /-- The native calculation of an area has come to its end. -/
  | calculated

variable (c : Config)

def hold (multiplier : Nat) : Nat := min (c.holdtime*multiplier % 2 ^ 32) c.maxHoldtime

/-- `ospf_spf_calculate_schedule`. -/
def schedule (s : State) : State :=
  if s.tSpfCalc.isSome then s
  else
    let elapsed := (s.now-s.tsSpf) / 1000
    let ht := hold c s.multiplier
    if elapsed < ht then
      let delay := if ht - elapsed < c.delay then c.delay else ht - elapsed
      {s with
        multiplier := if ht < c.maxHoldtime then s.multiplier + 1 else s.multiplier
        tSpfCalc := some ⟨s.now+1000*delay, s.now, ht, s.started⟩}
    else
      {s with
        multiplier := 1
        tSpfCalc := some ⟨s.now+1000*c.delay, s.now, ht, s.started⟩}

/-- The timer may expire late. `ospf_spf_calculate` sets `ts_spf` for each area, unless a pluglet
replaces it or the router has no LSA for the area yet. -/
def step (s : State) : Event → State
  | .wait time => {s with now := s.now + time}
  | .trigger => schedule c s
  | .expire =>
    if ∃ p ∈ s.tSpfCalc, p.due ≤ s.now then {s with tSpfCalc := none, started := s.now} else s
  | .calculated => {s with tsSpf := s.now}

/-- A run that starts keeps to the configured times; the bound is that of its timer. -/
structure Timely (p : Pending) (start : Nat) : Prop where
  delayed : p.trigger + 1000 * c.delay ≤ start
  bounded : p.due ≤ p.trigger+1000 * max c.delay c.maxHoldtime
  held : p.trigger < p.previous+1000*p.hold → p.previous+1000*p.hold ≤ start

/-- What is promised of a step. -/
def Promised (s : State) : Event → Prop
  | .expire => ∀ p ∈ s.tSpfCalc, p.due ≤ s.now → Timely c p s.now
  | .trigger => s.tSpfCalc = none → hold c (schedule c s).multiplier =
      if s.now < s.tsSpf+1000 * hold c s.multiplier
      then min (hold c s.multiplier + c.holdtime) c.maxHoldtime else min c.holdtime c.maxHoldtime
  | _ => True

/-- The last run has calculated an area. -/
def Calculated (s : State) : Event → Prop
  | .trigger => s.tSpfCalc = none → s.started ≤ s.tsSpf
  | _ => True

structure Sound (s : State) : Prop where
  past : s.tsSpf ≤ s.now ∧ s.started ≤ s.now
  small : c.holdtime * s.multiplier < 2 ^ 32
  timely : ∀ p ∈ s.tSpfCalc, Timely c p p.due

variable {c}

theorem Timely.late {p : Pending} {start : Nat} (h : Timely c p p.due) (hl : p.due ≤ start) :
    Timely c p start where
  delayed := h.delayed.trans hl
  bounded := h.bounded
  held he := (h.held he).trans hl

theorem hold_eq {multiplier : Nat} (hs : c.holdtime * multiplier < 2 ^ 32) :
    hold c multiplier = min (c.holdtime*multiplier) c.maxHoldtime := by
  rw [hold,Nat.mod_eq_of_lt hs]

theorem Sound.schedule {s : State} (h : Sound c s) (hc : Calculated s .trigger) :
    Promised c s .trigger ∧ Sound c (schedule c s) := by
  obtain ⟨⟨past,hb⟩,hs,timely⟩ := h
  obtain ⟨-,step,most⟩ := c.range
  have ht := hold_eq hs
  simp only [Promised,Calculated,SpfSchedule.schedule] at *
  cases hid : s.tSpfCalc with
  | some p => exact ⟨nofun,⟨past,hb⟩,hs,timely⟩
  | none =>
    have last := hc hid
    generalize hold c s.multiplier = now at *
    simp only [Option.isSome_none,Bool.false_eq_true,reduceIte,forall_const]
    have next := Nat.mul_add_one c.holdtime s.multiplier
    split
    · next early =>
      have hi : s.now < s.tsSpf+1000*now := by omega
      have hs' : c.holdtime * (if now < c.maxHoldtime then s.multiplier + 1 else s.multiplier) <
          2 ^ 32 := by
        split
        · omega
        · exact hs
      refine ⟨?_,⟨past,hb⟩,hs',?_⟩
      · rw [if_pos hi,hold_eq hs']
        split <;> omega
      · rintro _ ⟨⟩
        refine ⟨?_,?_,fun _ => ?_⟩ <;> dsimp only <;> split <;> omega
    · next quiet =>
      have ho : ¬s.now < s.tsSpf+1000*now := by omega
      have hs' : c.holdtime * 1 < 2 ^ 32 := by omega
      refine ⟨by rw [if_neg ho,hold_eq hs',mul_one],⟨past,hb⟩,hs',?_⟩
      rintro _ ⟨⟩
      refine ⟨?_,?_,fun _ => ?_⟩ <;> dsimp only at * <;> omega

theorem Sound.step {s : State} (h : Sound c s) {ev : Event} (hc : Calculated s ev) :
    Promised c s ev ∧ Sound c (step c s ev) := by
  cases ev with
  | wait time =>
    have hl := Nat.le_add_right s.now time
    exact ⟨trivial,⟨h.past.1.trans hl,h.past.2.trans hl⟩,h.small,h.timely⟩
  | trigger => exact h.schedule hc
  | calculated => exact ⟨trivial,⟨le_rfl,h.past.2⟩,h.small,h.timely⟩
  | expire =>
    refine ⟨fun p hp due => (h.timely p hp).late due,?_⟩
    rw [SpfSchedule.step]
    split
    · exact ⟨⟨h.past.1,le_rfl⟩,h.small,nofun⟩
    · exact h

theorem runs_timely (c : Config) (events : List Event)
    (calculated : Throughout (step c) Calculated events {}) :
    Throughout (step c) (fun s event => Promised c s event ∧ hold c s.multiplier ≤ c.maxHoldtime)
      events {} := by
  refine Throughout.guarantee (I := Sound c) (fun s event hs calculated => ?_)
    ⟨⟨le_rfl,le_rfl⟩,by have := c.range; simp; omega,nofun⟩ calculated
  exact ⟨⟨(hs.step calculated).1,min_le_right ..⟩,(hs.step calculated).2⟩

def config : Config := ⟨0, 1000, 10000, by decide⟩

/-- The second run waits for the hold time after the first one. -/
theorem twoRuns_timely : Throughout (step config) (fun s event => Promised config s event ∧
    hold config s.multiplier ≤ 10000)
      [.wait 5000000,.trigger,.expire,.calculated,.trigger,.wait 1000000,.expire] {} :=
  runs_timely config _ (by simp [Throughout,step,schedule,Calculated,hold,config])

/-- Where a pluglet replaces the calculation, the second run may start at once. -/
theorem hold_skipped :
    let s := run (step config) [.wait 5000000,.trigger,.expire,.trigger] {}
    s.tSpfCalc = some ⟨5000000,5000000,1000,5000000⟩ ∧ ¬Promised config s .expire := by
  refine ⟨rfl,fun promised => ?_⟩
  have := (promised _ rfl (by decide)).held (by decide)
  exact absurd this (by decide)

end Frr.SpfSchedule
