import Mathlib.Data.List.Basic

/-! Finite runs of a deterministic machine. A condition on steps is stated with the state each
starts from, so that a discipline of the environment and a guarantee in return have the same form.
-/
namespace Frr.Trace

section

variable {S E : Type} (next : S → E → S)

def run : List E → S → S
  | [], s => s
  | event :: rest, s => run rest (next s event)

/-- Every step, from the state it starts in, satisfies `property`. -/
def Throughout (property : S → E → Prop) : List E → S → Prop
  | [], _ => True
  | event :: rest, s => property s event ∧ Throughout property rest (next s event)

@[simp] theorem run_nil (s : S) : run next [] s = s := rfl

@[simp] theorem run_cons (ev : E) (rest : List E) (s : S) :
    run next (ev :: rest) s = run next rest (next s ev) := rfl

@[simp] theorem throughout_cons (prop : S → E → Prop) (ev : E) (rest : List E) (s : S) :
    Throughout next prop (ev :: rest) s ↔
      prop s ev ∧ Throughout next prop rest (next s ev) := Iff.rfl

variable {next}

instance decidableThroughout (property : S → E → Prop) [∀ s event, Decidable (property s event)] :
    (events : List E) → (s : S) → Decidable (Throughout next property events s)
  | [], _ => isTrue trivial
  | event :: rest, s =>
    have := decidableThroughout property rest (next s event)
    inferInstanceAs (Decidable (property s event ∧ Throughout next property rest (next s event)))

theorem throughout_iff {property : S → E → Prop} {events : List E} {s : S} :
    Throughout next property events s ↔
      ∀ before event after, events = before ++ event :: after →
        property (run next before s) event := by
  induction events generalizing s with
  | nil => simp [Throughout]
  | cons first rest ih =>
    rw [throughout_cons,ih]
    constructor
    · rintro ⟨atFirst,later⟩ before event after split
      cases before with
      | nil =>
        obtain ⟨rfl,-⟩ := List.cons.inj split
        exact atFirst
      | cons head before =>
        obtain ⟨rfl,tail⟩ := List.cons.inj split
        exact later before event after tail
    · intro all
      refine ⟨all [] first rest rfl,fun before event after split => ?_⟩
      exact all (first :: before) event after (by rw [split]; rfl)

theorem Throughout.mono {weak strong : S → E → Prop} {evs : List E} {s : S}
    (implies : ∀ s ev, strong s ev → weak s ev)
    (all : Throughout next strong evs s) : Throughout next weak evs s := by
  induction evs generalizing s with
  | nil => trivial
  | cons ev rest ih => exact ⟨implies _ _ all.1,ih all.2⟩

theorem Throughout.and_of_forall {prop : S → E → Prop} {always : E → Prop} {evs : List E}
    {s : S} (all : Throughout next prop evs s) (each : ∀ ev ∈ evs, always ev) :
    Throughout next (fun s ev => prop s ev ∧ always ev) evs s := by
  induction evs generalizing s with
  | nil => trivial
  | cons ev rest ih =>
    exact ⟨⟨all.1,each ev (.head _)⟩,
      ih all.2 (fun ho mem => each ho (.tail _ mem))⟩

theorem Throughout.and {fst snd : S → E → Prop} {evs : List E} {s : S}
    (all : Throughout next fst evs s) (also : Throughout next snd evs s) :
    Throughout next (fun s ev => fst s ev ∧ snd s ev) evs s := by
  induction evs generalizing s with
  | nil => trivial
  | cons ev rest ih => exact ⟨⟨all.1,also.1⟩,ih all.2 also.2⟩

/-- What one disciplined step guarantees and preserves, every disciplined run guarantees at each
step. -/
theorem Throughout.guarantee {I : S → Prop} {discipline prop : S → E → Prop}
    (step : ∀ s ev, I s → discipline s ev → prop s ev ∧ I (next s ev))
    {evs : List E} {s : S} (init : I s)
    (hd : Throughout next discipline evs s) :
    Throughout next prop evs s := by
  induction evs generalizing s with
  | nil => trivial
  | cons ev rest ih =>
    obtain ⟨now,hl⟩ := step s ev init hd.1
    exact ⟨now,ih hl hd.2⟩

end

end Frr.Trace
