import Frr.Ism
import Mathlib.Data.List.Perm.Basic

/-! The active interfaces of an area, which decide whether the router is an area border router. -/
namespace Frr.Ism

open List Option

def Interface.up (oi : Interface) : Bool := oi.state ≠ code .down

/-- The counter, when `others` of the other interfaces of the area are not Down. -/
def Counts (others : Nat) (oi : Interface) : Prop := oi.actInts = others + if oi.up then 1 else 0

/-- The pluglet for the election returns Down as 1 only. -/
def Pluglets.Tame (plugs : Pluglets) : Prop :=
  ∀ rep, plugs.drElection = some rep → ∀ oi, (rep oi).toUInt8 = 1 → (rep oi).toUInt32 = 1

variable {plugs : Pluglets} {others : Nat} {oi oi' : Interface} {ev : Event}

theorem code_tame (now : Ospf.IsmState) :
    (code now).toUInt32.toUInt8 = 1 → (code now).toUInt32 = 1 := by
  cases now <;> decide

theorem Counts.change {state : UInt32} (hc : Counts others oi)
    (ht : state.toUInt8 = 1 → state = 1) (hdi : state ≠ oi.state.toUInt32) :
    Counts others (ismChangeState plugs oi state) := by
  unfold ismChangeState
  split
  · exact hc
  simp only [Counts,Interface.up,code] at *
  by_cases hd : state = 1
  · have old : oi.state ≠ 1 := fun eq => hdi (by rw [eq,hd]; rfl)
    simp [hd,hc,old]
  · by_cases old : oi.state = 1
    · simp [hd,hc,old,mt ht hd]
    · simp [hd,hc,old,mt ht hd]

theorem Counts.arrive {returned : UInt32} (hc : Counts others oi)
    (ht : returned.toUInt8 = 1 → returned = 1)
    (ha : arrive plugs oi ev returned = some oi') : Counts others oi' := by
  obtain ⟨next,hr,rfl⟩ := map_eq_some_iff.mp ha
  have ht' : next.toUInt8 = 1 → next = 1 := by
    split at hr
    · obtain ⟨now,-,rfl⟩ := map_eq_some_iff.mp hr
      exact code_tame _
    · exact Option.some.inj hr ▸ ht
  split
  · exact hc.change ht' ‹_›
  · exact hc

theorem Counts.election (hc : Counts others oi) (ht : plugs.Tame)
    (ha : Ism.arrive plugs (drElection oi plugs).1 ev (drElection oi plugs).2 = some oi') :
    Counts others oi' := by
  refine Counts.arrive ?_ ?_ ha
  · unfold drElection nativeElection
    split
    · exact hc
    · dsimp only
      split <;> exact hc
  · unfold drElection
    split
    · next rep injected =>
      rw [UInt64.toUInt8_toUInt32]
      exact ht rep injected oi
    · exact code_tame _

theorem Counts.neighborChange (ht : plugs.Tame) (hc : Counts others oi)
    (ha : neighborChange plugs oi = some oi') : Counts others oi' := by
  obtain ⟨now,-,ha⟩ := bind_eq_some_iff.mp ha
  split at ha
  · exact hc.election ht ha
  · exact hc.arrive (by decide) ha

theorem Counts.killNbrs (ht : plugs.Tame) {before rest : List Slot} {oi : Interface}
    (hc : Counts others oi) (ha : killNbrs plugs before rest oi = some oi') :
    Counts others oi' := by
  induction rest generalizing before oi with
  | nil =>
    cases ha
    exact hc
  | cons slot rest ih =>
    cases slot with
    | self => exact ih hc ha
    | other nbr =>
      rw [Ism.killNbrs] at ha
      split at ha
      · obtain ⟨hch,notified,ha⟩ := bind_eq_some_iff.mp ha
        refine ih (Counts.neighborChange ht ?_ notified) ha
        exact hc
      · refine ih ?_ ha
        exact hc

theorem Counts.ismEvent (ht : plugs.Tame) (hc : Counts others oi)
    (ha : ismEvent plugs oi ev = some oi') : Counts others oi' := by
  obtain ⟨now,-,ha⟩ := bind_eq_some_iff.mp ha
  obtain ⟨res,did,ha⟩ := bind_eq_some_iff.mp ha
  have hs : Counts others res.1 → (res.2.toUInt8 = 1 → res.2 = 1) →
      Counts others oi' := fun hc ht => hc.arrive ht ha
  cases act : (ism now ev).1 <;> rw [act] at did
  case interfaceDown =>
    obtain ⟨_,cleaned,rfl⟩ := map_eq_some_iff.mp did
    obtain ⟨_,killed,rfl⟩ := map_eq_some_iff.mp cleaned
    refine hs ?_ nofun
    exact (hc.killNbrs ht killed :)
  all_goals cases did
  case interfaceUp => exact hs hc (code_tame _)
  case ignore | loopInd => exact hs hc nofun
  all_goals exact hc.election ht ha

/-- `struct ospf_area`. -/
structure Area where
  backbone : Bool
  actInts : Nat := 0
  oiflist : List Interface := []

inductive Operation where
  | create (oi : Interface)
  | happen (i : Nat) (happening : Happening)
  | delete (i : Nat) (plugs : Pluglets)

def Area.happen (area : Area) (i : Nat) (happening : Happening) : Option Area := do
  let oi ← area.oiflist[i]?
  let oi ← step {oi with actInts := area.actInts} happening
  some {area with actInts := oi.actInts, oiflist := area.oiflist.set i oi}

/-- `ospf_if_new` makes an interface that is Down. `ospf_if_free` takes it down, asserts that it
is, and removes it. -/
def Area.step (area : Area) : Operation → Option Area
  | .create oi => some {area with oiflist := area.oiflist ++ [{oi with state := code .down}]}
  | .happen i happening => area.happen i happening
  | .delete i plugs => do
    let area ← area.happen i (.event plugs .interfaceDown)
    let oi ← area.oiflist[i]?
    if oi.up then none else some {area with oiflist := area.oiflist.eraseIdx i}

inductive AbrType where
  | unknown | standard | ibm | cisco | shortcut

/-- The flag of `ospf_check_abr_status`, by which areas count as attached. -/
def abrStatus (attached : Area → Bool) (type : AbrType) (areas : List Area) (abr : Bool) : Bool :=
  let configured := areas.filter fun area => !area.oiflist.isEmpty
  let active := areas.filter attached
  match type with
  | .shortcut | .standard => 1 < active.length
  | .ibm => 1 < active.length ∧ configured.any (·.backbone)
  | .cisco => 1 < configured.length ∧ active.any (·.backbone)
  | .unknown => abr

def checkAbrStatus : AbrType → List Area → Bool → Bool := abrStatus (0 < ·.actInts)

def Area.Counted (area : Area) : Prop := area.actInts = area.oiflist.countP (·.up)

def Operation.Tame : Operation → Prop
  | .happen _ (.event plugs _) => plugs.Tame
  | .delete _ plugs => plugs.Tame
  | _ => True

variable {area area' : Area}

theorem Area.Counted.happen {i : Nat} {happening : Happening} (hco : area.Counted)
    (ht : Operation.Tame (.happen i happening)) (ha : area.happen i happening = some area') :
    area'.Counted := by
  obtain ⟨oi,hh,ha⟩ := bind_eq_some_iff.mp ha
  obtain ⟨oi',hs,ha⟩ := bind_eq_some_iff.mp ha
  cases ha
  obtain ⟨hi,rfl⟩ := List.getElem?_eq_some_iff.mp hh
  have split := (getElem_cons_eraseIdx_perm hi).countP_eq (·.up)
  have split' := (set_perm_cons_eraseIdx hi oi').countP_eq (·.up)
  rw [countP_cons] at split split'
  generalize (area.oiflist.eraseIdx i).countP (·.up) = others at split split'
  have hc : Counts others {area.oiflist[i] with actInts := area.actInts} := hco.trans split.symm
  have hc' : Counts others oi' := by
    cases happening with
    | event plugs ev => exact hc.ismEvent ht hs
    | neighbors | configure =>
      cases hs
      exact hc
  exact (hc' : oi'.actInts = _).trans split'.symm

theorem Area.Counted.step {op : Operation} (hc : area.Counted)
    (ht : op.Tame) (ha : area.step op = some area') : area'.Counted := by
  cases op with
  | create oi =>
    cases ha
    simpa [Counted,Interface.up] using hc
  | happen i hh => exact hc.happen ht ha
  | delete i plugs =>
    obtain ⟨area,downed,ha⟩ := bind_eq_some_iff.mp ha
    obtain ⟨oi,hhe,ha⟩ := bind_eq_some_iff.mp ha
    have hg : Operation.Tame (.happen i (.event plugs .interfaceDown)) := ht
    have now := hc.happen hg downed
    split at ha
    · cases ha
    next down =>
    cases ha
    obtain ⟨hi,rfl⟩ := List.getElem?_eq_some_iff.mp hhe
    have split := (getElem_cons_eraseIdx_perm hi).countP_eq (·.up)
    rw [countP_cons_of_neg down] at split
    exact now.trans split.symm

/-- What operations on a new area lead to. -/
def Reached (area : Area) : Prop :=
  ∃ (backbone : Bool) (operations : List Operation),
    (∀ operation ∈ operations, operation.Tame) ∧
      operations.foldlM Area.step {backbone} = some area

theorem run_counted {ops : List Operation} (hc : area.Counted) (ht : ∀ op ∈ ops, op.Tame)
    (ha : ops.foldlM Area.step area = some area') : area'.Counted := by
  induction ops generalizing area with
  | nil =>
    cases ha
    exact hc
  | cons op rest ih =>
    obtain ⟨next,hs,ha⟩ := bind_eq_some_iff.mp ha
    have now := hc.step (ht op (.head _)) hs
    exact ih now (fun ho mem => ht ho (.tail _ mem)) ha

theorem actInts_exact (areas : List Area) (reached : ∀ area ∈ areas, Reached area) :
    (∀ area ∈ areas, area.actInts = area.oiflist.countP (·.up)) ∧ ∀ type abr,
      checkAbrStatus type areas abr = abrStatus (·.oiflist.any (·.up)) type areas abr := by
  have he (area : Area) (mem : area ∈ areas) : area.Counted := by
    obtain ⟨backbone,ops,ht,ha⟩ := reached area mem
    have new : Area.Counted {backbone} := rfl
    exact run_counted new ht ha
  refine ⟨he,fun type abr => ?_⟩
  have eq : areas.filter (0 < ·.actInts) = areas.filter (·.oiflist.any (·.up)) := by
    refine filter_congr fun area mem => ?_
    rw [he area mem,Bool.eq_iff_iff]
    simp [countP_pos_iff]
  simp [checkAbrStatus,abrStatus,eq]

def native : Pluglets := ⟨none, false⟩

/-- An area with an interface that came up. -/
def attached (backbone : Bool) : Area := ⟨backbone, 1, [{waiting with actInts := 1}]⟩

theorem attached_abr : checkAbrStatus .cisco [attached true,attached false] false := by
  have hr (backbone : Bool) : Reached (attached backbone) := by
    refine ⟨backbone,[.create waiting,.happen 0 (.event native .interfaceUp)],?_,?_⟩
    · simp [Operation.Tame,Pluglets.Tame,native]
    · cases backbone <;> rfl
  exact ((actInts_exact _ (by simp [hr])).2 _ _).trans (by decide)

/-- A pluglet that returns 257 takes the interface Down, and the area still counts it: a router
with an interface in the backbone becomes an area border router. -/
theorem down_counted : let operations : List Operation := [.create waiting,
      .happen 0 (.event native .interfaceUp),.happen 0 (.event ⟨some fun _ => 257,false⟩ .waitTimer)]
    (operations.foldlM Area.step {backbone := true}).map (fun area =>
      (area.actInts,area.oiflist.map (·.state))) = some (1,[1]) := by
  decide

end Frr.Ism
