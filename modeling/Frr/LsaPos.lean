import Frr.Ospf
import Frr.Trace

/-! The positions of the interfaces in the router-LSA of an area, written while the LSA is built, by
which the shortest path calculation looks interfaces up. -/
namespace Frr.LsaPos

open List Function Trace

open Frr.Ospf (IsmState)

section

/-- `fullNbrs` counts the neighbors in state Full, the router itself left out. -/
structure Port where
  operative : Bool
  state : IsmState
  type : IfType
  unnumbered : Bool
  fullNbrs : Nat
  posBeg : Nat
  posEnd : Nat
  deriving DecidableEq

/-- Its interfaces, and for each link of the installed router-LSA its interface. -/
structure Area where
  oiflist : List Nat
  port : Nat → Port
  lsa : List Nat

def Port.wanted (p : Port) : Nat :=
  match p.type with
  | .pointToPoint => (if 0 < p.fullNbrs then 1 else 0) + (if p.unnumbered then 0 else 1)
  | .broadcast => 1
  | .nbma => 1
  | .pointToMultipoint => 1+p.fullNbrs
  | .virtualLink => if p.state = .pointToPoint ∧ 0 < p.fullNbrs then 1 else 0
  | .loopback => if p.state = .loopback then 1 else 0

/-- The links that fit into the enlarged stream; `link_info_set` writes no more. -/
def linkRoom : Nat := (65535-1500-24) / 12

def Port.described (p : Port) : Bool := p.operative ∧ p.state ≠ .down

/-- One turn of the loop in `router_lsa_link_set`. -/
def describe (acc : (Nat → Port) × List Nat) (oi : Nat) : (Nat → Port) × List Nat :=
  let p := acc.1 oi
  if p.described then
    let links := acc.2 ++ replicate (min p.wanted (linkRoom - acc.2.length)) oi
    (update acc.1 oi {p with posBeg := acc.2.length, posEnd := links.length},links)
  else acc

variable (a : Area)

/-- `router_lsa_link_set`, for an LSA that is then installed. -/
def routerLsaLinkSet : Area :=
  let described := a.oiflist.foldl describe (a.port,[])
  {a with port := described.1, lsa := described.2}

def ifLookupByLsaPos (pos : Nat) : Option Nat :=
  a.oiflist.find? fun oi => (a.port oi).posBeg ≤ pos ∧ pos < (a.port oi).posEnd

section

variable (oi : Nat)

def setPort (p : Port) : Area := {a with port := update a.port oi p}

/-- A change of state in `ospf_ism_event` updates the router-LSA. -/
def ismEvent (state : IsmState) : Area :=
  if state = (a.port oi).state then a
  else routerLsaLinkSet (setPort a oi {a.port oi with state := state})

def ifDown : Area :=
  let a := ismEvent a oi .down
  setPort a oi {a.port oi with posBeg := 0, posEnd := 0}

def disabled : Area := setPort a oi {a.port oi with operative := false}

/-- `ospf_interface_state_down`, for all addresses on the interface that goes down. -/
def stateDown (ois : List Nat) : Area := ois.foldl ifDown (ois.foldl disabled a)

def ifFree : Area :=
  let a := ifDown a oi
  {a with oiflist := a.oiflist.erase oi}

/-- `ospf_area_add_if` for a new interface. -/
def addIf (p : Port) : Area :=
  let a := setPort a oi {p with state := .down, posBeg := 0, posEnd := 0}
  {a with oiflist := a.oiflist ++ [oi]}

def reconfigure (p : Port) : Area :=
  let old := a.port oi
  setPort a oi {p with state := old.state, posBeg := old.posBeg, posEnd := old.posEnd}

end

/-- A turn of the loop in `originate_my_lsa`: the positions written back. -/
def plugTurn (acc : (Nat → Port) × Nat) (oi : Nat) : (Nat → Port) × Nat :=
  let p := acc.1 oi
  if p.state = .down then acc
  else
    let links := acc.2 + (if p.type = .broadcast then 1 else 0)
    (update acc.1 oi {p with posBeg := acc.2, posEnd := links},links)

/-- Its arrays have room for three interfaces; a fourth copy is written behind them. -/
def originateMyLsa : Area :=
  {a with port := ((a.oiflist.take 3).foldl plugTurn (a.port,0)).1}

/-- `ism`: the events of the interface state machine that do not come from `ospf_if_down`. -/
inductive Event where
  | add (oi : Nat) (p : Port)
  | reconfigure (oi : Nat) (p : Port)
  | ism (oi : Nat) (state : IsmState)
  | down (oi : Nat)
  | stateDown (ois : List Nat)
  | free (oi : Nat)
  | refresh
  | pluglet

def step : Event → Area
  | .add oi p => if oi ∈ a.oiflist then a else addIf a oi p
  | .reconfigure oi p => reconfigure a oi p
  | .ism oi state => if oi ∈ a.oiflist then ismEvent a oi state else a
  | .down oi => if oi ∈ a.oiflist then ifDown a oi else a
  | .stateDown ois => LsaPos.stateDown a (ois.filter (· ∈ a.oiflist))
  | .free oi => if oi ∈ a.oiflist then ifFree a oi else a
  | .refresh => routerLsaLinkSet a
  | .pluglet => originateMyLsa a

end

section

def Port.Holds (p : Port) (pos : Nat) : Prop := p.posBeg ≤ pos ∧ pos < p.posEnd

structure Aligned (a : Area) : Prop where
  found : ∀ pos oi, a.lsa[pos]? = some oi → ifLookupByLsaPos a pos = some oi
  disjoint : a.oiflist.Pairwise fun x y => ∀ pos, ¬ ((a.port x).Holds pos ∧ (a.port y).Holds pos)
  covered : ∀ pos, pos < a.lsa.length → ∃ oi ∈ a.oiflist, (a.port oi).Holds pos

def Unlinked (port : Nat → Port) (stale : Nat → Prop) (oi : Nat) : Prop :=
  stale oi ∨ (port oi).posBeg = (port oi).posEnd

/-- From a position on, the ranges follow each other as the links do in the LSA, but for stale ones.
-/
inductive LaidOut (port : Nat → Port) (stale : Nat → Prop) : Nat → List Nat → List Nat → Prop
  | nil (pos : Nat) : LaidOut port stale pos [] []
  | skip {pos oi : Nat} {rest lsa : List Nat} (unlinked : Unlinked port stale oi)
      (later : LaidOut port stale pos rest lsa) : LaidOut port stale pos (oi :: rest) lsa
  | links {pos oi count : Nat} {rest lsa : List Nat} (linked : ¬ Unlinked port stale oi)
      (first : (port oi).posBeg = pos) (last : (port oi).posEnd = pos+count)
      (later : LaidOut port stale (pos+count) rest lsa) :
      LaidOut port stale pos (oi :: rest) (replicate count oi ++ lsa)

variable {port port' : Nat → Port} {stale stale' : Nat → Prop} {pos : Nat} {ois lsa : List Nat}

section

variable (laid : LaidOut port stale pos ois lsa)

include laid

theorem LaidOut.change (hc : ∀ oi ∈ ois, Unlinked port stale oi → Unlinked port' stale' oi)
    (hk : ∀ oi ∈ ois, ¬ Unlinked port stale oi → ¬ stale' oi ∧
      (port' oi).posBeg = (port oi).posBeg ∧ (port' oi).posEnd = (port oi).posEnd) :
    LaidOut port' stale' pos ois lsa := by
  induction laid with
  | nil pos => exact .nil pos
  | skip hu hla ih =>
    refine .skip (hc _ (.head _) hu) (ih ?_ ?_)
    · exact fun oi mem => hc oi (.tail _ mem)
    · exact fun oi mem => hk oi (.tail _ mem)
  | links hl fst last hla ih =>
    obtain ⟨hf,beg,last'⟩ := hk _ (.head _) hl
    refine .links ?_ (beg.trans fst) (last'.trans last) (ih ?_ ?_)
    · rintro (old | he)
      · exact hf old
      · exact hl (.inr (by rw [← beg,← last',he]))
    · exact fun oi mem => hc oi (.tail _ mem)
    · exact fun oi mem => hk oi (.tail _ mem)

theorem LaidOut.erase {oi : Nat}
    (hu : Unlinked port stale oi) : LaidOut port stale pos (ois.erase oi) lsa := by
  induction laid with
  | nil pos => exact .nil pos
  | @skip pos head rest lsa hs hla ih =>
    by_cases hh : head = oi
    · subst hh
      simpa using hla
    rw [erase_cons_tail (by simpa using hh)]
    exact .skip hs ih
  | @links pos head count rest lsa hl fst last hla ih =>
    have ho : head ≠ oi := fun eq => hl (eq ▸ hu)
    rw [erase_cons_tail (by simpa using ho)]
    exact .links hl fst last ih

theorem LaidOut.append {oi : Nat}
    (hu : Unlinked port stale oi) : LaidOut port stale pos (ois ++ [oi]) lsa := by
  induction laid with
  | nil pos => exact .skip hu (.nil pos)
  | skip hs hla ih => exact .skip hs ih
  | links hl fst last hla ih => exact .links hl fst last ih

theorem LaidOut.from {oi : Nat} (mem : oi ∈ ois) :
    Unlinked port stale oi ∨ pos ≤ (port oi).posBeg := by
  induction laid with
  | nil => cases mem
  | skip hu hl ih =>
    rcases mem_cons.mp mem with rfl | hl
    · exact .inl hu
    · exact ih hl
  | links hli fst last hl ih =>
    rcases mem_cons.mp mem with rfl | hl
    · exact .inr fst.ge
    · exact (ih hl).imp id fun hb => Nat.le_trans (Nat.le_add_right ..) hb

end

abbrev Exact (port : Nat → Port) : Nat → List Nat → List Nat → Prop := LaidOut port fun _ => False

theorem not_holds (hu : Unlinked port (fun _ => False) oi) (pos : Nat) : ¬ (port oi).Holds pos := by
  rintro ⟨hl,most⟩
  rcases hu with stale | he
  · exact stale
  · omega

theorem Exact.found (laid : Exact port pos ois lsa) {i oi : Nat} (at_ : lsa[i]? = some oi) :
    (ois.find? fun oi => (port oi).posBeg ≤ pos+i ∧ pos+i < (port oi).posEnd) = some oi := by
  induction laid generalizing i with
  | nil => simp at at_
  | @skip pos head rest lsa hu hl ih =>
    rw [find?_cons_of_neg (by simpa [Port.Holds] using not_holds hu (pos+i))]
    exact ih at_
  | @links pos head count rest lsa hli fst last hl ih =>
    by_cases hh : i < count
    · rw [getElem?_append_left (by simpa using hh)] at at_
      have eq : head = oi := by
        simpa [getElem?_replicate,hh] using at_
      rw [find?_cons_of_pos (by simp [fst,last,hh]),eq]
    rw [getElem?_append_right (by simpa using hh),length_replicate] at at_
    rw [find?_cons_of_neg (by simp [last]; omega)]
    have ht := ih at_
    rwa [show pos + count + (i-count) = pos + i by omega] at ht

theorem Exact.disjoint (laid : Exact port pos ois lsa) :
    ois.Pairwise fun x y => ∀ i, ¬ ((port x).Holds i ∧ (port y).Holds i) := by
  induction laid with
  | nil => exact .nil
  | skip hu hl ih =>
    exact .cons (fun y _ i hb => not_holds hu i hb.1) ih
  | links hli fst last hl ih =>
    refine .cons (fun y mem i hb => ?_) ih
    rcases hl.from mem with hu | hbe
    · exact not_holds hu i hb.2
    have below := hb.1.2
    have ha := hb.2.1
    omega

theorem Exact.aligned {a : Area} (laid : Exact a.port 0 a.oiflist a.lsa) : Aligned a where
  found pos oi at_ := by simpa [ifLookupByLsaPos] using laid.found at_
  disjoint := laid.disjoint
  covered pos hl := by
    have hf := laid.found (getElem?_eq_getElem hl)
    refine ⟨_,mem_of_find?_eq_some hf,?_⟩
    simpa [Port.Holds] using find?_some hf

end

section

def Port.bare (p : Port) : Port := {p with posBeg := 0, posEnd := 0}

theorem Port.described_congr {p q : Port} (eq : p.bare = q.bare) : p.described = q.described := by
  have operative : p.bare.operative = q.bare.operative := congrArg Port.operative eq
  have state : p.bare.state = q.bare.state := congrArg Port.state eq
  simp only [Port.bare] at operative state
  simp [Port.described,operative,state]

theorem describe_other {acc : (Nat → Port) × List Nat} {oi other : Nat} (ne : other ≠ oi) :
    (describe acc oi).1 other = acc.1 other := by
  simp only [describe]
  split
  · simp [update_of_ne ne]
  · rfl

theorem describe_bare (acc : (Nat → Port) × List Nat) (oi other : Nat) :
    ((describe acc oi).1 other).bare = (acc.1 other).bare := by
  by_cases hh : other = oi
  · subst hh
    simp only [describe]
    split
    · simp [Port.bare]
    · rfl
  · rw [describe_other hh]

theorem describe_fold_other {ois : List Nat} {acc : (Nat → Port) × List Nat} {other : Nat}
    (ne : other ∉ ois) : (ois.foldl describe acc).1 other = acc.1 other := by
  induction ois generalizing acc with
  | nil => rfl
  | cons oi rest ih =>
    obtain ⟨hh,hl⟩ := not_or.mp fun either => ne (mem_cons.mpr either)
    rw [foldl_cons,ih hl,describe_other hh]

theorem describe_fold_bare (ois : List Nat) (acc : (Nat → Port) × List Nat) (other : Nat) :
    ((ois.foldl describe acc).1 other).bare = (acc.1 other).bare := by
  induction ois generalizing acc with
  | nil => rfl
  | cons oi rest ih => rw [foldl_cons,ih,describe_bare]

theorem describe_fold_undescribed {ois : List Nat} {acc : (Nat → Port) × List Nat} {other : Nat}
    (hu : (acc.1 other).described = false) :
    (ois.foldl describe acc).1 other = acc.1 other := by
  induction ois generalizing acc with
  | nil => rfl
  | cons oi rest ih =>
    have eq : (describe acc oi).1 other = acc.1 other := by
      by_cases hh : other = oi
      · subst hh
        simp [describe,hu]
      · exact describe_other hh
    rw [foldl_cons,ih (by rw [eq]; exact hu),eq]

theorem describe_fold_laidOut {stale : Nat → Prop} {ois : List Nat} (nodup : ois.Nodup)
    {acc : (Nat → Port) × List Nat}
    (hs : ∀ oi ∈ ois, (acc.1 oi).described = false → Unlinked acc.1 stale oi)
    (hfr : ∀ oi ∈ ois, (acc.1 oi).described → ¬ stale oi) :
    ∃ lsa, (ois.foldl describe acc).2 = acc.2 ++ lsa ∧
      LaidOut (ois.foldl describe acc).1 stale acc.2.length ois lsa := by
  induction ois generalizing acc with
  | nil => exact ⟨[],by simp,.nil _⟩
  | cons oi rest ih =>
    obtain ⟨hab,hdi⟩ := nodup_cons.mp nodup
    have hl : ∀ other ∈ rest, (describe acc oi).1 other = acc.1 other := fun other mem =>
      describe_other fun eq => hab (eq ▸ mem)
    obtain ⟨lsa,ha,laid⟩ := ih hdi (fun other mem hu => by
        rw [hl other mem] at hu
        have hun := hs other (.tail _ mem) hu
        rwa [Unlinked,hl other mem])
      (fun other mem hd => by
        rw [hl other mem] at hd
        exact hfr other (.tail _ mem) hd)
    rw [foldl_cons]
    have hf : (rest.foldl describe (describe acc oi)).1 oi = (describe acc oi).1 oi :=
      describe_fold_other hab
    cases hd : (acc.1 oi).described with
    | false =>
      have eq : describe acc oi = acc := by simp [describe,hd]
      rw [eq] at ha laid hf ⊢
      refine ⟨lsa,ha,.skip ?_ laid⟩
      have hun := hs oi (.head _) hd
      rwa [Unlinked,hf]
    | true =>
      have cur := hfr oi (.head _) hd
      generalize hc : min (acc.1 oi).wanted (linkRoom - acc.2.length) = count
      have turn : describe acc oi = (update acc.1 oi
            {acc.1 oi with posBeg := acc.2.length, posEnd := acc.2.length + count},
            acc.2 ++ replicate count oi) := by
        simp [describe,hd,hc]
      have fst : ((rest.foldl describe (describe acc oi)).1 oi).posBeg = acc.2.length := by
        rw [hf,turn]
        simp
      have last : ((rest.foldl describe (describe acc oi)).1 oi).posEnd = acc.2.length + count := by
        rw [hf,turn]
        simp
      refine ⟨replicate count oi ++ lsa,?_,?_⟩
      · rw [ha,turn,append_assoc]
      have hb : (describe acc oi).2.length = acc.2.length + count := by
        rw [turn]
        simp
      rw [hb] at laid
      by_cases none : count = 0
      · subst none
        exact .skip (.inr (by rw [fst,last]; rfl)) laid
      refine .links ?_ fst last laid
      rintro (stale | he)
      · exact cur stale
      · omega

end

section

variable {a : Area} {oi : Nat} {pending : Nat → Prop}

structure Sound (a : Area) : Prop where
  nodup : a.oiflist.Nodup
  laid : Exact a.port 0 a.oiflist a.lsa
  clear : ∀ oi ∈ a.oiflist, (a.port oi).described = false → (a.port oi).posBeg = (a.port oi).posEnd

/-- While interfaces go down in turn, those to come may have stale ranges. -/
structure Going (pending : Nat → Prop) (a : Area) : Prop where
  nodup : a.oiflist.Nodup
  laid : ∃ stale, (∀ oi, stale oi → pending oi) ∧ LaidOut a.port stale 0 a.oiflist a.lsa
  clear : ∀ oi ∈ a.oiflist, (a.port oi).described = false →
    pending oi ∨ (a.port oi).posBeg = (a.port oi).posEnd
  down : ∀ oi ∈ a.oiflist, (a.port oi).state = .down → (a.port oi).posBeg = (a.port oi).posEnd

theorem Port.undescribed {p : Port} (hd : p.state = .down) : p.described = false := by
  simp [Port.described,hd]

theorem Going.sound (hg : Going (fun _ => False) a) : Sound a where
  nodup := hg.nodup
  laid := by
    obtain ⟨stale,none,laid⟩ := hg.laid
    have eq : stale = fun _ => False := funext fun oi => eq_false fun old => none oi old
    rwa [eq] at laid
  clear oi mem hu := (hg.clear oi mem hu).resolve_left id

theorem Going.mono {pending' : Nat → Prop} (hg : Going pending a)
    (implies : ∀ oi, pending oi → pending' oi) : Going pending' a where
  __ := hg
  laid := by
    obtain ⟨stale,hl,laid⟩ := hg.laid
    exact ⟨stale,fun oi old => implies oi (hl oi old),laid⟩
  clear oi mem hu := (hg.clear oi mem hu).imp (implies oi) id

theorem build_undescribed (a : Area) (oi : Nat) :
    ((routerLsaLinkSet a).port oi).described = (a.port oi).described :=
  Port.described_congr (describe_fold_bare a.oiflist (a.port,[]) oi)

theorem build_skipped (hu : (a.port oi).described = false) :
    (routerLsaLinkSet a).port oi = a.port oi :=
  @describe_fold_undescribed a.oiflist (a.port,[]) oi hu

theorem build_laidOut (nodup : a.oiflist.Nodup)
    (hc : ∀ oi ∈ a.oiflist, (a.port oi).described = false →
      pending oi ∨ (a.port oi).posBeg = (a.port oi).posEnd) :
    LaidOut (routerLsaLinkSet a).port (fun oi => pending oi ∧ (a.port oi).described = false) 0
      a.oiflist (routerLsaLinkSet a).lsa := by
  obtain ⟨lsa,ha,laid⟩ := @describe_fold_laidOut
    (fun oi => pending oi ∧ (a.port oi).described = false) a.oiflist nodup (a.port,[])
    (fun oi mem hu =>
      (hc oi mem hu).imp (fun hl => ⟨hl,hu⟩) id)
    (fun oi _ hd stale => by simp [hd] at stale)
  have eq : (routerLsaLinkSet a).lsa = lsa := ha
  rw [eq]
  exact laid

theorem Sound.build (nodup : a.oiflist.Nodup)
    (hc : ∀ oi ∈ a.oiflist, (a.port oi).described = false →
      (a.port oi).posBeg = (a.port oi).posEnd) : Sound (routerLsaLinkSet a) where
  nodup := nodup
  laid := by
    have laid := @build_laidOut a (fun _ => False) nodup fun oi mem hu => .inr (hc oi mem hu)
    simp only [false_and] at laid
    exact laid
  clear oi mem hu := by
    rw [build_undescribed] at hu
    rw [build_skipped hu]
    exact hc oi mem hu

@[simp] theorem setPort_same (p : Port) : (setPort a oi p).port oi = p := by simp [setPort]

@[simp] theorem setPort_other {other : Nat} (ne : other ≠ oi) (p : Port) :
    (setPort a oi p).port other = a.port other := by simp [setPort,ne]

theorem Going.cleared {stale : Nat → Prop} (nodup : a.oiflist.Nodup)
    (laid : LaidOut a.port stale 0 a.oiflist a.lsa)
    (hun : oi ∈ a.oiflist → Unlinked a.port stale oi)
    (hla : ∀ other, other ≠ oi → stale other → pending other)
    (hc : ∀ other ∈ a.oiflist, other ≠ oi → (a.port other).described = false →
      pending other ∨ (a.port other).posBeg = (a.port other).posEnd)
    (hd : ∀ other ∈ a.oiflist, other ≠ oi → (a.port other).state = .down →
      (a.port other).posBeg = (a.port other).posEnd) :
    Going (fun other => pending other ∧ other ≠ oi)
      (setPort a oi {a.port oi with posBeg := 0, posEnd := 0}) where
  nodup := nodup
  laid := by
    refine ⟨fun other => stale other ∧ other ≠ oi,fun other old => ⟨hla other old.2 old.1,old.2⟩,
      laid.change ?_ ?_⟩
    · intro other mem old
      by_cases hh : other = oi
      · subst hh
        exact .inr (by rw [setPort_same])
      rw [Unlinked,setPort_other hh]
      exact old.imp (fun old => ⟨old,hh⟩) id
    · intro other mem hl
      have hh : other ≠ oi := fun eq => hl (eq ▸ hun (eq ▸ mem))
      rw [setPort_other hh]
      exact ⟨fun old => hl (.inl old.1),rfl,rfl⟩
  clear other mem hu := by
    by_cases hh : other = oi
    · subst hh
      exact .inr (by rw [setPort_same])
    rw [setPort_other hh] at hu ⊢
    exact (hc other mem hh hu).imp (fun hla => ⟨hla,hh⟩) id
  down other mem hi := by
    by_cases hh : other = oi
    · subst hh
      rw [setPort_same]
    rw [setPort_other hh] at hi ⊢
    exact hd other mem hh hi

theorem Going.ifDown (hg : Going pending a) (oi : Nat) :
    Going (fun other => pending other ∧ other ≠ oi) (ifDown a oi) := by
  simp only [LsaPos.ifDown,ismEvent]
  split
  · rename_i already
    obtain ⟨stale,hl,laid⟩ := hg.laid
    apply Going.cleared hg.nodup laid
    · exact fun mem => .inr (hg.down oi mem already.symm)
    · exact fun other _ => hl other
    · exact fun other mem _ => hg.clear other mem
    · exact fun other mem _ => hg.down other mem
  · generalize falls : setPort a oi {a.port oi with state := .down} = b
    have list : b.oiflist = a.oiflist := by rw [← falls]; rfl
    have others : ∀ other, other ≠ oi → b.port other = a.port other := fun other ne => by
      rw [← falls,setPort_other ne]
    have hi : (b.port oi).state = .down := by rw [← falls,setPort_same]
    have hc : ∀ other ∈ b.oiflist, (b.port other).described = false →
        (pending other ∨ other = oi) ∨ (b.port other).posBeg = (b.port other).posEnd := by
      intro other mem hu
      by_cases hh : other = oi
      · exact .inl (.inr hh)
      rw [others other hh] at hu ⊢
      exact (hg.clear other (list ▸ mem) hu).imp .inl id
    have nodup : b.oiflist.Nodup := list ▸ hg.nodup
    have hu := Port.undescribed hi
    apply @Going.cleared (routerLsaLinkSet b) oi pending _ nodup (build_laidOut nodup hc)
    · exact fun _ => .inl ⟨.inr rfl,hu⟩
    · exact fun other ne stale => stale.1.resolve_right ne
    · intro other mem ne hs
      rw [build_undescribed] at hs
      rw [build_skipped hs]
      exact (hc other mem hs).imp (fun hl => hl.resolve_right ne) id
    intro other mem ne otherDown
    have hs := Port.undescribed otherDown
    rw [build_undescribed] at hs
    rw [build_skipped hs] at otherDown ⊢
    rw [others other ne] at otherDown ⊢
    exact hg.down other (list ▸ mem) otherDown

theorem Sound.going (hs : Sound a) (pending : Nat → Prop) : Going pending a where
  nodup := hs.nodup
  laid := ⟨_,fun _ => False.elim,hs.laid⟩
  clear oi mem hu := .inr (hs.clear oi mem hu)
  down oi mem hi := hs.clear oi mem (Port.undescribed hi)

theorem Sound.ifDown (hs : Sound a) (oi : Nat) : Sound (ifDown a oi) := by
  have hg := (hs.going fun _ => False).ifDown oi
  exact (hg.mono fun _ hb => hb.1).sound

theorem Going.disabled (hg : Going pending a) (oi : Nat) :
    Going (fun other => pending other ∨ other = oi) (disabled a oi) where
  nodup := hg.nodup
  laid := by
    obtain ⟨stale,hla,laid⟩ := hg.laid
    have poss : ∀ other, ((LsaPos.disabled a oi).port other).posBeg = (a.port other).posBeg ∧
        ((LsaPos.disabled a oi).port other).posEnd = (a.port other).posEnd := by
      intro other
      by_cases hh : other = oi
      · subst hh
        simp [LsaPos.disabled]
      · simp [LsaPos.disabled,hh]
    refine ⟨stale,fun other old => .inl (hla other old),laid.change ?_ ?_⟩
    · intro other _ hun
      rwa [Unlinked,(poss other).1,(poss other).2]
    · exact fun other _ hl => ⟨fun old => hl (.inl old),poss other⟩
  clear other mem hu := by
    by_cases hh : other = oi
    · exact .inl (.inr hh)
    simp only [LsaPos.disabled,setPort_other hh] at hu ⊢
    exact (hg.clear other mem hu).imp .inl id
  down other mem hi := by
    by_cases hh : other = oi
    · subst hh
      simp only [LsaPos.disabled,setPort_same] at hi ⊢
      exact hg.down other mem hi
    simp only [LsaPos.disabled,setPort_other hh] at hi ⊢
    exact hg.down other mem hi

theorem Going.disables {ois : List Nat} {a : Area} {pending : Nat → Prop}
    (hg : Going pending a) :
    Going (fun ho => pending ho ∨ ho ∈ ois) (ois.foldl LsaPos.disabled a) := by
  induction ois generalizing a pending with
  | nil => exact hg.mono fun _ => .inl
  | cons oi rest ih =>
    apply (ih (hg.disabled oi)).mono
    rintro ho ((hla | rfl) | hl)
    · exact .inl hla
    · exact .inr (.head _)
    · exact .inr (.tail _ hl)

theorem Going.ifDowns {ois : List Nat} {a : Area} (hg : Going (· ∈ ois) a) :
    Sound (ois.foldl LsaPos.ifDown a) := by
  induction ois generalizing a with
  | nil => exact (hg.mono fun _ mem => by cases mem).sound
  | cons oi rest ih =>
    apply ih
    apply (hg.ifDown oi).mono
    rintro ho ⟨mem,ne⟩
    exact (mem_cons.mp mem).resolve_left ne

theorem Sound.stateDown (hs : Sound a) (ois : List Nat) : Sound (stateDown a ois) := by
  apply Going.ifDowns
  apply (Going.disables (hs.going fun _ => False)).mono
  exact fun _ either => either.resolve_left id

theorem Sound.ifFree (hs : Sound a) (oi : Nat) : Sound (ifFree a oi) := by
  have hd := hs.ifDown oi
  refine ⟨hd.nodup.erase oi,hd.laid.erase (.inr ?_),fun ho mem => ?_⟩
  · simp [LsaPos.ifDown]
  · exact hd.clear ho (mem_of_mem_erase mem)

theorem Sound.addIf (hs : Sound a) {oi : Nat} (new : oi ∉ a.oiflist) (p : Port) :
    Sound (addIf a oi p) := by
  have others : ∀ other ∈ a.oiflist, (LsaPos.addIf a oi p).port other = a.port other :=
    fun other mem => setPort_other (fun eq : other = oi => new (eq ▸ mem)) _
  refine ⟨?_,?_,fun other mem hu => ?_⟩
  · exact nodup_append.mpr ⟨hs.nodup,nodup_singleton oi,by
      rintro x mem y own rfl
      cases mem_singleton.mp own
      exact new mem⟩
  · apply LaidOut.append
    · apply hs.laid.change
      · intro other mem hun
        rwa [Unlinked,others other mem]
      intro other mem hl
      rw [others other mem]
      exact ⟨id,rfl,rfl⟩
    · exact .inr (by simp [LsaPos.addIf])
  · rcases mem_append.mp mem with old | own
    · rw [others other old] at hu ⊢
      exact hs.clear other old hu
    cases mem_singleton.mp own
    simp [LsaPos.addIf]

theorem Sound.reconfigure (hs : Sound a) {oi : Nat} {p : Port}
    (hst : oi ∈ a.oiflist → p.operative = false → (a.port oi).posBeg = (a.port oi).posEnd) :
    Sound (reconfigure a oi p) := by
  have poss : ∀ other, ((LsaPos.reconfigure a oi p).port other).posBeg =
      (a.port other).posBeg ∧
      ((LsaPos.reconfigure a oi p).port other).posEnd = (a.port other).posEnd := by
    intro other
    by_cases hh : other = oi
    · subst hh
      simp [LsaPos.reconfigure]
    · simp [LsaPos.reconfigure,hh]
  refine ⟨hs.nodup,hs.laid.change ?_ ?_,fun other mem hu => ?_⟩
  · intro other _ hun
    rwa [Unlinked,(poss other).1,(poss other).2]
  · exact fun other _ hl => ⟨id,poss other⟩
  rw [(poss other).1,(poss other).2]
  by_cases hh : other = oi
  · subst hh
    cases link : p.operative with
    | false => exact hst mem link
    | true =>
      apply hs.clear other mem
      have hd : (a.port other).state = .down := by
        simpa [LsaPos.reconfigure,Port.described,link] using hu
      exact Port.undescribed hd
  · simp only [LsaPos.reconfigure,setPort_other hh] at hu
    exact hs.clear other mem hu

theorem Sound.ismEvent (hs : Sound a) {oi : Nat} {state : IsmState}
    (hst : state = .down → oi ∈ a.oiflist → (a.port oi).posBeg = (a.port oi).posEnd) :
    Sound (ismEvent a oi state) := by
  simp only [LsaPos.ismEvent]
  split
  · exact hs
  refine @Sound.build (setPort a oi _) hs.nodup fun ho mem hu => ?_
  by_cases hh : ho = oi
  · subst hh
    rw [setPort_same] at hu ⊢
    by_cases falls : state = .down
    · exact hst falls mem
    apply hs.clear ho mem
    simp only [Port.described,decide_eq_false_iff_not] at hu ⊢
    exact fun hb => hu ⟨hb.1,falls⟩
  · rw [setPort_other hh] at hu ⊢
    exact hs.clear ho mem hu

theorem plugTurn_same {port : Nat → Port} {pos : Nat} {ois lsa : List Nat}
    (laid : Exact port pos ois lsa)
    (hc : ∀ oi ∈ ois, (port oi).state = .down → (port oi).posBeg = (port oi).posEnd)
    (hs : ∀ oi ∈ ois, (port oi).state ≠ .down →
      (port oi).type = .broadcast ∧ (port oi).posEnd = (port oi).posBeg + 1) :
    (ois.foldl plugTurn (port,pos)).1 = port := by
  induction laid with
  | nil => rfl
  | @skip pos oi rest lsa hun hla ih =>
    have hd : (port oi).state = .down := by
      by_contra up
      have one := (hs oi (.head _) up).2
      have he := hun.resolve_left id
      omega
    have eq : plugTurn (port,pos) oi = (port,pos) := by simp [plugTurn,hd]
    rw [foldl_cons,eq]
    apply ih
    · exact fun ho mem => hc ho (.tail _ mem)
    · exact fun ho mem => hs ho (.tail _ mem)
  | @links pos oi count rest lsa hl fst last hla ih =>
    have up : (port oi).state ≠ .down := fun hd =>
      hl (.inr (hc oi (.head _) hd))
    obtain ⟨broadcast,one⟩ := hs oi (.head _) up
    have count1 : count = 1 := by omega
    subst count1
    have eq : plugTurn (port,pos) oi = (port,pos+1) := by
      have hu : ({port oi with posBeg := pos, posEnd := pos + 1} : Port) = port oi := by
        rw [← last,← fst]
      simp only [plugTurn,if_neg up,if_pos broadcast]
      rw [hu,update_eq_self]
    rw [foldl_cons,eq]
    apply ih
    · exact fun ho mem => hc ho (.tail _ mem)
    · exact fun ho mem => hs ho (.tail _ mem)

/-- An interface with links goes down only through `ospf_if_down`, and becomes inoperative only when
its link goes down. The pluglet runs for at most three interfaces, all broadcast, each with one link
in the LSA if it is up. -/
def Orderly (a : Area) : Event → Prop
  | .reconfigure oi p =>
    oi ∈ a.oiflist → p.operative = false → (a.port oi).posBeg = (a.port oi).posEnd
  | .ism oi state => state = .down → oi ∈ a.oiflist → (a.port oi).posBeg = (a.port oi).posEnd
  | .pluglet => a.oiflist.length ≤ 3 ∧ ∀ oi ∈ a.oiflist, (a.port oi).state ≠ .down →
      (a.port oi).type = .broadcast ∧ (a.port oi).posEnd = (a.port oi).posBeg + 1
  | _ => True

instance (a : Area) : (event : Event) → Decidable (Orderly a event)
  | .add .. => inferInstanceAs (Decidable True)
  | .reconfigure .. => inferInstanceAs (Decidable (_ → _ → _))
  | .ism .. => inferInstanceAs (Decidable (_ → _ → _))
  | .down .. => inferInstanceAs (Decidable True)
  | .stateDown .. => inferInstanceAs (Decidable True)
  | .free .. => inferInstanceAs (Decidable True)
  | .refresh => inferInstanceAs (Decidable True)
  | .pluglet => inferInstanceAs (Decidable (_ ∧ ∀ oi ∈ a.oiflist, _))

theorem Sound.step (hs : Sound a) {ev : Event} (ho : Orderly a ev) : Sound (step a ev) := by
  cases ev with
  | add oi p =>
    simp only [LsaPos.step]
    split
    · exact hs
    rename_i new
    exact hs.addIf new p
  | reconfigure oi p => exact hs.reconfigure ho
  | ism oi state =>
    simp only [LsaPos.step]
    split
    · exact hs.ismEvent ho
    · exact hs
  | down oi =>
    simp only [LsaPos.step]
    split
    · exact hs.ifDown oi
    · exact hs
  | stateDown ois => exact hs.stateDown _
  | free oi =>
    simp only [LsaPos.step]
    split
    · exact hs.ifFree oi
    · exact hs
  | refresh => exact Sound.build hs.nodup hs.clear
  | pluglet =>
    have eq : originateMyLsa a = a := by
      rw [originateMyLsa,take_of_length_le ho.1]
      congr
      apply plugTurn_same hs.laid _ ho.2
      exact fun oi mem hd => hs.clear oi mem (Port.undescribed hd)
    rw [LsaPos.step,eq]
    exact hs

theorem Sound.run {evs : List Event} {a : Area} (hs : Sound a)
    (ho : Throughout LsaPos.step Orderly evs a) :
    Sound (run LsaPos.step evs a) := by
  induction evs generalizing a with
  | nil => exact hs
  | cons ev rest ih => exact ih (hs.step ho.1) ho.2

def vacant : Area := ⟨[],fun _ => ⟨false,.down,.broadcast,false,0,0,0⟩,[]⟩

def plain (type : IfType) : Port := ⟨true,.down,type,false,0,0,0⟩

def lans : List Event :=
  [.add 1 (plain .broadcast), .ism 1 .dr, .add 2 (plain .broadcast), .ism 2 .waiting, .pluglet,
    .stateDown [1], .refresh]

end

end Frr.LsaPos
