import Frr.NsmSound

/-! Runs of the daemon: any interleaving of flooding, acknowledgments, installations, MaxAge
removal, events, and neighbors that come and go. -/
namespace Frr.Ospf

open List Function Daemon Net Counting

section

variable {coloured : Prop} {exempt : Nat → Prop} {full : Nat → Bool} {d : Daemon} {hooks : Hooks}
  {n : Nat} {state : NsmState}

def Daemon.FallsBack (d : Daemon) (n : Nat) (state : NsmState) (m : Nat) : Prop :=
  (.exStart < (d.net.neighbor n).state ∧ state ≤ .exStart) ∧ m = n

/-- Only a neighbor that falls back may still have a list. -/
theorem Sound.setState (sound : Sound coloured exempt full d) (only : ∀ m, exempt m → m = n)
    (hr : exempt n → .exchange ≤ state) :
    Sound coloured (d.FallsBack n state) full (d.setState n state) := by
  apply sound.relabel
  · rfl
  · rfl
  · intro i mem
    simp [nbrKey,setNbr]
  intro hu
  refine ⟨(sound.quiet hu).plain,fun m ho low => ?_⟩
  have hs := (sound.quiet hu).silent m
  by_cases hh : m = n
  · subst hh
    simp only [setNbr,update_self] at low ⊢
    have hb : (d.net.neighbor m).state < .exchange := by
      by_contra high
      refine ho ⟨⟨?_,?_⟩,rfl⟩
      · exact lt_of_lt_of_le (by decide) (not_lt.mp high)
      revert low
      cases state <;> decide
    exact hs (fun one => absurd low (not_lt.mpr (hr one))) hb
  · simp only [setNbr,update_of_ne hh] at low ⊢
    exact hs (fun one => hh (only m one)) low

section

variable {e : Daemon} (step : Step coloured exempt full d e) (ha : ∀ m, exempt m → m ∈ d.live)

include step ha

theorem Step.works {evs : List Event} (hc : ∀ event ∈ evs, event.Colours coloured) :
    Step coloured exempt full d (e.put (works e.toState evs)) :=
  step.trans (step.sound.works (fun m one => step.frame.live ▸ ha m one) hc)

theorem Step.elect (hc : hooks.Colours coloured) {oi : Nat}
    {old : NsmState} : Step coloured exempt full d (e.elect hooks oi old state) := by
  simp only [Daemon.elect]
  split
  · exact step.works ha hc.election
  · exact step

theorem Step.crossFull (hc : hooks.Colours coloured) (mem : n ∈ d.live)
    {old : NsmState} (hb : full n = decide (old = .full)) :
    Step coloured exempt (update full n (decide (state = .full))) d
      (e.crossFull hooks (d.net.neighbor n).oi old state) := by
  have ha' : ∀ m, exempt m → m ∈ e.live := fun m one => step.frame.live ▸ ha m one
  simp only [Daemon.crossFull]
  split
  · rename_i crosses
    have flips : full n = !decide (state = .full) := by
      rw [hb]
      rcases crosses with ⟨left,right⟩ | ⟨left,right⟩ <;> simp [left,right]
    exact step.trans (step.sound.fullChange ha' hc (step.frame.live ▸ mem) flips (step.frame.oi n))
  · rename_i hs
    have eq : decide (state = .full) = full n := by
      rw [hb]
      by_cases was : old = .full <;> by_cases is : state = .full <;> simp_all
    rw [eq,update_eq_self]
    exact step

end

theorem Step.fallBack {e : Daemon} {old : NsmState}
    (step : Step coloured (fun m => (.exStart < old ∧ state ≤ .exStart) ∧ m = n) full d e)
    (mem : n ∈ d.live) :
    Step coloured (fun _ => False) full d (e.fallBack n old state) := by
  have hq := step.sound.quiet
  simp only [Daemon.fallBack]
  split
  · have hc := @Sound.nsmClearAdj _ _ _ e n step.sound fun m one => step.frame.live ▸ one.2 ▸ mem
    refine ⟨{hc.sound with quiet := fun hu => ?_},step.frame.trans hc.frame⟩
    refine ⟨(hc.sound.quiet hu).plain,fun m _ low => ?_⟩
    exact (hc.sound.quiet hu).silent m (fun one => one.2 one.1.2) low
  · rename_i hs
    refine ⟨{step.sound with quiet := fun hu => ?_},step.frame⟩
    refine ⟨(hq hu).plain,fun m _ low => ?_⟩
    exact (hq hu).silent m (fun one => hs one.1) low

theorem Sound.nsmChangeState (sound : Sound coloured exempt full d)
    (only : ∀ m, exempt m → m = n) (hr : exempt n → .exchange ≤ state)
    (hc : hooks.Colours coloured) (live : n ∈ d.live)
    (hb : full n = decide ((d.net.neighbor n).state = .full)) :
    Step coloured (fun _ => False) (update full n (decide (state = .full)))
      (d.setState n state) (nsmChangeState hooks d n state) := by
  have ha : ∀ m, d.FallsBack n state m → m ∈ d.live := fun m one => one.2 ▸ live
  have hh : ((d.setState n state).net.neighbor n).oi = (d.net.neighbor n).oi := by
    simp [Daemon.setState,Net.setNbr]
  have start : Step coloured (d.FallsBack n state) full (d.setState n state)
      (d.setState n state) := ⟨sound.setState only hr,.refl _⟩
  have elected := @Step.elect _ _ _ _ hooks state _ start ha hc (d.net.neighbor n).oi
    (d.net.neighbor n).state
  have hco := @Step.crossFull _ _ _ _ hooks n state _ elected ha hc live _ hb
  rw [hh] at hco
  exact (hco.works ha hc.opaqueChange).fallBack live

end

section

variable {coloured : Prop} {exempt : Nat → Prop} {full : Nat → Bool} {d : Daemon} {n : Nat}

theorem mem_slot {oi : Nat} {key : UInt32} {m : Nat} (hf : d.inSlot oi key = some m) :
    m ∈ d.net.nbrs oi ∧ d.slot m = key := by
  simp only [inSlot] at hf
  have hm := find?_some hf
  exact ⟨mem_of_find?_eq_some hf,by simpa using hm⟩

theorem Sound.setNbrs (sound : Sound coloured exempt full d) {oi m : Nat} :
    Sound coloured exempt full (d.setNbrs oi ((d.net.nbrs oi).erase m)) where
  __ := sound
  listed i k hm := by
    apply sound.listed i k
    by_cases hh : i = oi
    · subst hh
      simp only [Daemon.setNbrs,update_self] at hm
      exact mem_of_mem_erase hm
    · simpa [Daemon.setNbrs,update_of_ne hh] using hm
  slots i := by
    by_cases hh : i = oi
    · subst hh
      simp only [Daemon.setNbrs,update_self]
      exact (sound.slots i).sublist ((erase_sublist ..).map d.slot)
    · simpa [Daemon.setNbrs,update_of_ne hh] using sound.slots i
  counted := ⟨sound.counted.keyed,sound.counted.alive,sound.counted.counter⟩
  quiet hu := ⟨(sound.quiet hu).plain,(sound.quiet hu).silent⟩

theorem unlist_eq : d.unlist n = d ∨ ∃ m, d.unlist n = d.setNbrs (d.net.neighbor n).oi
      ((d.net.nbrs (d.net.neighbor n).oi).erase m) := by
  simp only [unlist]
  split
  · exact .inr ⟨_,rfl⟩
  split
  · exact .inr ⟨_,rfl⟩
  · exact .inl rfl

theorem Sound.unlist (sound : Sound coloured exempt full d) :
    Sound coloured exempt full (d.unlist n) := by
  rcases @unlist_eq d n with hs | ⟨m,eq⟩
  · rw [hs]
    exact sound
  rw [eq]
  exact sound.setNbrs

theorem Sound.unlist_gone (sound : Sound coloured exempt full d) (oi : Nat) :
    n ∉ (d.unlist n).net.nbrs oi := by
  intro mem
  have hb : n ∈ d.net.nbrs oi := by
    rcases @unlist_eq d n with hs | ⟨m,eq⟩
    · rwa [hs] at mem
    rw [eq] at mem
    by_cases hh : oi = (d.net.neighbor n).oi
    · subst hh
      simp only [Daemon.setNbrs,update_self] at mem
      exact mem_of_mem_erase mem
    · simpa [Daemon.setNbrs,update_of_ne hh] using mem
  obtain ⟨-,hho,slot⟩ := sound.listed oi n hb
  subst hho
  have nodup := sound.slots (d.net.neighbor n).oi
  cases hf : d.inSlot (d.net.neighbor n).oi (nbrKey d.toState n) with
  | none =>
    have none := find?_eq_none.mp hf n hb
    exact none (decide_eq_true slot)
  | some m =>
    obtain ⟨hi,hs⟩ := mem_slot hf
    have eq : m = n := inj_on_of_nodup_map nodup hi hb (hs.trans slot.symm)
    subst eq
    simp only [Daemon.unlist,hf,Daemon.setNbrs,update_self] at mem
    exact (List.Nodup.of_map _ nodup).not_mem_erase mem

theorem unlist_net : (d.unlist n).net.neighbor = d.net.neighbor ∧ (d.unlist n).live = d.live ∧
    (d.unlist n).core = d.core ∧ (d.unlist n).nextNbr = d.nextNbr := by
  rcases @unlist_eq d n with hs | ⟨m,eq⟩
  · rw [hs]
    exact ⟨rfl,rfl,rfl,rfl⟩
  rw [eq]
  exact ⟨rfl,rfl,rfl,rfl⟩

section

variable (sound : Sound coloured exempt full d)

include sound

theorem Sound.nbrFree (none : ∀ m, ¬ exempt m)
    (hg : ∀ oi, n ∉ d.net.nbrs oi) (low : full n = false) :
    Sound coloured exempt full (d.nbrFree n) := by
  have hc := (@Sound.clearLists coloured exempt full d n sound
    fun m one => absurd one (none m)).sound
  obtain ⟨hm,he⟩ := @Moves.clearLists (anyObject coloured exempt) d.core d.net n
    fun key r hf => (sound.counted.keyed n key r hf).1
  have hs (r : Nat) : (Ospf.clearLists d.core n d.net).holds n r = false := by
    rw [holds,he]
    rfl
  exact
    { refers := hc.refers
      __ := hc
      nodup := hc.nodup.erase n
      bound := fun m mem => hc.bound m (mem_of_mem_erase mem)
      homes := fun m mem => hc.homes m (mem_of_mem_erase mem)
      listed := fun oi m mem => by
        obtain ⟨live,rest⟩ := hc.listed oi m mem
        refine ⟨(mem_erase_of_ne fun eq => hg oi ?_).mpr live,rest⟩
        have hi : m ∈ (Ospf.clearLists d.core n d.net).nbrs oi := mem
        rw [hm.alike.nbrs] at hi
        exact eq ▸ hi
      counted :=
        { keyed := hc.counted.keyed
          alive := fun m key r hf => by
            refine (mem_erase_of_ne fun eq => ?_).mpr (hc.counted.alive m key r hf)
            have hh := holds_iff.mpr ⟨key,hf⟩
            rw [eq] at hh
            exact Bool.false_ne_true ((hs r).symm.trans hh)
          counter := fun r => by
            rw [show (d.nbrFree n).net.retransmitCounter r = _ from hc.counted.counter r]
            congr 1
            exact (@Counting.countP_erase_off _ _
              (fun m => (Ospf.clearLists d.core n d.net).holds m r) n d.live (hs r)).symm }
      quiet := fun hu =>
        ⟨(hc.quiet hu).plain,fun m _ hb =>
          (hc.quiet hu).silent m (fun one => none m one.1) hb⟩
      nbrs := fun oi => by
        rw [show ((d.nbrFree n).core.interface oi).fullNbrs = _ from hc.nbrs oi]
        exact (countP_erase_off (by simp [low])).symm
      vls := fun a => by
        rw [show (d.nbrFree n).fullVls a = _ from hc.vls a]
        exact (countP_erase_off (by simp [low])).symm }

theorem Sound.nbrDelete (none : ∀ m, ¬ exempt m)
    (low : full n = false) : Sound coloured exempt full (d.nbrDelete n) :=
  sound.unlist.nbrFree none sound.unlist_gone low

theorem Sound.nbrDelete_frame :
    (∀ m, ((d.nbrDelete n).net.neighbor m).state = (d.net.neighbor m).state) ∧
    (∀ m, ((d.nbrDelete n).net.neighbor m).oi = (d.net.neighbor m).oi) ∧
    (d.nbrDelete n).live = d.live.erase n ∧ (d.nbrDelete n).core = d.core ∧
    (d.nbrDelete n).nextNbr = d.nextNbr := by
  obtain ⟨net,live,core,next⟩ := @unlist_net d n
  obtain ⟨hm,-⟩ := @Moves.clearLists (anyObject coloured exempt) (d.unlist n).core
    (d.unlist n).net n fun key r hf => (sound.unlist.counted.keyed n key r hf).1
  refine ⟨fun m => ?_,fun m => ?_,?_,core,next⟩
  · have eq := hm.alike.state m
    rw [net] at eq
    exact eq
  · have eq := hm.alike.oi m
    rw [net] at eq
    exact eq
  change (d.unlist n).live.erase n = _
  rw [live]

end

end

section

variable {coloured : Prop} {exempt : Nat → Prop} {full : Nat → Bool} {d : Daemon}

variable {nbr : Neighbor} {key : UInt32} {listed : Bool}

@[simp] theorem enter_other {m : Nat} (ne : m ≠ d.nextNbr) :
    (d.enter nbr key listed).net.neighbor m = d.net.neighbor m := by
  simp [enter,setNbr,ne]

@[simp] theorem enter_new : (d.enter nbr key listed).net.neighbor d.nextNbr = nbr := by
  simp [enter,setNbr]

@[simp] theorem enter_slot_other {m : Nat} (ne : m ≠ d.nextNbr) :
    (d.enter nbr key listed).slot m = d.slot m := by
  simp [enter,ne]

@[simp] theorem enter_slot_new : (d.enter nbr key listed).slot d.nextNbr = key := by
  simp [enter]

theorem enter_nbrs (oi : Nat) : (d.enter nbr key listed).net.nbrs oi =
    if listed ∧ oi = nbr.oi then d.net.nbrs oi ++ [d.nextNbr] else d.net.nbrs oi := by
  cases listed with
  | true =>
    by_cases eq : oi = nbr.oi
    · simp [enter,setNbr,eq]
    · simp [enter,setNbr,eq]
  | false => simp [enter,setNbr]

section

variable (sound : Sound coloured exempt full d)

include sound

theorem Sound.new {m : Nat} (mem : m ∈ d.live) :
    m ≠ d.nextNbr := fun eq => lt_irrefl _ (eq ▸ sound.bound m mem)

theorem Sound.enter_count {p q : Nat → Bool}
    (off : q d.nextNbr = false) (eq : ∀ m, m ≠ d.nextNbr → q m = p m) :
    (d.enter nbr key listed).live.countP q = d.live.countP p := by
  change (d.nextNbr :: d.live).countP q = _
  rw [countP_cons_of_neg (by simp [off])]
  apply countP_same
  exact fun m mem => eq m (sound.new mem)

theorem enter_counted (he : nbr.lsRxmt = ∅) :
    Counted (d.enter nbr key listed).live (d.enter nbr key listed).toState := by
  have hb {m : Nat} {k : LsaKey} {r : Nat}
      (hf : ((d.enter nbr key listed).net.neighbor m).lsRxmt.lookup k = some r) :
      (d.net.neighbor m).lsRxmt.lookup k = some r := by
    by_cases eq : m = d.nextNbr
    · rw [eq,enter_new,he] at hf
      cases hf
    · rwa [enter_other eq] at hf
  refine ⟨fun m k r hf => sound.counted.keyed m k r (hb hf),fun m k r hf => ?_, fun r => ?_⟩
  · exact .tail _ (sound.counted.alive m k r (hb hf))
  rw [show (d.enter nbr key listed).net.retransmitCounter r = _ from sound.counted.counter r]
  congr 1
  refine (sound.enter_count ?_ fun m ne => ?_).symm
  · rw [holds,enter_new,he]
    rfl
  · exact holds_congr (by rw [enter_other ne]) r

theorem Sound.enter (hho : nbr.oi ∈ d.core.oiflist)
    (he : nbr.lsRxmt = ∅) (low : full d.nextNbr = false)
    (slot : listed → d.inSlot nbr.oi key = none ∧
      nbrKey (d.enter nbr key listed).toState d.nextNbr = key) :
    Sound coloured exempt full (d.enter nbr key listed) where
  __ := sound
  nodup := nodup_cons.mpr ⟨fun hm => sound.new hm rfl,sound.nodup⟩
  bound m hm := by
    cases mem_cons.mp hm with
    | inl eq => exact eq ▸ Nat.lt_succ_self _
    | inr old => exact Nat.lt_succ_of_lt (sound.bound m old)
  homes m hm := by
    cases mem_cons.mp hm with
    | inl eq =>
      rw [eq,enter_new]
      exact hho
    | inr old =>
      rw [enter_other (sound.new old)]
      exact sound.homes m old
  listed oi m hm := by
    have old (hi : m ∈ d.net.nbrs oi) : m ∈ (d.enter nbr key listed).live ∧
        ((d.enter nbr key listed).net.neighbor m).oi = oi ∧
        (d.enter nbr key listed).slot m = nbrKey (d.enter nbr key listed).toState m := by
      obtain ⟨live,ht,hun⟩ := sound.listed oi m hi
      have ne := sound.new live
      rw [enter_slot_other ne,enter_other ne]
      refine ⟨.tail _ live,ht,hun.trans ?_⟩
      simp only [nbrKey,enter_other ne]
      rfl
    rw [enter_nbrs] at hm
    split at hm
    · rename_i hh
      cases mem_append.mp hm with
      | inl hi => exact old hi
      | inr eq =>
        cases mem_singleton.mp eq
        rw [enter_new,enter_slot_new]
        exact ⟨.head _,hh.2.symm,(slot hh.1).2.symm⟩
    · exact old hm
  slots oi := by
    have hs : (d.net.nbrs oi).map (d.enter nbr key listed).slot = (d.net.nbrs oi).map d.slot := by
      apply map_congr_left
      exact fun m hm => enter_slot_other (sound.new (sound.listed oi m hm).1)
    rw [enter_nbrs]
    split
    · rename_i hh
      rw [map_append,hs,map_singleton,enter_slot_new]
      apply nodup_append.mpr
      refine ⟨sound.slots oi,nodup_singleton _,fun x hi y eq clash => ?_⟩
      obtain ⟨m,hm,rfl⟩ := mem_map.mp hi
      cases mem_singleton.mp eq
      have free := find?_eq_none.mp (slot hh.1).1 m (hh.2 ▸ hm)
      exact free (decide_eq_true clash)
    · rw [hs]
      exact sound.slots oi
  counted := enter_counted sound he
  quiet hu := by
    refine ⟨(sound.quiet hu).plain,fun m ho low => ?_⟩
    by_cases eq : m = d.nextNbr
    · rw [eq,enter_new]
      exact he
    rw [enter_other eq] at low ⊢
    exact (sound.quiet hu).silent m ho low
  nbrs oi := by
    rw [show ((d.enter nbr key listed).core.interface oi).fullNbrs = _ from sound.nbrs oi]
    refine (sound.enter_count ?_ fun m ne => ?_).symm
    · simp [low]
    · rw [enter_other ne]
  vls a := by
    rw [show (d.enter nbr key listed).fullVls a = _ from sound.vls a]
    refine (sound.enter_count ?_ fun m ne => ?_).symm
    · simp [low]
    rw [enter_other ne]
    rfl

end

end

section

def Daemon.isFull (d : Daemon) (n : Nat) : Bool := (d.net.neighbor n).state = .full

def Daemon.PseudoOf (d : Daemon) (oi : Nat) : Prop :=
  (d.core.interface oi).nbrSelf ∈ d.live ∧
    (d.net.neighbor (d.core.interface oi).nbrSelf).oi = oi ∧
    (d.net.neighbor (d.core.interface oi).nbrSelf).state = .twoWay

structure Settled (coloured : Prop) (d : Daemon) : Prop where
  sound : Sound coloured (fun _ => False) d.isFull d
  pseudo : ∀ oi ∈ d.core.oiflist, d.PseudoOf oi

variable {coloured : Prop} {exempt exempt' : Nat → Prop} {full full' : Nat → Bool}
  {d e : Daemon} {hooks : Hooks} {n : Nat} {next : NsmState}

theorem Sound.congr (sound : Sound coloured exempt full d)
    (eq : ∀ m ∈ d.live, full' m = full m) : Sound coloured exempt full' d :=
  {sound with
    nbrs := fun oi => by
      rw [sound.nbrs oi]
      apply countP_same
      exact fun m mem => by rw [eq m mem]
    vls := fun a => by
      rw [sound.vls a]
      apply countP_same
      exact fun m mem => by rw [eq m mem]}

theorem Sound.exempts (sound : Sound coloured exempt full d)
    (weaker : ∀ m, exempt m → exempt' m) : Sound coloured exempt' full d :=
  {sound with
    quiet := fun hu =>
      ⟨(sound.quiet hu).plain,fun m ho low =>
        (sound.quiet hu).silent m (fun one => ho (weaker m one)) low⟩}

theorem Daemon.Frame.pseudoOf (frm : d.Frame e) {oi : Nat} (pseudo : d.PseudoOf oi) :
    e.PseudoOf oi := by
  simp only [PseudoOf,frm.nbrSelf,frm.live,frm.oi,frm.state]
  exact pseudo

theorem Step.settled (step : Step coloured (fun _ => False) d.isFull d e)
    (hs : Settled coloured d) : Settled coloured e where
  sound := step.sound.congr fun m _ => by rw [isFull,step.frame.state m,isFull]
  pseudo oi hm := by
    rw [step.frame.oiflist] at hm
    exact step.frame.pseudoOf (hs.pseudo oi hm)

theorem Settled.moves (hs : Settled coloured d) {s : State}
    (hm : Moves (anyObject coloured fun _ => False) d.toState s) : Settled coloured (d.put s) :=
  (hs.sound.step (fun _ one => one.elim) hm).settled hs

theorem Settled.relabel (hs : Settled coloured d) {nbr : Neighbor}
    (oi : nbr.oi = (d.net.neighbor n).oi) (list : nbr.lsRxmt = (d.net.neighbor n).lsRxmt)
    (state : nbr.state = (d.net.neighbor n).state)
    (key : ∀ i, n ∈ d.net.nbrs i →
      nbrKey ⟨d.core,d.net.setNbr n nbr⟩ n = nbrKey d.toState n) :
    Settled coloured (d.put ⟨d.core,d.net.setNbr n nbr⟩) := by
  have neighbor (m : Nat) : ((d.net.setNbr n nbr).neighbor m).oi = (d.net.neighbor m).oi ∧
      ((d.net.setNbr n nbr).neighbor m).state = (d.net.neighbor m).state ∧
      ((d.net.setNbr n nbr).neighbor m).lsRxmt = (d.net.neighbor m).lsRxmt := by
    by_cases hh : m = n
    · subst hh
      simp [setNbr,oi,state,list]
    · simp [setNbr,hh]
  refine Step.settled ⟨hs.sound.relabel oi list key fun hu => ?_,?_⟩ hs
  · refine ⟨(hs.sound.quiet hu).plain,fun m ho low => ?_⟩
    rw [(neighbor m).2.1] at low
    rw [(neighbor m).2.2]
    exact (hs.sound.quiet hu).silent m ho low
  · exact ⟨fun m => (neighbor m).2.1,fun m => (neighbor m).1,rfl,fun _ => rfl,rfl⟩

end

section

variable {coloured : Prop} {exempt : Nat → Prop} {d e : Daemon} {hooks : Hooks} {n : Nat}
  {next : NsmState} {event : NsmEvent}

theorem nsm_negotiationDone {state : NsmState} (ent : (nsm state event).1 = some .negotiationDone) :
    state = .exStart ∧ (nsm state event).2 = .exchange := by
  revert ent
  cases state <;> cases event <;> simp [nsm]

theorem Sound.arrive (sound : Sound coloured exempt d.isFull d) (only : ∀ m, exempt m → m = n)
    (hr : exempt n → .exchange ≤ next) (changes : exempt n → next ≠ (d.net.neighbor n).state)
    (hc : hooks.Colours coloured) (live : n ∈ d.live) :
    Step coloured (fun _ => False) (update d.isFull n (decide (next = .full))) (d.setState n next)
      (if next ≠ (d.net.neighbor n).state then Ospf.nsmChangeState hooks d n next else d) := by
  split
  · exact sound.nsmChangeState only hr hc live rfl
  rename_i hs
  have eq := not_not.mp hs
  have none : ∀ m, exempt m → False := by
    intro m one
    cases only m one
    exact changes one eq
  constructor
  · have ha : update d.isFull n (decide (next = .full)) = d.isFull := by
      rw [eq]
      exact update_eq_self ..
    rw [ha]
    exact sound.exempts none
  · refine ⟨fun m => ?_,fun m => ?_,rfl,fun _ => rfl,rfl⟩
    · by_cases hh : m = n
      · subst hh
        simp [Daemon.setState,Net.setNbr,eq]
      · simp [Daemon.setState,Net.setNbr,hh]
    by_cases hh : m = n
    · subst hh
      simp [Daemon.setState,Net.setNbr]
    · simp [Daemon.setState,Net.setNbr,hh]

theorem Step.arrived
    (step : Step coloured (fun _ => False) (update d.isFull n (decide (next = .full)))
      (d.setState n next) e)
    (pseudo : ∀ oi ∈ d.core.oiflist, d.PseudoOf oi) (ho : d.isSelf n = false) :
    Settled coloured (if (e.net.neighbor n).state = .deleted then e.nbrDelete n else e) := by
  have ht : (e.net.neighbor n).state = next := by
    rw [step.frame.state]
    simp [setState,setNbr]
  have he {m : Nat} (ne : m ≠ n) : (e.net.neighbor m).state = (d.net.neighbor m).state := by
    rw [step.frame.state]
    simp [setState,setNbr,ne]
  have homes (m : Nat) : (e.net.neighbor m).oi = (d.net.neighbor m).oi := by
    rw [step.frame.oi]
    by_cases hh : m = n
    · subst hh
      simp [setState,setNbr]
    · simp [setState,setNbr,hh]
  have full (m : Nat) : e.isFull m = update d.isFull n (decide (next = .full)) m := by
    by_cases hh : m = n
    · subst hh
      simp [isFull,ht]
    · simp [isFull,he hh,hh]
  have sound : Sound coloured (fun _ => False) e.isFull e := step.sound.congr fun m _ => full m
  have self {oi : Nat} (mem : oi ∈ e.core.oiflist) :
      e.PseudoOf oi ∧ (e.core.interface oi).nbrSelf ≠ n := by
    rw [step.frame.oiflist] at mem
    obtain ⟨live,hho,state⟩ := pseudo oi mem
    have hs : (e.core.interface oi).nbrSelf = (d.core.interface oi).nbrSelf := step.frame.nbrSelf oi
    have ne : (d.core.interface oi).nbrSelf ≠ n := by
      intro eq
      rw [eq] at hho
      simp [isSelf,hho,eq] at ho
    rw [PseudoOf,hs,homes,he ne,step.frame.live]
    exact ⟨⟨live,hho,state⟩,ne⟩
  split
  · rename_i hd
    have low : e.isFull n = false := by simp [isFull,hd]
    obtain ⟨states,ois,live,core,-⟩ := @Sound.nbrDelete_frame _ _ _ e n sound
    refine ⟨(sound.nbrDelete (fun _ => id) low).congr fun m _ => ?_,fun oi mem => ?_⟩
    · rw [isFull,states,isFull]
    rw [core] at mem
    obtain ⟨⟨ha,hho,state⟩,ne⟩ := self mem
    rw [PseudoOf,core,live,states,ois]
    exact ⟨(mem_erase_of_ne ne).mpr ha,hho,state⟩
  · exact ⟨sound,fun oi mem => (self mem).1⟩

theorem Settled.nsmEvent (hs : Settled coloured d) (hc : hooks.Colours coloured) :
    Settled coloured (d.nsmEvent hooks n event) := by
  simp only [Daemon.nsmEvent]
  split
  · exact hs
  rename_i awake
  rw [not_or,not_not] at awake
  obtain ⟨live,hse⟩ := awake
  have hh := hs.sound.homes n live
  by_cases self : d.isSelf n
  · -- The pseudo neighbor stays in state TwoWay.
    have pkt : event = .packetReceived := by
      by_contra ne
      exact hse ⟨self,ne⟩
    obtain ⟨-,-,state⟩ := hs.pseudo _ hh
    rw [of_decide_eq_true self] at state
    simpa [pkt,nsmNext,nsm,nsmAct,state] using hs
  have ho : d.isSelf n = false := Bool.eq_false_iff.mpr self
  have hm : Moves (anyObject coloured fun m =>
      (nsm (d.net.neighbor n).state event).1 = some .negotiationDone ∧ m = n) d.toState
      (nsmNext d.toState n hooks.lsReqLast event).1 :=
    Moves.nsmNext anyObject_free (anyObject_fit hs.sound.refers) fun ent => ⟨ent,rfl⟩
  have exch : (nsm (d.net.neighbor n).state event).1 = some .negotiationDone →
      (nsmNext d.toState n hooks.lsReqLast event).2 = .exchange := by
    intro ent
    have table := (nsm_negotiationDone ent).2
    cases cell : nsm (d.net.neighbor n).state event with
    | mk act state =>
      rw [cell] at ent table
      cases ent
      cases table
      simp [nsmNext,cell]
  have exStart : (nsm (d.net.neighbor n).state event).1 = some .negotiationDone →
      (d.net.neighbor n).state = .exStart := fun ent => (nsm_negotiationDone ent).1
  generalize nsmNext d.toState n hooks.lsReqLast event = result at hm exch
  obtain ⟨s,next⟩ := result
  split
  · exact hs
  have frm : d.Frame (d.put s) := hm.frame
  have sound : Sound coloured _ d.isFull (d.put s) :=
    (hs.sound.exempts fun _ => False.elim).moves (fun _ => And.rec fun _ eq => eq ▸ live) hm
  have full : d.isFull = (d.put s).isFull := by
    funext m
    rw [Daemon.isFull,Daemon.isFull,frm.state]
  rw [full] at sound
  have ha : Step coloured (fun _ => False) _ ((d.put s).setState n next) _ :=
    sound.arrive (fun m one => one.2) (fun one => (exch one.1).symm ▸ le_refl _) (fun one => by
        rw [frm.state,exStart one.1,show next = .exchange from exch one.1]
        decide)
      hc live
  refine ha.arrived (fun oi mem => ?_) ?_
  · exact frm.pseudoOf (hs.pseudo oi (frm.oiflist ▸ mem))
  rw [Daemon.isSelf,frm.oi,frm.nbrSelf]
  exact ho

end

section

variable {coloured : Prop} {d : Daemon} {hooks : Hooks} {oi : Nat} {routerId : UInt32}
  {nbr : Neighbor} {key : UInt32} {listed : Bool}

theorem Sound.enterFull (sound : Sound coloured (fun _ => False) d.isFull d)
    (hh : nbr.oi ∈ d.core.oiflist) (he : nbr.lsRxmt = ∅) (low : nbr.state ≠ .full)
    (slot : listed → d.inSlot nbr.oi key = none ∧
      nbrKey (d.enter nbr key listed).toState d.nextNbr = key) :
    Sound coloured (fun _ => False) (d.enter nbr key listed).isFull (d.enter nbr key listed) := by
  have hb : Sound coloured (fun _ => False) (update d.isFull d.nextNbr false) d :=
    sound.congr fun m mem => update_of_ne (sound.new mem) ..
  apply (hb.enter hh he (update_self ..) slot).congr
  intro m _
  by_cases eq : m = d.nextNbr
  · subst eq
    simp [isFull,low]
  · simp [isFull,eq]

theorem Sound.enter_pseudoOf (sound : Sound coloured (fun _ => False) d.isFull d)
    (pseudo : d.PseudoOf oi) : (d.enter nbr key listed).PseudoOf oi := by
  obtain ⟨live,hh,state⟩ := pseudo
  have eq : ((d.enter nbr key listed).core.interface oi).nbrSelf =
    (d.core.interface oi).nbrSelf := rfl
  rw [PseudoOf,eq,enter_other (sound.new live)]
  exact ⟨.tail _ live,hh,state⟩

theorem Settled.enter (hs : Settled coloured d) (hh : nbr.oi ∈ d.core.oiflist)
    (he : nbr.lsRxmt = ∅) (low : nbr.state ≠ .full)
    (slot : listed → d.inSlot nbr.oi key = none ∧
      nbrKey (d.enter nbr key listed).toState d.nextNbr = key) :
    Settled coloured (d.enter nbr key listed) :=
  ⟨hs.sound.enterFull hh he low slot,fun i mem =>
    hs.sound.enter_pseudoOf (hs.pseudo i mem)⟩

theorem Settled.nbrGet (hs : Settled coloured d) (mem : oi ∈ d.core.oiflist)
    {src : UInt32} : Settled coloured (d.nbrGet oi routerId src) := by
  simp only [Daemon.nbrGet]
  split
  · rename_i n hf
    obtain ⟨hi,slot⟩ := mem_slot hf
    obtain ⟨-,hh,hu⟩ := hs.sound.listed oi n hi
    refine hs.relabel rfl rfl rfl fun _ _ => ?_
    -- The key it was found under is the one its packet has.
    rw [← hu,slot]
    simp only [nbrKey,hh,Net.setNbr,update_self]
    split
    · rfl
    rename_i broadcast
    split
    · rfl
    rw [if_neg broadcast] at slot
    rw [hu] at slot
    simpa [nbrKey,hh,broadcast] using slot
  · rename_i free
    refine hs.enter mem rfl (by simp [nbrNew]) fun _ => ⟨free,?_⟩
    simp only [nbrKey,enter_new]
    rfl

theorem Settled.nbrNbmaAdd (hs : Settled coloured d) (mem : oi ∈ d.core.oiflist)
    (hc : hooks.Colours coloured) {addr : UInt32} :
    Settled coloured (d.nbrNbmaAdd hooks oi addr) := by
  simp only [Daemon.nbrNbmaAdd]
  split
  · exact hs
  rename_i nbma
  split
  · exact hs
  rename_i free
  rw [not_or,not_not] at nbma
  have he : Settled coloured (d.enter (nbrNew oi 0 addr) addr true) := by
    refine hs.enter mem rfl (by simp [nbrNew]) fun _ => ⟨free,?_⟩
    have ty : ((d.enter (nbrNew oi 0 addr) addr true).core.interface oi).type = .nbma := nbma.1
    simp only [nbrKey,enter_new]
    rw [show (nbrNew oi 0 addr).oi = oi from rfl,ty]
    rfl
  exact he.nsmEvent hc

theorem setSelf_frame {core : Core} {n : Nat} (i : Nat) :
    ((core.setSelf oi n).interface i).type = (core.interface i).type ∧
    ((core.setSelf oi n).interface i).area = (core.interface i).area ∧
    ((core.setSelf oi n).interface i).fullNbrs = (core.interface i).fullNbrs ∧
    ((core.setSelf oi n).interface i).networkLsaSelf = (core.interface i).networkLsaSelf := by
  by_cases hh : i = oi
  · subst hh
    simp [Core.setSelf,Core.setInterface]
  · simp [Core.setSelf,Core.setInterface,hh]

theorem Sound.setSelf {exempt : Nat → Prop} {full : Nat → Bool} {n : Nat}
    (sound : Sound coloured exempt full d) :
    Sound coloured exempt full (d.put ⟨d.core.setSelf oi n,d.net⟩) where
  __ := sound
  refers := ⟨sound.refers.stored,sound.refers.home,fun i r own =>
    sound.refers.network i r ((setSelf_frame i).2.2.2.symm.trans own),sound.refers.maxage⟩
  listed i m hm := by
    obtain ⟨live,hh,slot⟩ := sound.listed i m hm
    refine ⟨live,hh,slot.trans (Eq.symm ?_)⟩
    exact nbrKey_congr rfl rfl rfl fun i => (setSelf_frame i).1
  counted := ⟨sound.counted.keyed,sound.counted.alive,sound.counted.counter⟩
  quiet hu := ⟨(sound.quiet hu).plain,(sound.quiet hu).silent⟩
  wired := sound.wired.kept (fun i => (setSelf_frame i).2.1) (fun _ => rfl) rfl
  nbrs i := (setSelf_frame i).2.2.1.trans (sound.nbrs i)
  areas a := by
    refine (sound.areas a).trans ?_
    apply sum_same
    exact fun i _ => (setSelf_frame i).2.2.1.symm
  vls a := by
    refine (sound.vls a).trans ?_
    apply countP_same
    intro m _
    have vl : vl (d.put ⟨d.core.setSelf oi n,d.net⟩) (d.net.neighbor m).oi =
        d.vl (d.net.neighbor m).oi := by
      simp [vl,(setSelf_frame _).1]
    rw [vl]

theorem Sound.nbrAddSelf (sound : Sound coloured (fun _ => False) d.isFull d)
    (mem : oi ∈ d.core.oiflist)
    (others : ∀ i ∈ d.core.oiflist, i ≠ oi → d.PseudoOf i) :
    Settled coloured (d.nbrAddSelf oi routerId) := by
  simp only [Daemon.nbrAddSelf]
  generalize shape : (if (d.core.interface oi).type = .virtualLink ∨
    (d.core.interface oi).type = .pointToPoint then routerId
    else (d.core.interface oi).address) = key
  generalize isFree : (d.inSlot oi key).isNone = free
  have he := @Sound.enterFull _ d (nbrSelfNew d.core oi routerId) key free sound mem rfl
    (by simp [nbrSelfNew]) fun listed =>
      ⟨Option.isNone_iff_eq_none.mp (isFree.trans listed),by
        rw [← shape]
        simp only [nbrKey,enter_new]
        rfl⟩
  have others' (i : Nat) (hi : i ∈ d.core.oiflist) (ne : i ≠ oi) :=
    @Sound.enter_pseudoOf _ d i (nbrSelfNew d.core oi routerId) key free sound (others i hi ne)
  have live : d.nextNbr ∈ (d.enter (nbrSelfNew d.core oi routerId) key free).live :=
    .head _
  have new : (d.enter (nbrSelfNew d.core oi routerId) key free).net.neighbor d.nextNbr =
    nbrSelfNew d.core oi routerId := enter_new
  have core : (d.enter (nbrSelfNew d.core oi routerId) key free).core = d.core := rfl
  generalize d.enter (nbrSelfNew d.core oi routerId) key free = e at he others' live new core
  refine ⟨he.setSelf,fun i hi => ?_⟩
  by_cases hh : i = oi
  · subst hh
    have self : ((e.core.setSelf i d.nextNbr).interface i).nbrSelf = d.nextNbr := by
      simp [Core.setSelf,Core.setInterface]
    simp only [Daemon.PseudoOf,self,new]
    exact ⟨live,rfl,rfl⟩
  · have self : ((e.core.setSelf oi d.nextNbr).interface i).nbrSelf =
        (e.core.interface i).nbrSelf := by
      simp [Core.setSelf,Core.setInterface,hh]
    simp only [Daemon.PseudoOf,self]
    exact others' i (core ▸ hi) hh

theorem Settled.nbrSelfReset (hs : Settled coloured d) (mem : oi ∈ d.core.oiflist) :
    Settled coloured (d.nbrSelfReset oi routerId) := by
  obtain ⟨live,hh,state⟩ := hs.pseudo oi mem
  have low : d.isFull (d.core.interface oi).nbrSelf = false := by simp [isFull,state]
  obtain ⟨states,ois,lives,core,-⟩ :=
    @Sound.nbrDelete_frame _ _ _ d (d.core.interface oi).nbrSelf hs.sound
  have hd : Sound coloured (fun _ => False) (d.nbrDelete (d.core.interface oi).nbrSelf).isFull
      (d.nbrDelete (d.core.interface oi).nbrSelf) :=
    (hs.sound.nbrDelete (fun _ => id) low).congr fun m _ => by rw [isFull,states,isFull]
  apply hd.nbrAddSelf (by rwa [core])
  intro i hi ne
  rw [core] at hi
  obtain ⟨live',hh',state'⟩ := hs.pseudo i hi
  rw [PseudoOf,core,lives,states,ois]
  refine ⟨(mem_erase_of_ne fun eq => ne ?_).mpr live',hh',state'⟩
  rw [← hh',eq,hh]

end

section

variable {coloured : Prop} {d : Daemon}

theorem Settled.step (hs : Settled coloured d) {event : DaemonEvent}
    (hc : event.Colours coloured) : Settled coloured (d.step event) := by
  have fit := @anyObject_fit coloured (fun _ => False) _ hs.sound.refers
  cases event with
  | work event => exact hs.moves (Moves.work anyObject_free fit hc)
  | nsm hooks n event => exact hs.nsmEvent hc
  | lsAck n hdrs => exact hs.moves Moves.lsAck
  | hello oi routerId src =>
    simp only [Daemon.step]
    split
    · rename_i mem
      exact hs.nbrGet mem
    · exact hs
  | describe n opts dRouter bdRouter =>
    refine hs.relabel rfl rfl rfl fun _ _ => ?_
    simp [nbrKey,Net.setNbr]
  | lists n dbSum lsReq lsReqLast => exact hs.moves (.single .lists)
  | nbma hooks oi addr =>
    simp only [Daemon.step]
    split
    · rename_i mem
      exact hs.nbrNbmaAdd mem hc
    · exact hs
  | selfReset oi routerId =>
    simp only [Daemon.step]
    split
    · rename_i mem
      exact hs.nbrSelfReset mem
    · exact hs
  | maxageWalker => exact hs.moves (Moves.core (Kept.lsaMaxageWalker fit.refers))
  | maxageRemover env lsdb visit =>
    exact hs.moves (Moves.maxageLsaRemover anyObject_free hc fit)

/-- Nothing is stored, and only the pseudo neighbors exist. -/
structure Daemon.Initial (d : Daemon) : Prop where
  objects : d.core.next = 0
  stored : ∀ db, d.core.lsdb db = ∅
  maxage : d.core.maxageLsa = []
  lists : ∀ n, (d.net.neighbor n).lsRxmt = ∅
  counters : ∀ r, d.net.retransmitCounter r = 0
  interfaces : ∀ oi, (d.core.interface oi).networkLsaSelf = none ∧
    (d.core.interface oi).fullNbrs = 0
  areas : ∀ a, d.fullNbrs a = 0 ∧ d.fullVls a = 0
  wired : d.core.Wired
  pseudo : ∀ oi ∈ d.core.oiflist, d.PseudoOf oi
  alone : ∀ n ∈ d.live, ∃ oi ∈ d.core.oiflist, (d.core.interface oi).nbrSelf = n
  nodup : d.live.Nodup
  bound : ∀ n ∈ d.live, n < d.nextNbr
  listed : ∀ oi n, n ∈ d.net.nbrs oi →
    n ∈ d.live ∧ (d.net.neighbor n).oi = oi ∧ d.slot n = nbrKey d.toState n
  slots : ∀ oi, ((d.net.nbrs oi).map d.slot).Nodup

namespace Daemon.Initial

theorem low (init : d.Initial) {n : Nat} (mem : n ∈ d.live) : d.isFull n = false := by
  obtain ⟨oi,hi,rfl⟩ := init.alone n mem
  simp [isFull,(init.pseudo oi hi).2.2]

theorem counted (init : d.Initial) : Counted d.live d.toState where
  keyed n key r hf := by simp [init.lists n] at hf
  alive n key r hf := by simp [init.lists n] at hf
  counter r := by
    have none : d.live.countP (fun n => d.net.holds n r) = 0 := by
      apply countP_eq_zero.mpr
      intro n _
      simp only [holds,init.lists n]
      exact Bool.false_ne_true
    simp [init.counters r,none]

theorem settled (init : d.Initial) : Settled coloured d where
  pseudo := init.pseudo
  sound :=
    { refers :=
        { stored := fun db key r hf => by simp [Core.lookup,init.stored db] at hf
          home := fun db key r hf => by simp [Core.lookup,init.stored db] at hf
          network := fun oi r own => by simp [init.interfaces oi] at own
          maxage := fun r mem => by simp [init.maxage] at mem }
      nodup := init.nodup
      bound := init.bound
      homes := fun n mem => by
        obtain ⟨oi,hi,rfl⟩ := init.alone n mem
        rwa [(init.pseudo oi hi).2.1]
      listed := init.listed
      slots := init.slots
      counted := init.counted
      quiet := fun _ => ⟨fun r lt => by simp [init.objects] at lt,fun n _ _ => init.lists n⟩
      wired := init.wired
      nbrs := fun oi => by
        rw [(init.interfaces oi).2]
        symm
        apply countP_eq_zero.mpr
        intro n mem
        simp [init.low mem]
      areas := fun a => by simp [(init.areas a).1,init.interfaces]
      vls := fun a => by
        rw [(init.areas a).2]
        symm
        apply countP_eq_zero.mpr
        intro n mem
        simp [init.low mem] }

end Daemon.Initial

theorem Settled.run (hs : Settled coloured d) {evs : List DaemonEvent}
    (hc : ∀ event ∈ evs, event.Colours coloured) :
    Settled coloured (Trace.run Daemon.step evs d) := by
  induction evs generalizing d with
  | nil => exact hs
  | cons event rest ih =>
    apply ih (hs.step (hc event (.head _)))
    exact fun ho mem => hc ho (.tail _ mem)

theorem Event.colours_true (event : Event) : event.Colours True := by
  cases event with
  | lsUpd env n pkt => exact ⟨fun _ _ _ _ _ _ => trivial,fun _ _ _ => trivial⟩
  | originate => exact fun _ => trivial
  | refreshOpaque => exact fun _ _ _ _ _ _ => trivial
  | _ => trivial

theorem Hooks.colours_true (hooks : Hooks) : hooks.Colours True :=
  ⟨fun _ _ _ _ _ _ => trivial,fun event _ => event.colours_true,fun event _ => event.colours_true,
    fun event _ => event.colours_true⟩

theorem DaemonEvent.colours_true (event : DaemonEvent) : event.Colours True := by
  cases event with
  | work event => exact event.colours_true
  | nsm hooks => exact hooks.colours_true
  | nbma hooks => exact hooks.colours_true
  | maxageRemover => exact fun _ _ _ _ _ _ => trivial
  | _ => trivial

theorem Daemon.Initial.run (init : d.Initial) (evs : List DaemonEvent) :
    Settled True (Trace.run step evs d) :=
  init.settled.run fun event _ => event.colours_true

section

def station : Daemon where
  core :=
    {border.core with
      area := fun a =>
        { backbone := true, externalRouting := .default, routerLsaSelf := none
          oiflist := if a = 0 then [0] else [] }
      interface := fun _ =>
        {border.core.interface 0 with nbrSelf := 0, fullNbrs := 0}}
  net :=
    {border.net with
      nbrs := fun oi => if oi = 0 then [0] else []
      neighbor := fun _ =>
        {nbrNew 0 1 0x0a000001 with state := .twoWay, options := optionE}}
  live := [0]
  nextNbr := 1
  slot := fun _ => 0x0a000001
  fullNbrs := fun _ => 0
  fullVls := fun _ => 0
  vlArea := fun _ => none

theorem station_initial : station.Initial where
  objects := rfl
  stored _ := rfl
  maxage := rfl
  lists _ := rfl
  counters _ := rfl
  interfaces _ := ⟨rfl,rfl⟩
  areas _ := ⟨rfl,rfl⟩
  wired :=
    { home := fun oi hm => hm
      nodup := fun a => by
        by_cases hh : a = 0
        · subst hh
          exact nodup_singleton 0
        · simp [station,hh]
      area := fun a oi hm => by
        by_cases hh : a = 0
        · exact hh.symm
        · simp [station,hh] at hm }
  pseudo oi hm := by
    cases mem_singleton.mp hm
    exact ⟨mem_singleton.mpr rfl,rfl,rfl⟩
  alone n hm := ⟨0,mem_singleton.mpr rfl,(mem_singleton.mp hm).symm⟩
  nodup := nodup_singleton 0
  bound n hm := by
    cases mem_singleton.mp hm
    exact Nat.one_pos
  listed oi n hm := by
    by_cases hh : oi = 0
    · subst hh
      cases mem_singleton.mp hm
      exact ⟨mem_singleton.mpr rfl,rfl,rfl⟩
    · simp [station,hh] at hm
  slots oi := by
    by_cases hh : oi = 0
    · subst hh
      exact nodup_singleton _
    · simp [station,hh]

def quietHooks : Hooks := ⟨quietEnv,none,[],[],[]⟩

def adjacency : List DaemonEvent :=
  [.hello 0 2 0x0a000002, .nsm quietHooks 1 .packetReceived,
    .describe 0 optionE 0x0a000002 0, .nsm quietHooks 1 .twoWayReceived,
    .nsm quietHooks 1 .negotiationDone, .nsm quietHooks 1 .exchangeDone]

end

theorem retransmitCounter_eq_holders (d : Daemon) (initial : d.Initial)
    (events : List DaemonEvent) (r : Nat) :
    (Trace.run Daemon.step events d).net.retransmitCounter r =
        ((Trace.run Daemon.step events d).live.filter fun n =>
          (Trace.run Daemon.step events d).net.holds n r).length ∧
      0 ≤ (Trace.run Daemon.step events d).net.retransmitCounter r := by
  have counter := (initial.run events).sound.counted.counter r
  rw [countP_eq_length_filter] at counter
  constructor
  · exact counter
  rw [counter]
  exact Int.natCast_nonneg _

theorem retransmitCounter_eq_holders_adjacent :
    (Trace.run Daemon.step adjacency station).net.retransmitCounter 0 =
      ((Trace.run Daemon.step adjacency station).live.filter fun n =>
        (Trace.run Daemon.step adjacency station).net.holds n 0).length :=
  (retransmitCounter_eq_holders station station_initial adjacency 0).1

/-- In every run what refers to an object finds one, under the key that is its own; nothing that
follows gives an object another key, or makes it younger than MaxAge. -/
theorem references_valid (d : Daemon) (initial : d.Initial) (events : List DaemonEvent) :
    let e := Trace.run Daemon.step events d
    e.core.Refers ∧
    (∀ n key r, (e.net.neighbor n).lsRxmt.lookup key = some r →
      key = (e.core.lsas r).key ∧ r < e.core.next ∧ n ∈ e.live) ∧
    ∀ later, ∀ r < e.core.next,
      let t := works e.toState later
      (t.core.lsas r).key = (e.core.lsas r).key ∧
        ((e.core.lsas r).isMaxAge e.core.now → (t.core.lsas r).isMaxAge t.core.now) := by
  intro e
  have sound := (initial.run events).sound
  refine ⟨sound.refers,fun n key r hl => ?_,fun later r below => ?_⟩
  · obtain ⟨key,below⟩ := sound.counted.keyed n key r hl
    exact ⟨key,below,sound.counted.alive n _ r hl⟩
  have fit := @anyObject_fit True (fun _ => False) _ sound.refers
  have moves : Moves _ e.toState (works e.toState later) :=
    Moves.works anyObject_free (fun event _ => event.colours_true) fit
  exact ⟨moves.kept.key r below,moves.kept.aged r below⟩

theorem references_valid_adjacent : (Trace.run Daemon.step adjacency station).core.Refers :=
  (references_valid station station_initial adjacency).1

/-- An interface finds each of its neighbors by a key that no other has. -/
theorem neighbors_distinct (d : Daemon) (initial : d.Initial) (events : List DaemonEvent) :
    let e := Trace.run Daemon.step events d
    ∀ oi, ((e.net.nbrs oi).map (nbrKey e.toState)).Nodup ∧
      ∀ n ∈ e.net.nbrs oi, n ∈ e.live ∧ (e.net.neighbor n).oi = oi := by
  intro e oi
  have sound := (initial.run events).sound
  rw [← map_congr_left fun n mem => (sound.listed oi n mem).2.2]
  exact ⟨sound.slots oi,fun n mem => ⟨(sound.listed oi n mem).1,(sound.listed oi n mem).2.1⟩⟩

theorem neighbors_distinct_adjacent :
    let e := Trace.run Daemon.step adjacency station
    ((e.net.nbrs 0).map (nbrKey e.toState)).Nodup :=
  (neighbors_distinct station station_initial adjacency 0).1

/-- Only a neighbor past ExStart has a list, pseudo neighbors never, and a counted object waits for
a neighbor that can acknowledge it. -/
structure Awaited (d : Daemon) : Prop where
  high : ∀ n ∈ d.live, (d.net.neighbor n).lsRxmt ≠ ∅ → .exStart < (d.net.neighbor n).state
  pseudo : ∀ oi ∈ d.core.oiflist, (d.net.neighbor (d.core.interface oi).nbrSelf).lsRxmt = ∅
  counted : ∀ r, d.net.retransmitCounter r ≠ 0 →
    ∃ n ∈ d.live, d.net.holds n r ∧ .exchange ≤ (d.net.neighbor n).state

/-- In every run in which no LSA that carries colours is received or originated. -/
theorem awaited_when_uncoloured (d : Daemon) (initial : d.Initial) (events : List DaemonEvent)
    (uncoloured : ∀ event ∈ events, event.Colours False) :
    Awaited (Trace.run Daemon.step events d) := by
  obtain ⟨sound,pseudo⟩ := initial.settled.run uncoloured
  generalize Trace.run Daemon.step events d = e at sound pseudo
  have hs (n : Nat) := (sound.quiet id).silent n id
  refine ⟨fun n _ hh => ?_,fun oi mem => ?_,fun r pos => ?_⟩
  · by_contra low
    apply hh
    apply hs
    exact lt_of_le_of_lt (not_lt.mp low) (by decide)
  · apply hs
    rw [(pseudo oi mem).2.2]
    decide
  have count := sound.counted.counter r
  have some : 0 < e.live.countP fun n => e.net.holds n r := by omega
  obtain ⟨n,live,hh⟩ := countP_pos_iff.mp some
  refine ⟨n,live,hh,?_⟩
  by_contra low
  have he := hs n (not_le.mp low)
  simp only [Net.holds,he] at hh
  cases hh

theorem awaited_adjacent : Awaited (Trace.run Daemon.step adjacency station) := by
  apply awaited_when_uncoloured station station_initial
  have hq : quietHooks.Colours False :=
    { env := fun _ _ _ _ ho => nomatch ho
      election := fun _ mem => nomatch mem
      refresh := fun _ mem => nomatch mem
      opaqueChange := fun _ mem => nomatch mem }
  simp [adjacency,DaemonEvent.Colours,hq]

/-- An LSA with colours goes on the list of the pseudo neighbor, which never acknowledges it. -/
theorem coloured_lsa_on_own_list :
    station.Initial ∧
    ¬ Awaited (station.step (.work (.originate quietEnv ⟨linkColourLsa,0,1⟩ 0x80000001
      ⟨0,36,[0,0,0,0]⟩ (some 0) none))) := by
  refine ⟨station_initial,fun ha => ?_⟩
  have he := congrArg (fun table => table.entries.isEmpty) (ha.pseudo 0 (by decide +kernel))
  revert he
  decide +kernel

end

end Frr.Ospf
