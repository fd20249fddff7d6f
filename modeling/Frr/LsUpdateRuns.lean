import Frr.LsUpdateReceived
import Frr.Trace

/-! Runs of the link state procedures: packets from any neighbors, in any order with own
originations, refreshes and purges, the passing of time, and whatever becomes of neighbors and
interfaces. -/
namespace Frr.Ospf

open List Function Trace

section

variable {env : Env} {n : Nat}

def arrival (s : State) (n : Nat) (lsa : Lsa) : State :=
  ⟨s.core.alloc (receivedLsa s n lsa),s.net⟩

theorem arrival_db (s : State) (lsa : Lsa) :
    let lsa' := (arrival s n lsa).core.lsas s.core.next
    installDb lsa'.data.type lsa'.area =
      some (lookupDb lsa'.data.type (receivingArea (arrival s n lsa) n)) := by
  have area : receivingArea (arrival s n lsa) n = receivingArea s n := rfl
  rw [area,arrival,Core.alloc_new]
  change installDb lsa.type (if lsa.type = Lsa.asExternalLsa ∨ lsa.type = Lsa.opaqueAsLsa
    then none else some (receivingArea s n)) = some (lookupDb lsa.type (receivingArea s n))
  unfold installDb lookupDb
  by_cases hw : lsa.type = Lsa.asExternalLsa ∨ lsa.type = Lsa.opaqueAsLsa
  · rw [if_pos hw,if_pos hw]
  rw [if_neg hw,if_neg hw,if_neg hw]
  split <;> rfl

theorem arrival_arrived {s : State} {lsa : Lsa} (wf : Wf s.core)
    (hv : lsa.checksumValid) : Arrived (arrival s n lsa) n s.core.next where
  lt := Nat.lt_succ_self _
  unheld := wf.bounded.unheld
  self := by simp [arrival,receivedLsa,Instance.new]
  unchecked := by simp [arrival,receivedLsa,Instance.new]
  valid := by
    rw [arrival,Core.alloc_new]
    exact hv
  db := arrival_db s lsa

def EachTurn (env : Env) (n : Nat) (property : State → Lsa → Prop) : List Lsa → State → Prop
  | [], _ => True
  | lsa :: rest, s => property s lsa ∧
    ((lsUpdLsa env s n lsa).2 = false → EachTurn env n property rest (lsUpdLsa env s n lsa).1)

def HarmlessLsa (env : Env) (n : Nat) (s : State) (lsa : Lsa) : Prop :=
  Harmless env (arrival s n lsa) n s.core.next

def StaleIgnored (env : Env) (n : Nat) (s : State) (lsa : Lsa) : Prop :=
  ∀ c, lsaLookupByHeader s.core (receivingArea s n) lsa = some c →
    0 ≤ Instance.moreRecent s.core.now (s.core.lsas c) (receivedLsa s n lsa) →
    ∀ db key, (lsUpdLsa env s n lsa).1.core.stored db key = s.core.stored db key

theorem lsUpdLoop_cons (s : State) (lsa : Lsa) (rest : List Lsa) :
    lsUpdLoop env n (lsa :: rest) s = if (lsUpdLsa env s n lsa).2 then (lsUpdLsa env s n lsa).1
      else lsUpdLoop env n rest (lsUpdLsa env s n lsa).1 := by
  rw [lsUpdLoop]
  split
  · rename_i eq
    simp [eq]
  rename_i eq
  simp [eq]

theorem lsUpdLsa_steady {s : State} {lsa : Lsa} (wf : Wf s.core) :
    Steady s.core (lsUpdLsa env s n lsa).1.core := @Steady.lsUpdLsa env s.core s.net n lsa wf

section

variable {lsas : List Lsa} {s : State} (wf : Wf s.core)

include wf

theorem lsUpdLoop_steady : Steady s.core (lsUpdLoop env n lsas s).core := by
  induction lsas generalizing s with
  | nil => exact Steady.refl s.core
  | cons lsa rest ih =>
    have fst := @lsUpdLsa_steady env n s lsa wf
    rw [lsUpdLoop_cons]
    split
    · exact fst
    · exact fst.trans (ih (fst.wf wf))

theorem lsUpdLoop_logs (hv : ∀ lsa ∈ lsas, lsa.checksumValid)
    (hc : EachTurn env n (HarmlessLsa env n) lsas s) :
    Logs s.core (lsUpdLoop env n lsas s).core := by
  induction lsas generalizing s with
  | nil => exact Logs.of_eq rfl
  | cons lsa rest ih =>
    have ha := @arrival_arrived n s lsa wf (hv lsa (.head _))
    have fst : Logs s.core (lsUpdLsa env s n lsa).1.core := by
      have hm : Logs s.core (arrival s n lsa).core := Logs.of_eq rfl
      exact hm.trans (ha.turn_logs (Steady.alloc.wf wf) hc.1)
    rw [lsUpdLoop_cons]
    split
    · exact fst
    rename_i goesOn
    apply fst.trans
    apply ih (lsUpdLsa_steady wf |>.wf wf)
    · exact fun ho mem => hv ho (.tail _ mem)
    · exact hc.2 (Bool.eq_false_iff.mpr goesOn)

theorem lsUpdLoop_stale (hv : ∀ lsa ∈ lsas, lsa.checksumValid) :
    EachTurn env n (StaleIgnored env n) lsas s := by
  induction lsas generalizing s with
  | nil => trivial
  | cons lsa rest ih =>
    have ha := @arrival_arrived n s lsa wf (hv lsa (.head _))
    refine ⟨fun c hf hs db key => ?_,fun _ => ?_⟩
    · have obj : (arrival s n lsa).core.lsas s.core.next = receivedLsa s n lsa := Core.alloc_new _
      have ne : c ≠ s.core.next := ne_of_lt (wf.bounded _ _ c hf)
      have copy : (arrival s n lsa).core.lsas c = s.core.lsas c := Core.alloc_other ne _
      have hf' : lsaLookupByHeader (arrival s n lsa).core (receivingArea (arrival s n lsa) n)
          ((arrival s n lsa).core.lsas s.core.next).data = some c := by
        rw [obj]
        exact hf
      have hk := @Arrived.turn_stale env _ n _ ha c hf' (by rw [obj,copy]; exact hs) db key
      exact hk.trans (wf.bounded.alloc_stored db key)
    · apply ih (lsUpdLsa_steady wf |>.wf wf)
      exact fun ho mem => hv ho (.tail _ mem)

end

end

section

/-- An own LSA is originated or refreshed with any number; an LSA leaves a database when it is
purged. -/
inductive Event where
  | lsUpd (env : Env) (n : Nat) (packet : List Lsa)
  | originate (env : Env) (key : LsaKey) (seqnum : UInt32) (content : Content)
      (area oi : Option Nat)
  | translate (env : Env) (type7 : Nat)
  | refreshRouter (env : Env) (area : Nat)
  | refreshNetwork (env : Env) (oi : Nat)
  | refreshExternal (env : Env) (lsa : Nat)
  | refreshOpaque (env : Env) (lsa : Nat)
  | flush (lsa : Nat)
  | purge (db : Db) (key : LsaKey)
  | elapse (duration : Nat)
  | neighbors (net : Net)
  | interface (oi : Nat) (config : Interface)
  | routing (area : Nat) (routing : ExternalRouting)

/-- `ospf_lsdb_delete` of what is stored under a key. -/
def purged (core : Core) (db : Db) (key : LsaKey) : Core :=
  {core with lsdb := update core.lsdb db ((core.lsdb db).erase key)}

def step (s : State) : Event → State
  | .lsUpd env n packet => lsUpd env s n packet
  | .originate env key seqnum content area oi =>
    let new := s.core.next
    let s := (lsaInstall env ⟨s.core.alloc (ownLsa s.core key seqnum content area),s.net⟩ oi
      new).1
    {s with net := (floodThrough s.core none new s.net).1}
  | .translate env type7 => translatedNssaOriginate env s type7
  | .refreshRouter env area => routerLsaUpdateArea env s area
  | .refreshNetwork env oi => networkLsaUpdate env s oi
  | .refreshExternal env lsa => externalLsaRefresh env s lsa
  | .refreshOpaque env lsa => opaqueLsaRefresh env s lsa
  | .flush lsa => lsaFlush s lsa
  | .purge db key => ⟨purged s.core db key,s.net⟩
  | .elapse duration => ⟨{s.core with now := s.core.now + duration},s.net⟩
  | .neighbors net => ⟨s.core,net⟩
  | .interface oi config => ⟨s.core.setInterface oi config,s.net⟩
  | .routing area routing =>
    ⟨s.core.setArea area {s.core.area area with externalRouting := routing},s.net⟩

theorem lsUpd_steady {env : Env} {n : Nat} {pkt : List Lsa} {s : State} (wf : Wf s.core) :
    Steady s.core (lsUpd env s n pkt).core := by
  simp only [lsUpd]
  split
  · exact Steady.refl s.core
  · exact @lsUpdLoop_steady env n _ ⟨s.core,s.net.emit (.nsmEvent n .packetReceived)⟩ wf

theorem purged_steady (core : Core) (db : Db) (key : LsaKey) : Steady core (purged core db key) where
  __ := Steady.refl core
  held db' key' r hf := by
    rw [Core.lookup,purged] at hf
    by_cases eq : db' = db
    · subst eq
      simp only [update_self] at hf
      by_cases hh : key' = key
      · rw [hh,AList.lookup_erase] at hf
        cases hf
      rw [AList.lookup_erase_ne hh] at hf
      exact Or.inl hf
    · simp only [update_of_ne eq] at hf
      exact Or.inl hf

theorem step_steady {s : State} (wf : Wf s.core) (ev : Event) : Steady s.core (step s ev).core := by
  cases ev with
  | lsUpd env n pkt => exact lsUpd_steady wf
  | originate env key seqnum content area oi => exact Steady.lsaInstall_alloc
  | translate env type7 => exact Steady.installExternal
  | refreshRouter env area => exact Steady.routerLsaUpdateArea
  | refreshNetwork env oi => exact Steady.networkLsaUpdate
  | refreshExternal env lsa => exact Steady.externalLsaRefresh
  | refreshOpaque env lsa => exact Steady.opaqueLsaRefresh
  | flush lsa => exact Steady.lsaFlush
  | purge db key => exact purged_steady s.core db key
  | elapse duration => exact Steady.of_same rfl rfl rfl rfl
  | neighbors net => exact Steady.refl s.core
  | interface oi cfg => exact Steady.of_same rfl rfl rfl rfl
  | routing area routing =>
    refine ⟨le_rfl,fun _ _ => rfl,fun _ _ => id,fun _ _ _ hf => Or.inl hf,
      fun a r own => Or.inl ?_⟩
    by_cases eq : a = area
    · subst eq
      simpa [step,Core.setArea] using own
    · simpa [step,Core.setArea,eq] using own

def OnPackets (property : Env → Nat → State → Lsa → Prop) (s : State) : Event → Prop
  | .lsUpd env n packet =>
    let s : State := ⟨s.core,s.net.emit (.nsmEvent n .packetReceived)⟩
    .exchange ≤ (s.net.neighbor n).state →
      EachTurn env n (property env n) (packet.filter fun lsa => acceptable s n lsa) s
  | _ => True

def ReplacesRecent (s : State) : Event → Prop
  | .lsUpd env n packet => Logs s.core (lsUpd env s n packet).core
  | _ => True

theorem Logs.all_recent {c c' : Core} (logs : Logs c c') (he : c.replaced = []) :
    ∀ e ∈ c'.replaced, e.Recent := by
  obtain ⟨ha,eq,hr⟩ := logs
  rw [eq,he,append_nil]
  exact hr

def Initial (s : State) : Prop :=
  (∀ db, s.core.lsdb db = ∅) ∧ ∀ a, (s.core.area a).routerLsaSelf = none

theorem Initial.wf {s : State} (init : Initial s) : Wf s.core where
  bounded db key r hf := by simp [Core.lookup,init.1 db] at hf
  numbered db key r hf := by simp [Core.lookup,init.1 db] at hf
  router a r own := by simp [init.2 a] at own

theorem step_replaces {s : State} {ev : Event} (wf : Wf s.core)
    (hc : OnPackets HarmlessLsa s ev) : ReplacesRecent s ev := by
  cases ev with
  | lsUpd env n pkt =>
    simp only [ReplacesRecent,lsUpd]
    split
    · exact Logs.of_eq rfl
    rename_i hr
    apply @lsUpdLoop_logs env n _ ⟨s.core,s.net.emit (.nsmEvent n .packetReceived)⟩ wf
    · intro lsa mem
      have ha := (mem_filter.mp mem).2
      simp only [acceptable,decide_eq_true_eq] at ha
      exact ha.1
    · exact hc (not_lt.mp hr)
  | _ => trivial

theorem step_ignores {s : State} {ev : Event} (wf : Wf s.core) :
    OnPackets StaleIgnored s ev := by
  cases ev with
  | lsUpd env n pkt =>
    intro hr
    apply @lsUpdLoop_stale env n _ ⟨s.core,s.net.emit (.nsmEvent n .packetReceived)⟩ wf
    intro lsa mem
    have ha := (mem_filter.mp mem).2
    simp only [acceptable,decide_eq_true_eq] at ha
    exact ha.1
  | _ => trivial

section

def border : State where
  core :=
    { routerId := 1, abr := true, now := 0, minLsArrival := 1000, lsas := fun _ => default,
      next := 0, lsdb := fun _ => ∅, maxageLsa := [], areas := [0], distinct := by decide,
      area := fun _ =>
        {backbone := false, externalRouting := .nssa, oiflist := [0], routerLsaSelf := none},
      oiflist := [0],
      interface := fun _ =>
        { area := 0, enabled := true, operative := true, type := .broadcast, state := .drOther,
          address := 0x0a000001, nbrSelf := 1, fullNbrs := 1, networkLsaSelf := none,
          networkLsaSeqnum := none },
      replaced := [] }
  net :=
    { nbrs := fun _ => [0],
      neighbor := fun _ =>
        { oi := 0, routerId := 2, address := 0x0a000002, dRouter := 0x0a000002,
          bdRouter := 0, options := optionNp, state := .full, dbSum := ∅, lsReq := ∅,
          lsReqLast := none, lsRxmt := ∅ },
      retransmitCounter := fun _ => 0,
      output := [] }

def quietEnv : Env where
  content _ _ := ⟨0,24,[0]⟩
  translated _ lsa := ⟨lsa.options,lsa.length,lsa.body⟩
  externalInfoCheck _ _ := false
  redistributeCheck _ _ := false
  registerOpaqueLsa _ _ := true
  opaqueRefresher _ := .flush
  opaqueInfo _ := none

def sent (key : LsaKey) (seqnum : UInt32) (body : List UInt32) : Lsa :=
  Lsa.withChecksum
    { lsAge := 1, options := optionNp, type := key.type, id := key.id,
      advRouter := key.advRouter, lsSeqnum := seqnum, checksum := 0,
      length := UInt16.ofNat (20+4*body.length), body := body }

def nssaRoute (router seqnum : UInt32) : Lsa :=
  sent ⟨Lsa.asNssaLsa,0x0a010000,router⟩ seqnum [0xffff0000,0x80000014,0,0]

def linkless (router seqnum : UInt32) : Lsa := sent ⟨Lsa.routerLsa,router,router⟩ seqnum [0]

end

/-- A received LSA that is not more recent than the database copy changes no database; and as long
as the received numbers do no harm to what the router originates, every instance that replaces
another is more recent. -/
theorem replaced_by_more_recent_when_harmless (s : State) (events : List Event)
    (initial : Initial s) :
    Throughout step (OnPackets StaleIgnored) events s ∧
      (Throughout step (OnPackets HarmlessLsa) events s →
        Throughout step ReplacesRecent events s) := by
  constructor
  · have free : Throughout step (fun _ _ => True) events s := by
      generalize s = start
      induction events generalizing start with
      | nil => trivial
      | cons ev rest ih => exact ⟨trivial,ih _⟩
    refine free.guarantee (I := fun s => Wf s.core) (fun s ev wf _ => ?_) initial.wf
    exact ⟨step_ignores wf,(step_steady wf ev).wf wf⟩
  · intro hc
    refine hc.guarantee (I := fun s => Wf s.core) (fun s ev wf hh => ?_) initial.wf
    exact ⟨step_replaces wf hh,(step_steady wf ev).wf wf⟩

theorem replaced_by_more_recent_next_number : Throughout step ReplacesRecent
      [.lsUpd quietEnv 0 [linkless 2 0x80000001], .elapse 2000000,
        .lsUpd quietEnv 0 [linkless 2 0x80000002]] border := by
  refine (replaced_by_more_recent_when_harmless border _ ⟨fun _ => rfl,fun _ => rfl⟩).2
    ⟨fun _ => ?_,trivial,fun _ => ?_,trivial⟩
  · refine ⟨fun _ => ?_,fun _ => trivial⟩
    rw [if_neg (by decide +kernel)]
    exact fun hn => absurd hn (by decide +kernel)
  refine ⟨fun _ => ?_,fun _ => trivial⟩
  rw [if_neg (by decide +kernel)]
  exact fun hn => absurd hn (by decide +kernel)

/-- A translation takes the number of its type-7 LSA. A second router's LSA for the prefix, with a
lower number, is translated too: an older instance replaces the one in the database. -/
theorem translation_replaced_by_older :
    Initial border ∧
    ¬ Throughout step ReplacesRecent
      [.lsUpd quietEnv 0 [nssaRoute 2 0x80000005], .translate quietEnv 0,
        .lsUpd quietEnv 0 [nssaRoute 3 0x80000001]] border := by
  constructor
  · exact ⟨fun _ => rfl,fun _ => rfl⟩
  intro hr
  -- The state before the last packet is hidden: only its log and that of the next are evaluated.
  have last := throughout_iff.mp hr
    [.lsUpd quietEnv 0 [nssaRoute 2 0x80000005], .translate quietEnv 0] _ [] rfl
  have fst : (run step [.lsUpd quietEnv 0 [nssaRoute 2 0x80000005],
      .translate quietEnv 0] border).core.replaced = [] := by decide +kernel
  have older : ¬ ∀ e ∈ (lsUpd quietEnv (run step [.lsUpd quietEnv 0
      [nssaRoute 2 0x80000005], .translate quietEnv 0] border) 0
      [nssaRoute 3 0x80000001]).core.replaced,
      Instance.moreRecent e.now e.old e.new < 0 := by decide +kernel
  generalize run step _ border = before at last fst older
  exact older (Logs.all_recent last fst)

end

end Frr.Ospf
