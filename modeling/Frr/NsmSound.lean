import Frr.Nsm
import Frr.Retransmission

/-! Between events of the daemon: the tables list the neighbors that exist, and retransmission
lists, states and counters agree. -/
namespace Frr.Ospf

open List Function Counting

section

def Event.Colours (coloured : Prop) : Event → Prop
  | .lsUpd env _ packet =>
    env.Plain coloured ∧ ∀ lsa ∈ packet, lsa.type = linkColourLsa → coloured
  | .originate _ key _ _ _ _ => key.type = linkColourLsa → coloured
  | .refreshOpaque env _ => env.Plain coloured
  | _ => True

structure Hooks.Colours (coloured : Prop) (hooks : Hooks) : Prop where
  env : hooks.env.Plain coloured
  election : ∀ event ∈ hooks.election, event.Colours coloured
  refresh : ∀ event ∈ hooks.refresh, event.Colours coloured
  opaqueChange : ∀ event ∈ hooks.opaqueChange, event.Colours coloured

def DaemonEvent.Colours (coloured : Prop) : DaemonEvent → Prop
  | .work event => event.Colours coloured
  | .nsm hooks _ _ => hooks.Colours coloured
  | .nbma hooks _ _ => hooks.Colours coloured
  | .maxageRemover env _ _ => env.Plain coloured
  | _ => True

end

section

variable {p : Policy} {s : State} {n : Nat}

theorem Moves.reconfigured {oi : Nat} {cfg : Interface} :
    Moves p s ⟨s.core.setInterface oi (reconfigured (s.core.interface oi) cfg),s.net⟩ := by
  apply core
  apply Kept.setInterface
  · exact ⟨rfl,rfl,rfl,rfl⟩
  intro hre r own
  simp only [Ospf.reconfigured] at own
  cases hr : cfg.networkLsaSelf with
  | none =>
    rw [hr] at own
    cases own
  | some _ =>
    rw [hr] at own
    exact hre.network oi r own

theorem Moves.work (free : p.Free) (fit : Fit p s.core) {ev : Event}
    (hc : ev.Colours p.coloured) : Moves p s (work s ev) := by
  cases ev with
  | lsUpd env n pkt => exact lsUpd free hc.1 hc.2 fit
  | originate env key seqnum content area oi =>
    obtain ⟨hs,lt⟩ := @installed p env s oi fit (ownLsa s.core key seqnum content area) hc
    exact hs.trans (floodThrough lt (free.adds _))
  | translate env type7 => exact translatedNssaOriginate fit
  | refreshRouter env area => exact routerLsaUpdateArea fit
  | refreshNetwork env oi => exact networkLsaUpdate fit
  | refreshExternal env lsa => exact externalLsaRefresh fit
  | refreshOpaque env lsa =>
    simp only [Ospf.work]
    split
    · rename_i lt
      exact opaqueLsaRefresh fit hc lt (free.adds _)
    · exact .refl
  | flush lsa =>
    simp only [Ospf.work]
    split
    · rename_i lt
      exact lsaFlush lt (free.adds _)
    · exact .refl
  | purge db key => exact core Kept.erase
  | elapse duration => exact core Kept.elapse
  | neighbors net => exact .refl
  | interface oi cfg => exact reconfigured
  | routing area routing => exact core (Kept.setArea rfl)

theorem Moves.works (free : p.Free) {evs : List Event}
    (hc : ∀ ev ∈ evs, ev.Colours p.coloured) {s : State} (fit : Fit p s.core) :
    Moves p s (works s evs) := by
  induction evs generalizing s with
  | nil => exact .refl
  | cons ev rest ih =>
    have fst : Moves p s (Ospf.work s ev) := work free fit (hc ev (.head _))
    apply fst.trans
    exact ih (fun ho mem => hc ho (.tail _ mem)) (fit.moves fst)

theorem Moves.forgetNetworkLsa {oi : Nat} : Moves p s (forgetNetworkLsa s oi) := by
  apply core
  apply Kept.setInterface
  · exact ⟨rfl,rfl,rfl,rfl⟩
  intro hr r own
  cases own

theorem Moves.fullLsas (free : p.Free) (fit : Fit p s.core) {env : Env} {oi : Nat}
    {vl : Option Nat} : Moves p s (fullLsas env s oi vl) := by
  have own : Moves p s (Ospf.routerLsaUpdateArea env s (s.core.interface oi).area) :=
    routerLsaUpdateArea fit
  simp only [Ospf.fullLsas]
  generalize Ospf.routerLsaUpdateArea env s (s.core.interface oi).area = t at own
  have transit : Moves p s (vl.elim t (Ospf.routerLsaUpdateArea env t)) := by
    cases vl with
    | none => exact own
    | some a => exact own.trans (routerLsaUpdateArea (fit.moves own))
  generalize vl.elim t (Ospf.routerLsaUpdateArea env t) = u at transit
  have fit' := fit.moves transit
  split
  · split
    · rename_i r hr
      split
      · have lt := fit'.refers.network oi r hr
        exact (transit.trans (lsaFlushArea lt (free.adds r))).trans forgetNetworkLsa
      · exact transit.trans (networkLsaUpdate fit')
    · exact transit.trans (networkLsaUpdate fit')
  · exact transit

theorem Moves.dbSummaryAdd {c : Core} {net : Net} {r : Nat} (lt : r < c.next) (ha : p.adds r)
    (exempt : p.exempt n) : Moves p ⟨c,net⟩ ⟨c,dbSummaryAdd c n net r⟩ := by
  simp only [Ospf.dbSummaryAdd]
  split
  · exact .refl
  split
  · exact .refl
  split
  · exact .single (.add lt ha (.inl exempt))
  · exact .single .lists

theorem summaryLsas_stored {r : Nat} (mem : r ∈ summaryLsas s n) :
    ∃ db key, s.core.lookup db key = some r := by
  simp only [summaryLsas,mem_append,mem_flatMap,mem_lsdbLoop] at mem
  rcases mem with ⟨ty,-,key,-,hf⟩ | ⟨ty,-,key,-,hf⟩
  · exact ⟨_,key,hf⟩
  · exact ⟨_,key,hf⟩

theorem Moves.nsmNegotiationDone (free : p.Free) (fit : Fit p s.core) (exempt : p.exempt n) :
    Moves p s (nsmNegotiationDone s n) := by
  have exist : ∀ r ∈ summaryLsas s n, r < s.core.next := by
    intro r mem
    obtain ⟨db,key,hf⟩ := summaryLsas_stored mem
    exact (fit.refers.stored db key r hf).1
  simp only [Ospf.nsmNegotiationDone]
  generalize summaryLsas s n = lsas at exist
  have walk (net : Net) : Moves p ⟨s.core,net⟩
      ⟨s.core,lsas.foldl (Ospf.dbSummaryAdd s.core n) net⟩ := by
    induction lsas generalizing net with
    | nil => exact .refl
    | cons r rest ih =>
      have fst : Moves p ⟨s.core,net⟩ ⟨s.core,Ospf.dbSummaryAdd s.core n net r⟩ :=
        dbSummaryAdd (exist r (.head _)) (free.adds r) exempt
      apply fst.trans
      exact ih (fun ho mem => exist ho (.tail _ mem)) _
  exact walk s.net

theorem Moves.nsmExchangeDone {lsReqLast : Option Nat} :
    Moves p s (nsmExchangeDone s n lsReqLast).1 := by
  simp only [Ospf.nsmExchangeDone]
  split
  · exact .refl
  have ha : Moves p s ⟨s.core,s.net.setNbr n
      {s.net.neighbor n with
        dbSum := (s.net.neighbor n).dbSum
        lsReq := (s.net.neighbor n).lsReq
        lsReqLast := lsReqLast}⟩ := .single .lists
  exact ha.trans emit

theorem Moves.nsmNext (free : p.Free) (fit : Fit p s.core) {lsReqLast : Option Nat} {ev : NsmEvent}
    (exempt : (nsm (s.net.neighbor n).state ev).1 = some .negotiationDone → p.exempt n) :
    Moves p s (nsmNext s n lsReqLast ev).1 := by
  simp only [Ospf.nsmNext]
  split
  · exact .refl
  rename_i act next ent
  cases act with
  | negotiationDone =>
    apply nsmNegotiationDone free fit
    exact exempt (by rw [ent])
  | exchangeDone => exact nsmExchangeDone
  | packetReceived => exact .refl
  | start => exact .refl
  | twowayReceived => exact .refl
  | adjOk => exact .refl
  | killNbr => exact .refl

theorem Moves.lsAck {hdrs : List Lsa} : Moves p s (lsAck s n hdrs) := by
  have hr : Moves p s ⟨s.core,s.net.emit (.nsmEvent n .packetReceived)⟩ := emit
  simp only [Ospf.lsAck]
  split
  · exact hr
  apply hr.trans
  apply foldl
  intro net hdr
  simp only [lsAckTurn]
  split
  · exact .refl
  split
  · exact .refl
  rename_i lsr hh
  split
  · exact .single (.delete hh)
  · exact .refl

end

section

variable {p : Policy} {c : Core} {net : Net} {n : Nat}

theorem clear_held {hh : List (Sigma fun _ : LsaKey => Nat)} {net : Net}
    (ents : (net.neighbor n).lsRxmt.entries = hh)
    (keyed : ∀ ent ∈ hh, ent.1 = (c.lsas ent.2).key) :
    Moves p ⟨c,net⟩ ⟨c,(hh.map (·.2)).foldl (fun net r => lsRetransmitDelete c net n r) net⟩ ∧
      (((hh.map (·.2)).foldl (fun net r => lsRetransmitDelete c net n r) net).neighbor
        n).lsRxmt = ∅ := by
  induction hh generalizing net with
  | nil => exact ⟨.refl,AList.ext ents⟩
  | cons ent rest ih =>
    obtain ⟨key,r⟩ := ent
    have eq : key = (c.lsas r).key := keyed ⟨key,r⟩ (.head _)
    have hf : (net.neighbor n).lsRxmt.lookup (c.lsas r).key = some r := by
      rw [← eq]
      apply AList.mem_lookup_iff.mpr
      rw [ents]
      exact .head _
    have ha : ((lsRetransmitDelete c net n r).neighbor n).lsRxmt.entries = rest := by
      rw [lsRetransmitDelete_same hf,← eq]
      change ((net.neighbor n).lsRxmt.entries).kerase key = rest
      rw [ents]
      exact kerase_cons_eq rfl
    have hl := ih ha fun ho mem => keyed ho (.tail _ mem)
    have fst : Moves p ⟨c,net⟩ ⟨c,lsRetransmitDelete c net n r⟩ := .single (.delete hf)
    exact ⟨fst.trans hl.1,hl.2⟩

section

variable (keyed : ∀ key r, (net.neighbor n).lsRxmt.lookup key = some r → key = (c.lsas r).key)

include keyed

theorem Moves.lsRetransmitClear : Moves p ⟨c,net⟩ ⟨c,lsRetransmitClear c net n⟩ ∧
      ((lsRetransmitClear c net n).neighbor n).lsRxmt = ∅ := by
  obtain ⟨hm,he⟩ := @clear_held p c n _ net rfl fun ent mem =>
    keyed ent.1 ent.2 (AList.mem_lookup_iff.mpr mem)
  simp only [Ospf.lsRetransmitClear]
  constructor
  · exact hm.tail (@Move.lists p c _ n _ _ none)
  · simpa [Net.setNbr] using he

theorem Moves.clearLists :
    Moves p ⟨c,net⟩ ⟨c,clearLists c n net⟩ ∧ ((clearLists c n net).neighbor n).lsRxmt = ∅ := by
  have summ : Moves p ⟨c,net⟩ ⟨c,net.setNbr n {net.neighbor n with
      dbSum := ∅
      lsReq := (net.neighbor n).lsReq
      lsReqLast := (net.neighbor n).lsReqLast}⟩ := .single .lists
  simp only [Ospf.clearLists]
  generalize eq : net.setNbr n {net.neighbor n with
      dbSum := ∅
      lsReq := (net.neighbor n).lsReq
      lsReqLast := (net.neighbor n).lsReqLast} = net' at summ
  have hs : (net'.neighbor n).lsRxmt = (net.neighbor n).lsRxmt := by simp [← eq,Net.setNbr]
  have request : Moves p ⟨c,net⟩ ⟨c,if (net'.neighbor n).lsReq.entries.isEmpty then net'
      else lsRequestDeleteAll net' n⟩ ∧
      ((if (net'.neighbor n).lsReq.entries.isEmpty then net'
        else lsRequestDeleteAll net' n).neighbor n).lsRxmt = (net.neighbor n).lsRxmt := by
    split
    · exact ⟨summ,hs⟩
    refine ⟨summ.tail (@Move.lists p c net' n _ _ none),?_⟩
    simpa [lsRequestDeleteAll,Net.setNbr] using hs
  generalize (if (net'.neighbor n).lsReq.entries.isEmpty then net'
    else lsRequestDeleteAll net' n) = net'' at request
  obtain ⟨hm,list⟩ := request
  split
  · rename_i he
    exact ⟨hm,AList.ext (isEmpty_iff.mp he)⟩
  obtain ⟨hc,he⟩ := @lsRetransmitClear p c net'' n (by rw [list]; exact keyed)
  exact ⟨hm.trans hc,he⟩

end

end

section

structure Core.Wired (core : Core) : Prop where
  home : ∀ oi ∈ core.oiflist, oi ∈ (core.area (core.interface oi).area).oiflist
  nodup : ∀ a, (core.area a).oiflist.Nodup
  area : ∀ a oi, oi ∈ (core.area a).oiflist → (core.interface oi).area = a

theorem Core.Wired.kept {c c' : Core} (wired : c.Wired)
    (ifc : ∀ oi, (c'.interface oi).area = (c.interface oi).area)
    (area : ∀ a, (c'.area a).oiflist = (c.area a).oiflist) (oiflist : c'.oiflist = c.oiflist) :
    c'.Wired where
  home oi hm := by
    rw [ifc,area]
    exact wired.home oi (oiflist ▸ hm)
  nodup a := by
    rw [area]
    exact wired.nodup a
  area a oi hm := by
    rw [area] at hm
    rw [ifc]
    exact wired.area a oi hm

/-- `full`: the neighbors counted as full; `exempt`: those that may have a list in a low state. -/
structure Sound (coloured : Prop) (exempt : Nat → Prop) (full : Nat → Bool) (d : Daemon) :
    Prop where
  refers : d.core.Refers
  nodup : d.live.Nodup
  bound : ∀ n ∈ d.live, n < d.nextNbr
  homes : ∀ n ∈ d.live, (d.net.neighbor n).oi ∈ d.core.oiflist
  listed : ∀ oi n, n ∈ d.net.nbrs oi →
    n ∈ d.live ∧ (d.net.neighbor n).oi = oi ∧ d.slot n = nbrKey d.toState n
  slots : ∀ oi, ((d.net.nbrs oi).map d.slot).Nodup
  counted : Counted d.live d.toState
  quiet : ¬ coloured → Quiet exempt d.toState
  wired : d.core.Wired
  nbrs : ∀ oi, (d.core.interface oi).fullNbrs =
    d.live.countP fun n => (d.net.neighbor n).oi = oi && full n
  areas : ∀ a, d.fullNbrs a =
    ((d.core.area a).oiflist.map fun oi => (d.core.interface oi).fullNbrs).sum
  vls : ∀ a, d.fullVls a = d.live.countP fun n => d.vl (d.net.neighbor n).oi = some a && full n

namespace Net.Alike

variable {net net' : Net} (ha : Alike net net') (n : Nat)

include ha

theorem oi : (net'.neighbor n).oi = (net.neighbor n).oi := by
  have eq := congrArg Neighbor.oi (ha.bare n)
  exact eq

theorem routerId : (net'.neighbor n).routerId = (net.neighbor n).routerId := by
  have eq := congrArg Neighbor.routerId (ha.bare n)
  exact eq

theorem address : (net'.neighbor n).address = (net.neighbor n).address := by
  have eq := congrArg Neighbor.address (ha.bare n)
  exact eq

end Net.Alike

def anyObject (coloured : Prop) (exempt : Nat → Prop) : Policy := 
  ⟨coloured,fun _ => True,fun _ => True,exempt⟩

theorem anyObject_free {coloured : Prop} {exempt : Nat → Prop} :
    (anyObject coloured exempt).Free := ⟨fun _ => trivial,fun _ => trivial⟩

theorem anyObject_fit {coloured : Prop} {exempt : Nat → Prop} {core : Core}
    (hr : core.Refers) : Fit (anyObject coloured exempt) core :=
  ⟨hr,fun _ _ => trivial,fun _ _ => trivial⟩

theorem nbrKey_congr {s s' : State} {n : Nat} (oi : (s'.net.neighbor n).oi = (s.net.neighbor n).oi)
    (routerId : (s'.net.neighbor n).routerId = (s.net.neighbor n).routerId)
    (addr : (s'.net.neighbor n).address = (s.net.neighbor n).address)
    (ty : ∀ i, (s'.core.interface i).type = (s.core.interface i).type) :
    nbrKey s' n = nbrKey s n := by
  simp [nbrKey,oi,routerId,addr,ty]

namespace Sound

variable {coloured : Prop} {exempt exempt' : Nat → Prop} {full : Nat → Bool} {d : Daemon}

theorem moves (sound : Sound coloured exempt full d) {s : State}
    (ha : ∀ n, exempt n → n ∈ d.live) (hm : Moves (anyObject coloured exempt) d.toState s) :
    Sound coloured exempt full (d.put s) where
  __ := sound
  refers := hm.kept.refers sound.refers
  homes n hme := by
    rw [hm.alike.oi,hm.kept.oiflist]
    exact sound.homes n hme
  listed oi n hme := by
    rw [hm.alike.nbrs] at hme
    obtain ⟨live,hh,slot⟩ := sound.listed oi n hme
    refine ⟨live,(hm.alike.oi n).trans hh,slot.trans ?_⟩
    exact (nbrKey_congr (hm.alike.oi n) (hm.alike.routerId n) (hm.alike.address n)
      fun i => (hm.kept.interface i).type).symm
  slots oi := by
    rw [hm.alike.nbrs]
    exact sound.slots oi
  counted := sound.counted.moves sound.nodup (fun oi n hme => (sound.listed oi n hme).1) ha hm
  quiet hu := (sound.quiet hu).moves (p := anyObject coloured exempt) hu hm
  wired := sound.wired.kept (fun oi => (hm.kept.interface oi).area) hm.kept.area hm.kept.oiflist
  nbrs oi := by
    rw [(hm.kept.interface oi).fullNbrs,sound.nbrs oi]
    apply countP_same
    intro n _
    rw [hm.alike.oi]
  areas a := by
    rw [hm.kept.area a,sound.areas a]
    apply sum_same
    exact fun oi _ => (hm.kept.interface oi).fullNbrs.symm
  vls a := by
    rw [sound.vls a]
    apply countP_same
    intro n _
    have vl : Daemon.vl (d.put s) (s.net.neighbor n).oi = d.vl (d.net.neighbor n).oi := by
      simp [Daemon.vl,hm.alike.oi,(hm.kept.interface _).type]
    rw [vl]

theorem relabel (sound : Sound coloured exempt full d) {n : Nat} {nbr : Neighbor}
    (oi : nbr.oi = (d.net.neighbor n).oi) (list : nbr.lsRxmt = (d.net.neighbor n).lsRxmt)
    (key : ∀ i, n ∈ d.net.nbrs i → nbrKey ⟨d.core,d.net.setNbr n nbr⟩ n = nbrKey d.toState n)
    (hq : ¬ coloured → Quiet exempt' ⟨d.core,d.net.setNbr n nbr⟩) :
    Sound coloured exempt' full (d.put ⟨d.core,d.net.setNbr n nbr⟩) := by
  have homes (m : Nat) : ((d.net.setNbr n nbr).neighbor m).oi = (d.net.neighbor m).oi := by
    by_cases hh : m = n
    · rw [hh]
      simpa [Net.setNbr] using oi
    · simp [Net.setNbr,hh]
  have lists (m : Nat) : ((d.net.setNbr n nbr).neighbor m).lsRxmt = (d.net.neighbor m).lsRxmt := by
    by_cases hh : m = n
    · rw [hh]
      simpa [Net.setNbr] using list
    · simp [Net.setNbr,hh]
  refine
    { refers := sound.refers, nodup := sound.nodup, bound := sound.bound, slots := sound.slots,
      wired := sound.wired, areas := sound.areas, quiet := hq,
      counted := sound.counted.same lists rfl, homes := fun m mem => ?_,
      listed := fun i m mem => ?_, nbrs := fun i => ?_, vls := fun a => ?_ }
  · rw [homes]
    exact sound.homes m mem
  · obtain ⟨live,hho,slot⟩ := sound.listed i m mem
    refine ⟨live,(homes m).trans hho,slot.trans ?_⟩
    by_cases hh : m = n
    · rw [hh] at mem ⊢
      exact (key i mem).symm
    · simp [nbrKey,Net.setNbr,hh]
  · rw [sound.nbrs i]
    apply countP_same
    intro m _
    rw [homes]
  · rw [sound.vls a]
    apply countP_same
    intro m _
    change (decide (d.vl (d.net.neighbor m).oi = some a) && full m) =
      (decide (d.vl ((d.net.setNbr n nbr).neighbor m).oi = some a) && full m)
    rw [homes]

end Sound

section

variable {d : Daemon} {oi : Nat} {up : Bool}

theorem change_eq {x y : Nat} (shift : Shift up x y) :
    (if up then (· + 1) else decrement) x = y := by
  cases up with
  | true => exact Eq.symm shift
  | false =>
    have eq : x = y+1 := shift
    rw [eq]
    rfl

theorem countFull_interface_other {i : Nat} (ne : i ≠ oi) :
    (countFull d oi up).core.interface i = d.core.interface i := by
  simp [countFull,Core.setInterface,ne]

theorem countFull_interface :
    (countFull d oi up).core.interface oi =
      {d.core.interface oi with
        fullNbrs := (if up then (· + 1) else decrement) (d.core.interface oi).fullNbrs} := by
  simp [countFull,Core.setInterface]

theorem countFull_frame (i : Nat) :
    ((countFull d oi up).core.interface i).area = (d.core.interface i).area ∧
    ((countFull d oi up).core.interface i).type = (d.core.interface i).type ∧
    ((countFull d oi up).core.interface i).nbrSelf = (d.core.interface i).nbrSelf ∧
    ((countFull d oi up).core.interface i).networkLsaSelf =
      (d.core.interface i).networkLsaSelf := by
  by_cases hh : i = oi
  · rw [hh,countFull_interface]
    exact ⟨rfl,rfl,rfl,rfl⟩
  rw [countFull_interface_other hh]
  exact ⟨rfl,rfl,rfl,rfl⟩

theorem countFull_vl (i : Nat) : (countFull d oi up).vl i = d.vl i := by
  simp only [Daemon.vl,(countFull_frame i).2.1]
  rfl

variable {coloured : Prop} {exempt : Nat → Prop} {full : Nat → Bool} {n : Nat}

section

variable (sound : Sound coloured exempt full d)

include sound

section

variable (live : n ∈ d.live) (hb : full n = !up)

include live hb

theorem Sound.nbrs_shift : Shift up (d.core.interface (d.net.neighbor n).oi).fullNbrs
      (d.live.countP fun m => (d.net.neighbor m).oi = (d.net.neighbor n).oi &&
        update full n up m) := by
  rw [sound.nbrs]
  apply countP_shift sound.nodup live
  · simp [hb]
  · simp
  intro m ne
  rw [update_of_ne ne]

theorem Sound.count_nbrs (i : Nat) :
    ((countFull d (d.net.neighbor n).oi up).core.interface i).fullNbrs =
      d.live.countP fun m => (d.net.neighbor m).oi = i && update full n up m := by
  by_cases hh : i = (d.net.neighbor n).oi
  · rw [hh,countFull_interface]
    exact change_eq (sound.nbrs_shift live hb)
  rw [countFull_interface_other hh,sound.nbrs i]
  apply countP_same
  intro m _
  by_cases eq : m = n
  · rw [eq]
    simp [Ne.symm hh]
  · rw [update_of_ne eq]

theorem Sound.count_areas (a : Nat) : (countFull d (d.net.neighbor n).oi up).fullNbrs a =
      ((d.core.area a).oiflist.map fun i =>
        ((countFull d (d.net.neighbor n).oi up).core.interface i).fullNbrs).sum := by
  have hm := sound.wired.home _ (sound.homes n live)
  change update d.fullNbrs (d.core.interface (d.net.neighbor n).oi).area
    ((if up then (· + 1) else decrement)
      (d.fullNbrs (d.core.interface (d.net.neighbor n).oi).area)) a = _
  by_cases hh : a = (d.core.interface (d.net.neighbor n).oi).area
  · rw [hh,update_self,sound.areas]
    apply change_eq
    apply sum_shift (sound.wired.nodup _) hm
    · rw [sound.count_nbrs live hb]
      exact sound.nbrs_shift live hb
    intro i ne
    rw [countFull_interface_other ne]
  · rw [update_of_ne hh,sound.areas]
    apply sum_same
    intro i inArea
    rw [countFull_interface_other]
    intro eq
    apply hh
    rw [← eq]
    exact (sound.wired.area a i inArea).symm

theorem Sound.count_vls (a : Nat) : (countFull d (d.net.neighbor n).oi up).fullVls a =
      d.live.countP fun m => d.vl (d.net.neighbor m).oi = some a &&
        update full n up m := by
  by_cases transit : d.vl (d.net.neighbor n).oi = some a
  · have shift : Shift up (d.fullVls a) (d.live.countP fun m =>
        d.vl (d.net.neighbor m).oi = some a && update full n up m) := by
      rw [sound.vls a]
      apply countP_shift sound.nodup live
      · simp [hb,transit]
      · simp [transit]
      intro m ne
      rw [update_of_ne ne]
    simp only [countFull,transit,Option.elim_some,update_self]
    cases up with
    | true => exact Eq.symm shift
    | false =>
      have eq : d.fullVls a = _+1 := shift
      rw [eq]
      rfl
  · have hs : (countFull d (d.net.neighbor n).oi up).fullVls a = d.fullVls a := by
      simp only [countFull]
      cases eq : d.vl (d.net.neighbor n).oi with
      | none => rfl
      | some b =>
        have ne : a ≠ b := fun hs => transit (by rw [eq,hs])
        simp [ne]
    rw [hs,sound.vls a]
    apply countP_same
    intro m _
    by_cases hh : m = n
    · rw [hh]
      simp [transit]
    · rw [update_of_ne hh]

theorem Sound.count : Sound coloured exempt (update full n up)
      (countFull d (d.net.neighbor n).oi up) where
  __ := sound
  refers := by
    refine ⟨sound.refers.stored,sound.refers.home,fun i r own => ?_,sound.refers.maxage⟩
    rw [(countFull_frame i).2.2.2] at own
    exact sound.refers.network i r own
  counted := ⟨sound.counted.keyed,sound.counted.alive,sound.counted.counter⟩
  quiet hu := ⟨(sound.quiet hu).plain,(sound.quiet hu).silent⟩
  wired := sound.wired.kept (fun i => (countFull_frame i).1) (fun _ => rfl) rfl
  listed i m hi := by
    obtain ⟨ha,ht,slot⟩ := sound.listed i m hi
    refine ⟨ha,ht,slot.trans ?_⟩
    exact (@nbrKey_congr d.toState (countFull d (d.net.neighbor n).oi up).toState m rfl rfl rfl
      fun i => (countFull_frame i).2.1).symm
  nbrs := sound.count_nbrs live hb
  areas := sound.count_areas live hb
  vls a := by
    rw [sound.count_vls live hb]
    apply countP_same
    intro m _
    rw [countFull_vl]
    rfl

end

end

end

section

variable {coloured : Prop} {exempt : Nat → Prop} {full : Nat → Bool} {d : Daemon} {hooks : Hooks}
  {n oi : Nat}

/-- No neighbor has come, gone or changed state, and the pseudo neighbors are kept. -/
structure Daemon.Frame (d e : Daemon) : Prop where
  state : ∀ m, (e.net.neighbor m).state = (d.net.neighbor m).state
  oi : ∀ m, (e.net.neighbor m).oi = (d.net.neighbor m).oi
  live : e.live = d.live
  nbrSelf : ∀ i, (e.core.interface i).nbrSelf = (d.core.interface i).nbrSelf
  oiflist : e.core.oiflist = d.core.oiflist

theorem Daemon.Frame.refl (d : Daemon) : d.Frame d :=
  ⟨fun _ => rfl,fun _ => rfl,rfl,fun _ => rfl,rfl⟩

theorem Daemon.Frame.trans {d e f : Daemon} (fst : d.Frame e) (snd : e.Frame f) : d.Frame f :=
  ⟨fun m => (snd.state m).trans (fst.state m),fun m => (snd.oi m).trans (fst.oi m),
    snd.live.trans fst.live,fun i => (snd.nbrSelf i).trans (fst.nbrSelf i),
    snd.oiflist.trans fst.oiflist⟩

theorem Moves.frame {p : Policy} {s : State} (hm : Moves p d.toState s) : d.Frame (d.put s) :=
  ⟨hm.alike.state,hm.alike.oi,rfl,fun i => (hm.kept.interface i).nbrSelf, hm.kept.oiflist⟩

structure Step (coloured : Prop) (exempt : Nat → Prop) (full : Nat → Bool) (d e : Daemon) :
    Prop where
  sound : Sound coloured exempt full e
  frame : d.Frame e

section

variable (sound : Sound coloured exempt full d) (ha : ∀ m, exempt m → m ∈ d.live)

include sound ha

theorem Sound.step {s : State} (hm : Moves (anyObject coloured exempt) d.toState s) :
    Step coloured exempt full d (d.put s) := ⟨sound.moves ha hm,hm.frame⟩

theorem Sound.works {evs : List Event} (hc : ∀ event ∈ evs, event.Colours coloured) :
    Step coloured exempt full d (d.put (works d.toState evs)) :=
  sound.step ha (Moves.works anyObject_free hc (anyObject_fit sound.refers))

theorem Sound.fullLsas {env : Env} {vl : Option Nat} :
    Step coloured exempt full d (d.put (fullLsas env d.toState oi vl)) :=
  sound.step ha (Moves.fullLsas anyObject_free (anyObject_fit sound.refers))

end

theorem Step.trans {full' : Nat → Bool} {exempt' : Nat → Prop} {e f : Daemon}
    (fst : Step coloured exempt full d e) (snd : Step coloured exempt' full' e f) :
    Step coloured exempt' full' d f := ⟨snd.sound,fst.frame.trans snd.frame⟩

section

variable (sound : Sound coloured exempt full d) (ha : ∀ m, exempt m → m ∈ d.live)

include sound ha

theorem Sound.fullChange (hco : hooks.Colours coloured) (live : n ∈ d.live)
    {up : Bool} (hb : full n = !up) (hh : (d.net.neighbor n).oi = oi) :
    Step coloured exempt (update full n up) d (fullChange hooks d oi up) := by
  subst hh
  have hc : Step coloured exempt (update full n up) d
      (countFull d (d.net.neighbor n).oi up) :=
    ⟨sound.count live hb,fun _ => rfl,fun _ => rfl,rfl,fun i => (countFull_frame i).2.2.1,rfl⟩
  simp only [Ospf.fullChange]
  generalize countFull d (d.net.neighbor n).oi up = e at hc
  have ha' : ∀ m, exempt m → m ∈ e.live := by
    rw [hc.frame.live]
    exact ha
  cases up with
  | true =>
    have hr := hc.sound.works ha' hco.refresh
    exact (hc.trans hr).trans (hr.sound.fullLsas ha')
  | false => exact hc.trans (hc.sound.fullLsas ha')

theorem Sound.clearLists : Step coloured (fun m => exempt m ∧ m ≠ n) full d
      (d.put ⟨d.core,clearLists d.core n d.net⟩) := by
  obtain ⟨moves,empty⟩ := @Moves.clearLists (anyObject coloured exempt) d.core d.net n
    fun key r found => (sound.counted.keyed n key r found).1
  have cleared := sound.moves ha moves
  refine ⟨{cleared with quiet := fun uncoloured => ?_},moves.frame⟩
  refine ⟨(cleared.quiet uncoloured).plain,fun m other low => ?_⟩
  by_cases here : m = n
  · rw [here]
    exact empty
  · exact (cleared.quiet uncoloured).silent m (fun one => other ⟨one,here⟩) low

theorem Sound.nsmClearAdj : Step coloured (fun m => exempt m ∧ m ≠ n) full d
      (d.put ⟨d.core,nsmClearAdj d.core n d.net⟩) := by
  have step := @Sound.clearLists coloured exempt full d n sound ha
  have hc := step.sound
  apply step.trans
  constructor
  · apply hc.relabel
    · rfl
    · rfl
    · intro i mem
      simp [nbrKey,Net.setNbr]
    intro hu
    refine ⟨(hc.quiet hu).plain,fun m ho low => ?_⟩
    have hs := (hc.quiet hu).silent m ho
    by_cases hh : m = n
    · subst hh
      simp only [Net.setNbr,update_self] at low ⊢
      exact hs low
    simp only [Net.setNbr,update_of_ne hh] at low ⊢
    exact hs low
  · refine ⟨fun m => ?_,fun m => ?_,rfl,fun _ => rfl,rfl⟩
    · by_cases hh : m = n
      · subst hh
        simp [Ospf.nsmClearAdj,Net.setNbr]
      · simp [Ospf.nsmClearAdj,Net.setNbr,hh]
    by_cases hh : m = n
    · subst hh
      simp [Ospf.nsmClearAdj,Net.setNbr]
    · simp [Ospf.nsmClearAdj,Net.setNbr,hh]

end

end

end

end Frr.Ospf
