import Frr.Lsdb
import Frr.LsUpdateRuns

/-! The counters of the router's own LSAs. An LSA is counted by the flag it has when it is added,
and by the one it has when it is deleted; the flag belongs to the object, which several databases
may hold. -/
namespace Frr.Lsdb

open List Function Trace
open RouteTable (Table)

inductive Place where
  | area (area : Nat)
  | as
  | lsReq (nbr : Nat)
  | lsRxmt (nbr : Nat)
  | dbSum (nbr : Nat)
  deriving DecidableEq

structure Daemon where
  lsas : Nat → Instance
  next : Nat
  databases : Place → Database

/-- `flag` is what `ospf_lsa_is_self_originated` and others leave: no function takes OSPF_LSA_SELF
away. `write` is any other write to an LSA. -/
inductive Action where
  | create (lsa : Instance)
  | flag (r : Nat) (self : Bool)
  | write (r : Nat) (data : Lsa)
  | add (place : Place) (r : Nat)
  | delete (place : Place) (r : Nat)
  | deleteAll (place : Place)

namespace Daemon

variable (d : Daemon)

def setLsa (r : Nat) (lsa : Instance) : Daemon := {d with lsas := update d.lsas r lsa}

def setDatabase (place : Place) (db : Database) : Daemon :=
  {d with databases := update d.databases place db}

/-- LSAs have a type with a table, checked at reception, keep their key, and exist. -/
def allows : Action → Bool
  | .create lsa => lsa.data.type ∈ lsaTypes
  | .flag r _ => r < d.next
  | .write r data => r < d.next ∧ data.key = (d.lsas r).data.key
  | .add _ r => r < d.next
  | .delete _ r => r < d.next
  | .deleteAll _ => true

def perform : Action → Daemon
  | .create lsa => {d.setLsa d.next lsa with next := d.next + 1}
  | .flag r self =>
    let lsa := d.lsas r
    d.setLsa r {lsa with self := lsa.self || self, selfChecked := true}
  | .write r data => d.setLsa r {d.lsas r with data := data}
  | .add place r => d.setDatabase place (ospfLsdbAdd d.lsas (d.databases place) r)
  | .delete place r => d.setDatabase place (ospfLsdbDelete d.lsas (d.databases place) r)
  | .deleteAll place => d.setDatabase place (ospfLsdbDeleteAll d.lsas (d.databases place))

def step (action : Action) : Daemon := if d.allows action then d.perform action else d

def start : Daemon := {lsas := fun _ => default, next := 0, databases := fun _ => ospfLsdbNew}

def stored (place : Place) (type : UInt8) : List Nat := ((d.databases place).type type).stored

def Exact : Prop :=
  ∀ place, ∀ type ∈ lsaTypes, (d.stored place type).length < UInt64.size →
    ((d.databases place).type type).countSelf.toNat =
      (d.stored place type).countP fun r => (d.lsas r).self

def Careful : Action → Prop
  | .flag r self => self → (d.lsas r).self = false → ∀ place type, r ∉ d.stored place type
  | _ => True

end Daemon

/-! ### Databases without their checksums

The sum of the checksums goes wrong when an LSA is written to; the counters do not depend on
it. -/

section

def blankLsa (lsa : Instance) : Instance := {lsa with data := {lsa.data with checksum := 0}}

def Database.blank (db : Database) : Database :=
  {db with type := fun t => {db.type t with checksum := 0}}

variable (lsas : Nat → Instance) (db : Database) (r : Nat) (type : UInt8)

theorem blank_setDb (table : Table 8 Nat) :
    (db.setDb type table).blank = db.blank.setDb type table := by
  simp only [Database.setDb,Database.blank,Database.mk.injEq,and_true]
  funext t
  by_cases eq : t = type
  · subst eq
    simp
  · simp [eq]

theorem blank_countOut (lsa : Instance) :
    (db.countOut lsa).blank = db.blank.countOut (blankLsa lsa) := by
  simp only [Database.countOut,Database.blank,Database.mk.injEq,and_true]
  funext t
  by_cases eq : t = lsa.data.type
  · subst eq
    simp [blankLsa]
    rfl
  · simp [blankLsa,eq]

theorem blank_countIn (lsa : Instance) :
    (db.countIn lsa).blank = db.blank.countIn (blankLsa lsa) := by
  simp only [Database.countIn,Database.blank,Database.mk.injEq,and_true]
  funext t
  by_cases eq : t = lsa.data.type
  · subst eq
    simp [blankLsa]
    rfl
  · simp [blankLsa,eq]

theorem blank_deleteEntry (p : Prefix 8) : (ospfLsdbDeleteEntry lsas db type p).blank =
    ospfLsdbDeleteEntry (blankLsa ∘ lsas) db.blank type p := by
  unfold ospfLsdbDeleteEntry
  rw [show RouteTable.infoAt (db.blank.type type).db p = RouteTable.infoAt (db.type type).db p from rfl]
  cases RouteTable.infoAt (db.type type).db p with
  | none => rfl
  | some r =>
    simp only [blank_setDb,blank_countOut]
    have table : ((Database.countOut {db with sane := db.sane && (lsas r).data.type = type}
        (lsas r)).type type).db = (Database.type (Database.countOut {db.blank with
          sane := db.sane && (lsas r).data.type = type} (blankLsa (lsas r))) type).db := by
      rw [show ∀ x : Database, (x.type type).db = (x.blank.type type).db from fun _ => rfl,
        blank_countOut]
      rfl
    rw [table]
    rfl

theorem blank_table : (db.blank.type type).db = (db.type type).db := rfl

theorem blank_stored : (db.blank.type type).stored = (db.type type).stored := rfl

theorem blank_add : (ospfLsdbAdd lsas db r).blank = ospfLsdbAdd (blankLsa ∘ lsas) db.blank r := by
  have type : ((blankLsa ∘ lsas) r).data.type = (lsas r).data.type := rfl
  have key : lsPrefixSet ((blankLsa ∘ lsas) r).data = lsPrefixSet (lsas r).data := rfl
  simp only [ospfLsdbAdd,type,key,blank_table,← blank_setDb,← blank_deleteEntry]
  split
  · rfl
  rw [show (blankLsa ∘ lsas) r = blankLsa (lsas r) from rfl,← blank_countIn,blank_table,
    ← blank_setDb]

theorem blank_delete : (ospfLsdbDelete lsas db r).blank =
    ospfLsdbDelete (blankLsa ∘ lsas) db.blank r := by
  have type : ((blankLsa ∘ lsas) r).data.type = (lsas r).data.type := rfl
  have key : lsPrefixSet ((blankLsa ∘ lsas) r).data = lsPrefixSet (lsas r).data := rfl
  simp only [ospfLsdbDelete,type,key,blank_table]
  cases RouteTable.routeNodeLookup (db.type (lsas r).data.type).db (lsPrefixSet (lsas r).data) with
  | none => rfl
  | some table =>
    simp only [← blank_setDb,← blank_deleteEntry,blank_table]
    split
    · rw [blank_setDb]
      rfl
    rw [blank_setDb]
    rfl

theorem blank_deleteFrom (fuel : Nat) (p : Option (Prefix 8)) :
    (deleteFrom lsas type fuel db p).blank = deleteFrom (blankLsa ∘ lsas) type fuel db.blank p := by
  induction fuel generalizing db p with
  | zero => cases p <;> rfl
  | succ fuel ih =>
    cases p with
    | none => rfl
    | some p =>
      simp only [deleteFrom,ih,blank_setDb,blank_deleteEntry]
      rw [← blank_deleteEntry,blank_table]

theorem blank_deleteAll : (ospfLsdbDeleteAll lsas db).blank =
    ospfLsdbDeleteAll (blankLsa ∘ lsas) db.blank := by
  unfold ospfLsdbDeleteAll
  induction lsaTypes generalizing db with
  | nil => rfl
  | cons type rest ih =>
    rw [foldl_cons,foldl_cons,ih]
    congr 1
    simp [blank_deleteFrom,blank_setDb,blank_table]

end

section

variable {lsas lsas' : Nat → Instance} {type : UInt8} {users : Prefix 8 → Nat} {d : TypeDb}

theorem Keeps.congr (h : Keeps lsas type users d)
    (eq : ∀ r ∈ d.stored, (lsas' r).key = (lsas r).key ∧ (lsas' r).self = (lsas r).self ∧
      (lsas' r).data.checksum = (lsas r).data.checksum) : Keeps lsas' type users d where
  __ := h
  typed p r mem := by
    obtain ⟨ht,key⟩ := h.typed p r mem
    have keys := (eq r (mem_map_of_mem mem)).1
    simp only [Instance.key,Lsa.key,LsaKey.mk.injEq] at keys
    rw [← ht,← key,keys.1,lsPrefixSet,lsPrefixSet,keys.2.1,keys.2.2]
    exact ⟨rfl,rfl⟩
  countSelf := by
    rw [h.countSelf]
    exact congrArg _ (countP_congr fun r mem => by rw [(eq r mem).2.1])
  checksum := by
    rw [h.checksum,checksumSum,checksumSum]
    congr 2
    exact map_congr_left fun r mem => by rw [(eq r mem).2.2]

theorem mem_stored_iff (h : Keeps lsas type users d) (r : Nat) :
    r ∈ d.stored ↔ ∃ p, RouteTable.infoAt d.db p = some r := by
  simp [h.sound.infoAt_eq_some,TypeDb.stored,mem_map,Prod.exists,exists_eq_right]

theorem DbKeeps.deleteAll {db : Database} (h : DbKeeps lsas db) :
    DbKeeps lsas (ospfLsdbDeleteAll lsas db) ∧
      ∀ type, (db.type type).stored = [] ∨ type ∈ lsaTypes →
        ((ospfLsdbDeleteAll lsas db).type type).stored = [] := by
  rw [deleteAll_eq]
  exact h.deleteTypes lsaTypes fun _ => id

end

namespace Daemon

variable {d : Daemon}

structure Sound (d : Daemon) : Prop where
  keeps : ∀ place, DbKeeps (blankLsa ∘ d.lsas) (d.databases place).blank
  typed : ∀ r, r < d.next → (d.lsas r).data.type ∈ lsaTypes
  known : ∀ place type, ∀ r ∈ d.stored place type, r < d.next

theorem start_sound : Sound start where
  keeps _ := new_keeps _
  typed r lt := absurd lt (Nat.not_lt_zero r)
  known _ _ _ mem := absurd mem not_mem_nil

section

variable (sound : Sound d)

include sound

theorem Sound.exact : d.Exact := by
  intro place type hv few
  have hk : ((d.databases place).type type).countSelf = _ :=
    ((sound.keeps place).types type).countSelf
  have self : (fun r => ((blankLsa ∘ d.lsas) r).self) = fun r => (d.lsas r).self := rfl
  change _ < _ at few
  rw [hk,self,UInt64.toNat_ofNat_of_lt']
  · rfl
  · exact lt_of_le_of_lt countP_le_length few

theorem Sound.setLsa {r next : Nat} {lsa : Instance} (hl : d.next ≤ next)
    (new : r < next → lsa.data.type ∈ lsaTypes) (others : ∀ s, s < next → s ≠ r → s < d.next)
    (eq : ∀ place type, r ∈ d.stored place type →
      lsa.key = (d.lsas r).key ∧ lsa.self = (d.lsas r).self) :
    Sound {d.setLsa r lsa with next := next} where
  keeps place :=
    { types := fun type => ((sound.keeps place).types type).congr fun s mem => by
        by_cases hh : s = r
        · subst hh
          obtain ⟨key,self⟩ := eq place type mem
          simp only [Instance.key,Lsa.key,LsaKey.mk.injEq] at key
          simpa [Daemon.setLsa,blankLsa,Instance.key,Lsa.key] using ⟨key,self⟩
        · simp [Daemon.setLsa,hh]
      total := (sound.keeps place).total
      sane := (sound.keeps place).sane }
  typed s lt := by
    by_cases hh : s = r
    · subst hh
      simpa [Daemon.setLsa] using new lt
    · simpa [Daemon.setLsa,hh] using sound.typed s (others s lt hh)
  known place type s mem := lt_of_lt_of_le (sound.known place type s mem) hl

theorem Sound.setDatabase {place : Place} {db : Database}
    (hk : DbKeeps (blankLsa ∘ d.lsas) db.blank)
    (hkn : ∀ type, ∀ r ∈ (db.type type).stored, r < d.next) :
    Sound (d.setDatabase place db) where
  keeps ho := by
    by_cases hh : ho = place
    · subst hh
      simpa [Daemon.setDatabase] using hk
    · simpa [Daemon.setDatabase,hh] using sound.keeps ho
  typed := sound.typed
  known ho type r mem := by
    by_cases hh : ho = place
    · subst hh
      exact hkn type r (by simpa [Daemon.stored,Daemon.setDatabase] using mem)
    · exact sound.known ho type r (by simpa [Daemon.stored,Daemon.setDatabase,hh] using mem)

theorem Sound.update {place : Place} {type : UInt8} {ent : TypeDb}
    {total : UInt64} {db : Database} (hv : type ∈ lsaTypes)
    (res : db.blank = {(d.databases place).blank with
      type := update (d.databases place).blank.type type ent
      total := total})
    (hk : Keeps (blankLsa ∘ d.lsas) type (fun _ => 0) ent)
    (sums : total + UInt64.ofNat ((d.databases place).blank.type type).stored.length =
      (d.databases place).blank.total + UInt64.ofNat ent.stored.length)
    (hkn : ∀ r p, RouteTable.infoAt ent.db p = some r → r < d.next) :
    Sound (d.setDatabase place db) := by
  refine sound.setDatabase (res ▸ (sound.keeps place).update hv hk total sums) fun ho r mem => ?_
  rw [← blank_stored,res] at mem
  by_cases eq : ho = type
  · subst eq
    simp only [update_self] at mem
    obtain ⟨p,hf⟩ := (mem_stored_iff hk r).mp mem
    exact hkn r p hf
  simp only [update_of_ne eq] at mem
  exact sound.known place ho r mem

theorem Sound.infoAt {place : Place} {type : UInt8} {p : Prefix 8} {r : Nat}
    (hf : RouteTable.infoAt ((d.databases place).blank.type type).db p = some r) :
    r < d.next :=
  sound.known place type r ((mem_stored_iff ((sound.keeps place).types type) r).mpr ⟨p,hf⟩)

theorem Sound.add {r : Nat} (lt : r < d.next) (place : Place) :
    Sound (d.setDatabase place (ospfLsdbAdd d.lsas (d.databases place) r)) := by
  obtain ⟨ent,total,res,hk,sums,infos⟩ := add_eq (sound.keeps place) r
  rw [← blank_add] at res
  refine sound.update (sound.typed r lt) res hk sums fun s p hf => ?_
  rw [infos] at hf
  split at hf
  · cases hf
    exact lt
  · exact sound.infoAt hf

theorem Sound.delete {r : Nat} (lt : r < d.next) (place : Place) :
    Sound (d.setDatabase place (ospfLsdbDelete d.lsas (d.databases place) r)) := by
  obtain ⟨ent,total,res,hk,sums,infos⟩ := delete_eq (sound.keeps place) r
  rw [← blank_delete] at res
  refine sound.update (sound.typed r lt) res hk sums fun s p hf => ?_
  rw [infos] at hf
  split at hf
  · cases hf
  · exact sound.infoAt hf

theorem Sound.deleteAll (place : Place) :
    Sound (d.setDatabase place (ospfLsdbDeleteAll d.lsas (d.databases place))) := by
  have emptied := (sound.keeps place).deleteAll
  rw [← blank_deleteAll] at emptied
  obtain ⟨hke,he⟩ := emptied
  refine sound.setDatabase hke fun type r mem => ?_
  -- A type without tables holds nothing to begin with.
  have hn : ((d.databases place).blank.type type).stored = [] ∨ type ∈ lsaTypes := by
    by_cases hv : type ∈ lsaTypes
    · exact .inr hv
    refine .inl (eq_nil_iff_forall_not_mem.mpr fun s hh => hv ?_)
    have hk := (sound.keeps place).types type
    obtain ⟨p,hf⟩ := (mem_stored_iff hk s).mp hh
    rw [← (hk.typed p s (hk.sound.infoAt_eq_some.mp hf)).1]
    exact sound.typed s (sound.infoAt hf)
  rw [← blank_stored,he type hn] at mem
  exact absurd mem not_mem_nil

theorem Sound.step (act : Action) (hc : d.Careful act) : Sound (d.step act) := by
  unfold Daemon.step
  split
  · next allowed =>
    cases act with
    | create lsa =>
      have hv : lsa.data.type ∈ lsaTypes := of_decide_eq_true allowed
      refine sound.setLsa (Nat.le_succ _) (fun _ => hv) (fun s lt ne => by omega)
        fun place type mem => ?_
      exact absurd (sound.known place type _ mem) (lt_irrefl _)
    | flag r self =>
      have lt : r < d.next := of_decide_eq_true allowed
      refine sound.setLsa le_rfl (fun _ => sound.typed r lt) (fun _ lt _ => lt)
        fun place type mem => ⟨rfl,?_⟩
      cases set : self with
      | false => exact Bool.or_false _
      | true =>
        cases own : (d.lsas r).self with
        | true => simp
        | false => exact absurd mem (hc set own place type)
    | write r data =>
      obtain ⟨lt,key⟩ : r < d.next ∧ data.key = (d.lsas r).data.key := of_decide_eq_true allowed
      refine sound.setLsa le_rfl (fun _ => ?_) (fun _ lt _ => lt) fun place type mem => ⟨key,rfl⟩
      have type := congrArg LsaKey.type key
      exact (show data.type = (d.lsas r).data.type from type) ▸ sound.typed r lt
    | add place r => exact sound.add (of_decide_eq_true allowed) place
    | delete place r => exact sound.delete (of_decide_eq_true allowed) place
    | deleteAll place => exact sound.deleteAll place
  · exact sound

end

end Daemon

/-- If the flag of an LSA is not set while a database holds it, the counters of own LSAs are right
after every action. -/
theorem countSelf_exact_of_careful (actions : List Action)
    (careful : Throughout Daemon.step Daemon.Careful actions Daemon.start) :
    Throughout Daemon.step (fun d action => d.Exact ∧ (d.step action).Exact) actions
      Daemon.start :=
  Throughout.guarantee (I := Daemon.Sound) (fun _ action sound careful =>
      have next := sound.step action careful
      ⟨⟨sound.exact,next.exact⟩,next⟩)
    Daemon.start_sound careful

def ownReturned : Instance := Instance.new 0
  { lsAge := 1, options := 2, type := 1, id := 1, advRouter := 1, lsSeqnum := 0x80000005,
    checksum := 7, length := 24, body := [0] }

/-- The LSA is checked before it is stored, and the counter follows. -/
theorem checked_first_exact :
    let actions := [Action.create ownReturned,.flag 0 true,.add (.area 0) 0,.delete (.area 0) 0]
    Throughout Daemon.step Daemon.Careful actions Daemon.start ∧
      Throughout Daemon.step (fun d act => d.Exact ∧ (d.step act).Exact) actions
        Daemon.start := by
  intro actions
  have hc : Throughout Daemon.step Daemon.Careful actions Daemon.start :=
    ⟨trivial,fun _ _ _ _ => not_mem_nil,trivial,trivial,trivial⟩
  exact ⟨hc,countSelf_exact_of_careful actions hc⟩

/-! ### The flooding procedure -/

section

abbrev Script := Daemon → List Action

def Script.andThen (first second : Script) : Script := fun d =>
  first d ++ second (Trace.run Daemon.step (first d) d)

def Script.each {α : Type} (body : α → Script) : List α → Script
  | [] => fun _ => []
  | a :: rest => (body a).andThen (Script.each body rest)

def Daemon.lookup (d : Daemon) (place : Place) (r : Nat) : Option Nat :=
  ospfLsdbLookupById (d.databases place) (d.lsas r).key

def lsRetransmitAdd (now r n : Nat) : Script := fun d =>
  let old := d.lookup (.lsRxmt n) r
  if Instance.moreRecentThan now (old.map d.lsas) (d.lsas r) < 0 then
    old.toList.map (.delete (.lsRxmt n)) ++ [.add (.lsRxmt n) r]
  else []

def lsRetransmitDelete (r n : Nat) : Script := fun d =>
  if (d.lookup (.lsRxmt n) r).isSome then [.delete (.lsRxmt n) r] else []

/-- One neighbor in the loop of `ospf_ls_retransmit_delete_nbr_if`. -/
def lsRetransmitDeleteNbr (r n : Nat) : Script := fun d =>
  match d.lookup (.lsRxmt n) r with
  | none => []
  | some lsr =>
    if (d.lsas lsr).data.lsSeqnum = (d.lsas r).data.lsSeqnum then lsRetransmitDelete lsr n d else []

def lsaIsSelfOriginated (core : Ospf.Core) (r : Nat) : Script := fun d =>
  [.flag r (Ospf.lsaIsSelfOriginated core (d.lsas r))]

/-- `ospf_lsa_install` of an LSA with an ordinary sequence number. -/
def lsaInstall (nbrs : List Nat) (place : Place) (r : Nat) : Script := fun d =>
  Script.andThen (Script.each (fun old => Script.each (lsRetransmitDeleteNbr old) nbrs)
    (d.lookup place r).toList) (fun _ => [.add place r]) d

/-- `ospf_flood` of an LSA that is not too early. `targets` are the neighbors for which
`ospf_flood_through_interface` gets to `ospf_ls_retransmit_add`, `nbrs` all the LSA concerns. -/
def flood (core : Ospf.Core) (targets nbrs : List Nat) (place : Place) (current : Option Nat)
    (r : Nat) : Script :=
  (Script.each (lsRetransmitAdd core.now r) targets).andThen
    ((Script.each (fun c => Script.each (lsRetransmitDeleteNbr c) nbrs) current.toList).andThen
      ((lsaIsSelfOriginated core r).andThen (lsaInstall nbrs place r)))

/-- An own router-LSA comes back, and is flooded to a second neighbor before it is recognised. Its
list has an own LSA and has counted none, and when it is acknowledged the counter falls below zero.
-/
theorem flooded_before_recognised :
    let d := Daemon.start.step (.create ownReturned)
    let flooded := Trace.run Daemon.step (flood Ospf.border.core [1] [0,1] (.area 0) none 0 d) d
    let acked := Trace.run Daemon.step (lsRetransmitDelete 0 1 flooded) flooded
    flooded.stored (.lsRxmt 1) 1 = [0] ∧ (flooded.lsas 0).self ∧
      ((flooded.databases (.lsRxmt 1)).type 1).countSelf = 0 ∧
      acked.stored (.lsRxmt 1) 1 = [] ∧
      ((acked.databases (.lsRxmt 1)).type 1).countSelf = 0xffffffffffffffff := by
  decide +kernel

end

end Frr.Lsdb
