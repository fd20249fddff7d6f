import Frr.RouteTable
import Frr.Ospf
import Frr.Trace

/-! The link state database of `ospf_lsdb.c` over its tables, with the statistics it keeps. -/
namespace Frr.Lsdb

open Function
open RouteTable (Table Node)

/-- The prefix that `ls_prefix_set` makes. -/
def lsPrefix (id advRouter : UInt32) : Prefix 8 where
  prefixlen := 64
  val := Lsa.bytesOf32 id ++ Lsa.bytesOf32 advRouter
  size := rfl
  short := le_rfl
  masked := fun i beyond inside => absurd inside (by omega)

def lsPrefixSet (lsa : Lsa) : Prefix 8 := lsPrefix lsa.id lsa.advRouter

/-- An element of `lsdb->type`. -/
structure TypeDb where
  count : UInt64
  countSelf : UInt64
  checksum : UInt32
  db : Table 8 Nat

/-- `struct ospf_lsdb`. `sane`: the assertion of `ospf_lsdb_delete_entry` holds and the walks come
to their end. -/
structure Database where
  type : UInt8 → TypeDb
  total : UInt64
  sane : Bool

/-- The types from `OSPF_MIN_LSA` on below `OSPF_MAX_LSA`. -/
def lsaTypes : List UInt8 := (List.range' 1 14).map UInt8.ofNat

def ospfLsdbNew : Database where
  type := fun _ => {count := 0, countSelf := 0, checksum := 0, db := RouteTable.routeTableInit}
  total := 0
  sane := true

def Database.setDb (db : Database) (type : UInt8) (table : Table 8 Nat) : Database :=
  {db with type := update db.type type {db.type type with db := table}}

section

variable (lsas : Nat → Instance)

section

variable (db : Database)

def Database.countOut (lsa : Instance) : Database :=
  let d := db.type lsa.data.type
  {db with
    type := update db.type lsa.data.type {d with
      countSelf := if lsa.self then d.countSelf - 1 else d.countSelf
      count := d.count-1
      checksum := d.checksum - lsa.data.checksum.toUInt32}
    total := db.total - 1}

def Database.countIn (lsa : Instance) : Database :=
  let d := db.type lsa.data.type
  {db with
    type := update db.type lsa.data.type {d with
      countSelf := if lsa.self then d.countSelf + 1 else d.countSelf
      count := d.count+1
      checksum := d.checksum + lsa.data.checksum.toUInt32}
    total := db.total + 1}

/-- `ospf_lsdb_delete_entry`, for the node `p` of a table. -/
def ospfLsdbDeleteEntry (type : UInt8) (p : Prefix 8) : Database :=
  match RouteTable.infoAt (db.type type).db p with
  | none => db
  | some r =>
    let db := {db with sane := db.sane && (lsas r).data.type = type}
    let db := db.countOut (lsas r)
    db.setDb type (RouteTable.routeUnlockNode (RouteTable.setInfo (db.type type).db p none) p)

def ospfLsdbAdd (r : Nat) : Database :=
  let type := (lsas r).data.type
  let p := lsPrefixSet (lsas r).data
  let db := db.setDb type (RouteTable.routeNodeGet (db.type type).db p)
  if RouteTable.infoAt (db.type type).db p = some r then
    db.setDb type (RouteTable.routeUnlockNode (db.type type).db p)
  else
    let db := ospfLsdbDeleteEntry lsas db type p
    let db := db.countIn (lsas r)
    db.setDb type (RouteTable.setInfo (db.type type).db p (some r))

def ospfLsdbDelete (r : Nat) : Database :=
  let type := (lsas r).data.type
  let p := lsPrefixSet (lsas r).data
  match RouteTable.routeNodeLookup (db.type type).db p with
  | none => db
  | some table =>
    let db := db.setDb type table
    let db := if RouteTable.infoAt (db.type type).db p = some r then
      ospfLsdbDeleteEntry lsas db type p else db
    db.setDb type (RouteTable.routeUnlockNode (db.type type).db p)

end

/-- The loop over one table in `ospf_lsdb_delete_all`. -/
def deleteFrom (type : UInt8) : Nat → Database → Option (Prefix 8) → Database
  | _, db, none => db
  | 0, db, some _ => {db with sane := false}
  | fuel + 1, db, some p =>
    let db := ospfLsdbDeleteEntry lsas db type p
    let (table,next) := RouteTable.routeNext (db.type type).db p
    deleteFrom type fuel (db.setDb type table) next

def ospfLsdbDeleteAll (db : Database) : Database :=
  lsaTypes.foldl (fun db type =>
    let (table,first) := RouteTable.routeTop (db.type type).db
    deleteFrom lsas type (db.type type).db.top.keys.length (db.setDb type table) first) db

end

/-- `ospf_lsdb_lookup_by_id`, which leaves the database as it was. -/
def ospfLsdbLookupById (db : Database) (key : LsaKey) : Option Nat :=
  let p := lsPrefix key.id key.advRouter
  match RouteTable.routeNodeLookup (db.type key.type).db p with
  | none => none
  | some table => RouteTable.infoAt table p

/-! ### Keys -/

theorem bytesOf32_injective : Function.Injective Lsa.bytesOf32 := by
  intro x y eq
  simp only [Lsa.bytesOf32,List.cons.injEq,← UInt8.toNat_inj,UInt32.toNat_toUInt8,
    UInt32.toNat_shiftRight] at eq
  rw [← UInt32.toNat_inj]
  have hx := x.toNat_lt
  have hy := y.toNat_lt
  simp [Nat.shiftRight_eq_div_pow] at eq
  omega

theorem lsPrefix_injective (eq : lsPrefix i adv = lsPrefix j adv') : i = j ∧ adv = adv' := by
  have bytes : Lsa.bytesOf32 i ++ Lsa.bytesOf32 adv = Lsa.bytesOf32 j ++ Lsa.bytesOf32 adv' :=
    congrArg Prefix.val eq
  obtain ⟨left,right⟩ := List.append_inj bytes rfl
  exact ⟨bytesOf32_injective left,bytesOf32_injective right⟩

/-! ### One table and its statistics -/

/-- The element of `lsdb->type` with one LSA less, and with one more. -/
def TypeDb.less (d : TypeDb) (lsa : Instance) (table : Table 8 Nat) : TypeDb where
  countSelf := if lsa.self then d.countSelf - 1 else d.countSelf
  count := d.count-1
  checksum := d.checksum-lsa.data.checksum.toUInt32
  db := table

def TypeDb.more (d : TypeDb) (lsa : Instance) (table : Table 8 Nat) : TypeDb where
  countSelf := if lsa.self then d.countSelf + 1 else d.countSelf
  count := d.count+1
  checksum := d.checksum+lsa.data.checksum.toUInt32
  db := table

def TypeDb.stored (d : TypeDb) : List Nat := (RouteTable.contents d.db).map Prod.snd

def checksumSum (lsas : Nat → Instance) (l : List Nat) : Nat :=
  (l.map fun r => (lsas r).data.checksum.toNat).sum

/-- LSAs of one type, each under its own prefix, and their statistics. -/
structure Keeps (lsas : Nat → Instance) (type : UInt8) (users : Prefix 8 → Nat) (d : TypeDb) :
    Prop where
  sound : RouteTable.Sound users d.db
  typed : ∀ p r, (p,r) ∈ RouteTable.contents d.db →
    (lsas r).data.type = type ∧ lsPrefixSet (lsas r).data = p
  count : d.count = UInt64.ofNat d.stored.length
  countSelf : d.countSelf = UInt64.ofNat (d.stored.countP fun r => (lsas r).self)
  checksum : d.checksum = UInt32.ofNat (checksumSum lsas d.stored)

section

variable {lsas : Nat → Instance} {type : UInt8} {users : Prefix 8 → Nat} {d : TypeDb}

theorem ofNat_checksum (c : UInt16) : UInt32.ofNat c.toNat = c.toUInt32 := by
  rw [← UInt32.toNat_inj]
  simp

theorem Keeps.replace (h : Keeps lsas type users d) (hs : RouteTable.Sound users' t)
    (eq : RouteTable.contents t = RouteTable.contents d.db) :
    Keeps lsas type users' {d with db := t} where
  sound := hs
  typed := fun p r mem => h.typed p r (eq ▸ mem)
  count := by rw [h.count,TypeDb.stored,TypeDb.stored,eq]
  countSelf := by rw [h.countSelf,TypeDb.stored,TypeDb.stored,eq]
  checksum := by rw [h.checksum,TypeDb.stored,TypeDb.stored,eq]

theorem Keeps.less (h : Keeps lsas type users d) (hso : RouteTable.Sound users' t)
    (perm : (RouteTable.contents d.db).Perm ((p,r) :: RouteTable.contents t)) :
    Keeps lsas type users' (d.less (lsas r) t) := by
  have hs : d.stored.Perm (r :: (d.less (lsas r) t).stored) := perm.map Prod.snd
  refine ⟨hso,fun q s mem => h.typed q s (perm.mem_iff.mpr (.tail _ mem)),?_,?_,?_⟩
  · change d.count - 1 = _
    rw [h.count,hs.length_eq,List.length_cons,UInt64.ofNat_add]
    exact UInt64.add_sub_cancel ..
  · change (if (lsas r).self then d.countSelf - 1 else d.countSelf) = _
    rw [h.countSelf,hs.countP_eq,List.countP_cons]
    split
    · rw [UInt64.ofNat_add]
      exact UInt64.add_sub_cancel ..
    · rfl
  · have sums : checksumSum lsas d.stored =
        (lsas r).data.checksum.toNat + checksumSum lsas (d.less (lsas r) t).stored := by
      rw [checksumSum,(hs.map _).sum_nat]
      rfl
    change d.checksum - (lsas r).data.checksum.toUInt32 = _
    rw [h.checksum,sums,UInt32.ofNat_add,ofNat_checksum,UInt32.add_comm]
    exact UInt32.add_sub_cancel ..

theorem Keeps.more (h : Keeps lsas type users d) (hso : RouteTable.Sound users' t)
    (perm : (RouteTable.contents t).Perm ((lsPrefixSet (lsas r).data,r) ::
      RouteTable.contents d.db)) (ht : (lsas r).data.type = type) :
    Keeps lsas type users' (d.more (lsas r) t) := by
  have hs : (d.more (lsas r) t).stored.Perm (r :: d.stored) := perm.map Prod.snd
  refine ⟨hso,fun q s mem => ?_,?_,?_,?_⟩
  · rcases List.mem_cons.mp (perm.mem_iff.mp mem) with new | old
    · obtain ⟨rfl,rfl⟩ := Prod.mk.inj new
      exact ⟨ht,rfl⟩
    · exact h.typed q s old
  · rw [hs.length_eq,List.length_cons,UInt64.ofNat_add,← h.count]
    rfl
  · rw [hs.countP_eq,List.countP_cons]
    change (if (lsas r).self then d.countSelf + 1 else d.countSelf) = _
    rw [h.countSelf]
    split
    · exact (UInt64.ofNat_add ..).symm
    · rfl
  · have sums : checksumSum lsas (d.more (lsas r) t).stored =
        (lsas r).data.checksum.toNat + checksumSum lsas d.stored := by
      rw [checksumSum,(hs.map _).sum_nat]
      rfl
    rw [sums,UInt32.ofNat_add,ofNat_checksum,← h.checksum]
    exact UInt32.add_comm ..

end

/-! ### The whole database -/

def sizes (type : UInt8 → TypeDb) : Nat := (lsaTypes.map fun t => (type t).stored.length).sum

theorem sizes_update (type : UInt8 → TypeDb) (d : TypeDb) (hv : t ∈ lsaTypes) :
    sizes (update type t d) + (type t).stored.length = sizes type + d.stored.length := by
  obtain ⟨hb,haf,split⟩ := List.append_of_mem hv
  have nodup : lsaTypes.Nodup := by decide
  rw [split,List.nodup_middle,List.nodup_cons,List.mem_append,not_or] at nodup
  have eq : ∀ l : List UInt8, t ∉ l →
      (l.map fun s => (update type t d s).stored.length) =
        l.map fun s => (type s).stored.length := fun l ha => by
    refine List.map_congr_left fun s mem => ?_
    have ho : s ≠ t := fun hh => ha (hh ▸ mem)
    rw [update_of_ne ho]
  simp only [sizes,split,List.map_append,List.map_cons,List.sum_append,List.sum_cons,
    eq _ nodup.1.1,eq _ nodup.1.2,update_self]
  omega

structure DbKeeps (lsas : Nat → Instance) (db : Database) : Prop where
  types : ∀ t, Keeps lsas t (fun _ => 0) (db.type t)
  total : db.total = UInt64.ofNat (sizes db.type)
  sane : db.sane = true

theorem new_keeps (lsas : Nat → Instance) : DbKeeps lsas ospfLsdbNew where
  types := fun _ => ⟨RouteTable.init_sound,nofun,rfl,rfl,rfl⟩
  total := by decide
  sane := rfl

section

variable {lsas : Nat → Instance} {db : Database} {type : UInt8} {p : Prefix 8}

theorem deleteEntry_eq (hf : RouteTable.infoAt (db.type type).db p = some r)
    (ht : (lsas r).data.type = type) :
    ospfLsdbDeleteEntry lsas db type p = {db with
      type := update db.type type ((db.type type).less (lsas r)
        (RouteTable.routeUnlockNode (RouteTable.setInfo (db.type type).db p none) p))
      total := db.total - 1} := by
  simp [ospfLsdbDeleteEntry,hf,ht,Database.countOut,Database.setDb,TypeDb.less]

theorem Keeps.deleteEntry (h : Keeps lsas type users (db.type type)) (p : Prefix 8) :
    ∃ d : TypeDb, ∃ total : UInt64,
      ospfLsdbDeleteEntry lsas db type p = {db with
        type := update db.type type d
        total := total} ∧
      Keeps lsas type users d ∧
      total + UInt64.ofNat (db.type type).stored.length =
        db.total + UInt64.ofNat d.stored.length ∧
      (∀ q, RouteTable.infoAt d.db q =
        if q = p then none else RouteTable.infoAt (db.type type).db q) ∧
      ∀ users' after, RouteTable.Stands users' (db.type type).db p after →
        RouteTable.Stands users' d.db p after := by
  cases hf : RouteTable.infoAt (db.type type).db p with
  | none =>
    refine ⟨db.type type,db.total,?_,h,rfl,fun q => ?_,fun _ _ => id⟩
    · simp [ospfLsdbDeleteEntry,hf]
    split
    · next same => rw [same,hf]
    · rfl
  | some r =>
    have has := h.sound.infoAt_eq_some.mp hf
    obtain ⟨hd,perm⟩ := h.sound.drop has
    refine ⟨_,_,deleteEntry_eq hf (h.typed p r has).1,h.less hd perm,?_,
      h.sound.infoAt_drop has,fun users' after stands => (stands.drop has).1⟩
    have hs : (db.type type).stored.length = ((db.type type).less (lsas r)
        (RouteTable.routeUnlockNode (RouteTable.setInfo (db.type type).db p none) p)).stored.length
          + 1 := (perm.map Prod.snd).length_eq
    rw [hs,UInt64.ofNat_add]
    grind

theorem setDb_self (db : Database) (type : UInt8) (t : Table 8 Nat) :
    (db.setDb type t).type type = {db.type type with db := t} := by
  simp [Database.setDb]

theorem DbKeeps.update (h : DbKeeps lsas db) (hv : type ∈ lsaTypes) {d : TypeDb}
    (hk : Keeps lsas type (fun _ => 0) d) (total : UInt64)
    (sums : total + UInt64.ofNat (db.type type).stored.length =
      db.total + UInt64.ofNat d.stored.length) :
    DbKeeps lsas {db with type := update db.type type d, total := total} where
  types := fun t => by
    by_cases eq : t = type
    · subst eq
      simpa using hk
    · simpa [update_of_ne eq] using h.types t
  total := by
    have hm := congrArg UInt64.ofNat (sizes_update db.type d hv)
    rw [UInt64.ofNat_add,UInt64.ofNat_add,← h.total,← sums] at hm
    exact ((UInt64.add_left_inj _).mp hm).symm
  sane := h.sane

theorem add_eq (h : DbKeeps lsas db) (r : Nat) :
    ∃ d : TypeDb, ∃ total : UInt64,
      ospfLsdbAdd lsas db r = {db with
        type := update db.type (lsas r).data.type d
        total := total} ∧
      Keeps lsas (lsas r).data.type (fun _ => 0) d ∧
      total + UInt64.ofNat (db.type (lsas r).data.type).stored.length =
        db.total + UInt64.ofNat d.stored.length ∧
      ∀ q, RouteTable.infoAt d.db q = if q = lsPrefixSet (lsas r).data then some r
        else RouteTable.infoAt (db.type (lsas r).data.type).db q := by
  generalize ht : (lsas r).data.type = type
  generalize prefixed : lsPrefixSet (lsas r).data = p
  have old := h.types type
  obtain ⟨got,eq⟩ := old.sound.get p
  have hke : Keeps lsas type (RouteTable.using_ p fun _ => 0)
      {db.type type with db := RouteTable.routeNodeGet (db.type type).db p} :=
    old.replace got eq
  have infos := old.sound.infoAt_congr got eq
  have hk' : Keeps lsas type (RouteTable.using_ p fun _ => 0)
      ((db.setDb type (RouteTable.routeNodeGet (db.type type).db p)).type type) := by
    rw [setDb_self]
    exact hke
  simp only [ospfLsdbAdd,ht,prefixed]
  split
  · next already =>
    rw [setDb_self] at already
    have left := got.unlock
    refine ⟨_,db.total,?_,hke.replace left.sound left.contents,?_,fun q => ?_⟩
    · simp [Database.setDb]
    · rw [TypeDb.stored,TypeDb.stored,left.contents,eq]
    rw [got.infoAt_congr left.sound left.contents]
    split
    · next hh => rw [hh,already]
    · exact infos q
  · obtain ⟨d,total,res,hk,sums,hc,-⟩ := hk'.deleteEntry p
    have mem : p ∈ d.db.top.keys := hk.sound.used p (by simp [RouteTable.using_])
    obtain ⟨node,hf⟩ := RouteTable.exists_node mem
    have he : node.info = none := by
      have hh := hc p
      rw [RouteTable.infoAt,RouteTable.node?_of_mem hk.sound.nodup hf,if_pos rfl] at hh
      exact hh
    obtain ⟨hfi,perm⟩ := hk.sound.fill hf he r
    refine ⟨d.more (lsas r) (RouteTable.setInfo d.db p (some r)),total+1,?_,
      hk.more hfi (prefixed ▸ perm) ht,?_,fun q => ?_⟩
    · rw [res]
      simp [Database.countIn,Database.setDb,ht,TypeDb.more]
    · have hs : (d.more (lsas r) (RouteTable.setInfo d.db p (some r))).stored.length =
          d.stored.length + 1 := (perm.map Prod.snd).length_eq
      rw [setDb_self] at sums
      have hb : UInt64.ofNat (db.type type).stored.length = UInt64.ofNat (TypeDb.stored
          {db.type type with db := RouteTable.routeNodeGet (db.type type).db p}).length := by
        rw [TypeDb.stored,TypeDb.stored,eq]
      rw [hs,UInt64.ofNat_add,hb]
      change total + _ = db.total + _ at sums
      grind
    · have hw := RouteTable.infoAt_setInfo d.db (some r) mem q
      rw [TypeDb.more,hw,hc q,setDb_self,infos q]
      split <;> rfl

theorem delete_eq (h : DbKeeps lsas db) (r : Nat) :
    ∃ d : TypeDb, ∃ total : UInt64,
      ospfLsdbDelete lsas db r = {db with
        type := update db.type (lsas r).data.type d
        total := total} ∧
      Keeps lsas (lsas r).data.type (fun _ => 0) d ∧
      total + UInt64.ofNat (db.type (lsas r).data.type).stored.length =
        db.total + UInt64.ofNat d.stored.length ∧
      ∀ q, RouteTable.infoAt d.db q = if q = lsPrefixSet (lsas r).data ∧
          RouteTable.infoAt (db.type (lsas r).data.type).db q = some r then none
        else RouteTable.infoAt (db.type (lsas r).data.type).db q := by
  generalize ht : (lsas r).data.type = type
  generalize prefixed : lsPrefixSet (lsas r).data = p
  have old := h.types type
  simp only [ospfLsdbDelete,ht,prefixed,old.sound.lookup]
  cases hf : RouteTable.infoAt (db.type type).db p with
  | none =>
    refine ⟨db.type type,db.total,by simp,old,rfl,fun q => ?_⟩
    rw [if_neg]
    rintro ⟨rfl,has⟩
    exact nomatch hf.symm.trans has
  | some s =>
    obtain ⟨node,mem,-⟩ := RouteTable.mem_contents.mp (old.sound.infoAt_eq_some.mp hf)
    have hl := old.sound.lock (RadixTree.Tree.mem_keys mem)
    have eq := RouteTable.contents_lock (db.type type).db p
    have infos := old.sound.infoAt_congr hl eq
    have hke : Keeps lsas type (RouteTable.using_ p fun _ => 0)
        ((db.setDb type (RouteTable.routeLockNode (db.type type).db p)).type type) := by
      rw [setDb_self]
      exact old.replace hl eq
    simp only [Option.isSome_some,reduceIte]
    split
    · next here =>
      rw [setDb_self,infos] at here
      obtain ⟨d,total,res,hk,sums,hc,-⟩ := hke.deleteEntry p
      have left := hk.sound.unlock
      refine ⟨_,total,?_,hk.replace left.sound left.contents,?_,fun q => ?_⟩
      · rw [res]
        simp [Database.setDb]
      · rw [setDb_self,TypeDb.stored,TypeDb.stored,eq] at sums
        rw [TypeDb.stored,TypeDb.stored,left.contents]
        exact sums
      rw [hk.sound.infoAt_congr left.sound left.contents,hc q,setDb_self,infos q]
      by_cases at_ : q = p
      · rw [if_pos at_,if_pos ⟨at_,at_ ▸ here⟩]
      · rw [if_neg at_,if_neg fun hb => at_ hb.1]
    · next other =>
      rw [setDb_self,infos] at other
      have left := hl.unlock
      refine ⟨_,db.total,?_,old.replace left.sound (left.contents.trans eq),?_,fun q => ?_⟩
      · simp [Database.setDb]
      · rw [TypeDb.stored,TypeDb.stored,left.contents,eq]
      rw [hl.infoAt_congr left.sound left.contents,infos q,if_neg]
      rintro ⟨rfl,has⟩
      exact other has

theorem deleteFrom_eq (fuel : Nat) (hke : Keeps lsas type (RouteTable.using_ p fun _ => 0)
      (db.type type)) (stands : RouteTable.Stands (fun _ => 0) (db.type type).db p after)
    (hen : after.length < fuel) :
    ∃ d : TypeDb, ∃ total : UInt64,
      deleteFrom lsas type fuel db (some p) = {db with
        type := update db.type type d
        total := total} ∧
      Keeps lsas type (fun _ => 0) d ∧
      total + UInt64.ofNat (db.type type).stored.length =
        db.total + UInt64.ofNat d.stored.length ∧ d.stored = [] := by
  induction fuel generalizing db p after with
  | zero => contradiction
  | succ fuel ih =>
    obtain ⟨d,total,res,hk,sums,hc,hg⟩ := hke.deleteEntry p
    have stands := hg _ _ stands
    have he : RouteTable.infoAt d.db p = none := by simp [hc p]
    obtain ⟨eq,next⟩ := stands.next he
    simp only [deleteFrom,res,update_self]
    cases after with
    | nil =>
      obtain ⟨none,hs⟩ := next
      refine ⟨_,total,?_,hk.replace hs eq,?_,?_⟩
      · rw [none]
        simp [deleteFrom,Database.setDb]
      · rw [TypeDb.stored,TypeDb.stored,eq]
        exact sums
      rw [TypeDb.stored,eq,stands.contents_nil he]
      rfl
    | cons kv rest =>
      obtain ⟨some,stands'⟩ := next
      rw [some]
      generalize ht : Database.setDb {db with
        type := update db.type type d
        total := total} type (RouteTable.routeNext d.db p).1 = db'
      have ent : db'.type type = {d with db := (RouteTable.routeNext d.db p).1} := by
        rw [← ht,setDb_self]
        simp
      have hk' : Keeps lsas type (RouteTable.using_ kv.1 fun _ => 0) (db'.type type) := by
        rw [ent]
        exact hk.replace stands'.sound eq
      obtain ⟨d',total',res',hke',sums',hn⟩ := ih hk'
        (by rw [ent]; exact stands') (by simpa using hen)
      refine ⟨d',total',?_,hke',?_,hn⟩
      · rw [res',← ht]
        simp [Database.setDb]
      rw [ent,TypeDb.stored,eq] at sums'
      rw [← ht] at sums'
      change total' + _ = total + _ at sums'
      change total + _ = db.total + UInt64.ofNat (List.map Prod.snd _).length at sums
      grind

theorem DbKeeps.deleteType (h : DbKeeps lsas db) (hv : type ∈ lsaTypes) :
    ∃ d : TypeDb, ∃ total : UInt64, deleteFrom lsas type (db.type type).db.top.keys.length
        (db.setDb type (RouteTable.routeTop (db.type type).db).1)
        (RouteTable.routeTop (db.type type).db).2 =
          {db with type := Function.update db.type type d, total := total} ∧
      DbKeeps lsas {db with type := Function.update db.type type d, total := total} ∧
      d.stored = [] := by
  have old := h.types type
  obtain ⟨eq,⟨none,hn,hs⟩ | ⟨p,node,ha,fst,nodes,stands⟩⟩ := old.sound.top
  · refine ⟨db.type type,db.total,?_,h.update hv old _ rfl,?_⟩
    · rw [none,hs]
      simp [deleteFrom,Database.setDb]
    · simp [TypeDb.stored,RouteTable.contents,hn]
  have hke : Keeps lsas type (RouteTable.using_ p fun _ => 0)
      ((db.setDb type (RouteTable.routeTop (db.type type).db).1).type type) := by
    rw [setDb_self]
    exact old.replace stands.sound eq
  obtain ⟨d,total,res,hk,sums,hn⟩ := deleteFrom_eq
    (db.type type).db.top.keys.length hke (by rw [setDb_self]; exact stands)
    (by simp [RadixTree.Tree.keys,nodes])
  refine ⟨d,total,?_,h.update hv hk total ?_,hn⟩
  · rw [fst,res]
    simp [Database.setDb]
  rw [setDb_self,TypeDb.stored,eq] at sums
  exact sums

theorem DbKeeps.deleteTypes (h : DbKeeps lsas db) (types : List UInt8)
    (hv : ∀ type ∈ types, type ∈ lsaTypes) :
    DbKeeps lsas (types.foldl (fun db type =>
      deleteFrom lsas type (db.type type).db.top.keys.length
        (db.setDb type (RouteTable.routeTop (db.type type).db).1)
        (RouteTable.routeTop (db.type type).db).2) db) ∧
    ∀ type, (db.type type).stored = [] ∨ type ∈ types → ((types.foldl (fun db type =>
        deleteFrom lsas type (db.type type).db.top.keys.length
          (db.setDb type (RouteTable.routeTop (db.type type).db).1)
          (RouteTable.routeTop (db.type type).db).2) db).type type).stored = [] := by
  induction types generalizing db with
  | nil => exact ⟨h,fun type he => he.resolve_right List.not_mem_nil⟩
  | cons fst rest ih =>
    obtain ⟨d,total,res,hk,hn⟩ := h.deleteType (hv fst (.head _))
    rw [List.foldl_cons,res]
    obtain ⟨hke,empties⟩ := ih hk fun type mem => hv type (.tail _ mem)
    refine ⟨hke,fun type he => empties type ?_⟩
    by_cases eq : type = fst
    · subst eq
      exact .inl (by simpa using hn)
    rw [List.mem_cons] at he
    exact he.imp (fun none => by simpa [update_of_ne eq] using none) fun mem => mem.resolve_left eq

end

/-! ### A finite map -/

section

variable (lsas : Nat → Instance)

inductive Op where
  | add (lsa : Nat)
  | delete (lsa : Nat)
  | deleteAll

def Op.valid : Op → Prop
  | .add r => (lsas r).data.type ∈ lsaTypes
  | .delete r => (lsas r).data.type ∈ lsaTypes
  | .deleteAll => True

def Database.step (db : Database) : Op → Database
  | .add r => ospfLsdbAdd lsas db r
  | .delete r => ospfLsdbDelete lsas db r
  | .deleteAll => ospfLsdbDeleteAll lsas db

/-- At most one LSA for each key, the last one added; only the LSA that is stored is deleted. -/
def mapStep (m : Ospf.Table) : Op → Ospf.Table
  | .add r => m.insert (lsas r).key r
  | .delete r => if m.lookup (lsas r).key = some r then m.erase (lsas r).key else m
  | .deleteAll => ∅

def storedIn (m : Ospf.Table) (type : UInt8) : List Nat :=
  (m.entries.filter fun e => e.1.type = type).map Sigma.snd

structure Shows (db : Database) (m : Ospf.Table) : Prop where
  keeps : DbKeeps lsas db
  lookup : ∀ key, key.type ∈ lsaTypes →
    RouteTable.infoAt (db.type key.type).db (lsPrefix key.id key.advRouter) = m.lookup key
  keyed : ∀ key r, m.lookup key = some r → (lsas r).key = key

variable {lsas}

theorem key_eq_iff (r : Nat) (key : LsaKey) (ht : key.type = (lsas r).data.type) :
    lsPrefix key.id key.advRouter = lsPrefixSet (lsas r).data ↔ key = (lsas r).key := by
  constructor
  · intro eq
    obtain ⟨ids,routers⟩ := lsPrefix_injective eq
    cases key
    simp_all [Instance.key,Lsa.key]
  rintro rfl
  rfl

section

variable (h : Shows lsas db m) (r : Nat) (hv : (lsas r).data.type ∈ lsaTypes)

include h hv

theorem Shows.add : Shows lsas (ospfLsdbAdd lsas db r) (m.insert (lsas r).key r) := by
  obtain ⟨d,total,res,hk,sums,infos⟩ := add_eq h.keeps r
  rw [res]
  refine ⟨h.keeps.update hv hk total sums,fun key hi => ?_,fun key s hf => ?_⟩
  · by_cases ht : key.type = (lsas r).data.type
    · simp only [ht,update_self,infos,key_eq_iff r key ht]
      split
      · next eq => rw [eq,AList.lookup_insert]
      next other =>
      rw [AList.lookup_insert_ne other,← h.lookup key hi,ht]
    · simp only [update_of_ne ht]
      rw [h.lookup key hi,AList.lookup_insert_ne]
      rintro rfl
      exact ht rfl
  · by_cases eq : key = (lsas r).key
    · subst eq
      rw [AList.lookup_insert] at hf
      cases hf
      rfl
    rw [AList.lookup_insert_ne eq] at hf
    exact h.keyed key s hf

theorem Shows.delete : Shows lsas (ospfLsdbDelete lsas db r) (mapStep lsas m (.delete r)) := by
  obtain ⟨d,total,res,hk,sums,infos⟩ := delete_eq h.keeps r
  have lookup (key : LsaKey) : (mapStep lsas m (.delete r)).lookup key =
      if key = (lsas r).key ∧ m.lookup key = some r then none else m.lookup key := by
    simp only [mapStep]
    by_cases eq : key = (lsas r).key
    · subst eq
      split
      · next hf => simp [hf]
      · next other => simp [other]
    split
    · simp [eq,AList.lookup_erase_ne eq]
    · simp [eq]
  rw [res]
  refine ⟨h.keeps.update hv hk total sums,fun key hi => ?_,fun key s hf => ?_⟩
  · by_cases ht : key.type = (lsas r).data.type
    · have hb := h.lookup key hi
      rw [ht] at hb
      simp [ht,update_self,infos,key_eq_iff r key ht,hb,lookup]
    simp only [update_of_ne ht]
    rw [h.lookup key hi,lookup,if_neg]
    rintro ⟨rfl,-⟩
    exact ht rfl
  · rw [lookup] at hf
    split at hf
    · contradiction
    · exact h.keyed key s hf

end

theorem deleteAll_eq (lsas : Nat → Instance) (db : Database) : ospfLsdbDeleteAll lsas db =
    lsaTypes.foldl (fun db type =>
      deleteFrom lsas type (db.type type).db.top.keys.length
        (db.setDb type (RouteTable.routeTop (db.type type).db).1)
        (RouteTable.routeTop (db.type type).db).2) db := rfl

theorem Shows.deleteAll (h : Shows lsas db m) : Shows lsas (ospfLsdbDeleteAll lsas db) ∅ := by
  obtain ⟨hk,empties⟩ := h.keeps.deleteTypes lsaTypes fun _ => id
  rw [deleteAll_eq]
  generalize lsaTypes.foldl _ db = db' at *
  refine ⟨hk,fun key hi => ?_,fun key r hf => ?_⟩
  · rw [AList.lookup_empty,Option.eq_none_iff_forall_ne_some]
    intro r hf
    have hs := empties key.type (.inr hi)
    have mem := (hk.types key.type).sound.infoAt_eq_some.mp hf
    have hi' : r ∈ TypeDb.stored _ := List.mem_map_of_mem mem
    rw [hs] at hi'
    contradiction
  · rw [AList.lookup_empty] at hf
    contradiction

theorem Shows.step (h : Shows lsas db m) (op : Op) (hv : op.valid lsas) :
    Shows lsas (db.step lsas op) (mapStep lsas m op) := by
  cases op with
  | add r => exact h.add r hv
  | delete r => exact h.delete r hv
  | deleteAll => exact h.deleteAll

theorem new_shows : Shows lsas ospfLsdbNew ∅ where
  keeps := new_keeps lsas
  lookup := fun key _ => by rw [AList.lookup_empty]; rfl
  keyed := fun key r hf => by
    rw [AList.lookup_empty] at hf
    contradiction

theorem run_shows (ops : List Op) (hv : ∀ op ∈ ops, op.valid lsas)
    (h : Shows lsas db m) :
    Shows lsas (Trace.run (Database.step lsas) ops db) (Trace.run (mapStep lsas) ops m) := by
  induction ops generalizing db m with
  | nil => exact h
  | cons op rest ih =>
    exact ih (fun op mem => hv op (.tail _ mem))
      (h.step op (hv op (.head _)))

theorem Shows.stored (h : Shows lsas db m) (hv : type ∈ lsaTypes) :
    (db.type type).stored.Perm (storedIn m type) := by
  have hk := h.keeps.types type
  have fst : (db.type type).stored.Nodup := by
    refine hk.sound.contents_nodup.map_on fun x mem y mem' eq => ?_
    obtain ⟨p,r⟩ := x
    obtain ⟨q,s⟩ := y
    cases eq
    rw [← (hk.typed p r mem).2,← (hk.typed q r mem').2]
  have ents (e : Sigma fun _ : LsaKey => Nat) (mem : e ∈ m.entries) : (lsas e.2).key = e.1 :=
    h.keyed e.1 e.2 (AList.mem_lookup_iff.mpr mem)
  have snd : (storedIn m type).Nodup := by
    refine (m.nodupKeys.nodup.filter _).map_on fun x mem y mem' eq => ?_
    have left := ents x (List.mem_of_mem_filter mem)
    have right := ents y (List.mem_of_mem_filter mem')
    obtain ⟨key,r⟩ := x
    obtain ⟨key',s⟩ := y
    cases eq
    have keys : key = key' := left.symm.trans right
    rw [keys]
  refine (List.perm_ext_iff_of_nodup fst snd).mpr fun r => ⟨fun mem => ?_,fun mem => ?_⟩
  · obtain ⟨⟨p,s⟩,hi,rfl⟩ := List.mem_map.mp mem
    obtain ⟨ht,rfl⟩ := hk.typed p s hi
    subst ht
    have hf := hk.sound.infoAt_eq_some.mpr hi
    have looked := (h.lookup (lsas s).key hv).symm.trans hf
    refine List.mem_map.mpr ⟨⟨(lsas s).key,s⟩,List.mem_filter.mpr ⟨?_,?_⟩,rfl⟩
    · exact AList.mem_lookup_iff.mp looked
    · exact decide_eq_true rfl
  · obtain ⟨⟨key,s⟩,hi,rfl⟩ := List.mem_map.mp mem
    obtain ⟨ent,ht⟩ := List.mem_filter.mp hi
    cases of_decide_eq_true ht
    have hf := (h.lookup key hv).trans (AList.mem_lookup_iff.mpr ent)
    exact List.mem_map_of_mem (hk.sound.infoAt_eq_some.mp hf)

theorem Shows.lookupById (h : Shows lsas db m) (hv : key.type ∈ lsaTypes) :
    ospfLsdbLookupById db key = m.lookup key := by
  have hs := (h.keeps.types key.type).sound
  rw [ospfLsdbLookupById,hs.lookup,← h.lookup key hv]
  cases hf : RouteTable.infoAt (db.type key.type).db (lsPrefix key.id key.advRouter) with
  | none => rfl
  | some r =>
    obtain ⟨node,mem,-⟩ := RouteTable.mem_contents.mp (hs.infoAt_eq_some.mp hf)
    have hl := hs.lock (RadixTree.Tree.mem_keys mem)
    exact (hs.infoAt_congr hl (RouteTable.contents_lock ..) _).trans hf

theorem ofNat_sum (f : UInt8 → Nat) (l : List UInt8) :
    UInt64.ofNat (l.map f).sum = (l.map fun x => UInt64.ofNat (f x)).sum := by
  induction l with
  | nil => rfl
  | cons fst rest ih => simp [List.map_cons,List.sum_cons,UInt64.ofNat_add,ih]

/-- For LSAs of the types with tables, any additions and deletions give the finite map it is meant
to be, with the statistics of the map. No assertion fails, and every walk comes to its end. -/
theorem lsdb_is_finite_map (lsas : Nat → Instance) (ops : List Op)
    (valid : ∀ op ∈ ops, op.valid lsas) :
    let db := Trace.run (Database.step lsas) ops ospfLsdbNew
    let m := Trace.run (mapStep lsas) ops ∅
    (∀ key, key.type ∈ lsaTypes → ospfLsdbLookupById db key = m.lookup key) ∧
    (∀ type ∈ lsaTypes,
      (db.type type).count = UInt64.ofNat (storedIn m type).length ∧
      (db.type type).checksum = UInt32.ofNat (checksumSum lsas (storedIn m type))) ∧
    db.total = (lsaTypes.map fun type => (db.type type).count).sum ∧
    db.sane ∧ ∀ type, (db.type type).db.sane := by
  intro db m
  have hs : Shows lsas db m := run_shows ops valid new_shows
  refine ⟨fun key => hs.lookupById,fun type hi => ?_,?_,hs.keeps.sane,
    fun type => (hs.keeps.types type).sound.sane⟩
  · have perm := hs.stored hi
    have hk := hs.keeps.types type
    refine ⟨hk.count.trans (by rw [perm.length_eq]),hk.checksum.trans ?_⟩
    rw [checksumSum,(perm.map _).sum_nat]
    rfl
  · rw [hs.keeps.total,sizes,ofNat_sum]
    exact congrArg List.sum (List.map_congr_left fun type _ => (hs.keeps.types type).count.symm)

def routerLsas (r : Nat) : Instance := Instance.new 0
  { lsAge := 1, options := 2, type := 1, id := 8 + UInt32.ofNat r, advRouter := 8 + UInt32.ofNat r,
    lsSeqnum := 0x80000001, checksum := 7, length := 24, body := [0] }

theorem routerLsas_stored :
    let ops := [Op.add 0,.add 1,.add 2,.delete 1,.add 1,.delete 0]
    let db := Trace.run (Database.step routerLsas) ops ospfLsdbNew
    (∀ op ∈ ops, op.valid routerLsas) ∧ ospfLsdbLookupById db ⟨1,9,9⟩ = some 1 ∧
      ospfLsdbLookupById db ⟨1,8,8⟩ = none ∧ (db.type 1).count = 2 ∧ (db.type 1).checksum = 14 := by
  intro ops db
  have hv : ∀ op ∈ ops, op.valid routerLsas := by
    intro op mem
    simp only [ops,List.mem_cons,List.not_mem_nil,or_false] at mem
    rcases mem with rfl | rfl | rfl | rfl | rfl | rfl <;> exact (by decide : (1 : UInt8) ∈ lsaTypes)
  obtain ⟨lookup,stats,-⟩ := lsdb_is_finite_map routerLsas ops hv
  obtain ⟨count,cks⟩ := stats 1 (by decide)
  exact ⟨hv,(lookup ⟨1,9,9⟩ (by decide)).trans (by decide),
    (lookup ⟨1,8,8⟩ (by decide)).trans (by decide),count.trans (by decide),
    cks.trans (by decide)⟩

end

end Frr.Lsdb
