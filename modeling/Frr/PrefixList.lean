import Frr.Prefix
import Frr.SharedChains

/-! Prefix lists, `lib/plist.c`. Tables and slots of the trie are named by the bytes that lead to
them; an entry is in the chains of several slots by one pointer. -/
namespace Frr.PrefixList

open SharedChains List Function Prefix

inductive Family where
  | ipv4 | ipv6
  deriving DecidableEq

def Family.width : Family → Nat
  | .ipv4 => 4
  | .ipv6 => 16

/-- `PLC_MAXLEVELV4` and `PLC_MAXLEVELV6`. -/
def Family.trieDepth : Family → Nat
  | .ipv4 => 2
  | .ipv6 => 4

def Family.maxBitlen (family : Family) : Nat := 8*family.width

/-- `struct prefix`, with any bits after the prefix. -/
structure Address (family : Family) where
  prefixlen : Nat
  val : List UInt8
  size : val.length = family.width
  short : prefixlen ≤ 8*family.width
  deriving DecidableEq

inductive ListType where
  | permit | deny
  deriving DecidableEq

/-- `struct prefix_list_entry`; `id` is its address in memory. -/
structure Entry (family : Family) where
  id : Nat
  seq : Nat
  le : Nat
  ge : Nat
  type : ListType
  network : Prefix family.width
  deriving DecidableEq

/-- The bytes that lead to a table and the one of the slot, and whether it is the chain beyond the
last table. -/
abbrev Slot := List UInt8 × Bool

/-- `struct pltrie_table`, for all the tables of a list. -/
structure Trie (family : Family) where
  tables : List UInt8 → Bool
  chains : Chains (Entry family) Slot

/-- `struct prefix_list`. -/
structure Plist (family : Family) where
  entries : List (Entry family)
  count : Nat
  desc : Bool
  trie : Trie family

section

/-- `apply_mask_ipv4` and `apply_mask_ipv6`. -/
def maskedByte (len i : Nat) (x : UInt8) : UInt8 :=
  if i < len/8 then x else if i = len/8 then x &&& maskbit.getD (len%8) 0 else 0

theorem prefixBit_masked (val : List UInt8) (len i : Nat) (hi : i < 8*val.length) :
    prefixBit (val.mapIdx (maskedByte len)) i = (prefixBit val i && decide (i < len)) := by
  have idx : i / 8 < val.length := by omega
  simp only [prefixBit,getD_eq_getElem?_getD,getElem?_mapIdx,
    getElem?_eq_getElem idx,Option.map_some,Option.getD_some,maskedByte]
  by_cases hb : i / 8 < len/8
  · rw [if_pos hb]
    have : i < len := by omega
    simp [this]
  rw [if_neg hb]
  by_cases hh : i / 8 = len/8
  · have byte := byteBit_and_maskbit (len%8) (by omega) (val.get ⟨i/8,idx⟩) (i%8) (by omega)
    rw [getD_eq_getElem?_getD] at byte
    rw [if_pos hh]
    refine byte.trans ?_
    refine congrArg (byteBit _ _ && ·) (decide_eq_decide.mpr ?_)
    omega
  · have : ¬i < len := by omega
    rw [if_neg hh,byteBit_zero _ (by omega)]
    simp [this]

def applyMask {family : Family} (p : Address family) : Prefix family.width where
  prefixlen := p.prefixlen
  val := p.val.mapIdx (maskedByte p.prefixlen)
  size := by simp [p.size]
  short := p.short
  masked i beyond inside := by
    rw [prefixBit_masked _ _ _ (by rw [p.size]; exact inside)]
    simp [Nat.not_lt.mpr beyond]

end

section

variable {family : Family}

def before (e a : Entry family) : Bool :=
  a.network.prefixlen < e.network.prefixlen ∨
    a.network.prefixlen = e.network.prefixlen ∧ e.seq < a.seq

def trieInstallFn (fuel : Nat) (object : Entry family) :
    Chains (Entry family) Slot → Slot → Option (Chains (Entry family) Slot) :=
  install before fuel object

def trieUninstallFn (fuel : Nat) (object : Entry family) :
    Chains (Entry family) Slot → Slot → Option (Chains (Entry family) Slot) :=
  uninstall fuel object

/-- `trie_walk_affected`. It has no result if it leaves the table. -/
def trieWalkAffected {β : Type} (validbits : Nat) (table : List UInt8) (byte : UInt8)
    (fn : β → Slot → Option β) (c : β) : Option β :=
  if 8 < validbits then fn c (table ++ [byte],true)
  else
    let mask := 2 ^ (8-validbits) - 1
    let first := (byte &&& ~~~UInt8.ofNat mask).toNat
    let last := byte.toNat+mask
    if 255 < last then none
    else (range' first (last+1-first)).foldlM
      (fun c bwalk => fn c (table ++ [UInt8.ofNat bwalk],false)) c

namespace Trie

variable (t : Trie family)

def calloc (table : List UInt8) : Trie family where
  tables := update t.tables table true
  chains := {t.chains with
    head := fun s => if s.1 ≠ [] ∧ s.1.dropLast = table then none else t.chains.head s}

def free (table : List UInt8) : Trie family :=
  {t with tables := update t.tables table false}

/-- The loop of `prefix_list_trie_add`, with the levels left. -/
def descendAdding (bytes : List UInt8) :
    Nat → List UInt8 → Nat → Trie family → Trie family × List UInt8 × Nat
  | 0, table, validbits, t => (t,table,validbits)
  | levels + 1, table, validbits, t =>
    if 8 < validbits then
      let next := table ++ [bytes.getD table.length 0]
      descendAdding bytes levels next (validbits-8) (if t.tables next then t else t.calloc next)
    else (t,table,validbits)

/-- The loop of `prefix_list_trie_del` and `prefix_entry_dup_check`; none if a table is missing. -/
def descend (bytes : List UInt8) : Nat → List UInt8 → Nat → Option (List UInt8 × Nat)
  | 0, table, validbits => some (table,validbits)
  | levels + 1, table, validbits =>
    if 8 < validbits then
      let next := table ++ [bytes.getD table.length 0]
      if t.tables next then descend bytes levels next (validbits-8) else none
    else some (table,validbits)

/-- `trie_table_empty`. One pointer is for the next table or, in a last table, the entries beyond
it. -/
def tableEmpty (table : List UInt8) : Bool :=
  (range 256).all fun i =>
    let slot := table ++ [UInt8.ofNat i]
    !t.tables slot && (t.chains.head (slot,true)).isNone && (t.chains.head (slot,false)).isNone

def freeEmpty (path : List UInt8) : Nat → Trie family → Trie family
  | 0, t => t
  | depth + 1, t =>
    let table := path.take (depth+1)
    freeEmpty path depth (if t.tableEmpty table then t.free table else t)

def add (fuel : Nat) (pentry : Entry family) : Option (Trie family) :=
  let bytes := pentry.network.val
  let (t,table,validbits) :=
    descendAdding bytes (family.trieDepth-1) [] pentry.network.prefixlen t
  (trieWalkAffected validbits table (bytes.getD table.length 0) (trieInstallFn fuel pentry)
    t.chains).map ({t with chains := ·})

def del (fuel : Nat) (pentry : Entry family) : Option (Trie family) :=
  let bytes := pentry.network.val
  (t.descend bytes (family.trieDepth-1) [] pentry.network.prefixlen).bind
    fun (table,validbits) =>
      (trieWalkAffected validbits table (bytes.getD table.length 0) (trieUninstallFn fuel pentry)
        t.chains).map fun chains => freeEmpty table table.length {t with chains := chains}

end Trie

end

section

variable {family other : Family}

def Trie.empty : Trie family where
  tables := fun table => table = []
  chains := {head := fun _ => none, next := fun _ => none}

/-- `prefix_list_insert`. -/
def Plist.new : Plist family := {entries := [], count := 0, desc := false, trie := .empty}

section

variable (pl : Plist family)

def prefixNewSeqGet : Nat :=
  let maxseq := pl.entries.foldl (fun maxseq pentry =>
    if maxseq < pentry.seq then pentry.seq else maxseq) 0
  min (maxseq/5*5+5) 0xffffffff

def Plist.fuel : Nat := pl.entries.length+3

/-- `prefix_list_entry_delete`, but for what follows if the list became empty. -/
def prefixListEntryDelete (pentry : Entry family) : Option (Plist family) :=
  (pl.trie.del pl.fuel pentry).map fun trie =>
    {pl with entries := pl.entries.erase pentry, count := pl.count-1, trie := trie}

def insertBySeq (pentry : Entry family) : List (Entry family) → List (Entry family)
  | [] => [pentry]
  | point :: rest =>
    if pentry.seq ≤ point.seq then pentry :: point :: rest else point :: insertBySeq pentry rest

/-- `prefix_list_entry_add`. The pointer of a new entry is null. -/
def prefixListEntryAdd (pentry : Entry family) : Option (Plist family) :=
  let later := pl.entries.getLast?.any fun tail => tail.seq < pentry.seq
  let replaced :=
    if later then some pl
    else match pl.entries.find? (·.seq = pentry.seq) with
      | none => some pl
      | some replace => prefixListEntryDelete pl replace
  replaced.bind fun pl =>
    let entries := if later then pl.entries ++ [pentry] else insertBySeq pentry pl.entries
    let chains := {pl.trie.chains with next := update pl.trie.chains.next pentry none}
    (Trie.add {pl.trie with chains := chains} pl.fuel pentry).map fun trie =>
      {pl with entries := entries, count := pl.count+1, trie := trie}

end

def prefixListEntryMatch (pentry : Entry family) (p : Address other) : Bool :=
  if family ≠ other then false
  else if p.prefixlen < pentry.network.prefixlen ∨
      sameBits pentry.network.val p.val pentry.network.prefixlen = false then false
  else if pentry.le = 0 ∧ pentry.ge = 0 then pentry.network.prefixlen = p.prefixlen
  else (pentry.le = 0 ∨ p.prefixlen ≤ pentry.le) ∧ (pentry.ge = 0 ∨ pentry.ge ≤ p.prefixlen)

/-- One round of the loops of `prefix_list_apply_which_prefix`. -/
def better (p : Address other) (pbest : Option (Entry family)) (pentry : Entry family) :
    Option (Entry family) :=
  if pbest.any (·.seq < pentry.seq) then pbest
  else if prefixListEntryMatch pentry p then some pentry else pbest

/-- The walk of `prefix_list_apply_which_prefix`, with the levels left. -/
def applyWalk (pl : Plist family) (p : Address other) :
    Nat → List UInt8 → Nat → Option (Entry family) → Option (Option (Entry family))
  | levels, table, validbits, pbest =>
    let slot := table ++ [p.val.getD table.length 0]
    let chain (final : Bool) := walk pl.trie.chains.next pl.fuel (pl.trie.chains.head (slot,final))
    (chain false).bind fun up =>
      let pbest := up.foldl (better p) pbest
      if validbits ≤ 8 then some pbest
      else match levels with
        | 0 => (chain true).map fun final => final.foldl (better p) pbest
        | levels + 1 =>
          if pl.trie.tables slot then applyWalk pl p levels slot (validbits-8) pbest
          else some pbest

/-- `prefix_list_apply_which_prefix`, without the prefix that matched. -/
def prefixListApply (plist : Option (Plist family)) (p : Address other) : Option ListType :=
  match plist with
  | none => some .deny
  | some pl =>
    if pl.count = 0 then some .permit
    else (applyWalk pl p (family.trieDepth-1) [] p.prefixlen none).map fun pbest =>
      pbest.elim .deny (·.type)

def prefixEntryDupCheck (pl : Plist family) (new : Entry family) (seq : Nat) : Option Bool :=
  let bytes := new.network.val
  match pl.trie.descend bytes (family.trieDepth-1) [] new.network.prefixlen with
  | none => some false
  | some (table,validbits) =>
    let slot := table ++ [bytes.getD table.length 0]
    (walk pl.trie.chains.next pl.fuel (pl.trie.chains.head (slot,decide (8 < validbits)))).map
      fun chain => chain.any fun pentry => pentry.network = new.network ∧ pentry.type = new.type ∧
        pentry.le = new.le ∧ pentry.ge = new.ge ∧ pentry.seq ≠ seq

end

section

/-- The prefix of a command; `none` for `any`. -/
structure Rule (family : Family) where
  seq : Option Nat
  type : ListType
  dest : Option (Address family)
  ge : Nat
  le : Nat

inductive Command (family : Family) where
  | install (rule : Rule family)
  | uninstall (rule : Rule family)
  | delete
  | descSet
  | descUnset

variable {family : Family}

def anyAddress (family : Family) : Address family where
  prefixlen := 0
  val := replicate family.width 0
  size := length_replicate
  short := Nat.zero_le _

def Rule.target (rule : Rule family) : Address family × Nat × Nat :=
  match rule.dest with
  | none => (anyAddress family,0,family.maxBitlen)
  | some p => (p,rule.ge,rule.le)

/-- `vty_prefix_list_install`, for an entry at `id` in memory. -/
def vtyPrefixListInstall (plist : Option (Plist family)) (id : Nat) (rule : Rule family) :
    Option (Option (Plist family)) :=
  let (p,ge,le) := rule.target
  let network := applyMask p
  if ge ≠ 0 ∧ ge ≤ network.prefixlen then some plist
  else if le ≠ 0 ∧ le < network.prefixlen then some plist
  else if le ≠ 0 ∧ le < ge then some plist
  else
    let le := if ge ≠ 0 ∧ le = family.maxBitlen then 0 else le
    let pl := plist.getD .new
    let seq := rule.seq.getD (prefixNewSeqGet pl)
    let pentry : Entry family :=
      {id := id, seq := seq, le := le, ge := ge, type := rule.type, network := network}
    (prefixEntryDupCheck pl pentry seq).bind fun dup =>
      if dup then some (some pl) else (prefixListEntryAdd pl pentry).map some

def keepUsed (pl : Plist family) : Option (Plist family) :=
  if pl.entries = [] ∧ pl.desc = false then none else some pl

/-- `prefix_list_entry_lookup`. The prefix of the command is not masked. -/
def prefixListEntryLookup (pl : Plist family) (p : Address family) (type : ListType) (seq : Option Nat)
    (le ge : Nat) : Option (Entry family) :=
  pl.entries.find? fun pentry =>
    (pentry.network.prefixlen = p.prefixlen ∧ pentry.network.val = p.val) ∧ pentry.type = type ∧
      (seq.all fun seq => pentry.seq = seq) ∧ pentry.le = le ∧ pentry.ge = ge

def vtyPrefixListUninstall (plist : Option (Plist family)) (rule : Rule family) :
    Option (Option (Plist family)) :=
  match plist with
  | none => some none
  | some pl =>
    let (p,ge,le) := rule.target
    match prefixListEntryLookup pl p rule.type rule.seq le ge with
    | none => some (some pl)
    | some pentry => (prefixListEntryDelete pl pentry).map keepUsed

/-- The loop of `prefix_list_delete`. -/
def deleteAll : List (Entry family) → Plist family → Option (Plist family)
  | [], pl => some pl
  | pentry :: rest, pl => (prefixListEntryDelete pl pentry).bind (deleteAll rest)

structure State (family : Family) where
  plist : Option (Plist family)
  id : Nat

def State.step (s : State family) : Command family → Option (State family)
  | .install rule => (vtyPrefixListInstall s.plist s.id rule).map ({plist := ·, id := s.id + 1})
  | .uninstall rule => (vtyPrefixListUninstall s.plist rule).map ({s with plist := ·})
  | .delete =>
    match s.plist with
    | none => some s
    | some pl => (deleteAll pl.entries pl).map fun _ => {s with plist := none}
  | .descSet => some {s with plist := some {s.plist.getD .new with desc := true}}
  | .descUnset => some {s with plist := s.plist.bind fun pl => keepUsed {pl with desc := false}}

def State.run (commands : List (Command family)) (s : State family) : Option (State family) :=
  commands.foldlM State.step s

def State.start : State family := {plist := none, id := 0}

end

end Frr.PrefixList
