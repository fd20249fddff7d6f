import Frr.PrefixListTrie

/-! A prefix list does what its entries say, one after the other. The lists of entries have their
own commands, and those of the source follow them. -/
namespace Frr.PrefixList

open SharedChains List Function Option State Entry

variable {family other : Family}

section

variable {l : List (Entry family)} {a b e : Entry family}

abbrev BySeq (l : List (Entry family)) : Prop := l.Pairwise fun a b => a.seq < b.seq

theorem BySeq.nodup (hs : BySeq l) : l.Nodup := hs.imp fun hl eq => absurd (congrArg seq eq) hl.ne

theorem BySeq.eq_of_seq (hs : BySeq l) (ha : a ∈ l) (hb : b ∈ l) (eq : a.seq = b.seq) : a = b := by
  have hd : (l.map seq).Nodup := pairwise_map.mpr (hs.imp fun hl => hl.ne)
  exact inj_on_of_nodup_map hd ha hb eq

theorem BySeq.erase_eq (hs : BySeq l) (mem : e ∈ l) : l.erase e = l.filter (·.seq ≠ e.seq) := by
  rw [hs.nodup.erase_eq_filter]
  refine filter_congr fun a ha => ?_
  by_cases eq : a = e
  · simp [eq]
  have : a.seq ≠ e.seq := fun seq => eq (hs.eq_of_seq ha mem seq)
  simp [eq,this]

theorem insertBySeq_perm (e : Entry family) (l : List (Entry family)) :
    (insertBySeq e l).Perm (e :: l) := by
  induction l with
  | nil => exact .refl _
  | cons a l ih =>
    unfold insertBySeq
    split
    · exact .refl _
    · exact (ih.cons a).trans (.swap ..)

theorem BySeq.insert (hs : BySeq l) (hf : ∀ a ∈ l, a.seq ≠ e.seq) : BySeq (insertBySeq e l) := by
  induction l with
  | nil => exact pairwise_singleton ..
  | cons a l ih =>
    obtain ⟨ha,hs'⟩ := pairwise_cons.mp hs
    have hh := hf a (.head _)
    unfold insertBySeq
    split
    · next le =>
      refine pairwise_cons.mpr ⟨fun b mem => ?_,hs⟩
      rcases mem_cons.mp mem with rfl | mem
      · omega
      have := ha b mem
      omega
    · next less =>
      refine pairwise_cons.mpr ⟨fun b mem => ?_,ih hs' fun b mem =>
        hf b (.tail _ mem)⟩
      rcases mem_cons.mp ((insertBySeq_perm e l).mem_iff.mp mem) with rfl | mem
      · omega
      · exact ha b mem

theorem insertBySeq_last (hl : ∀ a ∈ l, a.seq < e.seq) : insertBySeq e l = l ++ [e] := by
  induction l with
  | nil => rfl
  | cons a l ih =>
    have hh := hl a (.head _)
    unfold insertBySeq
    rw [if_neg (by omega),ih fun b mem => hl b (.tail _ mem)]
    rfl

def scan (l : List (Entry family)) (p : Address other) : ListType :=
  if l = [] then .permit
  else (l.find? (prefixListEntryMatch · p)).elim .deny (·.type)

theorem BySeq.find_eq (hs : BySeq l) {accepts : Entry family → Bool} (mem : e ∈ l)
    (hh : accepts e) (hl : ∀ a ∈ l, accepts a → e.seq ≤ a.seq) :
    l.find? accepts = some e := by
  induction l with
  | nil => exact absurd mem not_mem_nil
  | cons a l ih =>
    obtain ⟨ha,hs⟩ := pairwise_cons.mp hs
    by_cases fst : accepts a
    · rw [find?_cons_of_pos fst]
      rcases mem_cons.mp mem with rfl | mem
      · rfl
      have := hl a (.head _) fst
      have := ha e mem
      omega
    · rw [find?_cons_of_neg fst]
      rcases mem_cons.mp mem with rfl | mem
      · exact absurd hh fst
      · exact ih hs mem fun b mem => hl b (.tail _ mem)

end

section

variable {pl : Plist family} {e : Entry family}

structure Plist.Sound (pl : Plist family) : Prop where
  sorted : BySeq pl.entries
  count : pl.count = pl.entries.length
  trie : ∃ S, S.Perm pl.entries ∧ pl.trie.Sound S

theorem Plist.Sound.new : (Plist.new : Plist family).Sound :=
  ⟨List.Pairwise.nil,rfl,[],.refl _,.empty⟩

theorem Plist.Sound.delete (hs : pl.Sound) (mem : e ∈ pl.entries) :
    ∃ pl', prefixListEntryDelete pl e = some pl' ∧ pl'.Sound ∧
      pl'.entries = pl.entries.filter (·.seq ≠ e.seq) ∧ pl'.desc = pl.desc := by
  obtain ⟨S,perm,trie⟩ := hs.trie
  have he : S.length < pl.fuel := by
    rw [perm.length_eq,Plist.fuel]
    omega
  obtain ⟨t',hd,trie⟩ := trie.del (perm.mem_iff.mpr mem) he
  refine ⟨{pl with entries := pl.entries.erase e, count := pl.count-1, trie := t'},
    by rw [prefixListEntryDelete,hd]; rfl,?_,hs.sorted.erase_eq mem,rfl⟩
  refine ⟨hs.sorted.sublist erase_sublist,?_,S.erase e,perm.erase e,trie⟩
  simp [hs.count,length_erase_of_mem mem]

theorem Trie.Sound.clear {t : Trie family} {S : List (Entry family)} (hs : t.Sound S)
    (ho : e ∉ S) :
    Trie.Sound {t with chains := {t.chains with next := update t.chains.next e none}} S where
  __ := hs
  linked s hh := (hs.linked s hh).congr fun a mem => update_of_ne (by
    rintro rfl
    exact ho (mem_of_mem_filter mem)) ..

theorem last_seq {l : List (Entry family)} (hs : BySeq l)
    (hla : l.getLast?.any (·.seq < e.seq) = true) : ∀ a ∈ l, a.seq < e.seq := by
  obtain ⟨z,last,hl⟩ := (Option.any_eq_true _ _).mp hla
  obtain ⟨front,rfl⟩ := getLast?_eq_some_iff.mp last
  intro a hm
  rcases mem_append.mp hm with hm | hm
  · have := (pairwise_append.mp hs).2.2 a hm z (by simp)
    have := of_decide_eq_true hl
    omega
  rw [mem_singleton.mp hm]
  exact of_decide_eq_true hl

theorem Plist.Sound.insert (hs : pl.Sound) (hf : ∀ a ∈ pl.entries, a.seq ≠ e.seq) :
    ∃ trie, Trie.add {pl.trie with
        chains := {pl.trie.chains with next := update pl.trie.chains.next e none}}
        pl.fuel e = some trie ∧
      Plist.Sound {pl with
        entries := insertBySeq e pl.entries, count := pl.count+1, trie := trie} := by
  obtain ⟨S,perm,trie⟩ := hs.trie
  have hf' : ∀ a ∈ S, a.seq ≠ e.seq := fun a mem => hf a (perm.mem_iff.mp mem)
  have he : S.length + 1 < pl.fuel := by
    rw [perm.length_eq,Plist.fuel]
    omega
  obtain ⟨t',S',ha,trie,perm'⟩ := (trie.clear fun mem => hf' e mem rfl).add hf' (by simp) he
  refine ⟨t',ha,hs.sorted.insert hf,?_,S',?_,trie⟩
  · simp [hs.count,(insertBySeq_perm e pl.entries).length_eq,length_cons]
  · exact perm'.trans ((perm.cons e).trans (insertBySeq_perm e pl.entries).symm)

theorem Plist.Sound.add (hs : pl.Sound) (e : Entry family) :
    ∃ pl', prefixListEntryAdd pl e = some pl' ∧ pl'.Sound ∧
      pl'.entries = insertBySeq e (pl.entries.filter (·.seq ≠ e.seq)) ∧ pl'.desc = pl.desc := by
  have others (hf : ∀ a ∈ pl.entries, a.seq ≠ e.seq) :
      pl.entries.filter (·.seq ≠ e.seq) = pl.entries :=
    filter_eq_self.mpr fun a mem => decide_eq_true (hf a mem)
  unfold prefixListEntryAdd
  by_cases hl : pl.entries.getLast?.any (·.seq < e.seq) = true
  · have last := last_seq hs.sorted hl
    have hf : ∀ a ∈ pl.entries, a.seq ≠ e.seq := fun a mem => (last a mem).ne
    obtain ⟨trie,ha,hs'⟩ := hs.insert hf
    simp only [if_pos hl,bind_some,ha,map_some]
    refine ⟨_,rfl,?_,?_,rfl⟩
    · rwa [insertBySeq_last last] at hs'
    · rw [others hf,insertBySeq_last last]
  · simp only [if_neg hl]
    cases hfo : pl.entries.find? (·.seq = e.seq) with
    | none =>
      have hf : ∀ a ∈ pl.entries, a.seq ≠ e.seq := fun a mem => by
        simpa using find?_eq_none.mp hfo a mem
      obtain ⟨trie,ha,hs'⟩ := hs.insert hf
      simp only [bind_some,ha,map_some]
      exact ⟨_,rfl,hs',by rw [others hf],rfl⟩
    | some replace =>
      have eq : replace.seq = e.seq := by simpa using find?_some hfo
      obtain ⟨pl₁,hd,sound₁,ents,desc⟩ := hs.delete (mem_of_find?_eq_some hfo)
      rw [eq] at ents
      obtain ⟨trie,ha,hs'⟩ := sound₁.insert (e := e) fun a mem => by
        rw [ents] at mem
        simpa using (mem_filter.mp mem).2
      simp only [hd,bind_some,ha,map_some]
      exact ⟨_,rfl,hs',by rw [ents],desc⟩

end

section

variable {pl : Plist family} {S : List (Entry family)} {e : Entry family} {p : Address other}
  {b : Option (Entry family)} {pool pool' : Entry family → Prop}

theorem match_bits (hh : prefixListEntryMatch e p) :
    e.network.prefixlen ≤ p.prefixlen ∧
      ∀ i < e.network.prefixlen, Prefix.prefixBit p.val i = Prefix.prefixBit e.network.val i := by
  unfold prefixListEntryMatch at hh
  split at hh
  · exact absurd hh Bool.false_ne_true
  split at hh
  · exact absurd hh Bool.false_ne_true
  next ok =>
  obtain ⟨hlo,eq⟩ := not_or.mp ok
  refine ⟨Nat.not_lt.mp hlo,fun i hl => ?_⟩
  exact ((Prefix.sameBits_iff ..).mp (by simpa using eq) i hl).symm

structure Best (S : List (Entry family)) (p : Address other) (pool : Entry family → Prop)
    (b : Option (Entry family)) : Prop where
  found : ∀ x, b = some x → x ∈ S ∧ prefixListEntryMatch x p = true
  least : ∀ e ∈ S, pool e → prefixListEntryMatch e p = true → ∃ x, b = some x ∧ x.seq ≤ e.seq

theorem Best.mono (best : Best S p pool b)
    (hl : ∀ e ∈ S, prefixListEntryMatch e p → pool' e → pool e) : Best S p pool' b :=
  ⟨best.found,fun e mem hh hm => best.least e mem (hl e mem hm hh) hm⟩

theorem Best.better (best : Best S p pool b) (mem : e ∈ S) :
    Best S p (fun a => pool a ∨ a = e) (better p b e) := by
  unfold PrefixList.better
  split
  · next kept =>
    obtain ⟨x,rfl,hl⟩ := (Option.any_eq_true _ _).mp kept
    refine ⟨best.found,fun a ht => ?_⟩
    rintro (hb | rfl) hm
    · exact best.least a ht hb hm
    · exact ⟨x,rfl,(of_decide_eq_true hl).le⟩
  · next smaller =>
    split
    · next here =>
      refine ⟨fun x eq => ?_,fun a ht which hm => ⟨e,rfl,?_⟩⟩
      · cases eq
        exact ⟨mem,here⟩
      rcases which with hb | rfl
      · obtain ⟨x,rfl,le⟩ := best.least a ht hb hm
        have : e.seq ≤ x.seq := by simpa using smaller
        omega
      · exact le_rfl
    · next other =>
      refine ⟨best.found,fun a ht => ?_⟩
      rintro (hb | rfl) hm
      · exact best.least a ht hb hm
      · exact absurd hm other

theorem Best.foldl {l : List (Entry family)} (best : Best S p pool b) (mems : ∀ e ∈ l, e ∈ S) :
    Best S p (fun a => pool a ∨ a ∈ l) (l.foldl (PrefixList.better p) b) := by
  induction l generalizing b pool with
  | nil => exact best.mono fun _ _ _ hh => hh.resolve_right not_mem_nil
  | cons e l ih =>
    have rest := ih (best.better (mems e (.head _)))
      fun a mem => mems a (.tail _ mem)
    refine rest.mono fun a _ _ hh => ?_
    rcases hh with hb | mem
    · exact .inl (.inl hb)
    rcases mem_cons.mp mem with rfl | mem
    · exact .inl (.inr rfl)
    · exact .inr mem

theorem trieDepth_le_width (family other : Family) : family.trieDepth ≤ other.width := by
  cases family <;> cases other <;> decide

theorem walk_slot (hs : pl.trie.Sound S) (he : S.length < pl.fuel) {j : Nat}
    {val : List UInt8} (hi : j < val.length) (live : pl.trie.tables (val.take j))
    (final : Bool) :
    walk pl.trie.chains.next pl.fuel (pl.trie.chains.head (val.take (j+1),final)) =
      some (chain inSlot (val.take (j+1),final) S) := by
  refine walk_segment (hs.linked (val.take (j+1),final) ?_) ((length_filter_le ..).trans_lt he)
  simpa [← take_succ_getD val j hi,dropLast_concat] using live

theorem mem_chain_of_match (mem : e ∈ S) (hm : prefixListEntryMatch e p) :
    e ∈ chain inSlot (p.val.take (e.depth+1),decide (8*family.trieDepth < e.network.prefixlen))
      S := by
  have hi : e.depth < p.val.length := by
    have := (depth_spec e).1
    have := trieDepth_le_width family other
    rw [p.size]
    omega
  exact mem_filter.mpr ⟨mem,inSlot_of_bits (match_bits hm).2 hi⟩

theorem applyWalk_best (hs : pl.trie.Sound S) (he : S.length < pl.fuel) {levels j : Nat}
    {b : Option (Entry family)}
    (left : levels + j + 1 = family.trieDepth) (live : pl.trie.tables (p.val.take j))
    (best : Best S p (·.depth < j) b) :
    ∃ b', applyWalk pl p levels (p.val.take j) (p.prefixlen-8*j) b = some b' ∧
      Best S p (fun _ => True) b' := by
  have hi : j < p.val.length := by
    have := trieDepth_le_width family other
    rw [p.size]
    omega
  have len : (p.val.take j).length = j := by
    rw [length_take]
    omega
  have read := walk_slot hs he hi live
  -- After the first chain, what is left is below this table or beyond the last one.
  have up : Best S p (fun e => e.depth < j ∨
      e.depth = j ∧ ¬8*family.trieDepth < e.network.prefixlen)
      ((chain inSlot (p.val.take (j+1),false) S).foldl (better p) b) := by
    refine (best.foldl fun e mem => mem_of_mem_filter mem).mono fun e mem hm => ?_
    rintro (ha | ⟨rfl,short⟩)
    · exact .inl ha
    right
    simpa [short,decide_false] using mem_chain_of_match mem hm
  rw [applyWalk.eq_def]
  simp only [len,take_succ_getD p.val j hi,read,bind_some]
  by_cases last : p.prefixlen - 8 * j ≤ 8
  · rw [if_pos last]
    refine ⟨_,rfl,up.mono fun e _ hm _ => ?_⟩
    have := (match_bits hm).1
    have := depth_spec e
    omega
  · rw [if_neg last]
    cases levels with
    | zero =>
      refine ⟨_,rfl,(up.foldl fun e mem => mem_of_mem_filter mem).mono fun e mem hm _ => ?_⟩
      have := depth_spec e
      by_cases hl : 8 * family.trieDepth < e.network.prefixlen
      · right
        have depth : e.depth = j := by omega
        simpa [hl,depth,decide_true] using mem_chain_of_match mem hm
      left
      omega
    | succ levels =>
      simp only
      split
      · next there =>
        rw [Nat.sub_sub,← Nat.mul_succ]
        have rest : levels + (j+1) + 1 = family.trieDepth := by omega
        refine applyWalk_best hs he rest there (up.mono fun e _ _ ha => ?_)
        have := depth_spec e
        omega
      · next missing =>
        refine ⟨_,rfl,up.mono fun e mem hm _ => ?_⟩
        have := depth_spec e
        by_contra below
        refine missing (hs.tables_of_bits mem (match_bits hm).2 ?_ ?_)
        · rw [p.size]
          have := trieDepth_le_width family other
          omega
        · omega
termination_by levels

theorem Plist.Sound.apply (hs : pl.Sound) (p : Address other) :
    prefixListApply (some pl) p = some (scan pl.entries p) := by
  obtain ⟨S,perm,trie⟩ := hs.trie
  have he : S.length < pl.fuel := by
    rw [perm.length_eq,Plist.fuel]
    omega
  unfold prefixListApply scan
  simp only [hs.count,length_eq_zero_iff]
  split
  · rfl
  have levels : family.trieDepth - 1 + 0 + 1 = family.trieDepth :=
    Nat.sub_add_cancel (trieDepth_pos family)
  have start : Best S p (·.depth < 0) none := ⟨by simp,fun e _ ha => absurd ha (Nat.not_lt_zero _)⟩
  obtain ⟨b,hw,best⟩ := applyWalk_best trie he levels (by simpa using trie.root) start
  rw [take_zero,Nat.mul_zero,Nat.sub_zero] at hw
  rw [hw,map_some]
  have eq : pl.entries.find? (prefixListEntryMatch · p) = b := by
    cases b with
    | none =>
      refine find?_eq_none.mpr fun e mem hm => ?_
      obtain ⟨x,none,-⟩ := best.least e (perm.mem_iff.mpr mem) trivial hm
      exact some_ne_none x none.symm
    | some x =>
      obtain ⟨mem,hm⟩ := best.found x rfl
      refine hs.sorted.find_eq (perm.mem_iff.mp mem) hm fun a ht hh => ?_
      obtain ⟨y,eq,le⟩ := best.least a (perm.mem_iff.mpr ht) trivial hh
      rwa [some_inj.mp eq]
  rw [eq]

/-- `prefix_entry_dup_check` on the entries. -/
def hasPolicy (l : List (Entry family)) (new : Entry family) (seq : Nat) : Bool :=
  l.any fun pentry => pentry.network = new.network ∧ pentry.type = new.type ∧
    pentry.le = new.le ∧ pentry.ge = new.ge ∧ pentry.seq ≠ seq

theorem Plist.Sound.dupCheck (hs : pl.Sound) (new : Entry family) (seq : Nat) :
    prefixEntryDupCheck pl new seq = some (hasPolicy pl.entries new seq) := by
  obtain ⟨S,perm,trie⟩ := hs.trie
  have he : S.length < pl.fuel := by
    rw [perm.length_eq,Plist.fuel]
    omega
  have hi := depth_lt_length new
  have levels : family.trieDepth - 1 + 0 + 1 = family.trieDepth :=
    Nat.sub_add_cancel (trieDepth_pos family)
  have bits {a : Entry family} (eq : a.network = new.network) :
      ∀ i < a.network.prefixlen, Prefix.prefixBit new.network.val i =
        Prefix.prefixBit a.network.val i := fun i _ => by rw [eq]
  have depth {a : Entry family} (eq : a.network = new.network) : a.depth = new.depth := by
    rw [depth,depth,eq]
  unfold prefixEntryDupCheck hasPolicy
  dsimp only
  cases hd : pl.trie.descend new.network.val (family.trieDepth-1) [] new.network.prefixlen with
  | none =>
    -- An entry with this prefix would have its tables.
    refine congrArg some (any_eq_false.mpr fun a mem policy => ?_).symm
    have eq : a.network = new.network := (of_decide_eq_true policy).1
    have tables : ∀ i ≤ new.depth, pl.trie.tables (new.network.val.take i) := fun i le =>
      trie.tables_of_bits (perm.mem_iff.mpr mem) (bits eq) (by rwa [depth eq]) (by rwa [depth eq])
    have := (descend_iff (Nat.zero_le _) levels).mpr ⟨fun i le _ => tables i le,rfl⟩
    simp only [take_zero,Nat.mul_zero,Nat.sub_zero,hd] at this
    exact some_ne_none _ this.symm
  | some r =>
    obtain ⟨tables,rfl⟩ := (descend_iff (Nat.zero_le _) levels).mp (by simpa using hd)
    have live : pl.trie.tables new.table := by
      rcases Nat.eq_zero_or_pos new.depth with root | pos
      · simpa [table,root] using trie.root
      · exact tables _ le_rfl pos
    have read := walk_slot trie he hi live (decide (8 < new.validbits))
    simp only [length_table]
    unfold table
    rw [take_succ_getD _ _ hi,read,map_some,← perm.any_eq]
    refine congrArg some (Bool.eq_iff_iff.mpr ?_)
    simp only [List.any_eq_true,mem_filter]
    constructor
    · rintro ⟨a,mem,policy⟩
      exact ⟨a,mem.1,policy⟩
    rintro ⟨a,mem,policy⟩
    refine ⟨a,⟨mem,?_⟩,policy⟩
    have eq : a.network = new.network := (of_decide_eq_true policy).1
    have hh := inSlot_of_bits (bits eq) (by rwa [depth eq])
    rwa [depth eq,eq,← decide_eq_decide.mpr (validbits_lt new)] at hh

end

section

structure Rules (family : Family) where
  entries : List (Entry family)
  desc : Bool

structure Config (family : Family) where
  rules : Option (Rules family)
  id : Nat

def Plist.rules (pl : Plist family) : Rules family := {entries := pl.entries, desc := pl.desc}

def Rules.new : Rules family := {entries := [], desc := false}

def Rules.nextSeq (r : Rules family) : Nat :=
  min ((r.entries.map seq).foldl max 0 / 5 * 5 + 5) 0xffffffff

def Rule.fits (rule : Rule family) : Prop :=
  let (p,ge,le) := rule.target
  (ge ≠ 0 → p.prefixlen < ge) ∧ (le ≠ 0 → p.prefixlen ≤ le) ∧ (le ≠ 0 → ge ≤ le)

instance (rule : Rule family) : Decidable rule.fits := by
  unfold Rule.fits
  infer_instance

def Rule.entry (rule : Rule family) (id seq : Nat) : Entry family :=
  let (p,ge,le) := rule.target
  { id := id, seq := seq, ge := ge, le := if ge ≠ 0 ∧ le = family.maxBitlen then 0 else le,
    type := rule.type, network := applyMask p }

def Rule.names (rule : Rule family) (pentry : Entry family) : Bool :=
  let (p,ge,le) := rule.target
  (pentry.network.prefixlen = p.prefixlen ∧ pentry.network.val = p.val) ∧
    pentry.type = rule.type ∧ (rule.seq.all fun seq => pentry.seq = seq) ∧
    pentry.le = le ∧ pentry.ge = ge

def Rules.install (r : Rules family) (id : Nat) (rule : Rule family) : Rules family :=
  let e := rule.entry id (rule.seq.getD r.nextSeq)
  if hasPolicy r.entries e e.seq then r
  else {r with entries := insertBySeq e (r.entries.filter (·.seq ≠ e.seq))}

def Rules.kept (r : Rules family) : Option (Rules family) :=
  if r.entries = [] ∧ r.desc = false then none else some r

def Rules.uninstall (r : Rules family) (rule : Rule family) : Option (Rules family) :=
  match r.entries.find? rule.names with
  | none => some r
  | some e => Rules.kept {r with entries := r.entries.filter (·.seq ≠ e.seq)}

def Config.step (c : Config family) : Command family → Config family
  | .install rule =>
    { rules := if rule.fits then some ((c.rules.getD .new).install c.id rule) else c.rules,
      id := c.id + 1 }
  | .uninstall rule => {c with rules := c.rules.bind (Rules.uninstall · rule)}
  | .delete => {c with rules := none}
  | .descSet => {c with rules := some {c.rules.getD .new with desc := true}}
  | .descUnset => {c with rules := c.rules.bind fun r => Rules.kept {r with desc := false}}

def Config.start : Config family := {rules := none, id := 0}

def Config.run (commands : List (Command family)) (c : Config family) : Config family :=
  commands.foldl Config.step c

end

section

variable {pl : Plist family} {plist : Option (Plist family)} {rules : Option (Rules family)}
  {s : State family} {c : Config family}

structure Follows (plist : Option (Plist family)) (rules : Option (Rules family)) : Prop where
  rules : plist.map Plist.rules = rules
  sound : ∀ pl, plist = some pl → pl.Sound

theorem Follows.none : Follows (none : Option (Plist family)) none := ⟨rfl,by simp⟩

theorem Follows.some (hs : pl.Sound) : Follows (some pl) (some pl.rules) :=
  ⟨rfl,fun _ eq => some_inj.mp eq ▸ hs⟩

theorem Follows.cases (hf : Follows plist rules) :
    plist = Option.none ∧ rules = Option.none ∨
      ∃ pl, plist = Option.some pl ∧ rules = Option.some pl.rules ∧ pl.Sound := by
  cases plist with
  | none => exact .inl ⟨rfl,hf.rules.symm⟩
  | some pl => exact .inr ⟨pl,rfl,hf.rules.symm,hf.sound pl rfl⟩

theorem Follows.getD (hf : Follows plist rules) :
    (plist.getD .new).Sound ∧ (plist.getD .new).rules = rules.getD .new := by
  rcases hf.cases with ⟨rfl,rfl⟩ | ⟨pl,rfl,rfl,hs⟩
  · exact ⟨.new,rfl⟩
  · exact ⟨hs,rfl⟩

theorem Follows.keepUsed (hs : pl.Sound) : Follows (keepUsed pl) pl.rules.kept := by
  unfold PrefixList.keepUsed Rules.kept
  by_cases hu : pl.entries = [] ∧ pl.desc = false
  · rw [if_pos hu,if_pos (show pl.rules.entries = [] ∧ pl.rules.desc = false from hu)]
    exact .none
  rw [if_neg hu,if_neg (show ¬(pl.rules.entries = [] ∧ pl.rules.desc = false) from hu)]
  exact .some hs

theorem prefixNewSeqGet_eq (pl : Plist family) : prefixNewSeqGet pl = pl.rules.nextSeq := by
  have hl : (fun (maxseq : Nat) (pentry : Entry family) =>
      if maxseq < pentry.seq then pentry.seq else maxseq) = fun maxseq pentry =>
        max maxseq pentry.seq := by
    funext maxseq pentry
    split <;> omega
  unfold prefixNewSeqGet Rules.nextSeq
  rw [hl,foldl_map]
  rfl

theorem vtyPrefixListInstall_eq (plist : Option (Plist family)) (id : Nat) (rule : Rule family) :
    vtyPrefixListInstall plist id rule = if rule.fits then
        let pl := plist.getD .new
        let e := rule.entry id (rule.seq.getD pl.rules.nextSeq)
        (prefixEntryDupCheck pl e e.seq).bind fun dup =>
          if dup then some (some pl) else (prefixListEntryAdd pl e).map some
      else some plist := by
  unfold vtyPrefixListInstall Rule.fits Rule.entry
  simp only [prefixNewSeqGet_eq]
  obtain ⟨p,ge,le⟩ := rule.target
  have len : (applyMask p).prefixlen = p.prefixlen := rfl
  simp only [len]
  by_cases hf : (ge ≠ 0 → p.prefixlen < ge) ∧ (le ≠ 0 → p.prefixlen ≤ le) ∧ (le ≠ 0 → ge ≤ le)
  · rw [if_pos hf,if_neg (by omega),if_neg (by omega),if_neg (by omega)]
  rw [if_neg hf]
  split
  · rfl
  split
  · rfl
  · rw [if_pos (by omega)]

theorem Follows.install (hf : Follows plist rules) (id : Nat) (rule : Rule family) :
    ∃ plist', vtyPrefixListInstall plist id rule = Option.some plist' ∧
      Follows plist' (if rule.fits then Option.some ((rules.getD .new).install id rule) else rules) := by
  obtain ⟨hs,eq⟩ := hf.getD
  rw [vtyPrefixListInstall_eq]
  split
  · simp only [hs.dupCheck,Option.bind_some]
    rw [← eq]
    unfold Rules.install
    generalize rule.entry id _ = e
    have ents : (plist.getD Plist.new).rules.entries = (plist.getD Plist.new).entries := rfl
    by_cases dup : hasPolicy (plist.getD Plist.new).entries e e.seq
    · simp only [ents,if_pos dup]
      exact ⟨_,rfl,.some hs⟩
    obtain ⟨pl',ha,hs',ha',desc⟩ := hs.add e
    simp only [ents,if_neg dup,ha,Option.map_some]
    refine ⟨_,rfl,?_⟩
    rw [← ha',show (plist.getD Plist.new).rules.desc = pl'.desc from desc.symm]
    exact .some hs'
  · exact ⟨plist,rfl,hf⟩

theorem Follows.uninstall (hf : Follows plist rules) (rule : Rule family) :
    ∃ plist', vtyPrefixListUninstall plist rule = Option.some plist' ∧
      Follows plist' (rules.bind (Rules.uninstall · rule)) := by
  rcases hf.cases with ⟨rfl,rfl⟩ | ⟨pl,rfl,rfl,hs⟩
  · exact ⟨_,rfl,.none⟩
  have unfolded : vtyPrefixListUninstall (Option.some pl) rule =
      match pl.entries.find? rule.names with
      | Option.none => Option.some (Option.some pl)
      | Option.some pentry => (prefixListEntryDelete pl pentry).map PrefixList.keepUsed := rfl
  rw [unfolded,Option.bind_some,Rules.uninstall,show pl.rules.entries = pl.entries from rfl]
  cases hfo : pl.entries.find? rule.names with
  | none => exact ⟨_,rfl,.some hs⟩
  | some e =>
    obtain ⟨pl',hd,hs',ents,desc⟩ := hs.delete (List.mem_of_find?_eq_some hfo)
    refine ⟨PrefixList.keepUsed pl',by simp [hd],?_⟩
    simp only [← ents,show pl.rules.desc = pl'.desc from desc.symm]
    exact .keepUsed hs'

theorem Plist.Sound.deleteAll (hso : pl.Sound) :
    ∃ pl', PrefixList.deleteAll pl.entries pl = some pl' := by
  generalize all : pl.entries = l
  induction l generalizing pl with
  | nil => exact ⟨pl,rfl⟩
  | cons e l ih =>
    obtain ⟨pl₁,hd,sound₁,ents,-⟩ := hso.delete (e := e) (by simp [all])
    have hs := hso.sorted
    rw [all] at hs ents
    have rest : pl₁.entries = l := by
      rw [ents,filter_cons_of_neg (by simp)]
      refine filter_eq_self.mpr fun a mem => decide_eq_true ?_
      exact ((pairwise_cons.mp hs).1 a mem).ne'
    obtain ⟨pl',hdo⟩ := ih sound₁ rest
    exact ⟨pl',by simp [PrefixList.deleteAll,hd,hdo]⟩

theorem step_follows (hf : Follows s.plist c.rules) (id : s.id = c.id)
    (command : Command family) :
    ∃ s', s.step command = some s' ∧ Follows s'.plist (c.step command).rules ∧
      s'.id = (c.step command).id := by
  cases command with
  | install rule =>
    obtain ⟨plist',hi,hf'⟩ := hf.install s.id rule
    rw [id] at hf'
    exact ⟨_,by rw [step,hi]; rfl,hf',by simp [Config.step,id]⟩
  | uninstall rule =>
    obtain ⟨plist',hr,hf'⟩ := hf.uninstall rule
    exact ⟨{s with plist := plist'},by rw [step,hr]; rfl,hf',id⟩
  | delete =>
    rcases hf.cases with ⟨he,-⟩ | ⟨pl,hh,-,hs⟩
    · refine ⟨s,by simp [step,he],?_,id⟩
      rw [he]
      exact .none
    obtain ⟨pl',hd⟩ := hs.deleteAll
    exact ⟨{s with plist := none},by simp [step,hh,hd],.none,id⟩
  | descSet =>
    obtain ⟨hs,eq⟩ := hf.getD
    refine ⟨_,rfl,?_,id⟩
    simp only [Config.step,← eq]
    exact .some ⟨hs.sorted,hs.count,hs.trie⟩
  | descUnset =>
    refine ⟨_,rfl,?_,id⟩
    rcases hf.cases with ⟨he,he'⟩ | ⟨pl,hh,hh',hs⟩
    · simp only [Config.step,he,he',Option.bind_none]
      exact .none
    simp only [Config.step,hh,hh',Option.bind_some]
    exact .keepUsed ⟨hs.sorted,hs.count,hs.trie⟩

theorem run_follows (cmds : List (Command family)) (hf : Follows s.plist c.rules)
    (id : s.id = c.id) :
    ∃ s', run cmds s = some s' ∧ Follows s'.plist (Config.run cmds c).rules := by
  induction cmds generalizing s c with
  | nil => exact ⟨s,rfl,hf⟩
  | cons command rest ih =>
    obtain ⟨s₁,hs,follows₁,id₁⟩ := step_follows hf id command
    obtain ⟨s',ran,hf'⟩ := ih follows₁ id₁
    refine ⟨s',?_,hf'⟩
    simpa [run,foldlM_cons,hs] using ran

end

end Frr.PrefixList
