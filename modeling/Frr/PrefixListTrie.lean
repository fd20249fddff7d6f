import Frr.PrefixList

/-! Every chain of the trie has the entries of its slot, the longest first. -/
namespace Frr.PrefixList

open SharedChains List Function Option Entry Prefix

variable {family : Family}

section

variable {a b e : Entry family}

theorem before_iff : before e a ↔ a.network.prefixlen < e.network.prefixlen ∨
    a.network.prefixlen = e.network.prefixlen ∧ e.seq < a.seq := by
  simp [before]

theorem before_irrefl (e : Entry family) : before e e = false := by
  simp [before]

theorem before_trans (fst : before a b) (snd : before b e) : before a e := by
  rw [before_iff] at *
  omega

theorem before_asymm (fst : before a b) : before b a = false := by
  rw [Bool.eq_false_iff]
  intro snd
  rw [before_iff] at *
  omega

theorem before_total (ho : a.seq ≠ e.seq) : before a e ∨ before e a := by
  simp only [before_iff]
  omega

theorem before_longer (fst : before a b) : b.network.prefixlen ≤ a.network.prefixlen := by
  rw [before_iff] at fst
  omega

theorem exists_place {S : List (Entry family)} (hs : S.Pairwise fun a b => before a b)
    (hf : ∀ a ∈ S, a.seq ≠ e.seq) :
    ∃ A B, S = A ++ B ∧ (∀ a ∈ A, before a e) ∧ ∀ b ∈ B, before e b := by
  induction S with
  | nil => exact ⟨[],[],rfl,by simp,by simp⟩
  | cons h S ih =>
    obtain ⟨ha,hs⟩ := pairwise_cons.mp hs
    rcases before_total (hf h (.head _)) with hh | hh
    · obtain ⟨A,B,rfl,left,right⟩ := ih hs fun a mem =>
        hf a (.tail _ mem)
      refine ⟨h :: A,B,rfl,fun a mem => ?_,right⟩
      rcases mem_cons.mp mem with rfl | mem
      · exact hh
      · exact left a mem
    · refine ⟨[],h :: S,rfl,by simp,fun b mem => ?_⟩
      rcases mem_cons.mp mem with rfl | mem
      · exact hh
      · exact before_trans hh (ha b mem)

end

section

def Entry.depth (e : Entry family) : Nat :=
  if 8 * family.trieDepth < e.network.prefixlen then family.trieDepth - 1
  else (e.network.prefixlen-1) / 8

def inSlot (s : Slot) (e : Entry family) : Bool :=
  s.2 = decide (8*family.trieDepth < e.network.prefixlen) ∧ s.1.length = e.depth+1 ∧
    sameBits s.1 e.network.val (min e.network.prefixlen (8*family.trieDepth))

theorem inSlot_iff {s : Slot} {e : Entry family} :
    inSlot s e ↔ s.2 = decide (8*family.trieDepth < e.network.prefixlen) ∧
      s.1.length = e.depth+1 ∧
      ∀ i < min e.network.prefixlen (8*family.trieDepth),
        prefixBit s.1 i = prefixBit e.network.val i := by
  simp [inSlot,sameBits_iff]

theorem inSlot_meet (s t : Slot) (a b : Entry family) (hs : inSlot s a)
    (ht : inSlot t a) (order : before a b) : inSlot s b = inSlot t b := by
  rw [inSlot_iff] at hs ht
  have hsh := before_longer order
  have eq : ∀ i < min b.network.prefixlen (8*family.trieDepth),
      prefixBit s.1 i = prefixBit t.1 i := fun i hl =>
    (hs.2.2 i (by omega)).trans (ht.2.2 i (by omega)).symm
  rw [Bool.eq_iff_iff,inSlot_iff,inSlot_iff,hs.1,ht.1,hs.2.1,ht.2.1]
  refine and_congr_right fun _ => and_congr_right fun _ => forall₂_congr fun i hl => ?_
  rw [eq i hl]

theorem trieDepth_pos (family : Family) : 0 < family.trieDepth := by cases family <;> decide

theorem trieDepth_le (family : Family) : family.trieDepth ≤ family.width := by
  cases family <;> decide

section

variable (e : Entry family)

theorem depth_spec : e.depth < family.trieDepth ∧
      (e.depth+1 = family.trieDepth ∨ e.network.prefixlen ≤ 8 * (e.depth+1)) ∧
      (e.depth = 0 ∨ 8*e.depth < e.network.prefixlen) := by
  have := trieDepth_pos family
  unfold depth
  split <;> omega

theorem depth_lt_length : e.depth < e.network.val.length := by
  have := (depth_spec e).1
  have := trieDepth_le family
  rw [e.network.size]
  omega

def Entry.validbits : Nat := e.network.prefixlen-8*e.depth

theorem validbits_lt : 8 < e.validbits ↔ 8*family.trieDepth < e.network.prefixlen := by
  have := trieDepth_pos family
  unfold validbits depth
  split <;> omega

def Entry.table : List UInt8 := e.network.val.take e.depth

def Entry.byte : UInt8 := e.network.val.getD e.depth 0

theorem length_table : e.table.length = e.depth := by
  have := depth_lt_length e
  simp [table]
  omega

end

theorem take_succ_getD (val : List UInt8) (j : Nat) (hi : j < val.length) :
    val.take j ++ [val.getD j 0] = val.take (j+1) := by
  rw [take_succ_eq_append_getElem hi,getD_eq_getElem?_getD,getElem?_eq_getElem hi,getD_some]

end

section

variable {t : Trie family} {e : Entry family}

theorem depth_step (e : Entry family) {levels j : Nat} (hh : j ≤ e.depth)
    (left : levels + j + 1 = family.trieDepth) :
    if levels ≠ 0 ∧ 8 < e.network.prefixlen-8*j then j + 1 ≤ e.depth else j = e.depth := by
  obtain ⟨hb,last,hm⟩ := depth_spec e
  split <;> omega

/-- The descent ends at the table of the prefix, if the ones on the way are there. -/
theorem descend_iff {levels j : Nat} (hh : j ≤ e.depth) (left : levels + j + 1 = family.trieDepth)
    {r : List UInt8 × Nat} :
    t.descend e.network.val levels (e.network.val.take j) (e.network.prefixlen-8*j) = some r ↔
      (∀ i ≤ e.depth, j < i → t.tables (e.network.val.take i)) ∧ r = (e.table,e.validbits) := by
  have hi := depth_lt_length e
  have here : some (e.table,e.validbits) = some r ↔
      (∀ i ≤ e.depth, e.depth < i → t.tables (e.network.val.take i)) ∧
        r = (e.table,e.validbits) := by
    rw [Option.some_inj,eq_comm,and_iff_right fun i le lt => absurd lt (by omega)]
  induction levels generalizing j with
  | zero =>
    have last := depth_step e hh left
    simp only [ne_eq,not_true_eq_false,false_and,if_false] at last
    subst last
    exact here
  | succ levels ih =>
    have step := depth_step e hh left
    unfold Trie.descend
    by_cases hl : 8 < e.network.prefixlen-8*j
    · rw [if_pos ⟨levels.succ_ne_zero,hl⟩] at step
      have len : (e.network.val.take j).length = j := by
        rw [length_take]
        omega
      simp only [if_pos hl,len,take_succ_getD e.network.val j (by omega)]
      rw [Nat.sub_sub,← Nat.mul_succ]
      split
      · next there =>
        refine (ih step (by omega)).trans (and_congr_left fun _ => forall₂_congr fun i le => ?_)
        by_cases eq : i = j+1
        · simp [eq,there]
        · rw [show j + 1 < i ↔ j < i by omega]
      · next none => exact iff_of_false nofun fun h => none (h.1 _ step (by omega))
    · rw [if_neg (fun hb => hl hb.2)] at step
      subst step
      rw [if_neg hl]
      exact here

end

section

theorem byte_low (validbits : Nat) (le : validbits < 9) (byte : UInt8)
    (low : ∀ j < 8, validbits ≤ j → byteBit byte j = false) :
    byte &&& ~~~UInt8.ofNat (2 ^ (8-validbits) - 1) = byte ∧
      byte.toNat % 2 ^ (8-validbits) = 0 := by
  revert low
  revert byte
  apply forall_byte
  revert validbits
  decide +kernel

theorem byte_high (validbits : Nat) (le : validbits ≤ 8) (x y : UInt8) :
    (∀ j < validbits, byteBit x j = byteBit y j) ↔
      x.toNat / 2 ^ (8-validbits) = y.toNat / 2 ^ (8-validbits) := by
  have bit (z : UInt8) (j : Nat) (byte : j < 8) : byteBit z j = z.toNat.testBit (7-j) := by
    rw [byteBit_eq z j byte]
    rfl
  constructor
  · intro eq
    refine Nat.eq_of_testBit_eq fun i => ?_
    rw [Nat.testBit_div_two_pow,Nat.testBit_div_two_pow]
    by_cases hi : i < validbits
    · have hh := eq (validbits-1-i) (by omega)
      have idx : 7 - (validbits-1-i) = i + (8-validbits) := by omega
      rwa [bit x _ (by omega),bit y _ (by omega),idx] at hh
    have large (z : UInt8) : z.toNat.testBit (i + (8-validbits)) = false := by
      refine Nat.testBit_lt_two_pow (z.toNat_lt.trans_le ?_)
      exact Nat.pow_le_pow_right (by omega) (by omega)
    rw [large x,large y]
  · intro eq j hl
    have hh := congrArg (Nat.testBit · (validbits-1-j)) eq
    simp only [Nat.testBit_div_two_pow] at hh
    have idx : validbits - 1 - j + (8-validbits) = 7-j := by omega
    rwa [idx,← bit x j (by omega),← bit y j (by omega)] at hh

def Entry.slots (e : Entry family) : List Slot :=
  if 8 < e.validbits then [(e.table ++ [e.byte],true)]
  else (range' e.byte.toNat (2 ^ (8-e.validbits))).map
    fun bwalk => (e.table ++ [UInt8.ofNat bwalk],false)

theorem byte_bits (e : Entry family) : ∀ j < 8, e.validbits ≤ j → byteBit e.byte j = false := by
  intro j byte hb
  have hi := depth_lt_length e
  rw [e.network.size] at hi
  have zero := e.network.masked (8*e.depth+j) (by unfold validbits at hb; omega) (by omega)
  unfold prefixBit at zero
  rwa [show (8*e.depth+j) / 8 = e.depth by omega,show (8*e.depth+j) % 8 = j by omega] at zero

theorem slots_room (e : Entry family) (hs : e.validbits ≤ 8) :
    e.byte.toNat + 2 ^ (8-e.validbits) ≤ 256 := by
  obtain ⟨-,ha⟩ := byte_low e.validbits (by omega) e.byte (byte_bits e)
  have hb := e.byte.toNat_lt
  have total : 2 ^ e.validbits * 2 ^ (8-e.validbits) = 256 := by
    rw [← Nat.pow_add,Nat.add_sub_cancel' hs]
  obtain ⟨q,multiple⟩ := Nat.dvd_of_mod_eq_zero ha
  have hl : q < 2 ^ e.validbits := by
    by_contra large
    have := Nat.mul_le_mul_left (2 ^ (8-e.validbits)) (Nat.not_lt.mp large)
    rw [Nat.mul_comm _ (2 ^ e.validbits),total] at this
    omega
  calc e.byte.toNat + 2 ^ (8-e.validbits)
      = 2 ^ (8-e.validbits) * (q+1) := by rw [multiple,Nat.mul_succ]
    _ ≤ 2 ^ (8-e.validbits) * 2 ^ e.validbits := Nat.mul_le_mul_left _ hl
    _ = 256 := by rw [Nat.mul_comm,total]

theorem trieWalkAffected_eq {β : Type} (e : Entry family) (fn : β → Slot → Option β) (c : β) :
    trieWalkAffected e.validbits e.table e.byte fn c = e.slots.foldlM fn c := by
  unfold trieWalkAffected slots
  split
  · simp
  next beyond =>
  obtain ⟨low,-⟩ := byte_low e.validbits (by omega) e.byte (byte_bits e)
  have pos : 0 < 2 ^ (8-e.validbits) := Nat.two_pow_pos _
  have room := slots_room e (by omega)
  simp only [low]
  rw [if_neg (by omega),foldlM_map]
  refine congrArg (foldlM _ c) (congrArg (range' _) ?_)
  omega

theorem take_eq_iff {l val : List UInt8} {n : Nat} (left : n ≤ l.length) (right : n ≤ val.length) :
    (∀ i < 8*n, prefixBit l i = prefixBit val i) ↔ l.take n = val.take n := by
  rw [← bytes_eq_iff]
  constructor
  · intro eq
    refine ext_getElem (by simp; omega) fun i fst snd => ?_
    have hl : i < n := by
      rw [length_take] at fst
      omega
    have hh := eq i hl
    simpa [getD_eq_getElem?_getD,getElem?_eq_getElem (hl.trans_le left),
      getElem?_eq_getElem (hl.trans_le right)] using hh
  · intro eq i hl
    have hh := congrArg (·[i]?) eq
    simp only [getElem?_take,if_pos hl] at hh
    rw [getD_eq_getElem?_getD,getD_eq_getElem?_getD,hh]

theorem range_iff {byte b q : Nat} (pos : 0 < q) (ha : byte % q = 0) :
    byte ≤ b ∧ b < byte+q ↔ b/q = byte/q := by
  obtain ⟨m,rfl⟩ := Nat.dvd_of_mod_eq_zero ha
  rw [Nat.mul_div_cancel_left m pos,Nat.div_eq_iff pos,mul_comm m q]
  omega

theorem bits_iff (e : Entry family) (hs : e.validbits ≤ 8) {l : List UInt8}
    (len : l.length = e.depth+1) :
    (∀ i < e.network.prefixlen, prefixBit l i = prefixBit e.network.val i) ↔
      l.take e.depth = e.table ∧
        ∀ j < e.validbits, byteBit (l.getD e.depth 0) j = byteBit e.byte j := by
  have hi := depth_lt_length e
  obtain ⟨-,-,hm⟩ := depth_spec e
  have bit (v : List UInt8) (j : Nat) (byte : j < 8) :
      prefixBit v (8*e.depth+j) = byteBit (v.getD e.depth 0) j := by
    unfold prefixBit
    rw [show (8*e.depth+j) / 8 = e.depth by omega,show (8*e.depth+j) % 8 = j by omega]
  rw [table,← take_eq_iff (by omega) hi.le]
  unfold validbits at *
  constructor
  · intro eq
    refine ⟨fun i hl => eq i (by omega),fun j hl => ?_⟩
    have hh := eq (8*e.depth+j) (by omega)
    rwa [bit _ _ (by omega),bit _ _ (by omega)] at hh
  rintro ⟨bytes,bits⟩ i hl
  by_cases hb : i < 8*e.depth
  · exact bytes i hb
  have hh := bits (i-8*e.depth) (by omega)
  rwa [byte,← bit _ _ (by omega),← bit _ _ (by omega),Nat.add_sub_cancel' (by omega)]
    at hh

theorem mem_slots (e : Entry family) (s : Slot) : s ∈ e.slots ↔ inSlot s e := by
  have hi := depth_lt_length e
  obtain ⟨hbo,last,hm⟩ := depth_spec e
  rw [inSlot_iff]
  unfold slots
  by_cases hb : 8 < e.validbits
  · have hl := (validbits_lt e).mp hb
    have depth : e.depth + 1 = family.trieDepth := by omega
    have path : e.table ++ [e.byte] = e.network.val.take (e.depth+1) := take_succ_getD _ _ hi
    rw [if_pos hb,mem_singleton,path,min_eq_right hl.le,← depth,decide_eq_true
      (depth ▸ hl),Prod.ext_iff,and_comm]
    refine and_congr_right fun _ => ⟨fun eq => ?_,fun ⟨len,bits⟩ => ?_⟩
    · have len : s.1.length = e.depth+1 := by
        simp only [eq,length_take]
        omega
      refine ⟨len,(take_eq_iff len.ge hi).mpr ?_⟩
      rw [take_of_length_le len.le]
      exact eq
    · have := (take_eq_iff len.ge hi).mp bits
      rwa [take_of_length_le len.le] at this
  · have hs : e.validbits ≤ 8 := by omega
    have hf := mt (validbits_lt e).mpr hb
    obtain ⟨-,ha⟩ := byte_low e.validbits (by omega) e.byte (byte_bits e)
    have pos : 0 < 2 ^ (8-e.validbits) := Nat.two_pow_pos _
    rw [if_neg hb,decide_eq_false hf,min_eq_left (by omega),List.mem_map]
    constructor
    · rintro ⟨bwalk,mem,rfl⟩
      have len : (e.table ++ [UInt8.ofNat bwalk]).length = e.depth+1 := by
        simp [length_table]
      have table : (e.table ++ [UInt8.ofNat bwalk]).take e.depth = e.table :=
        take_left' (length_table e)
      have byte : (e.table ++ [UInt8.ofNat bwalk]).getD e.depth 0 = UInt8.ofNat bwalk := by
        simp [getD_eq_getElem?_getD,length_table]
      have range := mem_range'_1.mp mem
      have room := slots_room e hs
      refine ⟨rfl,len,(bits_iff e hs len).mpr ⟨table,?_⟩⟩
      rw [byte,byte_high _ hs,← range_iff pos ha,UInt8.toNat_ofNat_of_lt' (range.2.trans_le room)]
      exact range
    · rintro ⟨side,len,bits⟩
      obtain ⟨table,byte⟩ := (bits_iff e hs len).mp bits
      rw [byte_high _ hs,← range_iff pos ha] at byte
      refine ⟨(s.1.getD e.depth 0).toNat,mem_range'_1.mpr byte,Prod.ext ?_ side.symm⟩
      rw [UInt8.ofNat_toNat,← table,take_succ_getD _ _ (by omega)]
      exact take_of_length_le len.le

end

section

variable {t : Trie family} {S : List (Entry family)} {e : Entry family}

/-- The tables and chains of a trie with the entries `S`, in order. -/
structure Trie.Sound (t : Trie family) (S : List (Entry family)) : Prop where
  root : t.tables [] = true
  closed : ∀ x b, t.tables (x ++ [b]) = true → t.tables x = true
  sorted : S.Pairwise fun a b => before a b = true
  linked : ∀ s : Slot, t.tables s.1.dropLast = true → t.chains.Linked inSlot s S
  present : ∀ s, ∀ e ∈ S, inSlot s e = true → t.tables s.1.dropLast = true

theorem Trie.Sound.empty : (Trie.empty : Trie family).Sound [] where
  root := by simp [Trie.empty]
  closed x b := by simp [Trie.empty]
  sorted := List.Pairwise.nil
  linked _ _ := rfl
  present _ _ hm := absurd hm not_mem_nil

theorem ne_nil_of_inSlot {s : Slot} (hi : inSlot s e) : s.1 ≠ [] := by
  rintro he
  simpa [he] using (inSlot_iff.mp hi).2.1

theorem Trie.Sound.tables_take (hs : t.Sound S) {x : List UInt8} (hh : t.tables x)
    (n : Nat) : t.tables (x.take n) := by
  induction x using reverseRecOn with
  | nil => simpa using hh
  | append_singleton x b ih =>
    by_cases hsh : n ≤ x.length
    · rw [take_append_of_le_length hsh]
      exact ih (hs.closed x b hh)
    · rwa [take_of_length_le (by simp; omega)]

theorem Trie.Sound.calloc (hs : t.Sound S) {x : List UInt8} {b : UInt8}
    (par : t.tables x) (new : t.tables (x ++ [b]) = false) :
    (t.calloc (x ++ [b])).Sound S where
  root := by simp [Trie.calloc,hs.root]
  closed y c := by
    simp only [Trie.calloc,update_apply]
    split
    · next same =>
      obtain ⟨rfl,-⟩ := append_inj' same rfl
      simp [par]
    intro hh
    split
    · rfl
    · exact hs.closed y c hh
  sorted := hs.sorted
  linked s hh := by
    simp only [Trie.calloc,update_apply] at hh
    unfold Chains.Linked Trie.calloc
    simp only
    split at hh
    · next same =>
      have none : chain inSlot s S = [] := by
        refine filter_eq_nil_iff.mpr fun e mem hi => ?_
        have := hs.present s e mem hi
        rw [same,new] at this
        exact Bool.false_ne_true this
      have some : s.1 ≠ [] := by
        intro he
        simp [he] at same
      rw [if_pos ⟨some,same⟩,none]
      rfl
    · next other =>
      rw [if_neg fun hb => other hb.2]
      exact hs.linked s hh
  present s e mem hi := by
    simp only [Trie.calloc,update_apply]
    split
    · rfl
    · exact hs.present s e mem hi

theorem Trie.Sound.descendAdding (hs : t.Sound S) {levels j : Nat} (hh : j ≤ e.depth)
    (left : levels + j + 1 = family.trieDepth) (par : t.tables (e.network.val.take j)) :
    ∃ t', Trie.descendAdding e.network.val levels (e.network.val.take j)
        (e.network.prefixlen-8*j) t = (t',e.table,e.validbits) ∧
      t'.Sound S ∧ t'.tables e.table ∧ t'.chains.next = t.chains.next := by
  have hi := depth_lt_length e
  induction levels generalizing j t with
  | zero =>
    have last := depth_step e hh left
    simp only [ne_eq,not_true_eq_false,false_and,if_false] at last
    subst last
    exact ⟨t,rfl,hs,par,rfl⟩
  | succ levels ih =>
    have step := depth_step e hh left
    unfold Trie.descendAdding
    by_cases hl : 8 < e.network.prefixlen-8*j
    · rw [if_pos ⟨levels.succ_ne_zero,hl⟩] at step
      have len : (e.network.val.take j).length = j := by
        rw [length_take]
        omega
      have path := take_succ_getD e.network.val j (by omega)
      simp only [if_pos hl,len,path]
      rw [Nat.sub_sub,← Nat.mul_succ]
      by_cases old : t.tables (e.network.val.take (j+1))
      · rw [if_pos old]
        exact ih hs step (by omega) old
      rw [if_neg old]
      have hm := hs.calloc (b := e.network.val.getD j 0) par (by rw [path]; simpa using old)
      rw [path] at hm
      exact ih hm step (by omega) (by simp [Trie.calloc])
    · rw [if_neg (fun hb => hl hb.2)] at step
      subst step
      rw [if_neg hl]
      exact ⟨t,rfl,hs,par,rfl⟩

theorem place_of {A B : List (Entry family)} (hs : (A ++ B).Pairwise fun a b => before a b)
    (left : ∀ a ∈ A, before a e) (right : ∀ b ∈ B, before e b) :
    Place before inSlot A e B where
  irrefl := before_irrefl
  left a hm := ⟨left a hm,before_asymm (left a hm)⟩
  right := right
  across := (pairwise_append.mp hs).2.2
  sorted := (pairwise_append.mp hs).1
  meet := inSlot_meet

theorem dropLast_of_mem_slots {s : Slot} (mem : s ∈ e.slots) : s.1.dropLast = e.table := by
  unfold slots at mem
  split at mem
  · rw [mem_singleton] at mem
    simp [mem]
  obtain ⟨b,-,rfl⟩ := List.mem_map.mp mem
  simp

theorem Trie.Sound.add (hs : t.Sound S) (hf : ∀ a ∈ S, a.seq ≠ e.seq)
    (ptr : t.chains.next e = none) {fuel : Nat} (he : S.length + 1 < fuel) :
    ∃ t' S', t.add fuel e = some t' ∧ t'.Sound S' ∧ S'.Perm (e :: S) := by
  have levels : family.trieDepth - 1 + 0 + 1 = family.trieDepth :=
    Nat.sub_add_cancel (trieDepth_pos family)
  obtain ⟨t₁,hd,sound₁,table,next⟩ := hs.descendAdding (e := e) (Nat.zero_le _) levels
    (by simpa using hs.root)
  obtain ⟨A,B,rfl,left,right⟩ := exists_place hs.sorted hf
  have place := place_of hs.sorted left right
  have hin : Inserting (fun s : Slot => t₁.tables s.1.dropLast) inSlot A e B t₁.chains :=
    ⟨fun s live => .inl (sound₁.linked s live),.inl (by rw [next,ptr])⟩
  obtain ⟨c',hins,hin,hl⟩ := place.install_all he e.slots t₁.chains hin
    fun s mem => ⟨by rwa [dropLast_of_mem_slots mem],(mem_slots e s).mp mem⟩
  refine ⟨{t₁ with chains := c'},A ++ e :: B,?_,?_,perm_middle⟩
  · unfold Trie.add
    simp only [take_zero,Nat.mul_zero,Nat.sub_zero] at hd
    simp only [hd,length_table]
    have := trieWalkAffected_eq e (trieInstallFn fuel e) t₁.chains
    unfold byte at this
    rw [this]
    unfold trieInstallFn
    rw [hins,map_some]
  · refine ⟨sound₁.root,sound₁.closed,?_,fun s live => ?_,fun s a mem hi => ?_⟩
    · obtain ⟨hb,haf,ha⟩ := pairwise_append.mp hs.sorted
      refine pairwise_append.mpr ⟨hb,pairwise_cons.mpr ⟨right,haf⟩,?_⟩
      intro a mem b ho
      rcases mem_cons.mp ho with rfl | ho
      · exact left a mem
      · exact ha a mem b ho
    · refine hl s live ?_
      by_cases hi : inSlot s e
      · exact .inl ((mem_slots e s).mpr hi)
      · exact .inr ((linked_of_not_mem (by simpa using hi)).mpr (sound₁.linked s live))
    · rcases mem_cons.mp (perm_middle.mem_iff.mp mem) with rfl | old
      · rwa [dropLast_of_mem_slots ((mem_slots a s).mpr hi)]
      · exact sound₁.present s a old hi

theorem inSlot_of_bits {val : List UInt8}
    (bits : ∀ i < e.network.prefixlen, prefixBit val i = prefixBit e.network.val i)
    (hi : e.depth < val.length) :
    inSlot (val.take (e.depth+1),decide (8*family.trieDepth < e.network.prefixlen)) e := by
  obtain ⟨-,last,-⟩ := depth_spec e
  refine inSlot_iff.mpr ⟨rfl,by simp; omega,fun i hl => ?_⟩
  rw [← bits i (by omega)]
  unfold prefixBit
  rw [getD_eq_getElem?_getD,getElem?_take,if_pos (by omega),← getD_eq_getElem?_getD]

theorem Trie.Sound.tables_of_bits (hs : t.Sound S) (mem : e ∈ S) {val : List UInt8}
    (bits : ∀ i < e.network.prefixlen, prefixBit val i = prefixBit e.network.val i)
    (hi : e.depth < val.length) {i : Nat} (le : i ≤ e.depth) :
    t.tables (val.take i) := by
  have hh := hs.present _ e mem (inSlot_of_bits bits hi)
  simp only [← take_succ_getD val e.depth hi,dropLast_concat] at hh
  have := hs.tables_take hh i
  rwa [take_take,min_eq_left le] at this

theorem Trie.Sound.setChains {A B : List (Entry family)} (hs : t.Sound (A ++ e :: B))
    {c : Chains (Entry family) Slot}
    (hl : ∀ s : Slot, t.tables s.1.dropLast → c.Linked inSlot s (A ++ B)) :
    Trie.Sound {t with chains := c} (A ++ B) where
  __ := hs
  sorted := hs.sorted.sublist (by simp)
  linked := hl
  present s a hm := hs.present s a (List.Sublist.mem hm (by simp))

theorem Trie.Sound.free (hs : t.Sound S) {x : List UInt8} (hb : x ≠ [])
    (he : t.tableEmpty x) : (t.free x).Sound S := by
  have slot (b : UInt8) : t.tables (x ++ [b]) = false ∧ t.chains.head (x ++ [b],true) = none ∧
      t.chains.head (x ++ [b],false) = none := by
    have hh := all_eq_true.mp he b.toNat (mem_range.mpr b.toNat_lt)
    simpa [and_assoc] using hh
  refine ⟨?_,fun y b => ?_,hs.sorted,fun s hh => ?_,fun s e mem hi => ?_⟩
  · simp [Trie.free,hb.symm,hs.root]
  · simp only [Trie.free,update_apply]
    split
    · simp
    intro hh
    rw [if_neg]
    · exact hs.closed y b hh
    rintro rfl
    rw [(slot b).1] at hh
    exact Bool.false_ne_true hh
  · refine hs.linked s ?_
    simp only [Trie.free,update_apply] at hh
    split at hh
    · exact absurd hh Bool.false_ne_true
    · exact hh
  · have hh := hs.present s e mem hi
    simp only [Trie.free,update_apply]
    rw [if_neg]
    · exact hh
    rintro rfl
    have split := dropLast_append_getLast (ne_nil_of_inSlot hi)
    have none : t.chains.head s = none := by
      obtain ⟨-,hf,up⟩ := slot (s.1.getLast (ne_nil_of_inSlot hi))
      rw [split] at hf up
      obtain ⟨path,side⟩ := s
      cases side <;> assumption
    have hl := hs.linked s hh
    have fst := Segment.head hl
    rw [none] at fst
    have : e ∈ chain inSlot s S := mem_filter.mpr ⟨mem,hi⟩
    rw [head?_eq_none_iff.mp fst.symm] at this
    exact not_mem_nil this

theorem Trie.Sound.freeEmpty (hs : t.Sound S) {path : List UInt8} {depth : Nat}
    (hi : depth ≤ path.length) : (Trie.freeEmpty path depth t).Sound S := by
  induction depth generalizing t with
  | zero => exact hs
  | succ depth ih =>
    unfold Trie.freeEmpty
    refine ih ?_ (by omega)
    split
    · next empty =>
      refine hs.free (fun none => ?_) empty
      rcases take_eq_nil_iff.mp none with zero | root
      · exact depth.succ_ne_zero zero
      · simp [root] at hi
    · exact hs

theorem Trie.Sound.del (hs : t.Sound S) (mem : e ∈ S) {fuel : Nat}
    (he : S.length < fuel) : ∃ t', t.del fuel e = some t' ∧ t'.Sound (S.erase e) := by
  have hi := depth_lt_length e
  have levels : family.trieDepth - 1 + 0 + 1 = family.trieDepth :=
    Nat.sub_add_cancel (trieDepth_pos family)
  have tables : ∀ i ≤ e.depth, t.tables (e.network.val.take i) := fun i le =>
    hs.tables_of_bits mem (fun _ _ => rfl) hi le
  have hd := (descend_iff (Nat.zero_le _) levels).mpr ⟨fun i le _ => tables i le,rfl⟩
  obtain ⟨A,B,-,rfl,erased⟩ := exists_erase_eq mem
  obtain ⟨-,haf,ha⟩ := pairwise_append.mp hs.sorted
  have place : Place before inSlot A e B := place_of (hs.sorted.sublist (by simp))
    (fun a mem => ha a mem e (.head _)) (pairwise_cons.mp haf).1
  have live (s : Slot) (hi : inSlot s e) : t.tables s.1.dropLast :=
    hs.present s e mem hi
  have hr : Removing (fun s : Slot => t.tables s.1.dropLast) inSlot A e B t.chains :=
    ⟨fun s hh => .inr (hs.linked s hh),fun s hi =>
      ((linked_with hi).mp (hs.linked s (live s hi))).2⟩
  obtain ⟨c',hre,-,hl⟩ := place.uninstall_all (by simp at he ⊢; omega) e.slots t.chains
    hr fun s mem => ⟨live s ((mem_slots e s).mp mem),(mem_slots e s).mp mem⟩
  have hc : Trie.Sound {t with chains := c'} (A ++ B) := hs.setChains fun s hh => by
    refine hl s hh ?_
    by_cases hi : inSlot s e
    · exact .inl ((mem_slots e s).mpr hi)
    · exact .inr ((linked_of_not_mem (by simpa using hi)).mp (hs.linked s hh))
  refine ⟨Trie.freeEmpty e.table e.table.length {t with chains := c'},?_,?_⟩
  · unfold Trie.del
    simp only [take_zero,Nat.mul_zero,Nat.sub_zero] at hd
    simp only [hd,bind_some,length_table]
    have := trieWalkAffected_eq e (trieUninstallFn fuel e) t.chains
    unfold byte at this
    rw [this]
    unfold trieUninstallFn
    rw [hre,map_some]
  · rw [erased]
    exact hc.freeEmpty le_rfl

end

end Frr.PrefixList
