import Mathlib.Data.List.Infix
import Mathlib.Data.List.Nodup

/-! Path-compressed binary trees over keys that stand for strings of bits. Every node has a key,
also one that only joins two others. -/
namespace Frr.RadixTree

open List

/-- Keys stand for strings of bits. Nothing is asked of `common` where the first key is a beginning
of the second. -/
class Key (K : Type) where
  bits : K → List Bool
  length : K → Nat
  bit : K → Nat → Bool
  covers : K → K → Bool
  common : K → K → K
  bits_injective : Function.Injective bits
  length_eq (k : K) : length k = (bits k).length
  bit_eq (k : K) (i : Nat) : i < length k → (bits k)[i]? = some (bit k i)
  covers_iff (k p : K) : covers k p = true ↔ bits k <+: bits p
  common_left (k p : K) : ¬ bits k <+: bits p → bits (common k p) <+: bits k
  common_right (k p : K) : ¬ bits k <+: bits p → bits (common k p) <+: bits p
  common_apart (k p : K) : ¬ bits k <+: bits p → length (common k p) ≠ length p →
    bit k (length (common k p)) ≠ bit p (length (common k p))

inductive Tree (K V : Type) where
  | nil
  | node (key : K) (value : V) (left right : Tree K V)
  deriving DecidableEq

namespace Tree

variable {K V : Type}

def toList : Tree K V → List (K × V)
  | nil => []
  | node k v l r => (k,v) :: (l.toList ++ r.toList)

def keys (t : Tree K V) : List K := t.toList.map Prod.fst

@[simp] theorem toList_nil : (nil : Tree K V).toList = [] := rfl
@[simp] theorem toList_node (k : K) (v : V) (l r : Tree K V) :
    (node k v l r).toList = (k,v) :: (l.toList ++ r.toList) := rfl
@[simp] theorem keys_nil : (nil : Tree K V).keys = [] := rfl
@[simp] theorem keys_node (k : K) (v : V) (l r : Tree K V) :
    (node k v l r).keys = k :: (l.keys ++ r.keys) := by
  simp [keys]

def root? : Tree K V → Option K
  | nil => none
  | node k _ _ _ => some k

theorem mem_keys {t : Tree K V} (mem : (k,v) ∈ t.toList) : k ∈ t.keys := mem_map_of_mem mem

theorem nodup_node {k : K} {v : V} {l r : Tree K V} :
    (node k v l r).keys.Nodup ↔
      k ∉ l.keys ∧ k ∉ r.keys ∧ l.keys.Nodup ∧ r.keys.Nodup ∧ l.keys.Disjoint r.keys := by
  rw [keys_node,nodup_cons,mem_append,not_or,nodup_append']
  tauto

/-- A node with `t` on the side `b` and `other` on the other one. -/
def fork (c : K) (v : V) (b : Bool) (t other : Tree K V) : Tree K V :=
  if b then node c v other t else node c v t other

theorem mem_fork {t t' : Tree K V} {kv : K × V} :
    kv ∈ (fork c w b t t').toList ↔ kv = (c,w) ∨ kv ∈ t.toList ∨ kv ∈ t'.toList := by
  cases b <;> simp [fork,or_comm]

theorem nodup_fork {t t' : Tree K V} (nodup : (fork c w b t t').keys.Nodup) :
    c ∉ t.keys ∧ c ∉ t'.keys ∧ t.keys.Disjoint t'.keys := by
  cases b
  · obtain ⟨left,right,-,-,ha⟩ := nodup_node.mp nodup
    exact ⟨left,right,ha⟩
  obtain ⟨left,right,-,-,ha⟩ := nodup_node.mp nodup
  exact ⟨right,left,fun _ snd fst => ha fst snd⟩

theorem root?_eq_head? (t : Tree K V) : t.root? = t.keys.head? := by
  cases t <;> simp [root?]

theorem split_unique {t : Tree K V} (nodup : t.keys.Nodup) (fst : t.toList = a ++ (p,v) :: b)
    (snd : t.toList = a' ++ (p,v') :: b') : a = a' ∧ v = v' ∧ b = b' := by
  have ho : p ∉ a.map Prod.fst ∧ p ∉ b.map Prod.fst := by
    rw [keys,fst,map_append,map_cons,nodup_middle,nodup_cons,mem_append,not_or] at nodup
    exact nodup.1
  have eq := (append_cons_inj_of_notMem (fun mem => ho.1 (mem_map_of_mem mem))
    fun mem => ho.2 (mem_map_of_mem mem)).mp (fst.symm.trans snd)
  exact ⟨eq.1,congrArg Prod.snd eq.2.1,eq.2.2⟩

/-! ### Writing to a node -/

section

variable [DecidableEq K] (p : K) (f : V → V)

def adjust : Tree K V → Tree K V
  | nil => nil
  | node k v l r => node k (if k = p then f v else v) (adjust l) (adjust r)

theorem toList_adjust (t : Tree K V) :
    (t.adjust p f).toList = t.toList.map fun (k,v) => (k,if k = p then f v else v) := by
  induction t with
  | nil => rfl
  | node k v l r left right => simp [adjust,left,right]

@[simp] theorem keys_adjust (t : Tree K V) : (t.adjust p f).keys = t.keys := by
  simp [keys,toList_adjust,Function.comp_def]

end

/-! ### The order of the keys -/

section

variable [Key K]
open Key

/-- All keys go on from `path`. -/
def Within (path : List Bool) (t : Tree K V) : Prop := ∀ k ∈ t.keys, path <+: bits k

inductive Ordered : Tree K V → Prop
  | nil : Ordered nil
  | node : Within (bits k ++ [false]) l → Within (bits k ++ [true]) r → Ordered l → Ordered r →
      Ordered (node k v l r)

theorem Within.mono {t : Tree K V} (h : Within path t) (hs : path' <+: path) :
    Within path' t :=
  fun k mem => hs.trans (h k mem)

theorem within_nil (path : List Bool) : Within path (nil : Tree K V) := nofun

theorem within_node {l r : Tree K V} (k : K) (v : V) (path : List Bool) (root : path <+: bits k)
    (left : Within path l) (right : Within path r) : Within path (node k v l r) := by
  intro ho mem
  rw [keys_node,mem_cons,mem_append] at mem
  rcases mem with rfl | mem | mem
  · exact root
  · exact left _ mem
  · exact right _ mem

theorem Ordered.within {k : K} {v : V} (h : Ordered (Tree.node k v l r)) :
    Within (bits k) (Tree.node k v l r) := by
  cases h with
  | node left right =>
    exact within_node k v _ (prefix_refl _) (left.mono (prefix_append ..))
      (right.mono (prefix_append ..))

theorem forks_apart {path other : List Bool} (zero : path ++ [false] <+: other)
    (one : path ++ [true] <+: other) : False := by
  have hs := prefix_of_prefix_length_le zero one (by simp)
  have eq := hs.eq_of_length (by simp)
  simp at eq

theorem Ordered.nodup {t : Tree K V} (h : Ordered t) : t.keys.Nodup := by
  induction h with
  | nil => exact nodup_nil
  | @node k l r v left right _ _ ihl ihr =>
    have hb : ∀ b, ¬ bits k ++ [b] <+: bits k := fun b hl => by
      have := hl.length_le
      simp only [length_append,length_singleton] at this
      omega
    rw [keys_node,nodup_cons,mem_append]
    refine ⟨fun mem => ?_,ihl.append ihr fun ho zero one => ?_⟩
    · rcases mem with mem | mem
      · exact hb _ (left k mem)
      · exact hb _ (right k mem)
    · exact forks_apart (left ho zero) (right ho one)

theorem within_adjust [DecidableEq K] {t : Tree K V} (h : Within path t) (p : K) (f : V → V) :
    Within path (t.adjust p f) := by
  rw [Within,keys_adjust]
  exact h

theorem Ordered.adjust [DecidableEq K] {t : Tree K V} (h : Ordered t) (p : K) (f : V → V) :
    Ordered (t.adjust p f) := by
  induction h with
  | nil => exact .nil
  | node left right _ _ ihl ihr =>
    exact .node (within_adjust left p f) (within_adjust right p f) ihl ihr

end

/-! ### Finding or making a node -/

section

variable [Key K]
open Key

/-- `new` becomes the child of the root of `t` on the side its key goes on. -/
def setLink (t new : Tree K V) : Tree K V :=
  match t,new with
  | node k v l r,node p _ _ _ => if bit p (length k) then node k v l new else node k v new r
  | t,_ => t

variable (p : K) (fresh : V) (f : V → V)

/-- `f` is applied at the node with key `p`, made where there is none, with a node that joins it to
another where needed. The keys of the new nodes are returned. -/
def enter : Tree K V → Tree K V × List K
  | nil => (node p (f fresh) nil nil,[p])
  | node k v l r =>
    if length k ≤ length p ∧ covers k p then
      if length k = length p then (node k (f v) l r,[])
      else if bit p (length k) then
        let (r,new) := enter r
        (node k v l r,new)
      else
        let (l,new) := enter l
        (node k v l r,new)
    else
      let c := common k p
      if length c = length p then (setLink (node c (f fresh) nil nil) (node k v l r),[c])
      else
        let join := setLink (node c fresh nil nil) (node k v l r)
        (setLink join (node p (f fresh) nil nil),[c,p])

theorem append_bit_prefix (k p : K) (hc : bits k <+: bits p) (hl : length k < length p) :
    bits k ++ [bit p (length k)] <+: bits p := by
  obtain ⟨rest,split⟩ := hc
  have hh := bit_eq p (length k) hl
  rw [← split,length_eq,getElem?_append_right le_rfl,Nat.sub_self] at hh
  cases rest with
  | nil => contradiction
  | cons fst rest =>
    have eq : fst = bit p (bits k).length := by simpa using hh
    rw [← split,length_eq,eq]
    exact ⟨rest,by simp⟩

theorem eq_of_covers (k p : K) (hc : bits k <+: bits p) (eq : length k = length p) : k = p := by
  refine bits_injective (hc.eq_of_length ?_)
  rw [← length_eq,← length_eq,eq]

theorem common_less (k p : K) (ha : ¬ bits k <+: bits p) : length (common k p) < length k := by
  have hs := (common_left k p ha).length_le
  rw [← length_eq,← length_eq] at hs
  refine lt_of_le_of_ne hs fun eq => ha ?_
  rw [← eq_of_covers _ _ (common_left k p ha) eq]
  exact common_right k p ha

theorem setLink_single (c k : K) (w v : V) (l r : Tree K V) :
    setLink (node c w nil nil) (node k v l r) =
      fork c w (bit k (length c)) (node k v l r) nil := rfl

theorem setLink_fork (c p : K) (w v : V) (l r t : Tree K V) (side : bit p (length c) = !b) :
    setLink (fork c w b t nil) (node p v l r) = fork c w b t (node p v l r) := by
  cases b <;> simp [fork,setLink,side]

/-- How a tree changes when `p` is looked for and made, with where the keys are. -/
inductive Entered : Tree K V → Tree K V → List K → Prop
  | leaf : Entered nil (node p (f fresh) nil nil) [p]
  | here : Entered (node p v l r) (node p (f v) l r) []
  | left : bits k ++ [false] <+: bits p → Entered l l' new →
      Entered (node k v l r) (node k v l' r) new
  | right : bits k ++ [true] <+: bits p → Entered r r' new →
      Entered (node k v l r) (node k v l r') new
  | above : bits p ++ [b] <+: bits k →
      Entered (node k v l r) (fork p (f fresh) b (node k v l r) nil) [p]
  | beside : bits c ++ [b] <+: bits k → bits c ++ [!b] <+: bits p →
      Entered (node k v l r) (fork c fresh b (node k v l r) (node p (f fresh) nil nil)) [c,p]

theorem enter_entered (t : Tree K V) :
    Entered p fresh f t (enter p fresh f t).1 (enter p fresh f t).2 := by
  induction t with
  | nil => exact .leaf
  | node k v l r left right =>
    rw [enter]
    split
    · next hc =>
      have hco := (covers_iff k p).mp hc.2
      split
      · next same =>
        cases eq_of_covers k p hco same
        exact .here
      next other =>
      have path := append_bit_prefix k p hco (lt_of_le_of_ne hc.1 other)
      split
      · next one =>
        rw [one] at path
        exact .right path right
      next zero =>
      rw [Bool.not_eq_true] at zero
      rw [zero] at path
      exact .left path left
    · next outside =>
      have ha : ¬ bits k <+: bits p := fun hc => by
        have hs := hc.length_le
        rw [← length_eq,← length_eq] at hs
        exact outside ⟨hs,(covers_iff k p).mpr hc⟩
      have hd := append_bit_prefix _ _ (common_left k p ha) (common_less k p ha)
      extract_lets c join
      split
      · next same =>
        have eq : c = p := eq_of_covers _ _ (common_right k p ha) same
        rw [setLink_single]
        simp only [c] at eq hd ⊢
        rw [eq] at hd ⊢
        exact .above hd
      · next other =>
        have hs := (common_right k p ha).length_le
        rw [← length_eq,← length_eq] at hs
        have hac := append_bit_prefix _ _ (common_right k p ha) (lt_of_le_of_ne hs other)
        have differ := common_apart k p ha other
        have flipped : bit p (length c) = !bit k (length c) := by
          revert differ
          cases bit p (length c) <;> cases bit k (length c) <;> simp
        simp only [join,setLink_single]
        rw [setLink_fork _ _ _ _ _ _ _ flipped]
        rw [flipped] at hac
        exact .beside hd hac

theorem within_fork {t other : Tree K V} (c : K) (v : V) (b : Bool) (root : path <+: bits c)
    (fst : Within path t) (snd : Within path other) : Within path (fork c v b t other) := by
  cases b
  · exact within_node c v path root fst snd
  · exact within_node c v path root snd fst

theorem ordered_fork {t other : Tree K V} (c : K) (v : V) (b : Bool)
    (fst : Within (bits c ++ [b]) t) (snd : Within (bits c ++ [!b]) other) (ho : Ordered t)
    (also : Ordered other) : Ordered (fork c v b t other) := by
  cases b
  · exact .node fst snd ho also
  · exact .node snd fst also ho

theorem within_single (p : K) (v : V) (path : List Bool) (root : path <+: bits p) :
    Within path (node p v nil nil) :=
  within_node p v path root (within_nil _) (within_nil _)

theorem ordered_single (p : K) (v : V) : Ordered (node p v nil nil) :=
  .node (within_nil _) (within_nil _) .nil .nil

theorem prefix_fork {path a x y : List Bool} (fst : path <+: x) (snd : path <+: y)
    (left : a ++ [b] <+: x) (right : a ++ [!b] <+: y) : path <+: a := by
  rcases lt_or_ge a.length path.length with hl | hs
  · have ha : a ++ [b] <+: path :=
      prefix_of_prefix_length_le left fst (by rw [length_append]; exact hl)
    have hb := ha.trans snd
    cases b
    · exact (forks_apart hb right).elim
    · exact (forks_apart right hb).elim
  · exact prefix_of_prefix_length_le fst ((prefix_append a [b]).trans left) hs

variable {p fresh f} {t t' : Tree K V}

theorem Entered.within (h : Entered p fresh f t t' new) (hi : Within path t)
    (root : path <+: bits p) : Within path t' := by
  induction h with
  | leaf => exact within_single p _ path root
  | here => simpa [Within] using hi
  | @left k l l' new v r _ _ ih =>
    rw [Within,keys_node,forall_mem_cons,forall_mem_append] at hi
    exact within_node k v path hi.1 (ih hi.2.1) hi.2.2
  | @right k r r' new v l _ _ ih =>
    rw [Within,keys_node,forall_mem_cons,forall_mem_append] at hi
    exact within_node k v path hi.1 hi.2.1 (ih hi.2.2)
  | above => exact within_fork _ _ _ root hi (within_nil _)
  | @beside c b k v l r hd ha =>
    have top := hi k (by simp)
    exact within_fork _ _ _ (prefix_fork top root hd ha) hi (within_single p _ path root)

theorem Entered.ordered (h : Entered p fresh f t t' new) (ho : Ordered t) : Ordered t' := by
  induction h with
  | leaf => exact ordered_single p _
  | here =>
    cases ho with
    | node left right l r => exact .node left right l r
  | left path he ih =>
    cases ho with
    | node left right l r => exact .node (he.within left path) right (ih l) r
  | right path he ih =>
    cases ho with
    | node left right l r => exact .node left (he.within right path) l (ih r)
  | above hd => exact ordered_fork _ _ _ (ho.within.mono hd) (within_nil _) ho .nil
  | beside hd ha =>
    exact ordered_fork _ _ _ (ho.within.mono hd) (within_single p _ _ ha) ho (ordered_single p _)

theorem Entered.keys (h : Entered p fresh f t t' new) : t'.keys.Perm (new ++ t.keys) := by
  induction h with
  | leaf => exact .refl _
  | here => exact .of_eq (by simp)
  | @left k l l' new v r _ _ ih =>
    have inner := (ih.append_right r.keys).cons k
    rw [append_assoc] at inner
    simpa [keys_node] using inner.trans perm_middle.symm
  | @right k r r' new v l _ _ ih =>
    have inner := ((ih.append_left l.keys).trans (perm_append_comm_assoc ..)).cons k
    simpa [keys_node] using inner.trans perm_middle.symm
  | @above b k v l r _ => cases b <;> simp [fork]
  | @beside c b k v l r _ _ =>
    cases b
    · have swapped := (@List.perm_append_comm _ (node k v l r).keys [p]).cons c
      simpa [fork] using swapped
    · simp [fork]

theorem Entered.entered (h : Entered p fresh f t t' new) : p ∈ t'.keys := by
  induction h with
  | leaf => simp
  | here => simp
  | left _ _ ih => simp [ih]
  | right _ _ ih => simp [ih]
  | @above b k v l r _ => cases b <;> simp [fork]
  | @beside c b k v l r _ _ => cases b <;> simp [fork]

/-- If no two keys are the same: old nodes, the one that was looked for, and new ones. -/
theorem Entered.mem (h : Entered p fresh f t t' new) (nodup : t'.keys.Nodup)
    (mem : (k,v) ∈ t'.toList) :
    k ≠ p ∧ (k,v) ∈ t.toList ∨ k = p ∧ (∃ w, (p,w) ∈ t.toList ∧ v = f w) ∨
      k ∈ new ∧ (k = p ∧ v = f fresh ∨ k ≠ p ∧ v = fresh) := by
  induction h with
  | leaf =>
    obtain ⟨rfl,rfl⟩ : k = p ∧ v = f fresh := by simpa using mem
    exact .inr (.inr ⟨mem_singleton_self _,.inl ⟨rfl,rfl⟩⟩)
  | @here w l r =>
    obtain ⟨left,right,-⟩ := nodup_node.mp nodup
    rw [toList_node,mem_cons,mem_append] at mem
    rcases mem with root | hb
    · obtain ⟨rfl,rfl⟩ := Prod.mk.inj root
      exact .inr (.inl ⟨rfl,w,by simp,rfl⟩)
    refine .inl ⟨?_,by simp [hb]⟩
    rintro rfl
    exact hb.elim (fun mem => left (mem_keys mem)) fun mem => right (mem_keys mem)
  | @left k' l l' new w r _ he ih =>
    obtain ⟨left,right,inner,-,ha⟩ := nodup_node.mp nodup
    rw [toList_node,mem_cons,mem_append] at mem
    rcases mem with root | mem | mem
    · obtain ⟨rfl,rfl⟩ := Prod.mk.inj root
      exact .inl ⟨fun eq => left (eq ▸ he.entered),by simp⟩
    · rcases ih inner mem with ⟨ho,old⟩ | ⟨eq,w,old,val⟩ | hm
      · exact .inl ⟨ho,by simp [old]⟩
      · exact .inr (.inl ⟨eq,w,by simp [old],val⟩)
      · exact .inr (.inr hm)
    refine .inl ⟨fun eq => ?_,by simp [mem]⟩
    exact ha he.entered (eq ▸ mem_keys mem)
  | @right k' r r' new w l _ he ih =>
    obtain ⟨left,right,-,inner,ha⟩ := nodup_node.mp nodup
    rw [toList_node,mem_cons,mem_append] at mem
    rcases mem with root | mem | mem
    · obtain ⟨rfl,rfl⟩ := Prod.mk.inj root
      exact .inl ⟨fun eq => right (eq ▸ he.entered),by simp⟩
    · refine .inl ⟨fun eq => ?_,by simp [mem]⟩
      exact ha (eq ▸ mem_keys mem) he.entered
    rcases ih inner mem with ⟨ho,old⟩ | ⟨eq,w,old,val⟩ | hm
    · exact .inl ⟨ho,by simp [old]⟩
    · exact .inr (.inl ⟨eq,w,by simp [old],val⟩)
    · exact .inr (.inr hm)
  | above =>
    obtain ⟨fst,-⟩ := nodup_fork nodup
    rcases mem_fork.mp mem with root | old | none
    · obtain ⟨rfl,rfl⟩ := Prod.mk.inj root
      exact .inr (.inr ⟨mem_singleton_self _,.inl ⟨rfl,rfl⟩⟩)
    · exact .inl ⟨fun eq => fst (eq ▸ mem_keys old),old⟩
    · contradiction
  | beside =>
    obtain ⟨-,snd,ha⟩ := nodup_fork nodup
    rcases mem_fork.mp mem with root | old | leaf
    · obtain ⟨rfl,rfl⟩ := Prod.mk.inj root
      exact .inr (.inr ⟨by simp,.inr ⟨fun eq => snd (by simp [eq]),rfl⟩⟩)
    · exact .inl ⟨fun eq => ha (mem_keys old) (by simp [eq]),old⟩
    obtain ⟨rfl,rfl⟩ : k = p ∧ v = f fresh := by simpa using leaf
    exact .inr (.inr ⟨by simp,.inl ⟨rfl,rfl⟩⟩)

theorem Entered.filterMap (h : Entered p fresh f t t' new) (g : K × V → Option β)
    (none : ∀ k, g (k,fresh) = none) (eq : ∀ k v, g (k,f v) = g (k,v)) :
    t'.toList.filterMap g = t.toList.filterMap g := by
  induction h with
  | leaf => simp [eq,none]
  | here => simp [filterMap_cons,eq]
  | left _ _ ih => simp [filterMap_cons,ih]
  | right _ _ ih => simp [filterMap_cons,ih]
  | @above b k v l r _ => cases b <;> simp [fork,filterMap_cons,eq,none]
  | @beside c b k v l r _ _ => cases b <;> simp [fork,filterMap_cons,eq,none]

end

/-! ### Taking nodes out -/

section

/-- The keys of the nodes taken out, the values of those considered, and whether the root is one of
the former. -/
structure Removal (K V : Type) where
  tree : Tree K V
  gone : List K
  asked : List V
  up : Bool

def prune : Tree K V → Removal K V
  | nil => ⟨nil,[],[],false⟩
  | node k v nil r => ⟨r,[k],[v],true⟩
  | node k v l nil => ⟨l,[k],[v],true⟩
  | node k v l r => ⟨node k v l r,[],[v],false⟩

theorem prune_spec (k : K) (v : V) (l r : Tree K V) :
    (prune (node k v l r)).tree.toList =
      (if (prune (node k v l r)).up then [] else [(k,v)]) ++ (l.toList ++ r.toList) ∧
    (prune (node k v l r)).gone = (if (prune (node k v l r)).up then [k] else []) ∧
    (prune (node k v l r)).asked = [v] := by
  cases l <;> cases r <;> simp [prune]

variable (dead : V → Bool)

def climb (k : K) (v : V) (l r : Tree K V) (below : Removal K V) : Removal K V :=
  if below.up ∧ dead v then
    let top := prune (node k v l r)
    ⟨top.tree,below.gone ++ top.gone,below.asked ++ top.asked,top.up⟩
  else ⟨node k v l r,below.gone,below.asked,false⟩

theorem climb_spec (k : K) (v : V) (l r : Tree K V) (below : Removal K V) :
    ∃ up : Bool, (climb dead k v l r below).tree.toList =
        (if up then [] else [(k,v)]) ++ (l.toList ++ r.toList) ∧
      (climb dead k v l r below).gone = below.gone ++ (if up then [k] else []) ∧
      (up → dead v) ∧
      ∀ w ∈ (climb dead k v l r below).asked, w ∈ below.asked ∨ w = v ∧ dead v := by
  unfold climb
  split
  · next follows =>
    obtain ⟨tree,hg,ha⟩ := prune_spec k v l r
    refine ⟨(prune (node k v l r)).up,tree,by simp only [hg],fun _ => follows.2,fun w mem => ?_⟩
    simp only [ha,mem_append,mem_singleton] at mem
    exact mem.imp_right fun eq => ⟨eq,follows.2⟩
  · exact ⟨false,rfl,by simp,nofun,fun w mem => .inl mem⟩

variable [DecidableEq K] (p : K)

/-- The node with key `p` is taken out, unless it has two children, and its parents as long as they
are dead. -/
def remove : Tree K V → Removal K V
  | nil => ⟨nil,[],[],false⟩
  | node k v l r =>
    if k = p then prune (node k v l r)
    else if p ∈ l.keys then climb dead k v (remove l).tree r (remove l)
    else climb dead k v l (remove r).tree (remove r)

/-- The nodes after `p` stay, and of those before it only dead ones go. -/
structure Removed (t : Tree K V) (result : Removal K V) (v : V) (before after : List (K × V))
    (stay : List (K × V)) : Prop where
  split : t.toList = before ++ (p,v) :: after
  tree : result.tree.toList = stay ++ after
  fewer : List.Sublist stay (before ++ [(p,v)])
  dies : ∀ kv ∈ before, kv ∈ stay ∨ dead kv.2 = true
  asked : ∀ w ∈ result.asked, w = v ∨ dead w = true ∧ ∃ k, (k,w) ∈ before
  gone : t.keys.Perm (result.gone ++ result.tree.keys)

variable {dead p}

omit [DecidableEq K] in
theorem Removed.climb {sub t : Tree K V} {below res : Removal K V} {pre after post : List (K × V)}
    {up : Bool} (h : Removed dead p sub below v before after stay)
    (hw : t.toList = (k,w) :: (pre ++ sub.toList ++ post))
    (tree : res.tree.toList = (if up then [] else [(k,w)]) ++ (pre ++ below.tree.toList ++ post))
    (hg : res.gone = below.gone ++ if up then [k] else [])
    (dies : up → dead w)
    (ha : ∀ x ∈ res.asked, x ∈ below.asked ∨ x = w ∧ dead w) :
    Removed dead p t res v ((k,w) :: (pre ++ before)) (after ++ post)
      ((if up then [] else [(k,w)]) ++ (pre ++ stay)) where
  split := by simp [hw,h.split]
  tree := by simp [tree,h.tree]
  fewer := by
    have inner := (List.Sublist.refl pre).append h.fewer
    rw [← append_assoc] at inner
    cases up
    · exact inner.cons_cons _
    · exact inner.cons _
  dies kv mem := by
    rcases mem_cons.mp mem with rfl | mem
    · cases up
      · exact .inl (by simp)
      · exact .inr (dies rfl)
    rcases mem_append.mp mem with mem | mem
    · exact .inl (by simp [mem])
    · exact (h.dies kv mem).imp_left fun hs => by simp [hs]
  asked x mem := by
    rcases ha x mem with old | ⟨rfl,dies⟩
    · exact (h.asked x old).imp_right fun ⟨dies,k,mem⟩ => ⟨dies,k,by simp [mem]⟩
    · exact .inr ⟨dies,k,by simp⟩
  gone := by
    have inner := ((h.gone.append_left (pre.map Prod.fst)).trans
      (perm_append_comm_assoc ..)).append_right (post.map Prod.fst)
    rw [append_assoc,append_assoc] at inner
    have all := (inner.cons k).trans (@perm_middle _ k below.gone _).symm
    simp only [keys,hw,tree,hg,map_cons,map_append]
    cases up <;> simpa [keys] using all

variable (dead p)

theorem remove_spec (t : Tree K V) (mem : p ∈ t.keys) :
    ∃ v before after stay, Removed dead p t (remove dead p t) v before after stay := by
  induction t with
  | nil => contradiction
  | node k w l r left right =>
    rw [remove]
    split
    · next here =>
      subst here
      obtain ⟨tree,hg,ha⟩ := prune_spec k w l r
      generalize (prune (node k w l r)).up = up at tree hg
      refine ⟨w,[],l.toList ++ r.toList,_,rfl,tree,?_,nofun,?_,?_⟩
      · cases up <;> simp
      · simp [ha]
      simp only [hg,keys,tree]
      cases up <;> simp
    next other =>
    split
    · next inLeft =>
      obtain ⟨v,before,after,stay,h⟩ := left inLeft
      obtain ⟨up,tree,hg,dies,ha⟩ := climb_spec dead k w (remove dead p l).tree r (remove dead p l)
      have hw : (node k w l r).toList = (k,w) :: ([] ++ l.toList ++ r.toList) := rfl
      exact ⟨v,_,_,_,h.climb hw tree hg dies ha⟩
    · next notLeft =>
      have inRight : p ∈ r.keys := by simpa [Ne.symm other,notLeft] using mem
      obtain ⟨v,before,after,stay,h⟩ := right inRight
      obtain ⟨up,tree,hg,dies,ha⟩ := climb_spec dead k w l (remove dead p r).tree (remove dead p r)
      have hw : (node k w l r).toList = (k,w) :: (l.toList ++ r.toList ++ []) := by simp
      exact ⟨v,_,_,_,h.climb hw (by simpa using tree) hg dies ha⟩

variable {dead p}

theorem remove_keys {t : Tree K V} (mem : p ∈ t.keys) : (remove dead p t).tree.keys ⊆ t.keys := by
  obtain ⟨_,_,_,_,h⟩ := remove_spec dead p t mem
  exact fun k hk => h.gone.mem_iff.mpr (mem_append_right _ hk)

end

section

variable [Key K] {t : Tree K V}

theorem Ordered.prune (h : Ordered t) : Ordered (prune t).tree := by
  cases h with
  | nil => exact .nil
  | @node k l r v left right ho also =>
    cases l <;> cases r <;> first | exact also | exact ho | exact .node left right ho also

theorem Ordered.climb {k : K} (h : Ordered (Tree.node k v l r)) (dead : V → Bool)
    (below : Removal K V) : Ordered (climb dead k v l r below).tree := by
  unfold Tree.climb
  split
  · exact h.prune
  · exact h

theorem Ordered.remove [DecidableEq K] (h : Ordered t) (dead : V → Bool) (mem : p ∈ t.keys) :
    Ordered (remove dead p t).tree := by
  induction h with
  | nil => contradiction
  | @node k l r v left right ho also ihl ihr =>
    rw [Tree.remove]
    split
    · exact (Ordered.node left right ho also).prune
    next other =>
    split
    · next inLeft =>
      refine (Ordered.node ?_ right (ihl inLeft) also).climb dead _
      exact fun k hk => left k (remove_keys inLeft hk)
    next notLeft =>
    have inRight : p ∈ r.keys := by simpa [Ne.symm other,notLeft] using mem
    refine (Ordered.node left ?_ ho (ihr inRight)).climb dead _
    exact fun k hk => right k (remove_keys inRight hk)

end

/-! ### The order of the nodes -/

section

variable [DecidableEq K] (p : K)

/-- Its left child, its right child, or the right child of the nearest node it is to the left of;
`up` is that node where the tree is part of a larger one. -/
def next : Tree K V → Option K → Option K
  | nil, _ => none
  | node k _ l r, up =>
    if k = p then l.root? <|> r.root? <|> up
    else if p ∈ l.keys then next l (r.root? <|> up)
    else next r up

theorem next_spec (t : Tree K V) (mem : p ∈ t.keys) (up : Option K) :
    ∃ before after, t.keys = before ++ p :: after ∧ next p t up = (after.head? <|> up) := by
  induction t generalizing up with
  | nil => contradiction
  | node k v l r left right =>
    rw [next]
    split
    · next here =>
      subst here
      refine ⟨[],l.keys ++ r.keys,by simp,?_⟩
      cases l <;> simp [root?_eq_head?]
    next other =>
    split
    · next inLeft =>
      obtain ⟨before,after,split,eq⟩ := left inLeft (r.root? <|> up)
      refine ⟨k :: before,after ++ r.keys,by simp [split],?_⟩
      rw [eq,root?_eq_head?]
      cases after <;> simp
    · next notLeft =>
      have inRight : p ∈ r.keys := by simpa [Ne.symm other,notLeft] using mem
      obtain ⟨before,after,split,eq⟩ := right inRight up
      exact ⟨k :: (l.keys ++ before),after,by simp [split],eq⟩

end

end Tree

end Frr.RadixTree
