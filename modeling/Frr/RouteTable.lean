import Frr.Prefix

/-! The tables of `lib/table.c`: a radix tree whose nodes count their users, and a hash table
over the same nodes. A pointer to a node is the prefix of the node. -/
namespace Frr.RouteTable

open Prefix
open RadixTree (Tree)

structure Node (R : Type) where
  lock : Nat
  info : Option R
  deriving DecidableEq

/-- `struct route_table`. The hash table is its contents; `sane`: no assertion has failed. -/
structure Table (width : Nat) (R : Type) where
  top : Tree (Prefix width) (Node R)
  hash : List (Prefix width)
  count : UInt64
  sane : Bool

variable {width : Nat} {R : Type}

def routeTableInit : Table width R := {top := .nil, hash := [], count := 0, sane := true}

section

variable (t : Table width R) (p : Prefix width)

/-- The node that `p` points to. -/
def node? : Option (Node R) := t.top.toList.lookup p

def setInfo (info : Option R) : Table width R :=
  {t with top := t.top.adjust p fun node => {node with info := info}}

/-- `hash_get`, which compares with `prefix_cmp`. -/
def hashGet : Option (Prefix width) := t.hash.find? fun q => prefixCmp q p

/-- `hash_get` for a new node, and the assertion that follows. -/
def hashInsert : Table width R :=
  match hashGet t p with
  | some _ => {t with sane := false}
  | none => {t with hash := p :: t.hash}

def routeLockNode : Table width R :=
  {t with top := t.top.adjust p fun node => {node with lock := node.lock + 1}}

/-- The walk of `route_node_get` from the top. -/
def routeNodeEnter : Table width R :=
  let (top,new) := t.top.enter p ⟨0,none⟩ fun node => {node with lock := node.lock + 1}
  let t := new.foldl hashInsert {t with top := top}
  {t with count := t.count + UInt64.ofNat new.length}

/-- `route_node_get`; the node returned is the one with prefix `p`. -/
def routeNodeGet : Table width R :=
  match hashGet t p with
  | some q => if ((node? t q).bind Node.info).isSome then routeLockNode t q else routeNodeEnter t p
  | none => routeNodeEnter t p

def routeNodeLookup : Option (Table width R) :=
  match hashGet t p with
  | some q => if ((node? t q).bind Node.info).isSome then some (routeLockNode t q) else none
  | none => none

def routeNodeDelete : Table width R :=
  let removal := t.top.remove (fun node => node.lock = 0) p
  { top := removal.tree
    hash := removal.gone.foldl (fun hash q => hash.eraseP (prefixCmp · q)) t.hash
    count := t.count - UInt64.ofNat removal.gone.length
    sane := t.sane && removal.asked.all fun node => node.lock = 0 ∧ node.info = none }

def routeUnlockNode : Table width R :=
  let t := {t with
    top := t.top.adjust p fun node => {node with lock := node.lock - 1}
    sane := t.sane && (node? t p).any fun node => 0 < node.lock}
  if (node? t p).any fun node => node.lock = 0 then routeNodeDelete t p else t

/-- `route_top`, with the node it returns. -/
def routeTop : Table width R × Option (Prefix width) :=
  match t.top.root? with
  | none => (t,none)
  | some first => (routeLockNode t first,some first)

/-- `route_next`, with the node it returns. -/
def routeNext : Table width R × Option (Prefix width) :=
  match t.top.next p none with
  | none => (routeUnlockNode t p,none)
  | some next => (routeUnlockNode (routeLockNode t next) p,some next)

end

def contents (t : Table width R) : List (Prefix width × R) :=
  t.top.toList.filterMap fun (k,node) => node.info.map fun info => (k,info)

/-- One more user of the node `p`. -/
def using_ (p : Prefix width) (users : Prefix width → Nat) : Prefix width → Nat :=
  fun k => users k + if k = p then 1 else 0

/-- Locked once for what it holds and once for each user; the hash table has exactly the nodes. -/
structure Sound (users : Prefix width → Nat) (t : Table width R) : Prop where
  ordered : t.top.Ordered
  locks : ∀ k node, (k,node) ∈ t.top.toList →
    node.lock = (if node.info.isSome then 1 else 0) + users k
  used : ∀ k, users k ≠ 0 → k ∈ t.top.keys
  hash : t.hash.Perm t.top.keys
  count : t.count = UInt64.ofNat t.top.keys.length
  sane : t.sane = true

theorem init_sound : Sound (fun _ => 0) (routeTableInit : Table width R) where
  ordered := .nil
  locks := nofun
  used := nofun
  hash := .refl _
  count := rfl
  sane := rfl

/-! ### Nodes and contents -/

section

variable {t : Table width R} {p : Prefix width} {node : Node R}

theorem mem_of_node? (hf : node? t p = some node) : (p,node) ∈ t.top.toList := by
  obtain ⟨hb,ha,split,-⟩ := List.lookup_eq_some_iff.mp hf
  rw [split]
  simp

theorem mem_unique (nodup : t.top.keys.Nodup) (fst : (p,node) ∈ t.top.toList)
    (snd : (p,other) ∈ t.top.toList) : node = other := by
  obtain ⟨a,b,split⟩ := List.append_of_mem fst
  obtain ⟨a',b',split'⟩ := List.append_of_mem snd
  exact (Tree.split_unique nodup split split').2.1

theorem exists_node (mem : p ∈ t.top.keys) : ∃ node, (p,node) ∈ t.top.toList := by
  obtain ⟨⟨k,node⟩,hf,rfl⟩ := List.mem_map.mp mem
  exact ⟨node,hf⟩

theorem node?_of_mem (nodup : t.top.keys.Nodup) (mem : (p,node) ∈ t.top.toList) :
    node? t p = some node := by
  cases hf : node? t p with
  | none =>
    have ha := List.lookup_eq_none_iff.mp hf _ mem
    simp at ha
  | some ho => rw [mem_unique nodup mem (mem_of_node? hf)]

theorem node?_adjust (t : Table width R) (p q : Prefix width) (f : Node R → Node R) :
    node? {t with top := t.top.adjust p f} q =
      (node? t q).map fun node => if q = p then f node else node := by
  simp only [node?,Tree.toList_adjust]
  induction t.top.toList with
  | nil => rfl
  | cons kv rest ih =>
    obtain ⟨k,v⟩ := kv
    rw [List.map_cons,List.lookup_cons,List.lookup_cons,ih]
    cases eq : q == k with
    | true => simp [beq_iff_eq.mp eq]
    | false => rfl

theorem hashGet_eq_none : hashGet t p = none ↔ p ∉ t.hash := by
  simp only [hashGet,List.find?_eq_none,prefixCmp_iff]
  exact ⟨fun all mem => all p mem rfl,fun ha q mem eq => ha (eq ▸ mem)⟩

theorem hashGet_eq_some (hf : hashGet t p = some q) : q = p ∧ p ∈ t.hash := by
  have he := List.find?_some hf
  have eq : q = p := (prefixCmp_iff q p).mp he
  exact ⟨eq,eq ▸ List.mem_of_find?_eq_some hf⟩

theorem mem_contents : (p,r) ∈ contents t ↔ ∃ node, (p,node) ∈ t.top.toList ∧ node.info = some r := by
  simp only [contents,List.mem_filterMap,Option.map_eq_some_iff,Prod.exists,Prod.mk.injEq]
  constructor
  · rintro ⟨k,node,mem,info,has,rfl,rfl⟩
    exact ⟨node,mem,has⟩
  rintro ⟨node,mem,has⟩
  exact ⟨p,node,mem,r,has,rfl,rfl⟩

theorem contents_adjust (t : Table width R) (p : Prefix width) (f : Node R → Node R)
    (eq : ∀ node, (f node).info = node.info) :
    contents {t with top := t.top.adjust p f} = contents t := by
  simp only [contents,Tree.toList_adjust,List.filterMap_map]
  refine List.filterMap_congr fun kv _ => ?_
  simp only [Function.comp_apply]
  split
  · rw [eq]
  · rfl

theorem mem_adjust (f : Node R → Node R) (mem : (k,node) ∈ (t.top.adjust p f).toList) :
    ∃ old, (k,old) ∈ t.top.toList ∧ node = if k = p then f old else old := by
  rw [Tree.toList_adjust] at mem
  obtain ⟨⟨k',old⟩,hf,eq⟩ := List.mem_map.mp mem
  obtain ⟨rfl,rfl⟩ := Prod.mk.inj eq
  exact ⟨old,hf,rfl⟩

end

/-! ### Locking -/

section

variable {t : Table width R} {p : Prefix width} {users : Prefix width → Nat}

theorem Sound.nodup (h : Sound users t) : t.top.keys.Nodup := h.ordered.nodup

theorem Sound.adjust (h : Sound users t) (p : Prefix width) (f : Node R → Node R)
    {users' : Prefix width → Nat} (others : ∀ k, k ≠ p → users' k = users k)
    (hh : ∀ node, (p,node) ∈ t.top.toList →
      (f node).lock = (if (f node).info.isSome then 1 else 0) + users' p)
    (hu : users' p ≠ 0 → p ∈ t.top.keys) : Sound users' {t with top := t.top.adjust p f} where
  ordered := h.ordered.adjust p _
  locks := fun k node hf => by
    obtain ⟨old,mem,rfl⟩ := mem_adjust _ hf
    split
    · next eq => exact eq ▸ hh old (eq ▸ mem)
    · next other => exact others k other ▸ h.locks k old mem
  used := fun k some => by
    rw [Tree.keys_adjust]
    by_cases eq : k = p
    · exact eq ▸ hu (eq ▸ some)
    · exact h.used k (others k eq ▸ some)
  hash := by
    rw [Tree.keys_adjust]
    exact h.hash
  count := by
    rw [Tree.keys_adjust]
    exact h.count
  sane := h.sane

theorem using_other (users : Prefix width → Nat) (ho : k ≠ p) : using_ p users k = users k := by
  simp [using_,ho]

theorem using_same (users : Prefix width → Nat) : using_ p users p = users p + 1 := by
  simp [using_]

theorem Sound.contents_nodup (h : Sound users t) : (contents t).Nodup := by
  refine .of_map Prod.fst (h.nodup.sublist ?_)
  rw [contents,Tree.keys]
  induction t.top.toList with
  | nil => exact .slnil
  | cons kv rest ih =>
    obtain ⟨k,node⟩ := kv
    cases has : node.info with
    | none => simpa [has] using ih.cons k
    | some r => simpa [has] using ih.cons_cons k

theorem Sound.lock (h : Sound users t) (mem : p ∈ t.top.keys) :
    Sound (using_ p users) (routeLockNode t p) := by
  refine h.adjust p _ (fun k => using_other users) (fun node hf => ?_) fun _ => mem
  have hb := h.locks p node hf
  rw [using_same]
  simp only
  omega

theorem contents_lock (t : Table width R) (p : Prefix width) :
    contents (routeLockNode t p) = contents t :=
  contents_adjust t p _ fun _ => rfl

theorem foldl_hashInsert (new : List (Prefix width)) (t : Table width R)
    (hf : (new ++ t.hash).Nodup) :
    new.foldl hashInsert t = {t with hash := new.reverse ++ t.hash} := by
  induction new generalizing t with
  | nil => rfl
  | cons fst rest ih =>
    rw [List.cons_append,List.nodup_cons,List.mem_append,not_or] at hf
    have hi : hashInsert t fst = {t with hash := fst :: t.hash} := by
      rw [hashInsert,hashGet_eq_none.mpr hf.1.2]
    rw [List.foldl_cons,hi,ih]
    · simp
    refine List.nodup_middle.mpr (List.nodup_cons.mpr ⟨?_,hf.2⟩)
    rw [List.mem_append,not_or]
    exact hf.1

theorem Sound.enter (h : Sound users t) (p : Prefix width) :
    Sound (using_ p users) (routeNodeEnter t p) ∧ contents (routeNodeEnter t p) = contents t := by
  have he := Tree.enter_entered p (⟨0,none⟩ : Node R)
    (fun node => {node with lock := node.lock + 1}) t.top
  unfold routeNodeEnter
  generalize t.top.enter p ⟨0,none⟩ (fun node => {node with lock := node.lock + 1}) = result
    at he
  obtain ⟨top,new⟩ := result
  simp only at he ⊢
  have ho := he.ordered h.ordered
  have perm := he.keys
  have hf : (new ++ t.hash).Nodup :=
    ((h.hash.append_left new).nodup_iff).mpr (perm.nodup_iff.mp ho.nodup)
  have ha : ∀ k ∈ new, k ∉ t.top.keys := fun k mem old =>
    List.disjoint_of_nodup_append (perm.nodup_iff.mp ho.nodup) mem old
  have hu : ∀ k ∈ new, users k = 0 := fun k mem => by
    by_contra some
    exact ha k mem (h.used k some)
  rw [foldl_hashInsert new {t with top := top} hf]
  refine ⟨?_,he.filterMap _ (fun _ => rfl) fun _ _ => rfl⟩
  exact {
    ordered := ho
    locks := fun k node hfo => by
      rcases he.mem ho.nodup hfo with ⟨hot,old⟩ | ⟨rfl,was,old,rfl⟩ | ⟨made,⟨rfl,rfl⟩ | ⟨hot,rfl⟩⟩
      · simpa [using_,hot] using h.locks k node old
      · have hb := h.locks k was old
        simp only [using_,reduceIte]
        omega
      · simp [using_,hu k made]
      · simp [using_,hu k made,hot]
    used := fun k some => by
      by_cases eq : k = p
      · exact eq ▸ he.entered
      refine perm.mem_iff.mpr (List.mem_append_right _ (h.used k fun none => some ?_))
      simp [using_,none,eq]
    hash := ((List.reverse_perm new).append h.hash).trans perm.symm
    count := by
      rw [perm.length_eq,List.length_append,UInt64.ofNat_add,h.count]
      exact UInt64.add_comm ..
    sane := h.sane}

theorem Sound.get (h : Sound users t) (p : Prefix width) :
    Sound (using_ p users) (routeNodeGet t p) ∧ contents (routeNodeGet t p) = contents t := by
  unfold routeNodeGet
  split
  · next q found =>
    obtain ⟨rfl,mem⟩ := hashGet_eq_some found
    split
    · exact ⟨h.lock (h.hash.mem_iff.mp mem),contents_lock t q⟩
    · exact h.enter q
  · exact h.enter p

end

/-! ### Unlocking -/

section

variable {t : Table width R} {p : Prefix width} {users : Prefix width → Nat}

theorem foldl_eraseP (gone : List (Prefix width)) (hash rest : List (Prefix width))
    (perm : hash.Perm (gone ++ rest)) :
    (gone.foldl (fun hash q => hash.eraseP (prefixCmp · q)) hash).Perm rest := by
  induction gone generalizing hash with
  | nil => exact perm
  | cons fst gone ih =>
    have eq : (prefixCmp · fst) = (· == fst) := by
      funext q
      rw [Bool.eq_iff_iff,prefixCmp_iff,beq_iff_eq]
    have erased : hash.eraseP (prefixCmp · fst) = hash.erase fst := by
      rw [eq,List.erase_eq_eraseP']
    rw [List.foldl_cons,erased]
    refine ih _ ?_
    have hr := perm.erase fst
    simpa using hr

theorem filterMap_sublist {l l' : List α} (g : α → Option β) (sub : List.Sublist l' l)
    (nodup : l.Nodup) (rest : ∀ x ∈ l, x ∈ l' ∨ g x = none) :
    l'.filterMap g = l.filterMap g := by
  induction sub with
  | slnil => rfl
  | @cons l' l x sub ih =>
    rw [List.nodup_cons] at nodup
    have hn : g x = none :=
      (rest x (.head _)).resolve_left fun mem => nodup.1 (sub.subset mem)
    rw [List.filterMap_cons_none hn]
    exact ih nodup.2 fun y mem => rest y (.tail _ mem)
  | @cons_cons l' l x sub ih =>
    rw [List.nodup_cons] at nodup
    rw [List.filterMap_cons,List.filterMap_cons,ih nodup.2]
    intro y mem
    refine (rest y (.tail _ mem)).imp_left fun mem' => ?_
    rcases List.mem_cons.mp mem' with rfl | mem'
    · exact absurd mem nodup.1
    · exact mem'

/-- What `route_node_delete` leaves of the nodes. -/
structure Left (users : Prefix width → Nat) (t t' : Table width R) (p : Prefix width) : Prop where
  sound : Sound users t'
  contents : contents t' = contents t
  after : ∀ before after node, t.top.toList = before ++ (p,node) :: after →
    ∃ stay, t'.top.toList = stay ++ after ∧
      List.Sublist (stay.map fun kv => (kv.1,kv.2.info))
        ((before ++ [(p,node)]).map fun kv => (kv.1,kv.2.info))

theorem Sound.delete (h : Sound users t) (mem : (p,node) ∈ t.top.toList) (free : node.lock = 0) :
    Left users t (routeNodeDelete t p) p := by
  have locks := h.locks p node mem
  have bare : ∀ k other, (k,other) ∈ t.top.toList → other.lock = 0 →
      other.info = none ∧ users k = 0 := fun k other mem zero => by
    have locks := h.locks k other mem
    cases has : other.info with
    | none => exact ⟨rfl,by simp [has] at locks; omega⟩
    | some _ => simp [has] at locks; omega
  obtain ⟨v,hb,ha,stay,hr⟩ :=
    Tree.remove_spec (fun node : Node R => node.lock = 0) p t.top (Tree.mem_keys mem)
  have ho := h.ordered.remove (fun node : Node R => node.lock = 0) (Tree.mem_keys mem)
  have hh : (p,v) ∈ t.top.toList := by rw [hr.split]; simp
  obtain rfl := mem_unique h.nodup mem hh
  have none : ∀ kv ∈ hb, kv ∈ stay ∨ kv.2.info = none ∧ users kv.1 = 0 := fun kv hi => by
    refine (hr.dies kv hi).imp_right fun hd => ?_
    exact bare kv.1 kv.2 (by rw [hr.split]; simp [hi]) (by simpa using hd)
  obtain ⟨hn,hu⟩ := bare p node mem free
  have hdi : (hb ++ [(p,node)]).Nodup := by
    have all := h.nodup.of_map _
    rw [hr.split,List.append_cons] at all
    exact (List.nodup_append.mp all).1
  have tree : (routeNodeDelete t p).top.toList = stay ++ ha := hr.tree
  have hfe : ∀ kv ∈ stay ++ ha, kv ∈ t.top.toList := fun kv hi => by
    rw [hr.split]
    rcases List.mem_append.mp hi with hi | hi
    · have := hr.fewer.subset hi
      simp only [List.mem_append,List.mem_cons] at this ⊢
      tauto
    · simp [hi]
  refine ⟨?_,?_,fun hb' ha' node' split => ?_⟩
  · exact {
      ordered := ho
      locks := fun k other hf => h.locks k other (hfe _ (tree ▸ hf))
      used := fun k some => by
        obtain ⟨other,hf⟩ := exists_node (h.used k some)
        rw [hr.split] at hf
        refine Tree.mem_keys (tree ▸ ?_ : (k,other) ∈ (routeNodeDelete t p).top.toList)
        rcases List.mem_append.mp hf with hi | hi
        · exact List.mem_append_left _ ((none _ hi).resolve_right fun free => some free.2)
        rcases List.mem_cons.mp hi with eq | hi
        · rw [(Prod.mk.inj eq).1] at some
          exact absurd hu some
        · exact List.mem_append_right _ hi
      hash := foldl_eraseP _ _ _ (h.hash.trans hr.gone)
      count := by
        have len := hr.gone.length_eq
        rw [List.length_append] at len
        simp only [routeNodeDelete,h.count,len,UInt64.ofNat_add]
        rw [UInt64.add_comm]
        exact UInt64.add_sub_cancel ..
      sane := by
        simp only [routeNodeDelete,h.sane,Bool.true_and,List.all_eq_true,decide_eq_true_eq]
        intro other asked
        rcases hr.asked other asked with rfl | ⟨hd,k,hi⟩
        · exact ⟨free,hn⟩
        have zero : other.lock = 0 := by simpa using hd
        exact ⟨zero,(bare k other (by rw [hr.split]; simp [hi]) zero).1⟩}
  · have eq : stay.filterMap (fun (k,node) => node.info.map fun info => (k,info)) =
        (hb ++ [(p,node)]).filterMap fun (k,node) => node.info.map fun info => (k,info) := by
      refine filterMap_sublist _ hr.fewer hdi fun kv hi => ?_
      rcases List.mem_append.mp hi with hi | hi
      · exact (none kv hi).imp_right fun free => by simp [free.1]
      rw [List.mem_singleton.mp hi]
      exact .inr (by simp [hn])
    rw [RouteTable.contents,RouteTable.contents,tree,hr.split,List.append_cons]
    simp [List.filterMap_append,eq]
  · obtain ⟨rfl,rfl,rfl⟩ := Tree.split_unique h.nodup hr.split split
    exact ⟨stay,tree,hr.fewer.map _⟩

theorem adjust_split (nodup : t.top.keys.Nodup) (f : Node R → Node R)
    (split : t.top.toList = before ++ (p,node) :: after) :
    (t.top.adjust p f).toList = before ++ (p,f node) :: after := by
  rw [Tree.keys,split,List.map_append,List.map_cons,List.nodup_middle,List.nodup_cons,
    List.mem_append,not_or] at nodup
  have eq : ∀ l : List (Prefix width × Node R), p ∉ l.map Prod.fst →
      l.map (fun (k,v) => (k,if k = p then f v else v)) = l := fun l ha => by
    refine (List.map_congr_left fun kv mem => ?_).trans (List.map_id l)
    have ho : kv.1 ≠ p := fun hh => ha (hh ▸ List.mem_map_of_mem mem)
    simp [ho]
  rw [Tree.toList_adjust,split,List.map_append,List.map_cons,eq _ nodup.1.1,eq _ nodup.1.2]
  simp

theorem routeUnlockNode_eq (hf : node? t p = some node) (hl : 0 < node.lock) :
    routeUnlockNode t p =
      let t' := {t with top := t.top.adjust p fun node => {node with lock := node.lock - 1}}
      if node.lock = 1 then routeNodeDelete t' p else t' := by
  have sane : (t.sane && (node? t p).any fun node => 0 < node.lock) = t.sane := by
    simp [hf,hl]
  have last : node.lock - 1 = 0 ↔ node.lock = 1 := by omega
  simp only [routeUnlockNode,sane]
  rw [node?_adjust,hf]
  simp [last]

theorem Sound.unlock (h : Sound (using_ p users) t) : Left users t (routeUnlockNode t p) p := by
  obtain ⟨node,mem⟩ := exists_node (h.used p (by simp [using_]))
  have locks := h.locks p node mem
  rw [using_same] at locks
  rw [routeUnlockNode_eq (node?_of_mem h.nodup mem) (by omega)]
  extract_lets t1
  have hs : Sound users t1 := by
    refine h.adjust p _ (fun k ho => (using_other users ho).symm) (fun ho hfo => ?_)
      fun _ => Tree.mem_keys mem
    have hb := h.locks p ho hfo
    rw [using_same] at hb
    simp only
    omega
  have eq : contents t1 = contents t := contents_adjust _ _ _ fun _ => rfl
  have place (hb ha node') (split : t.top.toList = hb ++ (p,node') :: ha) :
      t1.top.toList = hb ++ (p,{node' with lock := node'.lock - 1}) :: ha :=
    adjust_split h.nodup _ split
  split
  · next last =>
    have hh : node? t1 p = some {node with lock := node.lock - 1} := by
      simp [t1,node?_adjust,node?_of_mem h.nodup mem]
    have left := hs.delete (mem_of_node? hh) (by simp [last])
    refine ⟨left.sound,left.contents.trans eq,fun hb ha node' split => ?_⟩
    obtain ⟨stay,tree,hf⟩ := left.after _ _ _ (place hb ha node' split)
    exact ⟨stay,tree,by simpa using hf⟩
  · refine ⟨hs,eq,fun hb ha node' split => ?_⟩
    refine ⟨hb ++ [(p,{node' with lock := node'.lock - 1})],?_,by simp⟩
    rw [place hb ha node' split]
    simp

theorem Sound.clear (h : Sound users t) (mem : (p,node) ∈ t.top.toList)
    (has : node.info = some r) :
    Sound (using_ p users) (setInfo t p none) ∧
      (contents t).Perm ((p,r) :: contents (setInfo t p none)) := by
  refine ⟨?_,?_⟩
  · refine h.adjust p _ (fun k => using_other users) (fun ho hf => ?_) fun _ => Tree.mem_keys mem
    have hb := h.locks p node mem
    rw [mem_unique h.nodup hf mem,using_same]
    simp only [has,Option.isSome_some,reduceIte] at hb
    simp only [Option.isSome_none,Bool.false_eq_true,reduceIte]
    omega
  · obtain ⟨hb,ha,split⟩ := List.append_of_mem mem
    have hc : (setInfo t p none).top.toList = hb ++ (p,{node with info := none}) :: ha :=
      adjust_split h.nodup _ split
    rw [contents,contents,split,hc]
    simp only [List.filterMap_append,List.filterMap_cons,has,Option.map_some,Option.map_none]
    exact List.perm_middle

theorem Sound.fill (h : Sound (using_ p users) t) (mem : (p,node) ∈ t.top.toList)
    (has : node.info = none) (r : R) :
    Sound users (setInfo t p (some r)) ∧
      (contents (setInfo t p (some r))).Perm ((p,r) :: contents t) := by
  refine ⟨?_,?_⟩
  · refine h.adjust p _ (fun k ho => (using_other users ho).symm) (fun ho hfo => ?_)
      fun _ => Tree.mem_keys mem
    have hb := h.locks p node mem
    rw [using_same] at hb
    rw [mem_unique h.nodup hfo mem]
    simp only [has,Option.isSome_none,Bool.false_eq_true,reduceIte] at hb
    simp only [Option.isSome_some,reduceIte]
    omega
  · obtain ⟨hb,ha,split⟩ := List.append_of_mem mem
    have hf : (setInfo t p (some r)).top.toList =
        hb ++ (p,{node with info := some r}) :: ha := adjust_split h.nodup _ split
    rw [contents,contents,split,hf]
    simp only [List.filterMap_append,List.filterMap_cons,has,Option.map_some,Option.map_none]
    exact List.perm_middle

end

/-! ### Looking up -/

section

variable {t : Table width R} {p : Prefix width} {users : Prefix width → Nat}

def infoAt (t : Table width R) (p : Prefix width) : Option R := (node? t p).bind Node.info

theorem Sound.infoAt_eq_some (h : Sound users t) : infoAt t p = some r ↔ (p,r) ∈ contents t := by
  rw [infoAt,Option.bind_eq_some_iff,mem_contents]
  refine exists_congr fun node => and_congr_left fun _ => ?_
  exact ⟨mem_of_node?,node?_of_mem h.nodup⟩

theorem Sound.infoAt_congr (h : Sound users t) (h' : Sound users' t')
    (eq : contents t' = contents t) (p : Prefix width) : infoAt t' p = infoAt t p := by
  refine Option.ext fun r => ?_
  rw [h.infoAt_eq_some,h'.infoAt_eq_some,eq]

theorem infoAt_setInfo (t : Table width R) (info : Option R) (mem : p ∈ t.top.keys)
    (q : Prefix width) : infoAt (setInfo t p info) q = if q = p then info else infoAt t q := by
  rw [infoAt,setInfo,node?_adjust]
  split
  · next same =>
    subst same
    obtain ⟨node,hf⟩ := exists_node mem
    cases looked : node? t q with
    | none => exact absurd (List.lookup_eq_none_iff.mp looked _ hf) (by simp)
    | some ho => simp
  · simp [infoAt]

theorem Sound.lookup (h : Sound users t) : routeNodeLookup t p =
    if (infoAt t p).isSome then some (routeLockNode t p) else none := by
  unfold routeNodeLookup
  split
  · next q found =>
    obtain ⟨rfl,-⟩ := hashGet_eq_some found
    rfl
  next absent =>
  rw [if_neg]
  intro some
  obtain ⟨r,has⟩ := Option.isSome_iff_exists.mp some
  obtain ⟨node,mem,-⟩ := mem_contents.mp (h.infoAt_eq_some.mp has)
  exact hashGet_eq_none.mp absent (h.hash.mem_iff.mpr (Tree.mem_keys mem))

end

/-! ### The walk over the table -/

section

variable {t : Table width R} {p : Prefix width} {users : Prefix width → Nat}

theorem using_comm (p q : Prefix width) (users : Prefix width → Nat) :
    using_ p (using_ q users) = using_ q (using_ p users) := by
  funext k
  simp only [using_]
  omega

/-- The walk is at `p`, with `after` still to come and nothing left behind. -/
structure Stands (users : Prefix width → Nat) (t : Table width R) (p : Prefix width)
    (after : List (Prefix width × Node R)) : Prop where
  sound : Sound (using_ p users) t
  split : ∃ before node, t.top.toList = before ++ (p,node) :: after ∧
    ∀ kv ∈ before, kv.2.info = none

theorem Stands.next (h : Stands users t p after) (he : infoAt t p = none) :
    contents (routeNext t p).1 = contents t ∧
    match after with
    | [] => (routeNext t p).2 = none ∧ Sound users (routeNext t p).1
    | (q,_) :: rest => (routeNext t p).2 = some q ∧ Stands users (routeNext t p).1 q rest := by
  obtain ⟨hb,node,split,none⟩ := h.split
  have mem : (p,node) ∈ t.top.toList := by rw [split]; simp
  have bare : node.info = Option.none := by
    rw [infoAt,node?_of_mem h.sound.nodup mem] at he
    simpa using he
  have hf : t.top.next p Option.none = (after.map Prod.fst).head? := by
    obtain ⟨a,b,keys,next⟩ := Tree.next_spec p t.top (Tree.mem_keys mem) Option.none
    have nodup := h.sound.nodup
    rw [keys,List.nodup_middle,List.nodup_cons,List.mem_append,not_or] at nodup
    rw [Tree.keys,split,List.map_append,List.map_cons] at keys
    have eq := (List.append_cons_inj_of_notMem nodup.1.1 nodup.1.2).mp keys.symm
    rw [next,eq.2.2]
    simp
  cases after with
  | nil =>
    have left := h.sound.unlock
    simp only [routeNext,hf,List.map_nil,List.head?_nil]
    exact ⟨left.contents,trivial,left.sound⟩
  | cons kv rest =>
    obtain ⟨q,m⟩ := kv
    simp only [routeNext,hf,List.map_cons,List.head?_cons]
    have mem' : (q,m) ∈ t.top.toList := by rw [split]; simp
    have hl := h.sound.lock (Tree.mem_keys mem')
    rw [using_comm] at hl
    have left := hl.unlock
    refine ⟨left.contents.trans (contents_lock t q),trivial,left.sound,?_⟩
    have place := adjust_split h.sound.nodup (fun node => {node with lock := node.lock + 1})
      (split.trans (List.append_cons ..))
    rw [← List.append_cons] at place
    obtain ⟨stay,tree,hfe⟩ := left.after _ _ _ place
    refine ⟨stay,_,tree,fun kv hi => ?_⟩
    have old := hfe.subset (List.mem_map_of_mem hi)
    obtain ⟨kv',hi',eq⟩ := List.mem_map.mp old
    have info : kv'.2.info = kv.2.info := congrArg Prod.snd eq
    rw [← info]
    rcases List.mem_append.mp hi' with hi' | hi'
    · exact none kv' hi'
    rw [List.mem_singleton.mp hi']
    exact bare

theorem Sound.unlock_eq (h : Sound (using_ p users) t) (hs : users p ≠ 0) :
    routeUnlockNode t p =
      {t with top := t.top.adjust p fun node => {node with lock := node.lock - 1}} := by
  obtain ⟨node,mem⟩ := exists_node (h.used p (by simp [using_]))
  have locks := h.locks p node mem
  rw [using_same] at locks
  rw [routeUnlockNode_eq (node?_of_mem h.nodup mem) (by omega)]
  exact if_neg (by omega)

theorem Sound.drop (h : Sound users t) (has : (p,r) ∈ contents t) :
    Sound users (routeUnlockNode (setInfo t p none) p) ∧
      (contents t).Perm ((p,r) :: contents (routeUnlockNode (setInfo t p none) p)) := by
  obtain ⟨node,mem,info⟩ := mem_contents.mp has
  obtain ⟨hc,perm⟩ := h.clear mem info
  have left := hc.unlock
  exact ⟨left.sound,left.contents ▸ perm⟩

theorem Sound.infoAt_drop (h : Sound users t) (has : (p,r) ∈ contents t) (q : Prefix width) :
    infoAt (routeUnlockNode (setInfo t p none) p) q = if q = p then none else infoAt t q := by
  obtain ⟨node,mem,info⟩ := mem_contents.mp has
  have hc := (h.clear mem info).1
  have left := hc.unlock
  rw [hc.infoAt_congr left.sound left.contents,infoAt_setInfo t none (Tree.mem_keys mem)]

theorem Stands.drop (h : Stands users t p after) (has : (p,r) ∈ contents t) :
    Stands users (routeUnlockNode (setInfo t p none) p) p after ∧
      infoAt (routeUnlockNode (setInfo t p none) p) p = none := by
  obtain ⟨hd,perm⟩ := h.sound.drop has
  obtain ⟨hb,node,split,none⟩ := h.split
  obtain ⟨node',mem,info⟩ := mem_contents.mp has
  have hc := (h.sound.clear mem info).1
  have place : (setInfo t p Option.none).top.toList =
      hb ++ (p,{node with info := Option.none}) :: after := adjust_split h.sound.nodup _ split
  have res := hc.unlock_eq (by simp [using_])
  have place' : (routeUnlockNode (setInfo t p Option.none) p).top.toList =
      hb ++ (p,{lock := node.lock-1, info := Option.none}) :: after := by
    rw [res]
    exact adjust_split hc.nodup _ place
  refine ⟨⟨hd,hb,_,place',none⟩,?_⟩
  have hh : (p,{lock := node.lock-1, info := Option.none}) ∈
      (routeUnlockNode (setInfo t p Option.none) p).top.toList := by
    rw [place']
    simp
  rw [infoAt,node?_of_mem hd.nodup hh]
  rfl

theorem Sound.top (h : Sound users t) : contents (routeTop t).1 = contents t ∧
    ((routeTop t).2 = none ∧ t.top.toList = [] ∧ (routeTop t).1 = t ∨
      ∃ p node after, (routeTop t).2 = some p ∧ t.top.toList = (p,node) :: after ∧
        Stands users (routeTop t).1 p after) := by
  unfold routeTop
  cases tree : t.top with
  | nil => exact ⟨rfl,.inl ⟨rfl,rfl,rfl⟩⟩
  | node p node l r =>
    refine ⟨contents_lock t p,.inr ⟨p,node,l.toList ++ r.toList,rfl,rfl,?_,[],?_⟩⟩
    · exact h.lock (by simp [tree])
    refine ⟨{node with lock := node.lock + 1},?_,nofun⟩
    have split : t.top.toList = [] ++ (p,node) :: (l.toList ++ r.toList) := by simp [tree]
    exact adjust_split h.nodup _ split

theorem Stands.contents_nil (h : Stands users t p []) (he : infoAt t p = none) :
    contents t = [] := by
  obtain ⟨hb,node,split,none⟩ := h.split
  have mem : (p,node) ∈ t.top.toList := by rw [split]; simp
  have bare : node.info = Option.none := by
    rw [infoAt,node?_of_mem h.sound.nodup mem] at he
    simpa using he
  rw [contents,split,List.filterMap_eq_nil_iff]
  intro kv hi
  rcases List.mem_append.mp hi with hi | hi
  · simp [none kv hi]
  · simp [List.mem_singleton.mp hi,bare]

end

end Frr.RouteTable
