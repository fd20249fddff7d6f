import Frr.Trace

/-! The label manager of zebra, `zebra/label_manager.c`. A chunk never leaves the list: it is owned
by the daemon that its protocol and instance name, or free. -/
namespace Frr.LabelManager

open Trace List

def noProto : UInt8 := 0

def labelUnreservedMin : UInt32 := 16

def labelUnreservedMax : UInt32 := 1048575

structure Client where
  proto : UInt8
  inst : UInt16
  deriving DecidableEq

/-- `struct label_manager_chunk`. -/
structure Chunk where
  owner : Client
  keep : UInt8
  start : UInt32
  end_ : UInt32
  deriving DecidableEq

/-- `assigned` is a ghost: the chunks each client was given and did not release since. -/
structure Manager where
  lcList : List Chunk
  assigned : List (Client × UInt32 × UInt32)

section

variable (client : Client) (keep : UInt8) (size : UInt32)

/-- The search of `assign_label_chunk` for a chunk that was released. -/
def reuse : List Chunk → Option (Chunk × List Chunk)
  | [] => none
  | lmc :: rest =>
    if lmc.owner.proto = noProto ∧ lmc.end_-lmc.start+1 = size then
      some ({lmc with owner := client, keep := keep},
        {lmc with owner := client, keep := keep} :: rest)
    else (reuse rest).map fun (given,rest) => (given,lmc :: rest)

/-- The first label of a new chunk. -/
def nextStart (lcList : List Chunk) : UInt32 :=
  lcList.getLast?.elim labelUnreservedMin fun lmc => lmc.end_+1

def Manager.give (m : Manager) (given : Chunk) (lcList : List Chunk) : Manager :=
  ⟨lcList,(client,given.start,given.end_) :: m.assigned⟩

def assignLabelChunk (m : Manager) : Manager :=
  match reuse client keep size m.lcList with
  | some (given,lcList) => m.give client given lcList
  | none =>
    let start := nextStart m.lcList
    if labelUnreservedMax - size + 1 < start then m
    else
      let lmc : Chunk := ⟨client,keep,start,start+size-1⟩
      m.give client lmc (m.lcList ++ [lmc])

end

section

variable (client : Client) (start end_ : UInt32)

/-- The loop of `release_label_chunk`. -/
def disown : List Chunk → List Chunk
  | [] => []
  | lmc :: rest =>
    if lmc.start = start ∧ lmc.end_ = end_ ∧ lmc.owner = client then
      {lmc with owner := ⟨noProto,0⟩, keep := 0} :: rest
    else lmc :: disown rest

def releaseLabelChunk (m : Manager) : Manager :=
  ⟨disown client start end_ m.lcList,m.assigned.filter (· ≠ (client,start,end_))⟩

end

/-- What `release_daemon_label_chunks` does at a node of the list. -/
def releaseAt (client : Client) (m : Manager) (i : Nat) : Manager :=
  match m.lcList[i]? with
  | none => m
  | some lmc =>
    if lmc.owner = client ∧ lmc.keep = 0 then releaseLabelChunk lmc.owner lmc.start lmc.end_ m else m

def releaseDaemonLabelChunks (client : Client) (m : Manager) : Manager :=
  (range m.lcList.length).foldl (releaseAt client) m

/-- `zread_get_label_chunk` and `zread_release_label_chunk`, and a client that goes or comes back. -/
inductive Message where
  | getLabelChunk (client : Client) (keep : UInt8) (size : UInt32)
  | releaseLabelChunk (client : Client) (start end_ : UInt32)
  | close (client : Client)

def step (m : Manager) : Message → Manager
  | .getLabelChunk client keep size => assignLabelChunk client keep size m
  | .releaseLabelChunk client start end_ => releaseLabelChunk client start end_ m
  | .close client => releaseDaemonLabelChunks client m

def Chunk.Proper (lmc : Chunk) : Prop :=
  labelUnreservedMin ≤ lmc.start ∧ lmc.start ≤ lmc.end_ ∧ lmc.end_ ≤ labelUnreservedMax

def Chunk.key (lmc : Chunk) : Client × UInt32 × UInt32 := (lmc.owner,lmc.start,lmc.end_)

structure Sound (m : Manager) : Prop where
  proper : ∀ lmc ∈ m.lcList, lmc.Proper
  ascending : m.lcList.Pairwise fun a b => a.end_ < b.start
  owned : ∀ lmc ∈ m.lcList, lmc.owner.proto ≠ noProto → lmc.key ∈ m.assigned

/-- The places of the chunks, which only a new chunk changes. -/
def places (lcList : List Chunk) : List (UInt32 × UInt32) := lcList.map fun lmc => (lmc.start,lmc.end_)

theorem reuse_spec {client : Client} {keep : UInt8} {size : UInt32} {lcList lcList' : List Chunk}
    {given : Chunk} (hf : reuse client keep size lcList = some (given,lcList')) :
    places lcList' = places lcList ∧ given.owner = client ∧
      ∀ lmc ∈ lcList', lmc = given ∨ lmc ∈ lcList := by
  induction lcList generalizing lcList' with
  | nil => cases hf
  | cons lmc rest ih =>
    rw [reuse] at hf
    split at hf
    · obtain ⟨rfl,rfl⟩ := Prod.mk.inj (Option.some.inj hf)
      exact ⟨rfl,rfl,fun c mem => (mem_cons.mp mem).imp_right (mem_cons_of_mem _)⟩
    · obtain ⟨⟨c,rest'⟩,inner,eq⟩ := Option.map_eq_some_iff.mp hf
      obtain ⟨rfl,rfl⟩ := Prod.mk.inj eq
      obtain ⟨hs,owner,all⟩ := ih inner
      refine ⟨congrArg (cons (lmc.start,lmc.end_)) hs,owner,fun d mem => ?_⟩
      rcases mem_cons.mp mem with rfl | mem
      · exact .inr mem_cons_self
      · exact (all d mem).imp_right (mem_cons_of_mem _)

section

variable {client : Client} {start end_ : UInt32} {lcList : List Chunk} {m : Manager}

theorem places_disown : places (disown client start end_ lcList) = places lcList := by
  induction lcList with
  | nil => rfl
  | cons lmc rest ih =>
    rw [disown]
    split
    · rfl
    · exact congrArg (cons (lmc.start,lmc.end_)) ih

theorem mem_disown (ascending : lcList.Pairwise fun a b => a.end_ < b.start)
    (hp : ∀ lmc ∈ lcList, lmc.Proper) {lmc : Chunk}
    (mem : lmc ∈ disown client start end_ lcList) (ho : lmc.owner.proto ≠ noProto) :
    lmc ∈ lcList ∧ lmc.key ≠ (client,start,end_) := by
  induction lcList with
  | nil => cases mem
  | cons fst rest ih =>
    obtain ⟨ha,ascending⟩ := pairwise_cons.mp ascending
    rw [disown] at mem
    split at mem
    · next here =>
      rcases mem_cons.mp mem with rfl | mem
      · exact absurd rfl ho
      refine ⟨.tail _ mem,fun eq => ?_⟩
      have hl : fst.start < lmc.start :=
        UInt32.lt_of_le_of_lt (hp fst mem_cons_self).2.1 (ha lmc mem)
      have hs : lmc.start = start := congrArg (fun key => key.2.1) eq
      exact UInt32.ne_of_lt hl (here.1.trans hs.symm)
    · next other =>
      rcases mem_cons.mp mem with rfl | mem
      · refine ⟨mem_cons_self,fun eq => other ?_⟩
        obtain ⟨owner,eq⟩ := Prod.mk.inj eq
        obtain ⟨start,end_⟩ := Prod.mk.inj eq
        exact ⟨start,end_,owner⟩
      · obtain ⟨old,ne⟩ := ih ascending (fun c has => hp c (.tail _ has)) mem
        exact ⟨.tail _ old,ne⟩

/-- Soundness but for the owners is a matter of the places. -/
theorem sound_of_places (h : Sound m) {m' : Manager} (hs : places m'.lcList = places m.lcList)
    (ho : ∀ lmc ∈ m'.lcList, lmc.owner.proto ≠ noProto → lmc.key ∈ m'.assigned) : Sound m' := by
  refine ⟨fun lmc mem => ?_,?_,ho⟩
  · have place : (lmc.start,lmc.end_) ∈ places m.lcList := hs ▸ mem_map_of_mem mem
    obtain ⟨c,old,eq⟩ := mem_map.mp place
    obtain ⟨start,end_⟩ := Prod.mk.inj eq
    have hp := h.proper c old
    rwa [Chunk.Proper,start,end_] at hp
  · have ascending : (places m.lcList).Pairwise fun a b => a.2 < b.1 := pairwise_map.mpr h.ascending
    rw [← hs] at ascending
    exact pairwise_map.mp ascending

theorem Sound.release (h : Sound m) : Sound (releaseLabelChunk client start end_ m) := by
  refine sound_of_places h places_disown fun lmc mem ho => ?_
  obtain ⟨old,ne⟩ := mem_disown h.ascending h.proper mem ho
  exact mem_filter.mpr ⟨h.owned lmc old ho,by simpa using ne⟩

theorem Sound.close (h : Sound m) : Sound (releaseDaemonLabelChunks client m) := by
  rw [releaseDaemonLabelChunks]
  generalize range m.lcList.length = nodes
  induction nodes generalizing m with
  | nil => exact h
  | cons i nodes ih =>
    refine ih ?_
    unfold releaseAt
    split
    · exact h
    · split
      · exact h.release
      · exact h

end

section

variable {m : Manager} {client : Client} {keep : UInt8} {size : UInt32}

theorem Sound.give (h : Sound m) {given : Chunk} {lcList : List Chunk}
    (hf : reuse client keep size m.lcList = some (given,lcList)) :
    Sound (m.give client given lcList) := by
  obtain ⟨eq,owner,all⟩ := reuse_spec hf
  refine sound_of_places h eq fun lmc mem ho => ?_
  rcases all lmc mem with rfl | old
  · exact owner ▸ mem_cons_self
  · exact .tail _ (h.owned lmc old ho)

theorem lt_succ {label : UInt32} (high : label ≤ labelUnreservedMax) : label < label+1 := by
  rw [UInt32.le_iff_toNat_le] at high
  rw [UInt32.lt_iff_toNat_lt,UInt32.toNat_add]
  have max : labelUnreservedMax.toNat = 1048575 := rfl
  have one : (1 : UInt32).toNat = 1 := rfl
  omega

theorem ends_inside {start : UInt32} (some : 0 < size) (hs : size ≤ 1048576)
    (room : ¬ labelUnreservedMax - size + 1 < start) :
    start ≤ start+size-1 ∧ start+size-1 ≤ labelUnreservedMax := by
  have max : labelUnreservedMax.toNat = 1048575 := rfl
  have most : (1048576 : UInt32).toNat = 1048576 := rfl
  have one : (1 : UInt32).toNat = 1 := rfl
  have zero : (0 : UInt32).toNat = 0 := rfl
  simp only [UInt32.le_iff_toNat_le,UInt32.lt_iff_toNat_lt,UInt32.toNat_add,UInt32.toNat_sub] at *
  omega

theorem Sound.nextStart (h : Sound m) : labelUnreservedMin ≤ nextStart m.lcList ∧
    ∀ lmc ∈ m.lcList, lmc.end_ < nextStart m.lcList := by
  cases last : m.lcList.getLast? with
  | none =>
    rw [getLast?_eq_none_iff.mp last]
    exact ⟨by decide,fun _ mem => by cases mem⟩
  | some tail =>
    have mem := mem_of_getLast? last
    obtain ⟨low,order,high⟩ := h.proper tail mem
    have next : LabelManager.nextStart m.lcList = tail.end_+1 := by rw [LabelManager.nextStart,last]; rfl
    have ha : tail.end_ < tail.end_+1 := lt_succ high
    rw [next]
    refine ⟨UInt32.le_trans (UInt32.le_trans low order) (UInt32.le_of_lt ha),fun lmc has => ?_⟩
    obtain ⟨front,split⟩ := getLast?_eq_some_iff.mp last
    rw [split] at has
    rcases mem_append.mp has with hb | hh
    · have ascending := h.ascending
      rw [split,pairwise_append] at ascending
      have hbe := ascending.2.2 lmc hb tail mem_cons_self
      exact UInt32.lt_trans (UInt32.lt_of_lt_of_le hbe order) ha
    · exact mem_singleton.mp hh ▸ ha

theorem Sound.assign (h : Sound m) (some : 0 < size) (hs : size ≤ 1048576) :
    Sound (assignLabelChunk client keep size m) := by
  unfold assignLabelChunk
  split
  · next found => exact h.give found
  obtain ⟨low,ha⟩ := h.nextStart
  generalize LabelManager.nextStart m.lcList = start at *
  dsimp only
  split
  · exact h
  next room =>
  have he := ends_inside some hs room
  refine ⟨?_,?_,?_⟩
  · intro lmc mem
    rcases mem_append.mp mem with old | new
    · exact h.proper lmc old
    · exact mem_singleton.mp new ▸ ⟨low,he⟩
  · refine pairwise_append.mpr ⟨h.ascending,pairwise_singleton _ _,fun a has b new => ?_⟩
    exact mem_singleton.mp new ▸ ha a has
  · intro lmc mem ho
    rcases mem_append.mp mem with old | new
    · exact .tail _ (h.owned lmc old ho)
    · obtain rfl := mem_singleton.mp new
      exact mem_cons_self

end

def Message.Sized : Message → Prop
  | .getLabelChunk _ _ size => 0 < size ∧ size ≤ 1048576
  | _ => True

theorem Sound.step {m : Manager} (h : Sound m) {message : Message} (hs : message.Sized) :
    Sound (step m message) := by
  cases message with
  | getLabelChunk client keep size => exact h.assign hs.1 hs.2
  | releaseLabelChunk client start end_ => exact h.release
  | close client => exact h.close

theorem chunks_sound (messages : List Message) (hs : ∀ message ∈ messages, message.Sized) :
    let m := run step messages ⟨[],[]⟩
    (∀ lmc ∈ m.lcList, lmc.start ≤ lmc.end_ ∧ 16 ≤ lmc.start ∧ lmc.end_ ≤ 1048575) ∧
      m.lcList.Pairwise (fun a b => a.end_ < b.start) ∧
      ∀ lmc ∈ m.lcList, lmc.owner.proto ≠ noProto →
        (lmc.owner,lmc.start,lmc.end_) ∈ m.assigned := by
  suffices ∀ m, Sound m → Sound (run step messages m) by
    have h := this ⟨[],[]⟩ ⟨nofun,.nil,nofun⟩
    exact ⟨fun lmc mem => ⟨(h.proper lmc mem).2.1,(h.proper lmc mem).1,(h.proper lmc mem).2.2⟩,
      h.ascending,h.owned⟩
  induction messages with
  | nil => exact fun _ h => h
  | cons message rest ih =>
    intro m h
    exact ih (fun ho mem => hs ho (.tail _ mem)) _
      (h.step (hs message mem_cons_self))

theorem two_chunks_sound : (run step [.getLabelChunk ⟨9,0⟩ 0 32,.getLabelChunk ⟨4,1⟩ 1 8,.close ⟨9,0⟩]
    ⟨[],[]⟩).lcList = [⟨⟨0,0⟩,0,16,47⟩,⟨⟨4,1⟩,1,48,55⟩] ∧
    (run step [.getLabelChunk ⟨9,0⟩ 0 32,.getLabelChunk ⟨4,1⟩ 1 8,.close ⟨9,0⟩]
      ⟨[],[]⟩).lcList.Pairwise (fun a b => a.end_ < b.start) :=
  ⟨by decide,(chunks_sound [.getLabelChunk ⟨9,0⟩ 0 32,.getLabelChunk ⟨4,1⟩ 1 8,.close ⟨9,0⟩] (by
    simp only [forall_mem_cons,Message.Sized]
    exact ⟨by decide,by decide,trivial,nofun⟩)).2.1⟩

/-- The largest size that is asked for wraps the bound, and then the end: the chunk is empty, and
the next one begins inside the first. -/
theorem size_wraps : (run step [.getLabelChunk ⟨9,0⟩ 0 32,.getLabelChunk ⟨4,0⟩ 0 0xffffffff,
    .getLabelChunk ⟨4,0⟩ 0 8] ⟨[],[]⟩).lcList =
    [⟨⟨9,0⟩,0,16,47⟩,⟨⟨4,0⟩,0,48,46⟩,⟨⟨4,0⟩,0,47,54⟩] := by decide

end Frr.LabelManager
