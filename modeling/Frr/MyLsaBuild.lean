import Frr.MyLsa

/-! How `originate_my_lsa` builds its LSA: it copies the interfaces into arrays for three of them,
with a helper that walks the whole list, and describes those it finds there. -/
namespace Frr.MyLsa

open Frr.Ospf List

section

/-- What is written about an interface, whether its link is usable, and the counter the pluglet
takes for the mark of a slot in use. -/
structure Interface where
  port : Port
  operative : Bool
  helloOut : UInt32
  deriving DecidableEq

/-- The length of the arrays `oi_list`, `oi_list_addresses` and `i_list`. -/
def arraySize : Nat := 3

/-- Which allocations succeed, which entries of `i_list` are not zero before they are set, and the
value of `cnt`, which never is. -/
structure Memory where
  area : Bool
  ospf : Bool
  oiList : Bool
  oiListAddresses : Bool
  iList : Bool
  oi : Fin arraySize → Bool
  ifp : Fin arraySize → Bool
  stream : Bool
  stale : Fin arraySize → Bool
  cnt : UInt16

/-- No LSA, an access to foreign memory, or an LSA with this body and length. -/
inductive Outcome where
  | returned
  | outside
  | built (body : List UInt32) (length : UInt16)
  deriving DecidableEq

def slot (interfaces : List Interface) (i : Fin arraySize) : Option Interface :=
  interfaces[i.val]?.filter fun oi => oi.helloOut ≠ 0xffffffff

def slotLinks (interfaces : List Interface) : List UInt32 :=
  (finRange arraySize).flatMap fun i =>
    match slot interfaces i with
    | none => []
    | some oi => oi.port.links

/-- `get_ospf` does not look at the pointer it copies to, `get_ospf_interface_list` neither at the
array nor at its length. -/
def originateMyLsa (m : Memory) (interfaces : List Interface) : Outcome :=
  if m.area = false then .returned
  else if m.ospf = false then .outside
  else if m.oiList = false ∨ m.iList = false ∨ ∃ i, m.oi i = false then .returned
  else if m.oiListAddresses = false ∧ interfaces ≠ [] ∨ arraySize < interfaces.length then .outside
  else if ∃ i, slot interfaces i ≠ none ∧ m.ifp i = false then .returned
  else if m.stream = false then .outside
  -- The state of the interface is read through the null pointer of an empty slot.
  else if (∃ i, slot interfaces i = none ∧ m.stale i = true) ∨ m.oiListAddresses = false then
    .outside
  else
    let body := m.cnt.toUInt32 :: slotLinks interfaces
    .built body (UInt16.ofNat (Lsa.headerSize+4*body.length))

/-- `lsa_link_broadcast_set` of the router-LSA: link id, link data, type and cost. -/
def lsaLinkBroadcastSet (port : Port) : List UInt32 :=
  let mask := masklen2ip port.masklen
  let stub := [port.address &&& mask, mask,
    RouterLink.stub.toUInt32 <<< 24 ||| port.outputCost.toUInt32]
  if port.state = .waiting then stub
  else if (port.drState.any fun state => state = .full ∨ port.address = port.dr) ∧
      0 < port.fullNbrs then
    [port.dr, port.address, RouterLink.transit.toUInt32 <<< 24 ||| port.linkCost.toUInt32]
  else stub

def routerLinkId (port : Port) : UInt32 := (lsaLinkBroadcastSet port).headD 0

/-- An interface that is up, as `router_lsa_link_set` tests it, and broadcast. -/
def Interface.described (i : Interface) : Bool :=
  i.operative ∧ i.port.state ≠ .down ∧ i.port.type = .broadcast

/-- `struct my_link`. -/
structure MyLink where
  linkId : UInt32
  linkData : UInt32
  typeTosMetric : UInt32
  color : UInt32
  deriving DecidableEq

def myLinks : List UInt32 → List MyLink
  | linkId :: linkData :: typeTosMetric :: color :: rest =>
    ⟨linkId, linkData, typeTosMetric, color⟩ :: myLinks rest
  | _ => []

/-- `sizeof(struct my_link)`. -/
def myLinkSize : Nat := 16

def MyLink.signature (l : MyLink) : UInt32 × UInt32 := (l.linkId, l.color)

def Interface.signature (i : Interface) : UInt32 × UInt32 := (routerLinkId i.port, i.port.colour)

/-- One link for each broadcast interface that is up, with its link id and colour, the number of
links, and the length. -/
structure Exact (interfaces : List Interface) (body : List UInt32) (length : UInt16) : Prop where
  links : (myLinks body.tail).map MyLink.signature =
    (interfaces.filter Interface.described).map Interface.signature
  count : (body.headD 0).toUInt16.toNat = (myLinks body.tail).length
  length : length.toNat = Lsa.headerSize+4+myLinkSize * (myLinks body.tail).length

def Keeps (interfaces : List Interface) : Outcome → Prop
  | .returned => True
  | .outside => False
  | .built body length => Exact interfaces body length

def Interface.written (i : Interface) : Bool :=
  i.helloOut ≠ 0xffffffff ∧ i.port.state ≠ .down ∧ i.port.type = .broadcast

/-- No memory for an array or a copy that it checks. -/
def GivesUp (m : Memory) (interfaces : List Interface) : Prop :=
  m.oiList = false ∨ m.iList = false ∨ (∃ i, m.oi i = false) ∨
    (m.oiListAddresses = true ∨ interfaces = []) ∧ interfaces.length ≤ arraySize ∧
      ∃ i, slot interfaces i ≠ none ∧ m.ifp i = false

structure Suits (m : Memory) (interfaces : List Interface) : Prop where
  addresses : m.oiListAddresses = true
  room : interfaces.length ≤ arraySize
  stream : m.stream = true
  clean : ∀ i, slot interfaces i = none → m.stale i = false
  same : (interfaces.filter Interface.written).map Interface.signature =
    (interfaces.filter Interface.described).map Interface.signature
  count : m.cnt.toNat = (interfaces.filter Interface.written).length

end

section

theorem links_eq (port : Port) : port.links =
    if port.state ≠ .down ∧ port.type = .broadcast then linkBroadcastSet port port.colour else [] := by
  unfold Port.links
  by_cases hd : port.state = .down
  · simp [hd]
  · cases kind : port.type <;> simp [hd]

theorem linkBroadcastSet_eq (port : Port) (colour : UInt32) : ∃ linkData typeTosMetric,
    linkBroadcastSet port colour = [routerLinkId port, linkData, typeTosMetric, colour] := by
  unfold linkBroadcastSet routerLinkId lsaLinkBroadcastSet
  by_cases hw : port.state = .waiting
  · simp [hw,linkInfo]
  by_cases transit : (port.drState.any fun state => state = .full ∨ port.address = port.dr) ∧
      0 < port.fullNbrs
  · simp only [hw,transit,↓reduceIte]
    exact ⟨_,_,rfl⟩
  simp only [hw,transit,↓reduceIte]
  exact ⟨_,_,rfl⟩

theorem myLinks_written (ifs : List Interface) : ∃ links : List MyLink,
    ifs.flatMap (fun i => linkBroadcastSet i.port i.port.colour) =
      links.flatMap (fun l => [l.linkId, l.linkData, l.typeTosMetric, l.color]) ∧
    links.map MyLink.signature = ifs.map Interface.signature := by
  induction ifs with
  | nil => exact ⟨[],rfl,rfl⟩
  | cons i rest ih =>
    obtain ⟨links,words,eq⟩ := ih
    obtain ⟨linkData,typeTosMetric,hh⟩ := linkBroadcastSet_eq i.port i.port.colour
    refine ⟨⟨routerLinkId i.port,linkData,typeTosMetric,i.port.colour⟩ :: links,?_,?_⟩
    · simp [flatMap_cons,hh,words]
    · simp [map_cons,eq,MyLink.signature,Interface.signature]

theorem myLinks_words (links : List MyLink) :
    myLinks (links.flatMap fun l => [l.linkId, l.linkData, l.typeTosMetric, l.color]) = links := by
  induction links with
  | nil => rfl
  | cons l rest ih => simp [myLinks,ih]

theorem written_cons (i : Interface) (rest : List Interface) :
    ((i :: rest).filter Interface.written).flatMap (fun i => linkBroadcastSet i.port i.port.colour) =
      (if i.helloOut ≠ 0xffffffff then i.port.links else []) ++
        (rest.filter Interface.written).flatMap fun i => linkBroadcastSet i.port i.port.colour := by
  rw [links_eq]
  by_cases hu : i.helloOut = 0xffffffff
  · simp [Interface.written,hu]
  by_cases hs : i.port.state ≠ .down ∧ i.port.type = .broadcast
  · simp [Interface.written,hu,hs]
  have hidden : i.written = false := by simpa [Interface.written,hu] using hs
  simp [hidden,hu,hs]

theorem flatMap_range_getElem {α β : Type} (f : Option α → List β) (he : f none = []) :
    ∀ (list : List α) (n : Nat), list.length ≤ n →
      (range n).flatMap (fun i => f list[i]?) = list.flatMap fun a => f (some a)
  | [], n, _ => by simp [he]
  | a :: rest, 0, hs => by simp at hs
  | a :: rest, n + 1, hs => by
    rw [range_succ_eq_map,flatMap_cons,flatMap_map,flatMap_cons]
    exact congrArg _ (flatMap_range_getElem f he rest n (by simpa using hs))

theorem slotLinks_eq {ifs : List Interface} (room : ifs.length ≤ arraySize) :
    slotLinks ifs = (ifs.filter Interface.written).flatMap
      fun i => linkBroadcastSet i.port i.port.colour := by
  let links (oi : Option Interface) : List UInt32 :=
    match oi.filter fun oi => oi.helloOut ≠ 0xffffffff with
    | none => []
    | some oi => oi.port.links
  have slots : slotLinks ifs = (range arraySize).flatMap fun i => links ifs[i]? := by
    rw [← map_coe_finRange_eq_range,flatMap_map]
    rfl
  rw [slots,flatMap_range_getElem links rfl ifs arraySize room]
  clear slots room
  induction ifs with
  | nil => rfl
  | cons i rest ih =>
    rw [flatMap_cons,written_cons,ih]
    by_cases hu : i.helloOut = 0xffffffff <;> simp [links,Option.filter,hu]

end

theorem exact_iff {interfaces : List Interface} (room : interfaces.length ≤ arraySize)
    (cnt : UInt16) :
    Exact interfaces (cnt.toUInt32 :: slotLinks interfaces)
      (UInt16.ofNat (Lsa.headerSize+4 * (cnt.toUInt32 :: slotLinks interfaces).length)) ↔
    (interfaces.filter Interface.written).map Interface.signature =
      (interfaces.filter Interface.described).map Interface.signature ∧
    cnt.toNat = (interfaces.filter Interface.written).length := by
  obtain ⟨links,words,same⟩ := myLinks_written (interfaces.filter Interface.written)
  have read : myLinks (slotLinks interfaces) = links := by
    rw [slotLinks_eq room,words,myLinks_words]
  have size : links.length = (interfaces.filter Interface.written).length := by
    simpa using congrArg length same
  have few : links.length ≤ 3 := size ▸ (length_filter_le ..).trans room
  have long : (slotLinks interfaces).length = 4*links.length := by
    rw [slotLinks_eq room,words]
    simp [length_flatMap,mul_comm]
  have length : (UInt16.ofNat (Lsa.headerSize+4 * (cnt.toUInt32 :: slotLinks interfaces).length)).toNat
      = Lsa.headerSize+4+myLinkSize*links.length := by
    rw [length_cons,long,UInt16.toNat_ofNat',Nat.mod_eq_of_lt
      (by simp [Lsa.headerSize]; omega)]
    simp only [Lsa.headerSize,myLinkSize]
    omega
  constructor
  · rintro ⟨described,count,-⟩
    simp only [tail_cons,read,same] at described
    simp only [headD_cons,tail_cons,read,size] at count
    exact ⟨described,by simpa using count⟩
  rintro ⟨described,count⟩
  refine ⟨?_,?_,?_⟩
  · simp [tail_cons,read,same,described]
  · simp only [headD_cons,tail_cons,read,size]
    simpa using count
  simp only [tail_cons,read]
  exact length

/-- The pluglet gives up before, or memory and interfaces suit it. -/
theorem keeps_iff_suits (m : Memory) (interfaces : List Interface) :
    Keeps interfaces (originateMyLsa m interfaces) ↔
      m.area = false ∨ m.ospf ∧ (GivesUp m interfaces ∨ Suits m interfaces) := by
  unfold originateMyLsa
  by_cases area : m.area = false
  · rw [if_pos area]
    exact iff_of_true trivial (.inl area)
  rw [if_neg area]
  by_cases ospf : m.ospf = false
  · rw [if_pos ospf]
    refine iff_of_false id ?_
    rintro (none | ⟨some,-⟩)
    · exact area none
    · simp [ospf] at some
  have goOn : (m.area = false ∨ m.ospf ∧ (GivesUp m interfaces ∨ Suits m interfaces)) ↔
      GivesUp m interfaces ∨ Suits m interfaces := by
    simp [area,Bool.eq_true_of_not_eq_false ospf]
  rw [if_neg ospf,goOn]
  by_cases arrays : m.oiList = false ∨ m.iList = false ∨ ∃ i, m.oi i = false
  · rw [if_pos arrays]
    exact iff_of_true trivial (.inl (arrays.imp_right (Or.imp_right .inl)))
  rw [if_neg arrays]
  have hl : GivesUp m interfaces ↔ (m.oiListAddresses ∨ interfaces = []) ∧
      interfaces.length ≤ arraySize ∧ ∃ i, slot interfaces i ≠ none ∧ m.ifp i = false := by
    simp only [not_or] at arrays
    simp [GivesUp,arrays,false_or,Bool.true_eq_false]
  rw [hl]
  by_cases overrun : m.oiListAddresses = false ∧ interfaces ≠ [] ∨ arraySize < interfaces.length
  · rw [if_pos overrun]
    refine iff_of_false id ?_
    rintro (⟨hw,room,-⟩ | suits)
    · rcases overrun with ⟨none,some⟩ | hlo
      · rcases hw with addresses | he
        · simp [none] at addresses
        · exact some he
      · omega
    · rcases overrun with ⟨none,-⟩ | hlo
      · simp [suits.addresses] at none
      · exact absurd suits.room (by omega)
  rw [if_neg overrun]
  simp only [not_or,not_and,not_not,not_lt] at overrun
  obtain ⟨hw,room⟩ := overrun
  by_cases hc : ∃ i, slot interfaces i ≠ none ∧ m.ifp i = false
  · rw [if_pos hc]
    refine iff_of_true trivial (.inl ⟨?_,room,hc⟩)
    cases addresses : m.oiListAddresses with
    | true => exact .inl rfl
    | false => exact .inr (hw addresses)
  rw [if_neg hc]
  refine .trans ?_ (or_iff_right fun gives => hc gives.2.2).symm
  by_cases stream : m.stream = false
  · rw [if_pos stream]
    refine iff_of_false id fun suits => ?_
    simp [suits.stream] at stream
  rw [if_neg stream]
  by_cases dirty : (∃ i, slot interfaces i = none ∧ m.stale i) ∨ m.oiListAddresses = false
  · rw [if_pos dirty]
    refine iff_of_false id fun suits => ?_
    rcases dirty with ⟨i,he,hs⟩ | none
    · simp [suits.clean i he] at hs
    · simp [suits.addresses] at none
  rw [if_neg dirty]
  simp only [not_or,not_exists,not_and,Bool.not_eq_true,Bool.not_eq_false] at dirty
  refine (exact_iff room m.cnt).trans ⟨?_,fun suits => ⟨suits.same,suits.count⟩⟩
  rintro ⟨eq,count⟩
  exact ⟨dirty.2,room,Bool.eq_true_of_not_eq_false stream,dirty.1,eq,count⟩

def clearedMemory : Memory :=
  ⟨true, true, true, true, true, fun _ => true, fun _ => true, true, fun _ => false, 0⟩

def lanInterfaces (number : Nat) : List Interface := replicate number ⟨lanPort 1000, true, 1⟩

/-- Even in cleared memory the LSA counts no link, and a fourth interface is written behind the
arrays. -/
theorem originateMyLsa_breaks :
    (∃ length, originateMyLsa clearedMemory (lanInterfaces 1) =
      .built [0, 0x0a000000, 0xffffff00, 0x0300000a, 2] length) ∧
    ¬ Keeps (lanInterfaces 1) (originateMyLsa clearedMemory (lanInterfaces 1)) ∧
    originateMyLsa clearedMemory (lanInterfaces 4) = .outside ∧
    ¬ Keeps (lanInterfaces 4) (originateMyLsa clearedMemory (lanInterfaces 4)) := by
  have one : originateMyLsa clearedMemory (lanInterfaces 1) =
      .built [0, 0x0a000000, 0xffffff00, 0x0300000a, 2] 40 := by decide +kernel
  have four : originateMyLsa clearedMemory (lanInterfaces 4) = .outside := by decide +kernel
  refine ⟨⟨40,one⟩,?_,four,?_⟩
  · rw [one]
    intro exact'
    exact absurd exact'.count (by decide)
  rw [four]
  exact id

end Frr.MyLsa
