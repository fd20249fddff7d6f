import Frr.Flooding

/-! The installation of LSAs in the databases, and how the router's own are numbered and where they
go. What they say, and what routes and modules for opaque LSAs decide, is left to the environment.
-/
namespace Frr.Ospf

open Lsa

structure Content where
  options : UInt8
  length : UInt16
  body : List UInt32

/-- The outcome of a module's `lsa_refresher`; it is `flush` if there is no module. -/
inductive OpaqueRefresh where
  | flush
  | nothing
  | originate (key : LsaKey) (area : Option Nat) (content : Content)

/-- What is asked of the rest of the daemon. The routes are asked about an LSA and its mask;
`opaqueInfo` is what a module registered for an LSA and has not yet scheduled for a refresh. -/
structure Env where
  content : Core → LsaKey → Content
  translated : Core → Lsa → Content
  externalInfoCheck : LsaKey → UInt32 → Bool
  redistributeCheck : LsaKey → UInt32 → Bool
  registerOpaqueLsa : Core → Instance → Bool
  opaqueRefresher : LsaKey → OpaqueRefresh
  opaqueInfo : LsaKey → Option Nat

def lsaIsSelfOriginated (core : Core) (lsa : Instance) : Bool :=
  if lsa.selfChecked then lsa.self
  else lsa.self ∨ lsa.data.advRouter = core.routerId ∨
    (lsa.data.type = routerLsa ∧ lsa.data.id = core.routerId) ∨
    (lsa.data.type = networkLsa ∧ core.oiflist.any fun oi =>
      (core.interface oi).type ≠ .virtualLink ∧ (core.interface oi).address = lsa.data.id)

def selfCheck (core : Core) (r : Nat) : Core :=
  let lsa := core.lsas r
  core.setLsa r {lsa with self := lsaIsSelfOriginated core lsa, selfChecked := true}

/-- `ospf_lsa_maxage` and `ospf_lsa_maxage_delete`. -/
def lsaMaxage (core : Core) (r : Nat) : Core :=
  if r ∈ core.maxageLsa then core else {core with maxageLsa := core.maxageLsa ++ [r]}

def lsaMaxageDelete (core : Core) (r : Nat) : Core :=
  {core with maxageLsa := core.maxageLsa.filter (· ≠ r)}

section

variable (s : State) (r : Nat)

def agedOut : Core :=
  let lsa := s.core.lsas r
  s.core.setLsa r
    {lsa with
      data := {lsa.data with lsAge := UInt16.ofNat maxAge}
      tvRecv := s.core.now
      tvOrig := s.core.now}

def lsaFlushArea (area : Nat) : State :=
  let core := agedOut s r
  ⟨lsaMaxage core r,(floodThroughArea core none r area s.net).1⟩

def lsaFlushAs : State :=
  let core := agedOut s r
  ⟨lsaMaxage core r,(floodThroughAs core none r s.net).1⟩

/-- `ospf_lsa_flush`: an LSA of another type is only made old. -/
def lsaFlush : State :=
  let lsa := s.core.lsas r
  let type := lsa.data.type
  if type = asExternalLsa ∨ type = opaqueAsLsa then lsaFlushAs s r
  else if type ∈ [routerLsa,networkLsa,summaryLsa,asbrSummaryLsa,asNssaLsa,
      opaqueLinkLsa,opaqueAreaLsa] then
    match lsa.area with
    | some area => lsaFlushArea s r area
    | none => s
  else
    ⟨s.core.setLsa r {lsa with data := {lsa.data with lsAge := UInt16.ofNat maxAge}},
      s.net⟩

end

section

/-- The database that `ospf_lsa_install` picks; the daemon asserts that there is one. -/
def installDb (type : UInt8) (area : Option Nat) : Option Db :=
  if type = asExternalLsa ∨ type = opaqueAsLsa then some .as
  else if type = asNssaLsa then some ((area.map Db.area).getD .as)
  else area.map Db.area

def wrapped : UInt32 := maxSequenceNumber+1

def prematurelyAged (now : Nat) (lsa : Instance) : Instance :=
  {lsa with
    prematureAge := lsa.prematureAge || !lsa.isMaxAge now
    data := {lsa.data with
      lsSeqnum := maxSequenceNumber
      lsAge := UInt16.ofNat maxAge}}

/-- `ospf_discard_from_db`, for the object under a key. -/
def discardFromDb (s : State) (old : Nat) : State :=
  let lsa := s.core.lsas old
  let net :=
    if lsa.data.type = asExternalLsa ∨ lsa.data.type = opaqueAsLsa then
      lsRetransmitDeleteNbrAs s.core old s.net
    else
      match lsa.area with
      | some area => lsRetransmitDeleteNbrArea s.core old s.net area
      | none => s.net
  ⟨lsaMaxageDelete s.core old,net⟩

def sealed (lsa : Instance) : Instance :=
  if lsa.self then {lsa with data := lsa.data.withChecksum} else lsa

/-- `ospf_lsdb_add` after the old LSA was discarded. -/
def store (s : State) (db : Db) (r : Nat) : State :=
  let lsa := s.core.lsas r
  let old := s.core.lookup db lsa.key
  let s := old.elim s (discardFromDb s)
  let entry := old.map fun o => Replacement.mk db lsa.key (s.core.lsas o) (sealed lsa) s.core.now
  let core := s.core.setLsa r (sealed lsa)
  {s with
    core := {core with
      lsdb := Function.update core.lsdb db ((core.lsdb db).insert lsa.key r)
      replaced := entry.toList ++ core.replaced}}

/-- `ospf_router_lsa_install` and `ospf_network_lsa_install`: the router remembers its own LSA,
unless it came back. -/
def routerLsaInstall (core : Core) (r : Nat) : Core :=
  let lsa := core.lsas r
  if lsa.self ∧ ¬ lsa.received then
    match lsa.area with
    | some a => core.setArea a {core.area a with routerLsaSelf := some r}
    | none => core
  else core

def networkLsaInstall (core : Core) (oi r : Nat) : Core :=
  let lsa := core.lsas r
  if lsa.self ∧ ¬ lsa.received then
    core.setInterface oi {core.interface oi with networkLsaSelf := some r}
  else core

/-- The end of `ospf_lsa_install`. -/
def finishInstall (s : State) (r : Nat) : State :=
  if (s.core.lsas r).isMaxAge s.core.now then ⟨lsaMaxage s.core r,s.net⟩ else s

end

section

/-- `ip_masklen` and `masklen2ip`. -/
def ipMasklen (mask : UInt32) : Nat :=
  ((List.range 32).takeWhile fun i => mask.toBitVec.getMsbD i).length

def masklen2ip (masklen : Nat) : UInt32 := UInt32.ofNat (0xffffffff * 2 ^ (32-masklen))

/-- `ospf_external_info_find_lsa` for a prefix given by an address and a mask. -/
def externalInfoFindLsa (core : Core) (address mask : UInt32) : Option Nat :=
  let mask := masklen2ip (ipMasklen mask)
  match core.lookup .as ⟨asExternalLsa,address,core.routerId⟩ with
  | none => none
  | some r =>
    if mask = (core.lsas r).data.word 0 then some r
    else core.lookup .as ⟨asExternalLsa,address ||| ~~~ mask,core.routerId⟩

def ownLsa (core : Core) (key : LsaKey) (seqnum : UInt32) (content : Content)
    (area : Option Nat) : Instance :=
  {Instance.new core.now
      { lsAge := 0, options := content.options, type := key.type, id := key.id,
        advRouter := key.advRouter, lsSeqnum := seqnum, checksum := 0,
        length := content.length, body := content.body } with
    self := true
    selfChecked := true
    area := area}

/-- `ospf_lsa_translated_nssa_new`. The number is that of the type-7 LSA. -/
def lsaTranslatedNssaNew (env : Env) (core : Core) (type7 : Lsa) : Instance :=
  {ownLsa core ⟨asExternalLsa,type7.id,core.routerId⟩ type7.lsSeqnum
      (env.translated core type7) none with
    localXlt := true}

/-- `ospf_lsa_install` where the sequence number of an own LSA has wrapped. -/
def unwrapped (core : Core) (r : Nat) : Core :=
  if (core.lsas r).data.lsSeqnum = wrapped then
    core.setLsa r (prematurelyAged core.now (core.lsas r))
  else core

/-- `ospf_lsa_install` of an own AS-external-LSA. -/
def installExternal (s : State) (r : Nat) : State :=
  finishInstall (store ⟨unwrapped s.core r,s.net⟩ .as r) r

/-- `ospf_translated_nssa_refresh` for a type-7 LSA. -/
def translatedNssaRefresh (env : Env) (s : State) (r : Nat) : State :=
  let type7 := (s.core.lsas r).data
  match externalInfoFindLsa s.core type7.id (type7.word 0) with
  | none => s
  | some type5 =>
    if (s.core.lsas type5).localXlt then
      let net := lsRetransmitDeleteNbrAs s.core type5 s.net
      let new := s.core.next
      let s := installExternal ⟨s.core.alloc (lsaTranslatedNssaNew env s.core type7),net⟩ new
      {s with net := (floodThroughAs s.core none new s.net).1}
    else s

def translatedNssaOriginate (env : Env) (s : State) (r : Nat) : State :=
  let new := s.core.next
  let s := installExternal
    ⟨s.core.alloc (lsaTranslatedNssaNew env s.core (s.core.lsas r).data),s.net⟩ new
  {s with net := (floodThroughAs s.core none new s.net).1}

end

section

variable (env : Env)

/-- An own opaque LSA that cannot be registered is refused. -/
def installType (s : State) (oi : Option Nat) (r : Nat) : State × Bool :=
  let lsa := s.core.lsas r
  let type := lsa.data.type
  if type = routerLsa then (⟨routerLsaInstall s.core r,s.net⟩,true)
  else if type = networkLsa then
    match oi with
    | some oi => (⟨networkLsaInstall s.core oi r,s.net⟩,true)
    | none => (s,true)
  else if isOpaque type then
    let core := if type = opaqueLinkLsa ∧ lsa.self then s.core.setLsa r {lsa with oi := oi}
      else s.core
    (⟨core,s.net⟩,¬ lsa.self ∨ env.registerOpaqueLsa core (core.lsas r))
  else if type = asNssaLsa ∧ ¬ lsa.self then
    let s := translatedNssaRefresh env s r
    ({s with net := s.net.emit .abrTask},true)
  else (s,true)

/-- `ospf_lsa_install`; it returns the object that is in the database. -/
def lsaInstall (s : State) (oi : Option Nat) (r : Nat) : State × Option Nat :=
  let lsa := s.core.lsas r
  match installDb lsa.data.type lsa.area with
  | none => (s,none)
  | some db =>
    if lsa.data.lsSeqnum = wrapped ∧ ¬ lsaIsSelfOriginated s.core lsa then
      (s,s.core.lookup db lsa.key)
    else
      let (s,ok) := installType env (store ⟨unwrapped s.core r,s.net⟩ db r) oi r
      if ok then (finishInstall s r,some r) else (s,none)

end

end Frr.Ospf
