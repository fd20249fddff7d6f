import Frr.Plugins
import Frr.Trace

/-! What injection leaves in the plugin table. A slot is filled before its pluglet is loaded and not
emptied when that fails, so the table stays sound exactly as long as every load succeeds. -/
namespace Frr.Plugins

open List Option Daemon Trace

def Plugin.slots (plugin : Plugin) : Anchor → List (Option Nat)
  | .pre => plugin.plugletsPre
  | .rep => [plugin.plugletRep]
  | .post => plugin.plugletsPost

def Anchor.capacity : Anchor → Nat
  | .rep => 1
  | _ => maxNbrPluglets

def Daemon.slots (d : Daemon) (id : Nat) (anchor : Anchor) : List (Option Nat) :=
  match d.plugins id with
  | none => replicate anchor.capacity none
  | some plugin => plugin.slots anchor

def FullyLoaded (d : Daemon) (owner address : Nat) : Prop :=
  ∃ vm context code, d.store address = .object ⟨some vm, some context⟩ ∧
    vm.insts = some code ∧ context.parentPlugin = owner

structure Injection where
  id : Int
  anchor : Int
  pluglet : Nat

structure Manager where
  daemon : Daemon
  log : List Injection

structure Request where
  message : Message
  answers : Answers

def Manager.initial : Manager := ⟨.initial, []⟩

def next (m : Manager) (q : Request) : Manager :=
  let result := pluginsManager m.daemon q.message q.answers
  ⟨result.2, match result.1, q.answers.pluglet with
    | true, some pluglet =>
      m.log ++ [⟨q.message.insertionPoint, q.message.anchor, pluglet⟩]
    | _, _ => m.log⟩

def injectedAt (log : List Injection) (id : Nat) (anchor : Anchor) : List Nat :=
  (log.filter fun i => i.id = (id : Int) ∧ i.anchor = anchor.code).map Injection.pluglet

structure Tidy (m : Manager) : Prop where
  loaded : ∀ id anchor address, some address ∈ m.daemon.slots id anchor →
    FullyLoaded m.daemon id address
  packed : ∀ id anchor, (injectedAt m.log id anchor).length ≤ anchor.capacity ∧
    m.daemon.slots id anchor = (injectedAt m.log id anchor).map some ++
      replicate (anchor.capacity - (injectedAt m.log id anchor).length) none

structure Orderly (m : Manager) (q : Request) : Prop where
  tidy : Tidy (next m q)
  failed : (pluginsManager m.daemon q.message q.answers).1 = false →
    ∀ id anchor, (next m q).daemon.slots id anchor = m.daemon.slots id anchor

/-- `malloc` returns memory that is not in use. -/
def FreshMemory (m : Manager) (q : Request) : Prop :=
  ∀ pluglet, q.answers.pluglet = some pluglet → m.daemon.store pluglet = .unallocated

/-- Index and anchor are valid, the anchor has an empty slot, and there is memory for the plugin and
the pluglet. -/
def AttemptsLoad (d : Daemon) (id anchor : Int) (a : Answers) : Prop :=
  ¬ (id < 0 ∨ (maxNbrPlugins : Int) - 1 < id) ∧ a.pluglet ≠ none ∧
    ∃ plugin, pluginAt d id.toNat a = some plugin ∧ plugin.create anchor a.pluglet ≠ none

def Answers.Loads (a : Answers) : Prop := a.file = true ∧ a.vm = true ∧ a.code ≠ none

def NoFailedLoad (m : Manager) (q : Request) : Prop :=
  AttemptsLoad m.daemon q.message.insertionPoint q.message.anchor q.answers → q.answers.Loads

section

variable {d : Daemon} {id anchor : Int} {a : Answers}

@[simp] theorem setCell_setCell (addr : Nat) (fst snd : Cell) :
    (d.setCell addr fst).setCell addr snd = d.setCell addr snd := by
  simp only [setCell,Daemon.mk.injEq,true_and,and_true]
  funext other
  by_cases eq : other = addr <;> simp [eq]

@[simp] theorem setCell_same (addr : Nat) (cell : Cell) :
    (d.setCell addr cell).store addr = cell := by
  simp [setCell]

theorem setCell_other {addr other : Nat} (cell : Cell) (ne : other ≠ addr) :
    (d.setCell addr cell).store other = d.store other := by
  simp [setCell,ne]

inductive Outcome (d : Daemon) (id anchor : Int) (a : Answers) : Bool → Daemon → Prop
  | ignored : ¬ AttemptsLoad d id anchor a → Outcome d id anchor a false d
  | prepared : ¬ AttemptsLoad d id anchor a → pluginAt d id.toNat a = some plugin →
      Outcome d id anchor a false (d.setPlugin id.toNat plugin)
  | failed : AttemptsLoad d id anchor a → ¬ a.Loads → pluginAt d id.toNat a = some plugin →
      plugin.create anchor (some pluglet) = some filled →
      (cell = .uninitialised ∨ cell = .unallocated) →
      Outcome d id anchor a false ((d.setPlugin id.toNat filled).setCell pluglet cell)
  | loaded : AttemptsLoad d id anchor a → a.Loads → a.pluglet = some pluglet →
      pluginAt d id.toNat a = some plugin →
      plugin.create anchor (some pluglet) = some filled → vm.insts = some code →
      context.parentPlugin = id.toNat →
      Outcome d id anchor a true ((d.setPlugin id.toNat filled).setCell pluglet
        (.object ⟨some vm, some context⟩))

theorem fillSlot_none (slots filled : List (Option Nat))
    (res : fillSlot slots none = some filled) : filled = slots := by
  induction slots generalizing filled with
  | nil => simp [fillSlot] at res
  | cons slot rest ih =>
    cases slot with
    | none => exact (some.inj res).symm
    | some plug =>
      obtain ⟨inner,filledRest,rfl⟩ := map_eq_some_iff.mp res
      rw [ih inner filledRest]

theorem create_none {plugin filled : Plugin} (res : plugin.create anchor none = some filled) :
    filled = plugin := by
  simp only [Plugin.create] at res
  split at res
  · obtain ⟨slots,eq,rfl⟩ := map_eq_some_iff.mp res
    rw [fillSlot_none _ _ eq]
  split at res
  · cases he : plugin.plugletRep with
    | some plug => simp [he] at res
    | none =>
      simp only [he,some.injEq] at res
      rw [← res]
      cases plugin
      simp_all
  · split at res
    · obtain ⟨slots,eq,rfl⟩ := map_eq_some_iff.mp res
      rw [fillSlot_none _ _ eq]
    · contradiction

theorem injectPluglet_outcome (d : Daemon) (id anchor : Int) (a : Answers) :
    Outcome d id anchor a (injectPluglet d id anchor a).1 (injectPluglet d id anchor a).2 := by
  simp only [injectPluglet]
  split
  · next invalid => exact .ignored fun attempt => attempt.1 invalid
  next valid =>
  cases hp : pluginAt d id.toNat a with
  | none =>
    refine .ignored fun attempt => ?_
    obtain ⟨-,-,plugin,eq,-⟩ := attempt
    rw [hp] at eq
    contradiction
  | some plugin =>
    cases hc : plugin.create anchor a.pluglet with
    | none =>
      simp only [hc]
      refine .prepared (fun attempt => ?_) hp
      obtain ⟨-,-,ho,eq,possible⟩ := attempt
      obtain rfl := some.inj (hp.symm.trans eq)
      exact possible hc
    | some hf =>
      simp only [hc]
      cases memory : a.pluglet with
      | none =>
        rw [memory] at hc
        rw [create_none hc]
        exact .prepared (fun attempt => attempt.2.1 memory) hp
      | some plug =>
        have attempt : AttemptsLoad d id anchor a := ⟨valid,by simp [memory],plugin,hp,by simp [hc]⟩
        rw [memory] at hc
        simp only [loadElfFile,loadElf]
        cases file : a.file with
        | false => exact .failed attempt (by simp [Answers.Loads,file]) hp hc (.inl rfl)
        | true =>
          cases machine : a.vm with
          | false =>
            simp only [↓reduceIte,Bool.true_eq_false,setCell_setCell]
            exact .failed attempt (by simp [Answers.Loads,machine]) hp hc (.inr rfl)
          | true =>
            cases text : a.code with
            | none =>
              simp only [↓reduceIte,Bool.true_eq_false,setCell_setCell]
              exact .failed attempt (by simp [Answers.Loads,text]) hp hc (.inr rfl)
            | some code =>
              simp only [↓reduceIte,Bool.true_eq_false,setCell_setCell,initContext,setCell_same,
                setContext]
              exact .loaded attempt ⟨file,machine,by simp [text]⟩ memory hp hc rfl rfl

theorem create_slots {plugin filled : Plugin} {created : Option Nat}
    (res : plugin.create anchor created = some filled) :
    ∃ which : Anchor, anchor = which.code ∧
      fillSlot (plugin.slots which) created = some (filled.slots which) ∧
      ∀ other, other ≠ which → filled.slots other = plugin.slots other := by
  simp only [Plugin.create] at res
  split at res
  · next pre =>
    obtain ⟨slots,eq,rfl⟩ := map_eq_some_iff.mp res
    exact ⟨.pre,pre,eq,fun other ne => by cases other <;> first | rfl | contradiction⟩
  split at res
  · next rep =>
    cases he : plugin.plugletRep with
    | some plug => simp [he] at res
    | none =>
      simp only [he,some.injEq] at res
      subst res
      exact ⟨.rep,rep,by simp [Plugin.slots,he,fillSlot],
        fun other ne => by cases other <;> first | rfl | contradiction⟩
  · split at res
    · next post =>
      obtain ⟨slots,eq,rfl⟩ := map_eq_some_iff.mp res
      exact ⟨.post,post,eq,fun other ne => by cases other <;> first | rfl | contradiction⟩
    · contradiction

theorem pluginAt_slots {idx : Nat} {plugin : Plugin} (hp : pluginAt d idx a = some plugin)
    (which : Anchor) : plugin.slots which = d.slots idx which := by
  simp only [pluginAt,slots] at hp ⊢
  cases existing : d.plugins idx with
  | some ho =>
    simp only [existing,some.injEq] at hp
    rw [hp]
  | none =>
    simp only [existing] at hp
    split at hp
    · obtain rfl := some.inj hp
      cases which <;> rfl
    · contradiction

theorem setPlugin_slots_same (idx : Nat) (plugin : Plugin) (which : Anchor) :
    (d.setPlugin idx plugin).slots idx which = plugin.slots which := by
  simp [slots,setPlugin]

theorem setPlugin_slots_other {idx other : Nat} (plugin : Plugin) (which : Anchor)
    (ne : other ≠ idx) :
    (d.setPlugin idx plugin).slots other which = d.slots other which := by
  simp [slots,setPlugin,ne]

theorem prepared_slots {plugin : Plugin} {idx : Nat} (hp : pluginAt d idx a = some plugin)
    (other : Nat) (which : Anchor) :
    (d.setPlugin idx plugin).slots other which = d.slots other which := by
  by_cases eq : other = idx
  · rw [eq,setPlugin_slots_same,pluginAt_slots hp]
  · exact setPlugin_slots_other plugin which eq

theorem fillSlot_packed {present : List Nat} {room : Nat} {created : Option Nat}
    {filled : List (Option Nat)}
    (res : fillSlot (present.map some ++ replicate room none) created = some filled) :
    0 < room ∧ filled = present.map some ++ created :: replicate (room-1) none := by
  induction present generalizing filled with
  | nil =>
    cases room with
    | zero => simp [fillSlot] at res
    | succ room =>
      simp only [map_nil,nil_append,replicate_succ,fillSlot,some.injEq] at res
      exact ⟨by omega,by simp [← res]⟩
  | cons fst rest ih =>
    obtain ⟨inner,filledRest,rfl⟩ := map_eq_some_iff.mp res
    obtain ⟨some,rfl⟩ := ih filledRest
    exact ⟨some,rfl⟩

theorem fillSlot_mem {slots filled : List (Option Nat)} {plug : Nat}
    (res : fillSlot slots (some plug) = some filled) : some plug ∈ filled := by
  induction slots generalizing filled with
  | nil => simp [fillSlot] at res
  | cons slot rest ih =>
    cases slot with
    | none =>
      obtain rfl := some.inj res
      exact .head _
    | some ho =>
      obtain ⟨inner,filledRest,rfl⟩ := map_eq_some_iff.mp res
      exact .tail _ (ih filledRest)

end

section

variable {m : Manager} {q : Request}

theorem next_daemon (m : Manager) (q : Request) : (next m q).daemon =
    (injectPluglet m.daemon q.message.insertionPoint q.message.anchor q.answers).2 := rfl

theorem next_log_failed
    (hf : (pluginsManager m.daemon q.message q.answers).1 = false) :
    (next m q).log = m.log := by
  simp [next,hf]

theorem Tidy.congr {m' : Manager} (tidy : Tidy m) (log : m'.log = m.log)
    (store : m'.daemon.store = m.daemon.store)
    (slots : ∀ id anchor, m'.daemon.slots id anchor = m.daemon.slots id anchor) : Tidy m' := by
  constructor
  · intro id anchor addr mem
    rw [slots] at mem
    simpa [FullyLoaded,store] using tidy.loaded id anchor addr mem
  intro id anchor
  rw [log,slots]
  exact tidy.packed id anchor

theorem injectedAt_append (log : List Injection) (i : Injection) (id : Nat) (anchor : Anchor) :
    injectedAt (log ++ [i]) id anchor =
      if i.id = (id : Int) ∧ i.anchor = anchor.code then injectedAt log id anchor ++ [i.pluglet]
      else injectedAt log id anchor := by
  simp only [injectedAt,filter_append,map_append]
  by_cases hh : i.id = (id : Int) ∧ i.anchor = anchor.code <;> simp [hh]

theorem Anchor.code_injective {a b : Anchor} (eq : a.code = b.code) : a = b := by
  cases a <;> cases b <;> simp_all [Anchor.code]

theorem Tidy.inject (tidy : Tidy m) {idx plug : Nat} {anchor : Int}
    {plugin filled : Plugin} {vm : Vm} {ctx : Context} {code : List UInt64}
    (hf : m.daemon.store plug = .unallocated)
    (hp : ∀ which, plugin.slots which = m.daemon.slots idx which)
    (hc : plugin.create anchor (some plug) = some filled)
    (text : vm.insts = some code) (par : ctx.parentPlugin = idx) :
    Tidy ⟨(m.daemon.setPlugin idx filled).setCell plug (.object ⟨some vm, some ctx⟩),
      m.log ++ [⟨idx, anchor, plug⟩]⟩ := by
  obtain ⟨which,rfl,fills,others⟩ := create_slots hc
  obtain ⟨atMost,hpa⟩ := tidy.packed idx which
  rw [hp,hpa] at fills
  obtain ⟨room,shape⟩ := fillSlot_packed fills
  -- The slots of the daemon afterwards, anchor by anchor.
  have slots : ∀ id anchor, ((m.daemon.setPlugin idx filled).setCell plug
      (.object ⟨some vm, some ctx⟩)).slots id anchor =
        if id = idx ∧ anchor = which then filled.slots which else m.daemon.slots id anchor := by
    intro id anchor
    show (m.daemon.setPlugin idx filled).slots id anchor = _
    by_cases hh : id = idx
    · subst id
      rw [setPlugin_slots_same]
      by_cases eq : anchor = which
      · simp [eq]
      · simp [eq,others anchor eq,hp]
    · simp [hh,setPlugin_slots_other filled anchor hh]
  constructor
  · intro id anchor addr mem
    rw [slots] at mem
    have old : some addr ∈ m.daemon.slots id anchor → FullyLoaded
        ((m.daemon.setPlugin idx filled).setCell plug (.object ⟨some vm, some ctx⟩))
        id addr := by
      intro mem
      obtain ⟨vm',ctx',code',obj,rest⟩ := tidy.loaded id anchor addr mem
      have ne : addr ≠ plug := by
        rintro rfl
        rw [hf] at obj
        contradiction
      exact ⟨vm',ctx',code',by rw [setCell_other _ ne]; exact obj,rest⟩
    split at mem
    · next hh =>
      obtain ⟨rfl,rfl⟩ := hh
      rw [shape] at mem
      rcases mem_append.mp mem with hb | ha
      · exact old (hpa ▸ mem_append_left _ hb)
      rcases mem_cons.mp ha with new | none
      · obtain rfl := some.inj new
        exact ⟨vm,ctx,code,setCell_same _ _,text,par⟩
      · exact absurd (eq_of_mem_replicate none) (by simp)
    · exact old mem
  · intro id anchor
    simp only [injectedAt_append,slots]
    by_cases hh : id = idx ∧ anchor = which
    · obtain ⟨rfl,rfl⟩ := hh
      simp only [and_self,↓reduceIte,length_append,length_cons,length_nil,
        map_append,map_cons,map_nil,append_assoc]
      refine ⟨by omega,?_⟩
      rw [shape,Nat.sub_sub]
      rfl
    · have he : ¬ ((idx : Int) = id ∧ which.code = anchor.code) := by
        rintro ⟨idx',code'⟩
        exact hh ⟨by omega,(Anchor.code_injective code').symm⟩
      rw [if_neg hh]
      simp only [he,↓reduceIte]
      exact tidy.packed id anchor

theorem orderly_iff (tidy : Tidy m) (hfr : FreshMemory m q) : Orderly m q ↔ NoFailedLoad m q := by
  have out := injectPluglet_outcome m.daemon q.message.insertionPoint q.message.anchor q.answers
  have daemon := next_daemon m q
  have verdict : (pluginsManager m.daemon q.message q.answers).1 =
    (injectPluglet m.daemon q.message.insertionPoint q.message.anchor q.answers).1 := rfl
  generalize (injectPluglet m.daemon q.message.insertionPoint q.message.anchor q.answers).1 = ok
    at out verdict
  generalize (injectPluglet m.daemon q.message.insertionPoint q.message.anchor q.answers).2 = d'
    at out daemon
  cases out with
  | ignored none =>
    refine iff_of_true ⟨tidy.congr (next_log_failed verdict) (by rw [daemon])
      (by rw [daemon]; exact fun _ _ => rfl),?_⟩ (fun attempt => absurd attempt none)
    rw [daemon]
    exact fun _ _ _ => rfl
  | prepared none hp =>
    refine iff_of_true ⟨tidy.congr (next_log_failed verdict) (by rw [daemon]; rfl)
      (by rw [daemon]; exact prepared_slots hp),?_⟩ (fun attempt => absurd attempt none)
    rw [daemon]
    exact fun _ => prepared_slots hp
  | failed attempt fails hp hc broken =>
    rename_i plugin plug hf cell
    refine iff_of_false (fun ho => ?_) (fun loads => fails (loads attempt))
    -- The slot now names a pluglet that is no object.
    obtain ⟨which,-,fills,-⟩ := create_slots hc
    have mem : some plug ∈ (next m q).daemon.slots q.message.insertionPoint.toNat which := by
      rw [daemon]
      show some plug ∈ (m.daemon.setPlugin _ hf).slots _ which
      rw [setPlugin_slots_same]
      exact fillSlot_mem fills
    obtain ⟨vm,ctx,code,obj,-⟩ := ho.tidy.loaded _ _ _ mem
    rw [daemon,setCell_same] at obj
    rcases broken with rfl | rfl <;> contradiction
  | loaded attempt loads memory hp hc text par =>
    rename_i plug plugin hf code vm ctx
    refine iff_of_true ⟨?_,by simp [verdict]⟩ (fun _ => loads)
    have idx : (q.message.insertionPoint.toNat : Int) = q.message.insertionPoint :=
      Int.toNat_of_nonneg (by have := attempt.1; omega)
    have ha : next m q = ⟨(m.daemon.setPlugin q.message.insertionPoint.toNat hf).setCell
        plug (.object ⟨some vm, some ctx⟩),
        m.log ++ [⟨q.message.insertionPoint.toNat, q.message.anchor, plug⟩]⟩ := by
      rw [idx,← daemon]
      simp [next,verdict,memory]
    rw [ha]
    exact tidy.inject (hfr plug memory) (pluginAt_slots hp) hc text par

end

theorem initial_tidy : Tidy .initial := by
  constructor
  · intro id anchor addr mem
    exact absurd (eq_of_mem_replicate mem) (by simp)
  intro id anchor
  simp [Manager.initial,injectedAt,initial,slots]

/-- The table holds only loaded pluglets, in injection order, and failed messages leave no trace,
exactly when every file the manager sets out to load is loaded. -/
theorem slots_sound_iff_loads_succeed (requests : List Request)
    (fresh : Throughout next FreshMemory requests .initial) :
    Throughout next Orderly requests .initial ↔
      Throughout next NoFailedLoad requests .initial := by
  have tidy := initial_tidy
  generalize Manager.initial = m at fresh tidy
  induction requests generalizing m with
  | nil => exact Iff.rfl
  | cons q requests ih =>
    have step := orderly_iff tidy fresh.1
    rw [throughout_cons,throughout_cons,step]
    exact and_congr_right fun loads => ih _ fresh.2 (step.mpr loads).tidy

/-- Messages for `SEND_PACKET`, anchor `PRE`, with the address of the pluglet; the file is there or
not. -/
def sendPacketRequest (file : Bool) (pluglet : Nat) : Request :=
  ⟨⟨800, "/plugins/send_packet.o"⟩, ⟨true, some pluglet, file, true, some [0x95]⟩⟩

theorem slots_sound_after_two_loads :
    Throughout next Orderly [sendPacketRequest true 100, sendPacketRequest true 200]
      .initial := by
  refine (slots_sound_iff_loads_succeed [sendPacketRequest true 100, sendPacketRequest true 200]
    ⟨?_,?_,trivial⟩).mpr ⟨fun _ => ⟨rfl,rfl,nofun⟩,fun _ => ⟨rfl,rfl,nofun⟩,trivial⟩
  · intro plug memory
    obtain rfl : 100 = plug := some.inj memory
    rfl
  intro plug memory
  obtain rfl : 200 = plug := some.inj memory
  rfl

/-- The slot names an uninitialised pluglet. -/
theorem unreadable_file_fills_slot :
    Throughout next FreshMemory [sendPacketRequest false 100] .initial ∧
    ¬ Throughout next Orderly [sendPacketRequest false 100] .initial := by
  refine ⟨⟨?_,trivial⟩,?_⟩
  · intro pluglet memory
    obtain rfl : 100 = pluglet := some.inj memory
    rfl
  rintro ⟨ho,-⟩
  obtain ⟨vm,ctx,code,obj,-⟩ := ho.tidy.loaded 8 .pre 100 (.head _)
  have broken : (next .initial (sendPacketRequest false 100)).daemon.store 100 =
    .uninitialised := rfl
  rw [broken] at obj
  contradiction

end Frr.Plugins
