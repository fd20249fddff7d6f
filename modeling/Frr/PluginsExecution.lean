import Frr.PluginsInjection

/-! The lock around the execution of a pluglet. It is released only on the path that ran the
pluglet, so a `NULL` pluglet or a failed translation leaves the daemon waiting for itself. -/
namespace Frr.Plugins

open Daemon Trace

structure Quiet (d : Daemon) : Prop where
  running : d.status = .running
  unlocked : d.lockCurrentContext = false
  cleared : d.currentContext = none
  own : ∀ run ∈ d.ran, run.2 = some run.1

def Released (jit : Bool) (d : Daemon) (event : Event) : Prop :=
  Throughout (execute event.engine) (fun d x => Quiet (execute event.engine d x))
    (arrive jit d event).2 (arrive jit d event).1 ∧ Quiet (step jit d event)

/-- A loaded pluglet of an existing plugin, translated or translatable when that is asked for. -/
def Runs (e : Engine) (d : Daemon) (x : Execution) : Prop :=
  ∃ pluglet vm context plugin, x.pluglet = some pluglet ∧
    d.store pluglet = .object ⟨some vm, some context⟩ ∧
    d.plugins context.parentPlugin = some plugin ∧
    (x.executor = .compileAndExecJit →
      vm.jitted = true ∨ vm.insts ≠ none ∧ e.compiles pluglet = true)

def Runnable (jit : Bool) (d : Daemon) (event : Event) : Prop :=
  ∀ x ∈ (arrive jit d event).2, Runs event.engine (arrive jit d event).1 x

section

variable {d : Daemon} {e : Engine} {x : Execution}

def Context.reset (context : Context) : Context :=
  {context with originalArg := none, heap := none, typeArg := -1}

def Daemon.ranPluglet (d : Daemon) (pluglet : Nat) (vm : Vm) (context : Context) : Daemon :=
  {d.setCell pluglet (.object ⟨some vm, some context⟩) with
    currentContext := none, lockCurrentContext := false, ran := (pluglet, some pluglet) :: d.ran}

theorem runPluglet_loaded {plug : Nat} {vm : Vm} {ctx : Context} {plugin : Plugin}
    (obj : d.store plug = .object ⟨some vm, some ctx⟩)
    (par : d.plugins ctx.parentPlugin = some plugin) (mem : Option Nat)
    (val : Vm → UInt64) :
    (runPluglet d plug mem val).2 = d.ranPluglet plug vm ctx.reset := by
  simp only [runPluglet,obj,par,ranPluglet,setContext,setCell,
    Context.reset,Daemon.mk.injEq,true_and,and_true]
  funext other
  by_cases eq : other = plug <;> simp [eq]

theorem ubpfCompile_some {plug : Nat} {vm : Vm}
    (able : vm.jitted ∨ vm.insts ≠ none ∧ e.compiles plug) :
    ubpfCompile e plug vm = some {vm with jitted := true} := by
  rcases able with already | ⟨code,compiles⟩
  · cases vm
    simp_all [ubpfCompile]
  cases text : vm.insts with
  | none => exact absurd text code
  | some insts =>
    cases already : vm.jitted with
    | false => simp [ubpfCompile,already,text,compiles]
    | true =>
      cases vm
      simp_all [ubpfCompile]

theorem ubpfCompile_none {plug : Nat} {vm : Vm}
    (unable : ¬ (vm.jitted ∨ vm.insts ≠ none ∧ e.compiles plug)) :
    ubpfCompile e plug vm = none := by
  simp only [not_or,not_and] at unable
  cases text : vm.insts with
  | none => simp [ubpfCompile,unable.1,text]
  | some insts => simp [ubpfCompile,unable.1,text,unable.2 (by simp [text])]

theorem execute_runs (hq : Quiet d) (runs : Runs e d x) :
    ∃ plug vm vm' ctx context' plugin, x.pluglet = some plug ∧
      d.store plug = .object ⟨some vm, some ctx⟩ ∧
      d.plugins ctx.parentPlugin = some plugin ∧
      execute e d x = d.ranPluglet plug vm' context' ∧
      context'.parentPlugin = ctx.parentPlugin ∧ vm'.insts = vm.insts ∧
      (vm'.jitted = vm.jitted ∨ vm.jitted ∨ vm.insts ≠ none ∧ e.compiles plug) ∧
      (vm.jitted → vm'.jitted) := by
  obtain ⟨plug,vm,ctx,plugin,hn,obj,par,able⟩ := runs
  obtain ⟨executor,tgt,mem⟩ := x
  obtain rfl : tgt = some plug := hn
  cases executor with
  | execLoadedCode =>
    refine ⟨plug,vm,vm,ctx,ctx.reset,plugin,rfl,obj,par,?_,rfl,rfl,.inl rfl,id⟩
    have ha : execute e d ⟨.execLoadedCode, some plug, mem⟩ =
        (runPluglet {d with lockCurrentContext := true} plug mem (ubpfExec e plug)).2 := by
      simp [execute,hq.running,hq.unlocked,execLoadedCode]
    rw [ha]
    exact runPluglet_loaded (d := {d with lockCurrentContext := true}) obj par mem _
  | compileAndExecJit =>
    have able := able rfl
    refine ⟨plug,vm,{vm with jitted := true},ctx,ctx.reset,plugin,rfl,obj,par,
      ?_,rfl,rfl,.inr able,fun _ => rfl⟩
    let hc : Daemon := setCell {d with lockCurrentContext := true} plug
      (.object ⟨some {vm with jitted := true}, some ctx⟩)
    have ha : execute e d ⟨.compileAndExecJit, some plug, mem⟩ =
        (runPluglet hc plug mem (fun _ => e.result plug)).2 := by
      simp [execute,hq.running,hq.unlocked,compileAndExecJit,obj,ubpfCompile_some able,hc]
    have obj' : hc.store plug = .object ⟨some {vm with jitted := true}, some ctx⟩ :=
      setCell_same _ _
    rw [ha,runPluglet_loaded obj' par]
    simp only [hc,ranPluglet,setCell,Daemon.mk.injEq,true_and,and_true]
    funext other
    by_cases eq : other = plug <;> simp [eq]

def Dead (d : Daemon) : Prop := d.status ≠ .running ∨ d.lockCurrentContext = true

theorem execute_stuck_dead (hq : Quiet d) (stuck : ¬ Runs e d x) :
    (execute e d x).ran = d.ran ∧ Dead (execute e d x) := by
  obtain ⟨executor,tgt,mem⟩ := x
  have hw : ∀ (d' : Daemon) plug val, d'.store = d.store → d'.plugins = d.plugins →
      (∀ vm ctx plugin, d.store plug = .object ⟨some vm, some ctx⟩ →
        d.plugins ctx.parentPlugin = some plugin → False) →
      (runPluglet d' plug mem val).2 = {d' with status := .crashed} := by
    intro d' plug val store plugins hn
    simp only [runPluglet,store,plugins]
    split
    · next vm ctx obj =>
      cases par : d.plugins ctx.parentPlugin with
      | none => rfl
      | some plugin => exact (hn vm ctx plugin obj par).elim
    · rfl
  simp only [execute,hq.running,hq.unlocked,ne_eq,not_true_eq_false,↓reduceIte,Bool.false_eq_true]
  cases executor with
  | execLoadedCode =>
    cases tgt with
    | none => exact ⟨rfl,.inr rfl⟩
    | some plug =>
      simp only [execLoadedCode]
      rw [hw {d with lockCurrentContext := true} plug _ rfl rfl
        fun vm ctx plugin obj par => stuck ⟨plug,vm,ctx,plugin,rfl,obj,par,nofun⟩]
      exact ⟨rfl,.inr rfl⟩
  | compileAndExecJit =>
    cases tgt with
    | none => exact ⟨rfl,.inr rfl⟩
    | some plug =>
      simp only [compileAndExecJit]
      split
      · next vm ctx obj =>
        by_cases able : vm.jitted ∨ vm.insts ≠ none ∧ e.compiles plug
        · simp only [ubpfCompile_some able]
          cases ctx with
          | none => exact ⟨by simp [runPluglet,setCell],.inr (by simp [runPluglet,setCell])⟩
          | some ctx =>
            cases par : d.plugins ctx.parentPlugin with
            | none =>
              exact ⟨by simp [runPluglet,setCell,par],.inr (by simp [runPluglet,setCell,par])⟩
            | some plugin =>
              exact absurd ⟨plug,vm,ctx,plugin,rfl,obj,par,fun _ => able⟩ stuck
        · simp only [ubpfCompile_none able]
          exact ⟨trivial,.inr rfl⟩
      · exact ⟨rfl,.inr rfl⟩

theorem quiet_ranPluglet (hq : Quiet d) (plug : Nat) (vm : Vm) (ctx : Context) :
    Quiet (d.ranPluglet plug vm ctx) := by
  refine ⟨hq.running,rfl,rfl,fun run mem => ?_⟩
  rcases List.mem_cons.mp mem with rfl | mem
  · rfl
  · exact hq.own run mem

theorem quiet_execute_iff (hq : Quiet d) : Quiet (execute e d x) ↔ Runs e d x := by
  constructor
  · intro ha
    by_contra stuck
    rcases (execute_stuck_dead hq stuck).2 with crashed | hl
    · exact crashed ha.running
    · exact absurd ha.unlocked (by simp [hl])
  · intro runs
    obtain ⟨plug,-,vm,-,ctx,-,-,-,-,ha,-⟩ := execute_runs hq runs
    rw [ha]
    exact quiet_ranPluglet hq plug vm ctx

theorem runs_execute_iff (hq : Quiet d) (runs : Runs e d x) (y : Execution) :
    Runs e (execute e d x) y ↔ Runs e d y := by
  obtain ⟨plug,vm,vm',ctx,ctx',plugin,-,obj,par,ha,sameParent,sameCode,
    hc,hk⟩ := execute_runs hq runs
  rw [ha]
  have plugins : (d.ranPluglet plug vm' ctx').plugins = d.plugins := rfl
  have hh : (d.ranPluglet plug vm' ctx').store plug =
    .object ⟨some vm', some ctx'⟩ := setCell_same _ _
  have he : ∀ other, other ≠ plug →
      (d.ranPluglet plug vm' ctx').store other = d.store other :=
    fun other ne => setCell_other _ ne
  constructor
  · rintro ⟨tgt,vm₁,context₁,plugin₁,hn,object₁,parent₁,able⟩
    by_cases eq : tgt = plug
    · subst tgt
      rw [hh] at object₁
      simp only [Cell.object.injEq,Pluglet.mk.injEq,Option.some.injEq] at object₁
      obtain ⟨rfl,rfl⟩ := object₁
      refine ⟨plug,vm,ctx,plugin,hn,obj,par,fun jit => ?_⟩
      rcases hc with hu | able'
      · rw [← hu,← sameCode]
        exact able jit
      · exact able'
    · rw [he tgt eq] at object₁
      exact ⟨tgt,vm₁,context₁,plugin₁,hn,object₁,parent₁,able⟩
  · rintro ⟨tgt,vm₁,context₁,plugin₁,hn,object₁,parent₁,able⟩
    by_cases eq : tgt = plug
    · subst tgt
      rw [obj] at object₁
      simp only [Cell.object.injEq,Pluglet.mk.injEq,Option.some.injEq] at object₁
      obtain ⟨rfl,rfl⟩ := object₁
      refine ⟨plug,vm',ctx',plugin,hn,hh,by rw [sameParent]; exact par,fun jit => ?_⟩
      rw [sameCode]
      exact (able jit).imp_left hk
    · exact ⟨tgt,vm₁,context₁,plugin₁,hn,by rw [he tgt eq]; exact object₁,parent₁,able⟩

theorem executions_quiet_iff (hq : Quiet d) (xs : List Execution) :
    (Throughout (execute e) (fun d x => Quiet (execute e d x)) xs d ∧
      Quiet (xs.foldl (execute e) d)) ↔ ∀ x ∈ xs, Runs e d x := by
  induction xs generalizing d with
  | nil => simpa [Throughout] using hq
  | cons x rest ih =>
    rw [throughout_cons,List.foldl_cons,and_assoc,quiet_execute_iff hq,List.forall_mem_cons]
    refine and_congr_right fun runs => ?_
    rw [ih ((quiet_execute_iff hq).mpr runs)]
    exact forall₂_congr fun y _ => runs_execute_iff hq runs y

end

theorem quiet_message {d : Daemon} (hq : Quiet d) (m : Message) (a : Answers) :
    Quiet (pluginsManager d m a).2 := by
  have out := injectPluglet_outcome d m.insertionPoint m.anchor a
  unfold pluginsManager
  generalize injectPluglet d m.insertionPoint m.anchor a = result at out
  obtain ⟨ok,d'⟩ := result
  cases out <;> exact ⟨hq.running,hq.unlocked,hq.cleared,hq.own⟩

theorem quiet_arrive {d : Daemon} (hq : Quiet d) (jit : Bool) (ev : Event) :
    Quiet (arrive jit d ev).1 := by
  cases ev with
  | message m a => exact hq
  | reach p anchor block pkt e =>
    simp only [arrive]
    split
    · exact hq
    · exact ⟨hq.running,hq.unlocked,hq.cleared,hq.own⟩

theorem released_iff {d : Daemon} (hq : Quiet d) (jit : Bool) (ev : Event) :
    Released jit d ev ↔ Runnable jit d ev := by
  cases ev with
  | message m a =>
    refine iff_of_true ⟨trivial,quiet_message hq m a⟩ ?_
    simp [Runnable,arrive]
  | reach p anchor block pkt e =>
    exact executions_quiet_iff (quiet_arrive hq jit (.reach p anchor block pkt e)) _

theorem initial_quiet : Quiet .initial := ⟨rfl,rfl,rfl,by simp [initial]⟩

/-- Every executor call returns with the lock released and the context cleared exactly when every
insertion point only calls loaded pluglets that can be translated where that is asked for. -/
theorem lock_released_iff_pluglets_runnable (jit : Bool) (events : List Event) :
    Throughout (step jit) (Released jit) events .initial ↔
      Throughout (step jit) (Runnable jit) events .initial := by
  have hq := initial_quiet
  generalize initial = d at hq
  induction events generalizing d with
  | nil => exact Iff.rfl
  | cons ev events ih =>
    rw [throughout_cons,throughout_cons,released_iff hq]
    exact and_congr_right fun runnable => ih _ ((released_iff hq jit ev).mpr runnable).2

/-- With a `REP` pluglet at `SEND_PACKET`, `ospf_write` executes `NULL`: the call returns with the
lock held, and the next one never returns. -/
theorem null_pluglet_keeps_lock : ¬ Throughout (step false) (Released false)
      [.message ⟨801, "/plugins/send_packet.o"⟩ ⟨true, some 100, true, true, some [0x95]⟩,
        .reach .sendPacket .pre 0 300 ⟨fun _ => 0, fun _ => true⟩] .initial ∧
    (run (step false)
      [.message ⟨801, "/plugins/send_packet.o"⟩ ⟨true, some 100, true, true, some [0x95]⟩,
        .reach .sendPacket .pre 0 300 ⟨fun _ => 0, fun _ => true⟩,
        .reach .sendPacket .pre 0 300 ⟨fun _ => 0, fun _ => true⟩] .initial).status =
      .blocked := by
  refine ⟨?_,rfl⟩
  rintro ⟨-,released,-⟩
  have held := released.2.unlocked
  exact absurd held (by decide)

end Frr.Plugins
