import LoadableSystemCalls.ModuleUnload
import LoadableSystemCalls.RegistrationMap

/-! # Where calls go over whole runs

Calls run between registrations, forks, exits and module loads, on one world. A call sees of
the kernel only its task's entry of the registration map and that module's entry point:
whole runs simulate a machine that has nothing else. -/
namespace CallRouting

open KernelTypes TaskRegistration ReferenceCounts RegistrationMap SyscallHooks ModuleUnload
open TransitionRuns

/-- The code that calls reach. It runs as the calling task, which it sees as `current`. -/
structure Programs (W : Type*) where
  kernelCode : Pid → Addr → Call → W → BitVec 64 × W
  sysOp : Pid → Addr → Request → W → BitVec 32 × W
  sys : ℕ → Addr

variable {W : Type*}

def Programs.machine (p : Programs W) (pid : Pid) : Machine W :=
  ⟨p.kernelCode pid, p.sysOp pid, p.sys⟩

structure Made where
  pid : Pid
  call : Call
  result : BitVec 64
  invoked : List Invocation
  deriving DecidableEq, Repr

/-- `made` are the calls that have returned, oldest first. -/
structure State (W : Type*) where
  kernel : Kernel
  world : W
  made : List Made

inductive Event where
  | kernel (e : ReferenceCounts.Event)
  | call (pid : Pid) (call : Call)
  deriving DecidableEq, Repr

def Enabled (s : State W) : Event → Prop
  | .kernel e => ReferenceCounts.Enabled s.kernel e
  | .call pid _ => (findTask pid s.kernel.tasks).isSome

def outcome (p : Programs W) (s : State W) (pid : Pid) (call : Call) : Option (Outcome W) :=
  (findTask pid s.kernel.tasks).bind fun t =>
    systemCall ((p.machine pid).context s.kernel t) call s.world

def State.onKernel (s : State W) (k : Kernel) : State W := { s with kernel := k }

def State.returned (s : State W) (pid : Pid) (call : Call) (o : Outcome W) : State W :=
  { s with world := o.world, made := s.made ++ [⟨pid, call, o.result, o.invoked⟩] }

def perform (p : Programs W) (s : State W) : Event → Option (State W)
  | .kernel e => (ReferenceCounts.perform s.kernel e).map s.onKernel
  | .call pid call => (outcome p s pid call).map (s.returned pid call)

def Step (p : Programs W) (s : State W) (e : Event) (t : State W) : Prop :=
  Enabled s e ∧ perform p s e = some t

instance (s : State W) (e : Event) : Decidable (Enabled s e) := by
  cases e <;> simp only [Enabled] <;> infer_instance

def next (p : Programs W) : State W → Event → Option (State W) :=
  guardedNext Enabled (perform p)

theorem next_sound (p : Programs W) (s : State W) (e : Event) (t : State W)
    (h : next p s e = some t) : Step p s e t := guardedNext_eq_some.mp h

def Initial (s : State W) : Prop := ReferenceCounts.Initial s.kernel ∧ s.made = []

/-- `entry` gives the entry points of the loaded modules. -/
@[ext] structure Routing (W : Type*) where
  registry : Registry
  entry : Addr → Option Addr
  world : W
  made : List Made

inductive Route where
  | original
  | forbidden
  | asks (op : Addr)
  deriving DecidableEq, Repr

/-- Reads are never hooked. A module that is gone has no entry point to ask. -/
def Routing.route (a : Routing W) (pid : Pid) (call : Call) : Option Route :=
  if isRead call then some .original
  else
    match a.registry.map pid with
    | none => some .original
    | some (m, sv) =>
      if sv.getLsbD (readmeBit call) then (a.entry m).map .asks else some .forbidden

/-- The first argument of the variadic call; new_write passes 3 as well. -/
def argCount : Call → ℕ
  | .openFile .. => 4
  | .close .. | .rmdir .. | .unlink .. => 2
  | .read .. | .write .. | .rename .. | .mkdir .. | .link .. | .symlink .. => 3

def requestOf (call : Call) : Request := ⟨argCount call, call.type, call.args⟩

/-- A refusing module decides the call, an agreeing one lets the original run. -/
def take (p : Programs W) (pid : Pid) (call : Call) (w : W) : Route → Outcome W
  | .original =>
    let (result, w') := p.kernelCode pid (p.sys call.number) call w
    ⟨result, w', [.original (p.sys call.number) call]⟩
  | .forbidden => ⟨eopnotsupp, w, []⟩
  | .asks op =>
    let (ret, w') := p.sysOp pid op (requestOf call) w
    if ret.slt 0 then ⟨ret.signExtend 64, w', [.sysOp op (requestOf call)]⟩
    else
      let (result, w'') := p.kernelCode pid (p.sys call.number) call w'
      ⟨result, w'', [.sysOp op (requestOf call), .original (p.sys call.number) call]⟩

def entryStep (entry : Addr → Option Addr) : ReferenceCounts.Event → Addr → Option Addr
  | .moduleRegister m reg _ => Function.update entry m (some reg.sysOp)
  | .moduleDeregister m => Function.update entry m none
  | _ => entry

def Routing.step (p : Programs W) (a : Routing W) : Event → Routing W
  | .kernel e => { a with registry := a.registry.step e, entry := entryStep a.entry e }
  | .call pid call =>
    match a.route pid call with
    | none => a
    | some route =>
      let o := take p pid call a.world route
      { a with world := o.world, made := a.made ++ [⟨pid, call, o.result, o.invoked⟩] }

def entryPoint (k : Kernel) (m : Addr) : Option Addr := (k.mods.lookup m).map ModuleReg.sysOp

def routing (s : State W) : Routing W where
  registry := abstraction s.kernel
  entry := entryPoint s.kernel
  world := s.world
  made := s.made

def modsStep (mods : AList fun _ : Addr => ModuleReg) :
    ReferenceCounts.Event → AList fun _ : Addr => ModuleReg
  | .moduleRegister m reg _ => mods.insert m reg
  | .moduleDeregister m => mods.erase m
  | _ => mods

section
variable {p : Programs W} {s t : State W} {pid : Pid} {call : Call}

theorem installed {k : Kernel} (h : Consistent k) {t : TaskStruct} (ht : t ∈ k.tasks) :
    Installed ((p.machine pid).context k t) p.sys :=
  ⟨rfl, fun v hv => Option.isSome_iff_exists.mp (h.attached t ht v hv)⟩

theorem systemCall_unread {k : Kernel} {t : TaskStruct} (hread : isRead call = false) (w : W) :
    systemCall ((p.machine pid).context k t) call w =
      hook ((p.machine pid).context k t) call.type (argCount call) call.args
        (some (.kernel (p.sys call.number))) call w := by
  cases call with
  | read => cases hread
  | _ => rfl

theorem take_refused {op : Addr} {w : W}
    (h : (p.sysOp pid op (requestOf call) w).1.slt 0 = true) :
    take p pid call w (.asks op) =
      ⟨(p.sysOp pid op (requestOf call) w).1.signExtend 64,
        (p.sysOp pid op (requestOf call) w).2, [.sysOp op (requestOf call)]⟩ :=
  if_pos h

theorem take_agreed {op : Addr} {w : W}
    (h : ¬ (p.sysOp pid op (requestOf call) w).1.slt 0 = true) :
    take p pid call w (.asks op) =
      let o := take p pid call (p.sysOp pid op (requestOf call) w).2 .original
      { o with invoked := .sysOp op (requestOf call) :: o.invoked } :=
  if_neg h

theorem hook_take {c : Context W} {v : NewSysVector} {r : ModuleReg}
    (hv : c.sysVector = some v) (hr : c.mods.lookup v.moduleAddr = some r)
    (hcode : c.kernelCode = p.kernelCode pid) (hop : c.sysOp = p.sysOp pid) (w : W) :
    hook c call.type (argCount call) call.args (some (.kernel (p.sys call.number))) call w =
      some (take p pid call w
        (if v.sv.getLsbD (readmeBit call) then .asks r.sysOp else .forbidden)) := by
  cases hbit : v.sv.getLsbD (readmeBit call) with
  | false => simp [hook, hv, opAllowed_eq, hbit, take]
  | true =>
    simp only [hook, hv, opAllowed_eq, hbit, if_true, hr, hop]
    by_cases hneg : (p.sysOp pid r.sysOp (requestOf call) w).1.slt 0
    · rw [take_refused hneg]
      exact if_pos hneg
    · rw [take_agreed hneg]
      refine (if_neg hneg).trans ?_
      rw [callOriginal, kernelCall, hcode]
      rfl

theorem outcome_routed (h : Consistent s.kernel) (hlive : (findTask pid s.kernel.tasks).isSome)
    (call : Call) :
    ∃ route, (routing s).route pid call = some route ∧
      outcome p s pid call = some (take p pid call s.world route) := by
  obtain ⟨t, ht⟩ := Option.isSome_iff_exists.mp hlive
  have hmem := (KeyedList.mem_of_lookup ht).1
  have hinst : Installed ((p.machine pid).context s.kernel t) p.sys := installed h hmem
  have hmap : (routing s).registry.map pid = t.sysVector.map entryOf := by
    simp [routing, abstraction, registration, ht]
  rw [outcome, ht, Option.bind_some, Routing.route, hmap]
  cases hread : isRead call with
  | true => exact ⟨.original, rfl, systemCall_read hinst hread s.world⟩
  | false =>
    rw [systemCall_unread hread]
    cases hv : t.sysVector with
    | none =>
      refine ⟨.original, rfl, ?_⟩
      have hnone : ((p.machine pid).context s.kernel t).sysVector = none := hv
      simp only [hook, hnone]
      rfl
    | some v =>
      obtain ⟨r, hr⟩ := hinst.loaded v hv
      have hentry : (routing s).entry v.moduleAddr = some r.sysOp := congrArg (Option.map _) hr
      refine ⟨_, ?_, hook_take hv hr rfl rfl s.world⟩
      simp only [Option.map_some, entryOf, hentry]
      cases v.sv.getLsbD (readmeBit call) <;> rfl

theorem mods_step {k k' : Kernel} (h : Invariant k) {e : ReferenceCounts.Event}
    (hs : ReferenceCounts.Step k e k') : k'.mods = modsStep k.mods e := by
  obtain ⟨he, hk⟩ := hs
  cases e with
  | moduleRegister m reg node =>
    obtain ⟨k₁, hk₁, hm, -⟩ := loadModule_accounted h.consistent he.1
    obtain rfl := Option.some.inj (hk₁.symm.trans hk)
    exact hm
  | moduleDeregister m =>
    obtain ⟨r, hr, hz⟩ := unused_iff.mp he
    obtain ⟨k₁, hk₁, hm, -⟩ := unloadModule_accounted h.consistent hr (h.getModule hr) hz
    obtain rfl := Option.some.inj (hk₁.symm.trans hk)
    exact hm
  | ioctlSet => exact ioctl_kept h.consistent hk
  | clone2 => exact ioctl_kept h.consistent hk
  | fork =>
    obtain ⟨t, ht⟩ := Option.isSome_iff_exists.mp he.1
    obtain ⟨k₁, hk₁, -, hm, -⟩ := forkTask_accounted h.consistent ht he.2
    obtain rfl := Option.some.inj (hk₁.symm.trans hk)
    exact hm
  | exitGroup =>
    obtain ⟨t, ht⟩ := Option.isSome_iff_exists.mp he
    obtain ⟨k₁, k₂, -, hk₂, hr, rfl, -⟩ := exitTask_accounted h.consistent ht
    obtain rfl := Option.some.inj (hk₂.symm.trans hk)
    exact hr.mods

theorem entryPoint_step {k k' : Kernel} (h : Invariant k) {e : ReferenceCounts.Event}
    (hs : ReferenceCounts.Step k e k') : entryPoint k' = entryStep (entryPoint k) e := by
  have hmods := mods_step h hs
  funext x
  rw [entryPoint, hmods]
  cases e with
  | moduleRegister m reg node =>
    rw [modsStep, entryStep]
    by_cases hx : x = m
    · subst hx
      simp
    · rw [Function.update_of_ne hx, AList.lookup_insert_ne hx]
      rfl
  | moduleDeregister m =>
    rw [modsStep, entryStep]
    by_cases hx : x = m
    · subst hx
      simp
    · rw [Function.update_of_ne hx, AList.lookup_erase_ne hx]
      rfl
  | _ => rfl

theorem call_step (h : Consistent s.kernel) (hs : Step p s (.call pid call) t) :
    ∃ route, (routing s).route pid call = some route ∧
      t = s.returned pid call (take p pid call s.world route) := by
  obtain ⟨route, hroute, ho⟩ := outcome_routed (p := p) h hs.1 call
  refine ⟨route, hroute, ?_⟩
  have hp := hs.2
  rw [perform, ho] at hp
  exact (Option.some.inj hp).symm

theorem kernel_step {e : ReferenceCounts.Event} (hs : Step p s (.kernel e) t) :
    ∃ k, ReferenceCounts.Step s.kernel e k ∧ t = s.onKernel k := by
  obtain ⟨k, hk, rfl⟩ := Option.map_eq_some_iff.mp hs.2
  exact ⟨k, ⟨hs.1, hk⟩, rfl⟩

theorem step_invariant (s : State W) (e : Event) (t : State W) (h : Invariant s.kernel)
    (hs : Step p s e t) : Invariant t.kernel := by
  cases e with
  | kernel e =>
    obtain ⟨k, hk, rfl⟩ := kernel_step hs
    exact ReferenceCounts.step_invariant _ _ _ h hk
  | call pid call =>
    obtain ⟨route, -, rfl⟩ := call_step h.consistent hs
    exact h

theorem reachable_invariant (h : Reachable Initial (Step p) s) : Invariant s.kernel :=
  h.invariant (fun _ hi => ReferenceCounts.initial_invariant hi.1) step_invariant

theorem enabled_step (h : Invariant s.kernel) {e : Event} (he : Enabled s e) :
    ∃ t, Step p s e t := by
  cases e with
  | kernel e =>
    obtain ⟨k, hk, -⟩ := ReferenceCounts.enabled_step h he
    exact ⟨s.onKernel k, he, by rw [perform, hk]; rfl⟩
  | call pid call =>
    obtain ⟨route, -, ho⟩ := outcome_routed (p := p) h.consistent he call
    exact ⟨_, he, by rw [perform, ho]; rfl⟩

theorem step_routed (h : Invariant s.kernel) {e : Event} (hs : Step p s e t) :
    routing t = (routing s).step p e := by
  cases e with
  | kernel e =>
    obtain ⟨k, hk, rfl⟩ := kernel_step hs
    ext1
    · exact step_simulates h hk
    · exact entryPoint_step h hk
    · rfl
    · rfl
  | call pid call =>
    obtain ⟨route, hroute, rfl⟩ := call_step h.consistent hs
    simp only [Routing.step, hroute]
    rfl

/-- From every reachable state every enabled step is possible, and a run leaves the world,
the calls' results and what they invoked as the machine without a kernel does. -/
theorem runs_routed (h : Reachable Initial (Step p) s) :
    (∀ e, Enabled s e → ∃ t, Step p s e t) ∧
    ∀ es t, Run (Step p) s es t → routing t = es.foldl (Routing.step p) (routing s) := by
  have hi := reachable_invariant h
  constructor
  · intro e he
    exact enabled_step hi he
  · intro es t hr
    exact hr.foldl step_invariant (fun _ _ _ hs => step_routed hs) hi

end

def refusingPrograms : Programs Unit where
  kernelCode := fun _ _ _ w => (0, w)
  sysOp := fun _ _ _ w => (-1, w)
  sys := id

def refusedRun : List Event :=
  [.kernel (.moduleRegister 10 ⟨100, traceModule, 50⟩ 1), .call 7 (.write 3 0 1),
    .kernel (.ioctlSet ⟨8, 7, traceModule⟩), .call 7 (.write 3 0 1), .call 7 (.close 3)]

def refusedStart : State Unit := ⟨boot [⟨7, none⟩], (), []⟩

theorem refusedStart_initial : Initial refusedStart :=
  ⟨⟨_, rfl, List.nodup_singleton 7, by decide⟩, rfl⟩

/-- The original before the registration, the module after it, and nothing for a clear bit. -/
theorem runs_routed_refusedRun :
    ∃ t, replay (next refusingPrograms) refusedStart refusedRun = some t ∧
      routing t = refusedRun.foldl (Routing.step refusingPrograms) (routing refusedStart) ∧
      t.made.map Made.result = [0, -1, eopnotsupp] := by
  have h : (replay (next refusingPrograms) refusedStart refusedRun).map
      (fun t => t.made.map Made.result) = some [0, -1, eopnotsupp] := by decide
  obtain ⟨t, ht, hmade⟩ := Option.map_eq_some_iff.mp h
  exact ⟨t, ht, (runs_routed (Reachable.initial refusedStart_initial)).2 _ _
    (replay_sound (next_sound refusingPrograms) ht), hmade⟩

end CallRouting
