import LoadableSystemCalls.ReferenceCounts
import LoadableSystemCalls.SyscallHooks

/-! # Unloading a module while tasks register

rmmod is two steps: the kernel's check that the module is unused, after which unloading is
committed, and the module's exit function. Registrations do not ask whether an unload has
been committed. -/
namespace ModuleUnload

open KernelTypes ModuleRegistry TaskRegistration ReferenceCounts SyscallHooks TransitionRuns

/-- The code behind `sys_op` pointers and behind the table before installation. -/
structure Machine (W : Type*) where
  kernelCode : Addr → Call → W → BitVec 64 × W
  sysOp : Addr → Request → W → BitVec 32 × W
  sys : ℕ → Addr

variable {W : Type*}

def Machine.context (mc : Machine W) (k : Kernel) (t : TaskStruct) : Context W where
  kernelCode := mc.kernelCode
  sysOp := mc.sysOp
  mods := k.mods
  driver := setSystemsCalls ⟨fun nr => .kernel (mc.sys nr), Originals.unset⟩
  sysVector := t.sysVector

/-- `going` are the modules whose unload is committed. -/
structure State (W : Type*) where
  kernel : Kernel
  going : List Addr
  world : W

inductive Event where
  | insmod (m : Addr) (reg : ModuleReg) (node : Addr)
  | rmmodCheck (m : Addr)
  | rmmodExit (m : Addr)
  | ioctlSet (msg : IoctlArg)
  | clone2 (forkRet : BitVec 64) (args : CloneArgs)
  | fork (parent child : BitVec 32)
  | exitGroup (pid : BitVec 32)
  | hookedCall (pid : BitVec 32) (call : Call)
  deriving DecidableEq, Repr

def Enabled (s : State W) : Event → Prop
  | .insmod m reg node => Loadable s.kernel m reg node
  | .rmmodCheck m => Unused s.kernel m ∧ m ∉ s.going
  | .rmmodExit m => m ∈ s.going
  | .ioctlSet _ => True
  | .clone2 _ _ => True
  | .fork parent child =>
    (findTask parent s.kernel.tasks).isSome ∧ findTask child s.kernel.tasks = none
  | .exitGroup pid => (findTask pid s.kernel.tasks).isSome
  | .hookedCall pid _ => (findTask pid s.kernel.tasks).isSome

def onKernel (s : State W) (k : Option Kernel) : Option (State W) :=
  k.map fun k => { s with kernel := k }

def perform (mc : Machine W) (s : State W) : Event → Option (State W)
  | .insmod m reg node => onKernel s (loadModule m reg node s.kernel)
  | .rmmodCheck m => some { s with going := m :: s.going }
  | .rmmodExit m =>
    (unloadModule m s.kernel).map fun k => { s with kernel := k, going := s.going.erase m }
  | .ioctlSet msg => onKernel s (getIoctlHelper true msg s.kernel)
  | .clone2 forkRet args => onKernel s (getIoctlHelper true (cloneMessage forkRet args) s.kernel)
  | .fork parent child => onKernel s (forkTask parent child s.kernel)
  | .exitGroup pid => onKernel s (exitTask pid s.kernel)
  | .hookedCall pid call =>
    (findTask pid s.kernel.tasks).bind fun t =>
      (systemCall (mc.context s.kernel t) call s.world).map fun o => { s with world := o.world }

def Step (mc : Machine W) (s : State W) (e : Event) (s' : State W) : Prop :=
  Enabled s e ∧ perform mc s e = some s'

instance (s : State W) (e : Event) : Decidable (Enabled s e) := by
  cases e <;> simp only [Enabled] <;> infer_instance

def next (mc : Machine W) : State W → Event → Option (State W) :=
  guardedNext Enabled (perform mc)

theorem next_sound (mc : Machine W) (s : State W) (e : Event) (s' : State W)
    (h : next mc s e = some s') : Step mc s e s' := guardedNext_eq_some.mp h

def Initial (s : State W) : Prop := ReferenceCounts.Initial s.kernel ∧ s.going = []

def Event.message : Event → Option IoctlArg
  | .ioctlSet msg => some msg
  | .clone2 forkRet args => some (cloneMessage forkRet args)
  | _ => none

def resolved (msg : IoctlArg) (k : Kernel) : Option Addr :=
  if msg.vector = 0 then none
  else if (findTask msg.pid k.tasks).isSome then (getModule msg.moduleType k).join
  else none

/-- No task is attached to a module whose unload is committed, and an exit function
deregisters the module it belongs to, not an earlier one of its type. -/
def Careful (s : State W) : Event → Prop
  | .rmmodExit m => ∀ r, s.kernel.mods.lookup m = some r →
      getModule r.type s.kernel = some (some m)
  | e => ∀ msg, Event.message e = some msg → ∀ m, resolved msg s.kernel = some m → m ∉ s.going

/-- Every registered task's module is loaded and on the list, and no call of a task reads
the entry point of a module that is gone. -/
structure Attached (mc : Machine W) (s : State W) : Prop where
  registered : ∀ t ∈ s.kernel.tasks, ∀ v, t.sysVector = some v →
    (s.kernel.mods.lookup v.moduleAddr).isSome ∧
    ∃ ms, moduleList s.kernel = some ms ∧ v.moduleAddr ∈ ms
  calls : ∀ t ∈ s.kernel.tasks, ∀ call w,
    (systemCall (mc.context s.kernel t) call w).isSome

def Unattached (k : Kernel) (m : Addr) : Prop :=
  ∀ t ∈ k.tasks, ∀ v, t.sysVector = some v → v.moduleAddr ≠ m

structure Invariant (s : State W) : Prop where
  consistent : Consistent s.kernel
  nodup : s.going.Nodup
  loaded : ∀ m ∈ s.going, (s.kernel.mods.lookup m).isSome
  unattached : ∀ m ∈ s.going, Unattached s.kernel m

theorem initial_invariant {s : State W} (h : Initial s) : Invariant s := by
  obtain ⟨hk, hg⟩ := h
  exact ⟨initial_consistent hk, by simp [hg], by simp [hg], by simp [hg]⟩

theorem attached_of_invariant (mc : Machine W) {s : State W} (h : Invariant s) :
    Attached mc s := by
  obtain ⟨ms, hl, -, hms⟩ := h.consistent.listed
  constructor
  · intro t ht v hv
    have hload := h.consistent.attached t ht v hv
    exact ⟨hload, ms, hl.moduleList, (hms _).mpr hload⟩
  · intro t ht call w
    have hinst : Installed (mc.context s.kernel t) mc.sys := by
      refine ⟨rfl, fun v hv => ?_⟩
      exact Option.isSome_iff_exists.mp (h.consistent.attached t ht v hv)
    cases hc : isRead call with
    | true => rw [systemCall_read hinst hc]; rfl
    | false =>
      obtain ⟨num, hcall⟩ := systemCall_hook hinst hc w
      obtain ⟨o, ho, -⟩ := hook_mediated hinst call num (a := mc.sys call.number) w
      rw [hcall, ho]
      rfl

theorem refcnt_zero_of_unattached {k : Kernel} (h : Consistent k) {m : Addr} {r : ModuleReg}
    (hr : k.mods.lookup m = some r) (hu : Unattached k m) : k.refcnt r.module = 0 := by
  rw [h.counted, references_eq_registrations h hr, registrations, Nat.add_zero, List.countP_eq_zero]
  intro t ht
  cases hv : t.sysVector with
  | none => simp
  | some v => simpa using hu t ht v hv

theorem unattached_of_refcnt_zero {k : Kernel} (h : Consistent k) {m : Addr} {r : ModuleReg}
    (hr : k.mods.lookup m = some r) (hz : k.refcnt r.module = 0) : Unattached k m :=
  fun _ ht _ hv => no_record_of_refcnt_zero h hr hz ht hv

theorem records_reassigned {k k' : Kernel} {t : TaskStruct} {new : Option NewSysVector}
    (hr : Reassigned k t new k') {m : Addr} (hu : Unattached k m)
    (hnew : ∀ v, new = some v → v.moduleAddr ≠ m) : Unattached k' m := by
  intro x hx v hv
  rw [hr.tasks] at hx
  rcases KeyedList.mem_modify hx with ⟨hx, -⟩ | ⟨y, -, -, rfl⟩
  · exact hu x hx v hv
  · exact hnew v hv

theorem message_effect {k k' : Kernel} (h : Consistent k) {msg : IoctlArg}
    (hk : getIoctlHelper true msg k = some k') :
    (k' = k ∧ resolved msg k = none) ∨
    ∃ t new, findTask msg.pid k.tasks = some t ∧ Reassigned k t new k' ∧
      new = (resolved msg k).map fun m => ⟨msg.vector, m⟩ := by
  obtain ⟨k₁, hk₁, heff⟩ := h.ioctl_effect msg
  obtain rfl : k₁ = k' := Option.some.inj (hk₁.symm.trans hk)
  unfold resolved
  cases ht : findTask msg.pid k.tasks with
  | none =>
    rw [ht] at heff
    exact Or.inl ⟨heff, by simp⟩
  | some t =>
    rw [ht] at heff
    unfold requested at heff
    by_cases hz : msg.vector = 0
    · rw [if_pos hz] at heff ⊢
      exact Or.inr ⟨t, none, rfl, heff, rfl⟩
    · rw [if_neg hz] at heff ⊢
      simp only [Option.isSome_some, if_true]
      cases hg : (getModule msg.moduleType k).join with
      | none =>
        rw [hg] at heff
        exact Or.inl ⟨heff, rfl⟩
      | some m =>
        rw [hg] at heff
        exact Or.inr ⟨t, some ⟨msg.vector, m⟩, rfl, heff, rfl⟩

theorem records_kept {k k' : Kernel} {m : Addr} (hu : Unattached k m)
    (ht : ∀ t ∈ k'.tasks, ∃ u ∈ k.tasks, t.sysVector = u.sysVector) : Unattached k' m := by
  intro t htm v hv
  obtain ⟨u, hum, he⟩ := ht t htm
  exact hu u hum v (he ▸ hv)

theorem exit_unattached {k k' : Kernel} (h : Consistent k) {pid : BitVec 32} {t : TaskStruct}
    (ht : findTask pid k.tasks = some t) (hk : exitTask pid k = some k') {m : Addr}
    (hu : Unattached k m) : Unattached k' m := by
  obtain ⟨k₁, k₂, -, hk₂, hr, rfl, -⟩ := exitTask_accounted h ht
  obtain rfl := Option.some.inj (hk₂.symm.trans hk)
  have hu₁ : Unattached k₁ m := records_reassigned hr hu (by simp)
  apply records_kept hu₁
  intro x hx
  exact ⟨x, (KeyedList.mem_remove.mp hx).1, rfl⟩

theorem message_unattached {k k' : Kernel} (h : Consistent k) {msg : IoctlArg}
    (hk : getIoctlHelper true msg k = some k') {m : Addr} (hu : Unattached k m)
    (hm : resolved msg k ≠ some m) : Unattached k' m := by
  rcases message_effect h hk with ⟨rfl, -⟩ | ⟨t, new, -, hr, rfl⟩
  · exact hu
  · apply records_reassigned hr hu
    intro v hv
    obtain ⟨m', hm', rfl⟩ := Option.map_eq_some_iff.mp hv
    rintro rfl
    exact hm hm'

theorem Invariant.onKernel {s : State W} (h : Invariant s) {k : Kernel} (hc : Consistent k)
    (hl : ∀ m ∈ s.going, (k.mods.lookup m).isSome)
    (hu : ∀ m ∈ s.going, Unattached s.kernel m → Unattached k m) :
    Invariant { s with kernel := k } :=
  ⟨hc, h.nodup, hl, fun m hm => hu m hm (h.unattached m hm)⟩

theorem message_step {s : State W} (h : Invariant s) {msg : IoctlArg}
    (hsafe : ∀ m, resolved msg s.kernel = some m → m ∉ s.going) :
    ∃ k, getIoctlHelper true msg s.kernel = some k ∧ Invariant { s with kernel := k } := by
  obtain ⟨k, hk, -⟩ := h.consistent.ioctl_effect msg
  refine ⟨k, hk, h.onKernel (ioctl_accounted h.consistent hk) ?_ ?_⟩
  · rw [ioctl_kept h.consistent hk]
    exact h.loaded
  · intro m hm hu
    exact message_unattached h.consistent hk hu fun hres => hsafe m hres hm

theorem insmod_step {s : State W} (h : Invariant s) {m node : Addr} {reg : ModuleReg}
    (hl : Loadable s.kernel m reg node) :
    ∃ k, loadModule m reg node s.kernel = some k ∧ Invariant { s with kernel := k } := by
  obtain ⟨k, hk, hm, ht, -, hc⟩ := loadModule_accounted h.consistent hl
  refine ⟨k, hk, h.onKernel hc ?_ ?_⟩
  · intro x hx
    have hload := h.loaded x hx
    have hne : x ≠ m := by
      rintro rfl
      simp [hl.1] at hload
    rw [hm, AList.lookup_insert_ne hne]
    exact hload
  · intro x hx hu
    exact records_kept hu fun t htm => ⟨t, ht ▸ htm, rfl⟩

theorem fork_step {s : State W} (h : Invariant s) {parent child : BitVec 32}
    (hp : (findTask parent s.kernel.tasks).isSome) (hc : findTask child s.kernel.tasks = none) :
    ∃ k, forkTask parent child s.kernel = some k ∧ Invariant { s with kernel := k } := by
  obtain ⟨t, ht⟩ := Option.isSome_iff_exists.mp hp
  obtain ⟨k, hk, -, hm, -, htasks, hcons⟩ := forkTask_accounted h.consistent ht hc
  refine ⟨k, hk, h.onKernel hcons ?_ ?_⟩
  · rw [hm]
    exact h.loaded
  · intro m hgo hu
    apply records_kept hu
    intro x hx
    rw [htasks] at hx
    rcases List.mem_append.mp hx with hx | hx
    · exact ⟨x, hx, rfl⟩
    · obtain rfl := List.mem_singleton.mp hx
      exact ⟨t, (KeyedList.mem_of_lookup ht).1, rfl⟩

theorem exit_step {s : State W} (h : Invariant s) {pid : BitVec 32}
    (hp : (findTask pid s.kernel.tasks).isSome) :
    ∃ k, exitTask pid s.kernel = some k ∧ Invariant { s with kernel := k } := by
  obtain ⟨t, ht⟩ := Option.isSome_iff_exists.mp hp
  obtain ⟨k₁, k, -, hk, hr, he, hc, -⟩ := exitTask_accounted h.consistent ht
  refine ⟨k, hk, h.onKernel hc ?_ ?_⟩
  · have hmods : k.mods = s.kernel.mods := by rw [he, endTask, hr.mods]
    rw [hmods]
    exact h.loaded
  · intro m hgo hu
    exact exit_unattached h.consistent ht hk hu

theorem rmmodExit_step {s : State W} (h : Invariant s) {m : Addr} (hm : m ∈ s.going)
    (hfirst : ∀ r, s.kernel.mods.lookup m = some r → getModule r.type s.kernel = some (some m)) :
    ∃ k, unloadModule m s.kernel = some k ∧
      Invariant { s with kernel := k, going := s.going.erase m } := by
  obtain ⟨r, hr⟩ := Option.isSome_iff_exists.mp (h.loaded m hm)
  have hz := refcnt_zero_of_unattached h.consistent hr (h.unattached m hm)
  obtain ⟨k, hk, hmods, htasks, -, hc⟩ := unloadModule_accounted h.consistent hr (hfirst r hr) hz
  refine ⟨k, hk, hc, h.nodup.erase m, ?_, ?_⟩
  · intro x hx
    rw [h.nodup.mem_erase_iff] at hx
    rw [hmods, AList.lookup_erase_ne hx.1]
    exact h.loaded x hx.2
  · intro x hx
    rw [h.nodup.mem_erase_iff] at hx
    exact records_kept (h.unattached x hx.2) fun t ht => ⟨t, htasks ▸ ht, rfl⟩

theorem enabled_step (mc : Machine W) {s : State W} (h : Invariant s) {e : Event}
    (he : Enabled s e) (hcare : Careful s e) : ∃ s', perform mc s e = some s' ∧ Invariant s' := by
  cases e with
  | insmod m reg node =>
    obtain ⟨k, hk, hi⟩ := insmod_step h he
    exact ⟨_, by simp [perform, ModuleUnload.onKernel, hk], hi⟩
  | rmmodCheck m =>
    obtain ⟨r, hr, hz⟩ := unused_iff.mp he.1
    refine ⟨_, rfl, h.consistent, List.nodup_cons.mpr ⟨he.2, h.nodup⟩, ?_, ?_⟩
    · simpa [hr] using h.loaded
    · simpa [unattached_of_refcnt_zero h.consistent hr hz] using h.unattached
  | rmmodExit m =>
    obtain ⟨k, hk, hi⟩ := rmmodExit_step h he hcare
    exact ⟨_, by simp [perform, hk], hi⟩
  | ioctlSet msg =>
    obtain ⟨k, hk, hi⟩ := message_step h (hcare msg rfl)
    exact ⟨_, by simp [perform, ModuleUnload.onKernel, hk], hi⟩
  | clone2 forkRet args =>
    obtain ⟨k, hk, hi⟩ := message_step h (hcare (cloneMessage forkRet args) rfl)
    exact ⟨_, by simp [perform, ModuleUnload.onKernel, hk], hi⟩
  | fork parent child =>
    obtain ⟨k, hk, hi⟩ := fork_step h he.1 he.2
    exact ⟨_, by simp [perform, ModuleUnload.onKernel, hk], hi⟩
  | exitGroup pid =>
    obtain ⟨k, hk, hi⟩ := exit_step h he
    exact ⟨_, by simp [perform, ModuleUnload.onKernel, hk], hi⟩
  | hookedCall pid call =>
    obtain ⟨t, ht⟩ := Option.isSome_iff_exists.mp he
    have hcalls := (attached_of_invariant mc h).calls t (KeyedList.mem_of_lookup ht).1
    obtain ⟨o, ho⟩ := Option.isSome_iff_exists.mp (hcalls call s.world)
    refine ⟨{ s with world := o.world }, ?_, h.consistent, h.nodup, h.loaded, h.unattached⟩
    simp only [perform, ht, Option.bind_some, ho, Option.map_some]

theorem step_invariant (mc : Machine W) (s : State W) (e : Event) (s' : State W)
    (h : Invariant s) (hs : Guarded Careful (Step mc) s e s') : Invariant s' := by
  obtain ⟨s₁, hs₁, hi⟩ := enabled_step mc h hs.2.1 hs.1
  obtain rfl : s₁ = s' := Option.some.inj (hs₁.symm.trans hs.2.2)
  exact hi

theorem reachable_invariant {mc : Machine W} {s : State W}
    (h : Reachable Initial (Guarded Careful (Step mc)) s) : Invariant s :=
  h.invariant (fun _ => initial_invariant) (step_invariant mc)

/-- The list holds a module that is gone, or the next exit function leaves a task on one. -/
def Doomed (mc : Machine W) (s : State W) : Prop :=
  (∃ ms, moduleList s.kernel = some ms ∧ ∃ m ∈ ms, s.kernel.mods.lookup m = none) ∨
  ∃ m s', Step mc s (.rmmodExit m) s' ∧ ¬ Attached mc s'

/-- Unloading never faults by itself; it unlinks the first module of the type. -/
theorem unloadModule_runs {k : Kernel} (h : Consistent k) {m : Addr} {r : ModuleReg}
    (hr : k.mods.lookup m = some r) :
    ∃ k' ms, unloadModule m k = some k' ∧ k'.mods = k.mods.erase m ∧ k'.tasks = k.tasks ∧
      Listed k ms ∧ m ∈ ms ∧ moduleList k' = some (ms.eraseP (k.typeIs r.type)) := by
  obtain ⟨ms, hl, -, hms⟩ := h.listed
  obtain ⟨nodes, head, hrem, hl'⟩ := hl.removeModule r.type
  refine ⟨{ k with nodes := nodes, headNode := head, mods := k.mods.erase m }, ms, ?_, rfl, rfl,
    hl, (hms m).mpr (by simp [hr]), hl'.chain.values⟩
  simp [unloadModule, moduleDeregister, hr, hrem]

theorem careless_message {mc : Machine W} {s : State W} {k : Kernel} (h : Invariant s)
    {msg : IoctlArg} (hk : getIoctlHelper true msg s.kernel = some k) {m : Addr}
    (hres : resolved msg s.kernel = some m) (hgo : m ∈ s.going) :
    Doomed mc { s with kernel := k } := by
  rcases message_effect h.consistent hk with ⟨-, hnone⟩ | ⟨t, new, ht, hr, rfl⟩
  · rw [hres] at hnone
    cases hnone
  · rw [hres, Option.map_some] at hr
    have hc := ioctl_accounted h.consistent hk
    have hload := h.loaded m hgo
    rw [← ioctl_kept h.consistent hk] at hload
    obtain ⟨r, hlook⟩ := Option.isSome_iff_exists.mp hload
    obtain ⟨k', -, hun, hmods, htasks, -⟩ := unloadModule_runs hc hlook
    refine Or.inr ⟨m, { s with kernel := k', going := s.going.erase m },
      ⟨hgo, by simp [perform, hun]⟩, ?_⟩
    intro hatt
    obtain ⟨hmem, hpid⟩ := KeyedList.mem_of_lookup ht
    have hnew : { t with sysVector := some ⟨msg.vector, m⟩ } ∈ k'.tasks := by
      rw [htasks, hr.tasks]
      exact List.mem_map.mpr ⟨t, hmem, by simp⟩
    have hgone := (hatt.registered _ hnew ⟨msg.vector, m⟩ rfl).1
    rw [hmods, AList.lookup_erase] at hgone
    cases hgone

theorem careless_exit {mc : Machine W} {s s' : State W} (h : Invariant s) {m : Addr}
    (hs : Step mc s (.rmmodExit m) s') (hcare : ¬ Careful s (.rmmodExit m)) : Doomed mc s' := by
  obtain ⟨hgo, hp⟩ := hs
  simp only [Careful, not_forall] at hcare
  obtain ⟨r, hr, hfirst⟩ := hcare
  obtain ⟨k, ms, hun, hmods, -, hl, hm, hlist⟩ := unloadModule_runs h.consistent hr
  simp only [perform, hun, Option.map_some, Option.some.injEq] at hp
  subst hp
  refine Or.inl ⟨_, hlist, m, ?_, ?_⟩
  · rw [hl.getModule] at hfirst
    have hhead : ms.find? (s.kernel.typeIs r.type) ≠ some m := fun e => hfirst (congrArg some e)
    obtain ⟨x, hx⟩ : ∃ x, ms.find? (s.kernel.typeIs r.type) = some x := by
      rw [← Option.isSome_iff_exists, List.find?_isSome]
      exact ⟨m, hm, by simp [Kernel.typeIs, hr]⟩
    obtain ⟨hxp, as, bs, rfl, has⟩ := List.find?_eq_some_iff_append.mp hx
    rw [List.eraseP_append_right _ (by simpa using has), List.eraseP_cons_of_pos hxp]
    have hmx : m ≠ x := fun e => hhead (e ▸ hx)
    simpa [hmx] using hm
  · exact hmods ▸ AList.lookup_erase _ _

theorem careless_step {mc : Machine W} {s s' : State W} (h : Invariant s) {e : Event}
    (hs : Step mc s e s') (hcare : ¬ Careful s e) : Doomed mc s' := by
  have hmessage : ∀ msg, Event.message e = some msg →
      ∃ k, getIoctlHelper true msg s.kernel = some k ∧ s' = { s with kernel := k } := by
    intro msg hm
    obtain ⟨-, hp⟩ := hs
    cases e with
    | ioctlSet msg' =>
      obtain rfl : msg' = msg := Option.some.inj hm
      obtain ⟨k, hk, rfl⟩ := Option.map_eq_some_iff.mp hp
      exact ⟨k, hk, rfl⟩
    | clone2 forkRet args =>
      obtain rfl : cloneMessage forkRet args = msg := Option.some.inj hm
      obtain ⟨k, hk, rfl⟩ := Option.map_eq_some_iff.mp hp
      exact ⟨k, hk, rfl⟩
    | _ => cases hm
  have hdoomed : (∃ msg m, Event.message e = some msg ∧ resolved msg s.kernel = some m ∧
      m ∈ s.going) → Doomed mc s' := by
    rintro ⟨msg, m, hm, hres, hgo⟩
    obtain ⟨k, hk, rfl⟩ := hmessage msg hm
    exact careless_message h hk hres hgo
  cases e with
  | rmmodExit m => exact careless_exit h hs hcare
  | _ =>
    apply hdoomed
    simpa [Careful] using hcare

/-- While every registration resolves to a module whose unload is not committed and every
exit function finds its own module first of its type, each task stays on a loaded module,
no call reaches a module that is gone and nothing faults. A step outside of that leads to a
task, or a list node, on a module that is gone. -/
theorem attached_while_careful (mc : Machine W) {s : State W}
    (h : Reachable Initial (Guarded Careful (Step mc)) s) :
    Attached mc s ∧ (∀ e, Enabled s e → Careful s e → ∃ s', Step mc s e s') ∧
    ∀ e s', Step mc s e s' → ¬ Careful s e → Doomed mc s' := by
  have hi := reachable_invariant h
  refine ⟨attached_of_invariant mc hi, ?_, ?_⟩
  · intro e he hcare
    obtain ⟨s', hs', -⟩ := enabled_step mc hi he hcare
    exact ⟨s', he, hs'⟩
  · intro e s' hs hcare
    exact careless_step hi hs hcare

def agreeingMachine : Machine Unit where
  kernelCode := fun _ _ w => (0, w)
  sysOp := fun _ _ w => (0, w)
  sys := id

def startState : State Unit := ⟨boot [⟨7, none⟩], [], ()⟩

theorem startState_initial : Initial startState :=
  ⟨⟨_, rfl, List.nodup_singleton 7, by decide⟩, rfl⟩

instance (s : State W) (e : Event) : Decidable (Careful s e) :=
  match e with
  | .rmmodExit m => inferInstanceAs
      (Decidable (∀ r ∈ s.kernel.mods.lookup m, getModule r.type s.kernel = some (some m)))
  | .ioctlSet _ | .clone2 .. | .insmod .. | .rmmodCheck _ | .fork .. | .exitGroup _ |
    .hookedCall .. => inferInstanceAs (Decidable
      (∀ msg ∈ Event.message _, ∀ m ∈ resolved msg s.kernel, m ∉ s.going))

def carefulUse : List Event :=
  [.insmod 10 ⟨100, traceModule, 50⟩ 1, .ioctlSet ⟨1023, 7, traceModule⟩, .hookedCall 7 (.close 3)]

def carefulUnload : List Event :=
  [.ioctlSet ⟨0, 7, traceModule⟩, .rmmodCheck 10, .rmmodExit 10]

theorem attached_while_careful_unload : ∃ s t : State Unit,
    Run (Guarded Careful (Step agreeingMachine)) startState carefulUse s ∧
    Run (Guarded Careful (Step agreeingMachine)) s carefulUnload t ∧
    s.kernel.tasks = [⟨7, some ⟨1023, 10⟩⟩] ∧ t.kernel.mods.entries = [] ∧
    Attached agreeingMachine s ∧ Attached agreeingMachine t := by
  have h : ((replay (guardedNext Careful (next agreeingMachine)) startState carefulUse).any fun s =>
      decide (s.kernel.tasks = [⟨7, some ⟨1023, 10⟩⟩]) &&
      (replay (guardedNext Careful (next agreeingMachine)) s carefulUnload).any fun t =>
        decide (t.kernel.mods.entries = [])) = true := by decide
  obtain ⟨s, hs, h⟩ := replay_reaches (guardedNext_sound (next_sound agreeingMachine)) h
  simp only [Bool.and_eq_true, decide_eq_true_eq] at h
  obtain ⟨htasks, h⟩ := h
  obtain ⟨t, ht, hmods⟩ := replay_reaches (guardedNext_sound (next_sound agreeingMachine)) h
  have hreach : Reachable Initial (Guarded Careful (Step agreeingMachine)) s :=
    ⟨_, _, startState_initial, hs⟩
  have hreach' : Reachable Initial (Guarded Careful (Step agreeingMachine)) t :=
    ⟨_, _, startState_initial, hs.append ht⟩
  exact ⟨s, t, hs, ht, htasks, of_decide_eq_true hmods,
    (attached_while_careful agreeingMachine hreach).1,
    (attached_while_careful agreeingMachine hreach').1⟩

/-- The module is found unused, a task registers on it, and its exit function runs. -/
def lateRegistration : List Event :=
  [.insmod 10 ⟨100, traceModule, 50⟩ 1, .rmmodCheck 10, .ioctlSet ⟨1023, 7, traceModule⟩,
    .rmmodExit 10]

theorem late_registration_dangles :
    ∃ s, Run (Step agreeingMachine) startState lateRegistration s ∧
      ¬ Attached agreeingMachine s ∧ Enabled s (.hookedCall 7 (.close 3)) ∧
      perform agreeingMachine s (.hookedCall 7 (.close 3)) = none := by
  have hrun : (replay (next agreeingMachine) startState lateRegistration).map (fun s =>
      (s.kernel.tasks, s.kernel.mods.entries,
        (perform agreeingMachine s (.hookedCall 7 (.close 3))).isNone)) =
      some ([⟨7, some ⟨1023, 10⟩⟩], [], true) := by
    decide
  obtain ⟨s, hs, he⟩ := Option.map_eq_some_iff.mp hrun
  simp only [Prod.mk.injEq, Option.isNone_iff_eq_none] at he
  obtain ⟨htasks, hmods, hcall⟩ := he
  refine ⟨s, replay_sound (next_sound agreeingMachine) hs, ?_, ?_, hcall⟩
  · intro hatt
    have hload := (hatt.registered ⟨7, some ⟨1023, 10⟩⟩ (by simp [htasks]) ⟨1023, 10⟩ rfl).1
    rw [AList.lookup, hmods] at hload
    cases hload
  · simp [Enabled, htasks, KeyedList.lookup]

end ModuleUnload
