import LoadableSystemCalls.ReferenceCounts

/-! # Tasks, thread groups and the ways a task ends

exit_group(2) ends every task of the caller's group and is the only ending that passes
through a hook; exit(2) ends the caller alone, a fatal signal the whole group. An ended
task is found by its number until it is reaped. -/
namespace ThreadGroups

open KernelTypes ModuleRegistry TaskRegistration ReferenceCounts TransitionRuns

/-- `tgid` names the group of each task. `freed` is ghost: the tasks whose record went
to kfree, oldest first. -/
structure System where
  kernel : Kernel
  tgid : BitVec 32 → BitVec 32
  ended : BitVec 32 → Bool
  freed : List (BitVec 32)

namespace System
variable (s : System)

def record (pid : BitVec 32) : Option NewSysVector :=
  (findTask pid s.kernel.tasks).bind TaskStruct.sysVector

def kfreed (pid : BitVec 32) : List (BitVec 32) := if (s.record pid).isSome then [pid] else []

def onKernel (k : Kernel) : System := { s with kernel := k }

def endGroup (pid : BitVec 32) : System :=
  { s with ended := fun q => s.ended q || decide (s.tgid q = s.tgid pid) }

def endOne (pid : BitVec 32) : System :=
  { s with ended := fun q => s.ended q || decide (q = pid) }

def born (child group : BitVec 32) : System :=
  { s with
    tgid := Function.update s.tgid child group
    ended := Function.update s.ended child false }

/-- get_ioctl_helper frees the record of the task it finds when the vector is zero. -/
def messaged (msg : IoctlArg) (k : Kernel) : System :=
  { s with kernel := k, freed := s.freed ++ if msg.vector = 0 then s.kfreed msg.pid else [] }

def message (msg : IoctlArg) : Option System :=
  (getIoctlHelper true msg s.kernel).map (s.messaged msg)

/-- new_exit_group frees the record of its caller. -/
def groupExited (pid : BitVec 32) (k : Kernel) : System :=
  { s.endGroup pid with kernel := k, freed := s.freed ++ s.kfreed pid }

end System

inductive Event where
  | moduleRegister (m : Addr) (reg : ModuleReg) (node : Addr)
  | moduleDeregister (m : Addr)
  | ioctlSet (msg : IoctlArg)
  | clone2 (forkRet : BitVec 64) (args : CloneArgs)
  | fork (parent child : BitVec 32)
  | cloneThread (parent child : BitVec 32)
  | exitGroup (pid : BitVec 32)
  | exit (pid : BitVec 32)
  | fatalSignal (pid : BitVec 32)
  | reap (pid : BitVec 32)
  deriving DecidableEq, Repr

def perform (s : System) : Event → Option System
  | .moduleRegister m reg node => (loadModule m reg node s.kernel).map s.onKernel
  | .moduleDeregister m => (unloadModule m s.kernel).map s.onKernel
  | .ioctlSet msg => s.message msg
  | .clone2 forkRet args => s.message (cloneMessage forkRet args)
  | .fork parent child => (forkTask parent child s.kernel).map ((s.born child child).onKernel)
  | .cloneThread parent child =>
    (forkTask parent child s.kernel).map ((s.born child (s.tgid parent)).onKernel)
  | .exitGroup pid => (newExitGroup pid s.kernel).map (s.groupExited pid)
  | .exit pid => some (s.endOne pid)
  | .fatalSignal pid => some (s.endGroup pid)
  | .reap pid => some (s.onKernel (endTask pid s.kernel))

def Live (s : System) (pid : BitVec 32) : Prop :=
  (findTask pid s.kernel.tasks).isSome ∧ s.ended pid = false

/-- A group leader is reaped last. -/
def Reapable (s : System) (pid : BitVec 32) : Prop :=
  (findTask pid s.kernel.tasks).isSome ∧ s.ended pid = true ∧
  (s.tgid pid = pid → ∀ x ∈ s.kernel.tasks, s.tgid x.pid = pid → x.pid = pid)

/-- Types may repeat: module_register does not look at them. -/
def Enabled (s : System) : Event → Prop
  | .moduleRegister m reg node => Loadable s.kernel m reg node
  | .moduleDeregister m => Unused s.kernel m
  | .ioctlSet _ => True
  | .clone2 _ _ => True
  | .fork parent child => Live s parent ∧ findTask child s.kernel.tasks = none
  | .cloneThread parent child => Live s parent ∧ findTask child s.kernel.tasks = none
  | .exitGroup pid => Live s pid
  | .exit pid => Live s pid
  | .fatalSignal pid => Live s pid
  | .reap pid => Reapable s pid

instance (s : System) (pid : BitVec 32) : Decidable (Live s pid) :=
  inferInstanceAs (Decidable (_ ∧ _))

instance (s : System) (pid : BitVec 32) : Decidable (Reapable s pid) :=
  inferInstanceAs (Decidable (_ ∧ _ ∧ _))

instance (s : System) (e : Event) : Decidable (Enabled s e) := by
  cases e <;> simp only [Enabled] <;> infer_instance

def Step (s : System) (e : Event) (t : System) : Prop := Enabled s e ∧ perform s e = some t

def next : System → Event → Option System := guardedNext Enabled perform

theorem next_sound (s : System) (e : Event) (t : System) (h : next s e = some t) :
    Step s e t := guardedNext_eq_some.mp h

def Initial (s : System) : Prop :=
  ReferenceCounts.Initial s.kernel ∧ (∀ pid, s.ended pid = false) ∧ s.freed = []

/-- The exit function of `m` unlinks `m`: it is the first registered module of its type. -/
def UnlinksItself (s : System) : Event → Prop
  | .moduleDeregister m =>
    (s.kernel.mods.lookup m).all (fun r => getModule r.type s.kernel = some (some m)) = true
  | _ => True

instance (s : System) (e : Event) : Decidable (UnlinksItself s e) := by
  cases e <;> simp only [UnlinksItself] <;> infer_instance

/-- A task that is reaped with its record takes the reference along. -/
def leakedAfter (s : System) (leaked : Addr → ℕ) : Event → Addr → ℕ
  | .reap pid => fun mod => leaked mod + if refersTo s.kernel.mods mod (s.record pid) then 1 else 0
  | _ => leaked

section
variable {s : System} {leaked : Addr → ℕ}

theorem message_effect (h : Accounted leaked s.kernel) (msg : IoctlArg) :
    ∃ k, getIoctlHelper true msg s.kernel = some k ∧ Accounted leaked k ∧
      s.message msg = some (s.messaged msg k) := by
  rcases h.ioctl_effect msg with ⟨k, hk, -⟩
  exact ⟨k, hk, ioctl_accounted h hk, congrArg (Option.map _) hk⟩

theorem birth_effect (h : Accounted leaked s.kernel) {parent child : BitVec 32}
    (hp : Live s parent) (hc : findTask child s.kernel.tasks = none) (group : BitVec 32) :
    ∃ k x, forkTask parent child s.kernel = some k ∧ findTask parent s.kernel.tasks = some x ∧
      k.tasks = s.kernel.tasks ++ [{ x with pid := child }] ∧ Accounted leaked k ∧
      (forkTask parent child s.kernel).map ((s.born child group).onKernel) =
        some ((s.born child group).onKernel k) := by
  rcases Option.isSome_iff_exists.mp hp.1 with ⟨x, hx⟩
  rcases forkTask_accounted h hx hc with ⟨k, hk, -, -, -, htasks, hacc⟩
  exact ⟨k, x, hk, hx, htasks, hacc, congrArg (Option.map _) hk⟩

theorem exitGroup_effect (h : Accounted leaked s.kernel) {pid : BitVec 32}
    (hp : Live s pid) : ∃ k x, findTask pid s.kernel.tasks = some x ∧
      Reassigned s.kernel x none k ∧ Accounted leaked k ∧
      perform s (.exitGroup pid) = some (s.groupExited pid k) := by
  rcases Option.isSome_iff_exists.mp hp.1 with ⟨x, hx⟩
  rcases newExitGroup_effect h hx with ⟨k, hk, hr⟩
  have hacc := reassigned_accounted h (KeyedList.mem_of_lookup hx).1 (by simp) hr
  exact ⟨k, x, hx, hr, hacc, congrArg (Option.map _) hk⟩

theorem enabled_step (h : Accounted leaked s.kernel) {e : Event} (he : Enabled s e)
    (hu : UnlinksItself s e) :
    ∃ t, perform s e = some t ∧ Accounted (leakedAfter s leaked e) t.kernel := by
  cases e with
  | moduleRegister m reg node =>
    rcases loadModule_accounted h he with ⟨k, hk, -, -, -, hacc⟩
    exact ⟨s.onKernel k, congrArg (Option.map _) hk, hacc⟩
  | moduleDeregister m =>
    rcases unused_iff.mp he with ⟨r, hr, hz⟩
    have hfirst : getModule r.type s.kernel = some (some m) := by
      simpa [UnlinksItself, hr] using hu
    rcases unloadModule_accounted h hr hfirst hz with ⟨k, hk, -, -, -, hacc⟩
    exact ⟨s.onKernel k, congrArg (Option.map _) hk, hacc⟩
  | ioctlSet msg =>
    rcases message_effect h msg with ⟨k, -, hacc, hmessage⟩
    exact ⟨_, hmessage, hacc⟩
  | clone2 forkRet args =>
    rcases message_effect h (cloneMessage forkRet args) with ⟨k, -, hacc, hmessage⟩
    exact ⟨_, hmessage, hacc⟩
  | fork parent child =>
    rcases birth_effect h he.1 he.2 child with ⟨k, x, -, -, -, hacc, hborn⟩
    exact ⟨_, hborn, hacc⟩
  | cloneThread parent child =>
    rcases birth_effect h he.1 he.2 (s.tgid parent) with ⟨k, x, -, -, -, hacc, hborn⟩
    exact ⟨_, hborn, hacc⟩
  | exitGroup pid =>
    rcases exitGroup_effect h he with ⟨k, x, -, -, hacc, hperform⟩
    exact ⟨_, hperform, hacc⟩
  | exit pid => exact ⟨_, rfl, h⟩
  | fatalSignal pid => exact ⟨_, rfl, h⟩
  | reap pid =>
    rcases Option.isSome_iff_exists.mp he.1 with ⟨x, hx⟩
    have hrecord : s.record pid = x.sysVector := by rw [System.record, hx, Option.bind_some]
    have hacc := endTask_accounted h hx
    rw [← hrecord] at hacc
    exact ⟨_, rfl, hacc⟩

end

theorem initial_accounted {s : System} (h : Initial s) : Accounted (fun _ => 0) s.kernel :=
  (initial_consistent h.1)

theorem run_accounted {s t : System} {es : List Event} (h : Initial s)
    (hr : Run (Guarded UnlinksItself Step) s es t) : ∃ leaked, Accounted leaked t.kernel := by
  apply hr.invariant (P := fun s => ∃ leaked, Accounted leaked s.kernel)
  · rintro s e t ⟨leaked, hs⟩ ⟨hu, he, ht⟩
    rcases enabled_step hs he hu with ⟨t', ht', hacc⟩
    have heq := Option.some.inj (ht'.symm.trans ht)
    exact ⟨_, heq ▸ hacc⟩
  · exact ⟨_, initial_accounted h⟩

def oneTask : System where
  kernel := boot [⟨7, none⟩]
  tgid := id
  ended := fun _ => false
  freed := []

theorem oneTask_initial : Initial oneTask :=
  ⟨⟨_, rfl, List.nodup_singleton 7, by decide⟩, fun _ => rfl, rfl⟩

end ThreadGroups
