import LoadableSystemCalls.ThreadGroups

/-! # What the callers are told (ioctl_device.c, sys_clone2.c)

get_ioctl_helper returns nothing. ioctl_funcs and sys_clone2 tell their callers about the
failures of the calls before it only. -/
namespace FailureReports

open KernelTypes ModuleRegistry TaskRegistration ReferenceCounts TransitionRuns
open ThreadGroups (System Initial UnlinksItself oneTask oneTask_initial)

def enomem : ℤ := -12
def efault : ℤ := -14

/-- How the calls of an IOCTL_SET end: the allocation of the message, what copy_from_user
delivers (`none` for a bad pointer), and the allocation of a record. -/
structure IoctlCall where
  kmallocMsg : Bool
  copied : Option IoctlArg
  kmallocRecord : Bool
  deriving DecidableEq, Repr

def ioctlFuncs (c : IoctlCall) (k : Kernel) : Option (Kernel × ℤ) :=
  if c.kmallocMsg then
    match c.copied with
    | none => some (k, efault)
    | some msg => (getIoctlHelper c.kmallocRecord msg k).map fun k => (k, 0)
  else some (k, enomem)

/-- What _do_fork returns: an error, or the PID of the child it has made. -/
inductive ForkResult where
  | failed (errno : ℕ) (errno_pos : 0 < errno)
  | child (pid : BitVec 32) (pid_pos : 0 < pid.toInt)
  deriving DecidableEq

def ForkResult.value : ForkResult → BitVec 64
  | .failed errno _ => BitVec.ofInt 64 (-errno)
  | .child pid _ => pid.signExtend 64

def doFork (parent : BitVec 32) (r : ForkResult) (k : Kernel) : Option Kernel :=
  match r with
  | .failed _ _ => some k
  | .child pid _ => forkTask parent pid k

structure CloneCall where
  kmallocArg : Bool
  inputNull : Bool
  kmallocInput : Bool
  copied : Option CloneArgs
  fork : ForkResult
  kmallocRecord : Bool
  deriving DecidableEq

/-- `error` stays 0 from _do_fork on, and `pid` is not returned. -/
def sysClone2 (parent : BitVec 32) (c : CloneCall) (k : Kernel) : Option (Kernel × ℤ) :=
  if c.kmallocArg = false then some (k, enomem)
  else if c.inputNull then some (k, efault)
  else if c.kmallocInput = false then some (k, enomem)
  else
    match c.copied with
    | none => some (k, efault)
    | some args =>
      ((doFork parent c.fork k).bind
        (getIoctlHelper c.kmallocRecord (cloneMessage c.fork.value args))).map fun k => (k, 0)

def IoctlCall.received (c : IoctlCall) : Option IoctlArg := if c.kmallocMsg then c.copied else none

/-- The task that the message names has the registration that it asks for. -/
def CarriedOut (c : IoctlCall) (k k' : Kernel) : Prop :=
  ∃ msg new, c.received = some msg ∧ (findTask msg.pid k.tasks).isSome = true ∧
    requested msg k = some new ∧
    (findTask msg.pid k'.tasks).map TaskStruct.sysVector = some new

def IoctlReports (c : IoctlCall) (k : Kernel) : Prop :=
  ∃ k' ret, ioctlFuncs c k = some (k', ret) ∧ (ret < 0 ↔ ¬ CarriedOut c k k')

def pids (k : Kernel) : List (BitVec 32) := k.tasks.map TaskStruct.pid

def Born (k k' : Kernel) (child : BitVec 32) : Prop := pids k' = pids k ++ [child]

def CloneReports (parent : BitVec 32) (c : CloneCall) (k : Kernel) : Prop :=
  ∃ k' ret, sysClone2 parent c k = some (k', ret) ∧ (ret < 0 ↔ ∀ child, ¬ Born k k' child) ∧
    ∀ child, Born k k' child → ret = child.toInt

/-- The message is lost on its way in, or it can be carried out. -/
def Answerable (c : IoctlCall) (k : Kernel) : Prop :=
  match c.received with
  | none => True
  | some msg => (findTask msg.pid k.tasks).isSome = true ∧ (requested msg k).isSome = true ∧
    Supplied c.kmallocRecord msg k

def CloneCall.reachesFork (c : CloneCall) : Bool :=
  c.kmallocArg && !c.inputNull && c.kmallocInput && c.copied.isSome

instance (c : IoctlCall) (k : Kernel) : Decidable (Answerable c k) :=
  match h : c.received with
  | none => isTrue (by rw [Answerable, h]; exact trivial)
  | some msg => decidable_of_iff ((findTask msg.pid k.tasks).isSome = true ∧
      (requested msg k).isSome = true ∧ Supplied c.kmallocRecord msg k)
      (by rw [Answerable, h])

section ioctl
variable {c : IoctlCall} {k : Kernel} {leaked : Addr → ℕ}

theorem ioctlFuncs_lost (h : c.received = none) (k : Kernel) :
    ∃ ret, ioctlFuncs c k = some (k, ret) ∧ ret < 0 := by
  cases hm : c.kmallocMsg with
  | false =>
    refine ⟨enomem, ?_, by decide⟩
    simp [ioctlFuncs, hm]
  | true =>
    have hcopied : c.copied = none := by simpa [IoctlCall.received, hm] using h
    refine ⟨efault, ?_, by decide⟩
    simp [ioctlFuncs, hm, hcopied]

theorem ioctlFuncs_received {msg : IoctlArg} (h : c.received = some msg) (k : Kernel) :
    ioctlFuncs c k = (getIoctlHelper c.kmallocRecord msg k).map fun k => (k, 0) := by
  cases hm : c.kmallocMsg with
  | false => simp [IoctlCall.received, hm] at h
  | true =>
    have hcopied : c.copied = some msg := by simpa [IoctlCall.received, hm] using h
    simp [ioctlFuncs, hm, hcopied]

theorem carriedOut_iff (h : Accounted leaked k) {msg : IoctlArg} (hc : c.received = some msg)
    {k' : Kernel} (hk : getIoctlHelper true msg k = some k') :
    CarriedOut c k k' ↔
      (findTask msg.pid k.tasks).isSome = true ∧ (requested msg k).isSome = true := by
  obtain ⟨k₁, hk₁, heffect⟩ := h.ioctl_effect msg
  obtain rfl : k₁ = k' := Option.some.inj (hk₁.symm.trans hk)
  constructor
  · rintro ⟨msg', new, hmsg, hlive, hnew, -⟩
    obtain rfl : msg = msg' := Option.some.inj (hc.symm.trans hmsg)
    refine ⟨hlive, ?_⟩
    rw [hnew]
    rfl
  · rintro ⟨hlive, hmet⟩
    obtain ⟨t, ht⟩ := Option.isSome_iff_exists.mp hlive
    obtain ⟨new, hnew⟩ := Option.isSome_iff_exists.mp hmet
    rw [ht, hnew] at heffect
    have hfind := (Reassigned.find heffect ht msg.pid).trans (if_pos rfl)
    refine ⟨msg, new, hc, hlive, hnew, ?_⟩
    rw [hfind]
    rfl

theorem ioctl_reports_iff (h : Accounted leaked k) (c : IoctlCall) :
    IoctlReports c k ↔ Answerable c k := by
  cases hc : c.received with
  | none =>
    obtain ⟨ret, hcall, hneg⟩ := ioctlFuncs_lost hc k
    have hno : ¬ CarriedOut c k k := by
      rintro ⟨msg, new, hmsg, -⟩
      rw [hc] at hmsg
      cases hmsg
    constructor
    · intro _
      rw [Answerable, hc]
      exact trivial
    · intro _
      exact ⟨k, ret, hcall, iff_of_true hneg hno⟩
  | some msg =>
    rw [Answerable, hc]
    by_cases hs : Supplied c.kmallocRecord msg k
    · obtain ⟨k', hk, -⟩ := h.ioctl_effect msg
      have hcall : ioctlFuncs c k = some (k', 0) := by
        rw [ioctlFuncs_received hc, getIoctlHelper_supplied hs, hk]
        rfl
      have hdone := carriedOut_iff h hc hk
      constructor
      · rintro ⟨k₁, ret, hcall₁, hiff⟩
        obtain ⟨rfl, rfl⟩ := Prod.mk.inj (Option.some.inj (hcall.symm.trans hcall₁))
        have hcarried : CarriedOut c k k' := not_not.mp fun hno => absurd (hiff.mpr hno) (by decide)
        exact ⟨(hdone.mp hcarried).1, (hdone.mp hcarried).2, hs⟩
      · rintro ⟨hlive, hmet, -⟩
        refine ⟨k', 0, hcall, ?_⟩
        exact iff_of_false (by decide) (not_not.mpr (hdone.mpr ⟨hlive, hmet⟩))
    · constructor
      · rintro ⟨k₁, ret, hcall, -⟩
        rw [ioctlFuncs_received hc, getIoctlHelper_starved hs] at hcall
        cases hcall
      · rintro ⟨-, -, hsupplied⟩
        exact absurd hsupplied hs

end ioctl

section clone
variable {k k' : Kernel} {parent : BitVec 32} {c : CloneCall}

theorem incrementModuleRc_tasks {m : Addr} (h : incrementModuleRc m k = some k') :
    k'.tasks = k.tasks := by
  unfold incrementModuleRc at h
  split at h
  · cases h
  · obtain rfl := Option.some.inj h
    rfl
  · obtain ⟨r, -, rfl⟩ := Option.map_eq_some_iff.mp h
    rfl

theorem decrementModuleRc_tasks {m : Addr} (h : decrementModuleRc m k = some k') :
    k'.tasks = k.tasks := by
  unfold decrementModuleRc at h
  split at h
  · cases h
  · obtain rfl := Option.some.inj h
    rfl
  · obtain ⟨r, -, rfl⟩ := Option.map_eq_some_iff.mp h
    split <;> rfl

theorem setSysVector_pids (k : Kernel) (pid : BitVec 32) (v : Option NewSysVector) :
    pids (k.setSysVector pid v) = pids k := by
  have hkey : ∀ t : TaskStruct, TaskStruct.pid { t with sysVector := v } = t.pid := fun _ => rfl
  exact KeyedList.map_key_modify hkey k.tasks

theorem map_setSysVector_pids {o : Option Kernel} {pid : BitVec 32} {v : Option NewSysVector}
    (ho : ∀ j, o = some j → j.tasks = k.tasks) (h : o.map (·.setSysVector pid v) = some k') :
    pids k' = pids k := by
  obtain ⟨j, hj, rfl⟩ := Option.map_eq_some_iff.mp h
  have hpids : pids j = pids k := congrArg (List.map TaskStruct.pid) (ho j hj)
  exact (setSysVector_pids j pid v).trans hpids

theorem getIoctlHelper_pids {kmallocOk : Bool} {msg : IoctlArg}
    (h : getIoctlHelper kmallocOk msg k = some k') : pids k' = pids k := by
  unfold getIoctlHelper at h
  split at h
  · split at h
    · obtain rfl := Option.some.inj h
      rfl
    · split at h
      · obtain rfl := Option.some.inj h
        rfl
      · exact map_setSysVector_pids (fun j hj => decrementModuleRc_tasks hj) h
  · split at h
    · cases h
    · obtain rfl := Option.some.inj h
      rfl
    · split at h
      · obtain rfl := Option.some.inj h
        rfl
      · split at h
        · split at h
          · exact map_setSysVector_pids (fun j hj => incrementModuleRc_tasks hj) h
          · cases h
        · split at h
          · refine map_setSysVector_pids (fun j hj => ?_) h
            obtain ⟨i, hi, hij⟩ := Option.bind_eq_some_iff.mp hj
            exact (incrementModuleRc_tasks hij).trans (decrementModuleRc_tasks hi)
          · obtain rfl := Option.some.inj h
            exact setSysVector_pids k msg.pid _

theorem forkTask_pids {child : BitVec 32} (h : forkTask parent child k = some k') :
    pids k' = pids k ++ [child] := by
  unfold forkTask at h
  split at h
  · cases h
  · simp only at h
    split at h
    · obtain rfl := Option.some.inj h
      simp [pids]
    · obtain ⟨r, -, rfl⟩ := Option.map_eq_some_iff.mp h
      simp [pids]

theorem not_born (h : pids k' = pids k) (child : BitVec 32) : ¬ Born k k' child := by
  intro hborn
  have hlen := congrArg List.length (h.symm.trans hborn)
  simp at hlen

theorem sysClone2_early (h : c.reachesFork = false) (k : Kernel) :
    ∃ ret, sysClone2 parent c k = some (k, ret) ∧ ret < 0 := by
  by_cases harg : c.kmallocArg = false
  · refine ⟨enomem, ?_, by decide⟩
    rw [sysClone2, if_pos harg]
  · by_cases hnull : c.inputNull = true
    · refine ⟨efault, ?_, by decide⟩
      rw [sysClone2, if_neg harg, if_pos hnull]
    · by_cases hinput : c.kmallocInput = false
      · refine ⟨enomem, ?_, by decide⟩
        rw [sysClone2, if_neg harg, if_neg hnull, if_pos hinput]
      · have hcopied : c.copied = none := by
          simpa [CloneCall.reachesFork, harg, hnull, hinput] using h
        refine ⟨efault, ?_, by decide⟩
        rw [sysClone2, if_neg harg, if_neg hnull, if_neg hinput, hcopied]

theorem sysClone2_late (h : c.reachesFork = true) {ret : ℤ}
    (hcall : sysClone2 parent c k = some (k', ret)) :
    ret = 0 ∧ ∃ j, doFork parent c.fork k = some j ∧ pids k' = pids j := by
  simp only [CloneCall.reachesFork, Bool.and_eq_true, Bool.not_eq_true'] at h
  obtain ⟨⟨⟨harg, hnull⟩, hinput⟩, hcopied⟩ := h
  obtain ⟨args, hargs⟩ := Option.isSome_iff_exists.mp hcopied
  simp only [sysClone2, harg, hnull, hinput, hargs] at hcall
  obtain ⟨j', hj', heq⟩ := Option.map_eq_some_iff.mp hcall
  obtain ⟨rfl, rfl⟩ := Prod.mk.inj heq
  obtain ⟨j, hfork, hhelper⟩ := Option.bind_eq_some_iff.mp hj'
  exact ⟨rfl, j, hfork, getIoctlHelper_pids hhelper⟩

theorem clone_reports_iff (parent : BitVec 32) (c : CloneCall) (k : Kernel) :
    CloneReports parent c k ↔ c.reachesFork = false := by
  constructor
  · rintro ⟨k', ret, hcall, hneg, hpid⟩
    by_contra hreach
    obtain ⟨rfl, j, hfork, hpids⟩ := sysClone2_late (Bool.not_eq_false _ ▸ hreach) hcall
    cases hr : c.fork with
    | failed errno hpos =>
      rw [hr] at hfork
      obtain rfl : k = j := Option.some.inj hfork
      exact absurd (hneg.mpr (not_born hpids)) (by decide)
    | child pid hpos =>
      rw [hr] at hfork
      have hborn : Born k k' pid := hpids.trans (forkTask_pids hfork)
      have hret := hpid pid hborn
      omega
  · intro hearly
    obtain ⟨ret, hcall, hneg⟩ := @sysClone2_early parent c hearly k
    refine ⟨k, ret, hcall, iff_of_true hneg (not_born rfl), ?_⟩
    intro child hborn
    exact absurd hborn (not_born rfl child)

end clone

/-- In every state ioctl_funcs answers rightly if and only if the message is lost on its way
in or is carried out, and sys_clone2 if and only if it fails before the fork. -/
theorem failures_reported_iff {s t : System} {es : List ThreadGroups.Event} (h : Initial s)
    (hr : Run (Guarded UnlinksItself ThreadGroups.Step) s es t) (ic : IoctlCall)
    (parent : BitVec 32) (cc : CloneCall) :
    (IoctlReports ic t.kernel ↔ Answerable ic t.kernel) ∧
      (CloneReports parent cc t.kernel ↔ cc.reachesFork = false) := by
  obtain ⟨leaked, hacc⟩ := ThreadGroups.run_accounted h hr
  exact ⟨ioctl_reports_iff hacc ic, clone_reports_iff parent cc t.kernel⟩

theorem failures_reported_oneTask : ∃ t,
    Run (Guarded UnlinksItself ThreadGroups.Step) oneTask
      [.moduleRegister 10 ⟨100, traceModule, 0⟩ 1] t ∧
    IoctlReports ⟨true, some ⟨1023, 7, traceModule⟩, true⟩ t.kernel ∧
    CloneReports 7 ⟨false, false, true, none, .child 8 (by decide), true⟩ t.kernel := by
  have hrun : (replay (guardedNext UnlinksItself ThreadGroups.next) oneTask
      [.moduleRegister 10 ⟨100, traceModule, 0⟩ 1]).any
      (fun t => decide (Answerable ⟨true, some ⟨1023, 7, traceModule⟩, true⟩ t.kernel)) = true := by
    decide
  obtain ⟨t, hr, hans⟩ := replay_reaches (guardedNext_sound ThreadGroups.next_sound) hrun
  have hiff := failures_reported_iff oneTask_initial hr
    ⟨true, some ⟨1023, 7, traceModule⟩, true⟩ 7
    ⟨false, false, true, none, .child 8 (by decide), true⟩
  exact ⟨t, hr, hiff.1.mpr (of_decide_eq_true hans), hiff.2.mpr rfl⟩

def forkedCall (r : ForkResult) : CloneCall := ⟨true, false, true, some ⟨1, 1023⟩, r, true⟩

/-- An unknown PID, a type without a module, a failed fork and a child that is made: 0. -/
theorem zero_for_everything : Initial oneTask ∧
    ((ioctlFuncs ⟨true, some ⟨0, 99, traceModule⟩, true⟩ oneTask.kernel).map Prod.snd = some 0 ∧
      ¬ IoctlReports ⟨true, some ⟨0, 99, traceModule⟩, true⟩ oneTask.kernel) ∧
    ((ioctlFuncs ⟨true, some ⟨1023, 7, traceModule⟩, true⟩ oneTask.kernel).map Prod.snd = some 0 ∧
      ¬ IoctlReports ⟨true, some ⟨1023, 7, traceModule⟩, true⟩ oneTask.kernel) ∧
    ((sysClone2 7 (forkedCall (.failed 11 (by decide))) oneTask.kernel).map Prod.snd = some 0 ∧
      ¬ CloneReports 7 (forkedCall (.failed 11 (by decide))) oneTask.kernel) ∧
    ((sysClone2 7 (forkedCall (.child 8 (by decide))) oneTask.kernel).map Prod.snd = some 0 ∧
      ¬ CloneReports 7 (forkedCall (.child 8 (by decide))) oneTask.kernel) := by
  have hacc := ThreadGroups.initial_accounted oneTask_initial
  refine ⟨oneTask_initial, ⟨by decide, ?_⟩, ⟨by decide, ?_⟩, ⟨by decide, ?_⟩, ⟨by decide, ?_⟩⟩
  · rw [ioctl_reports_iff hacc]
    decide
  · rw [ioctl_reports_iff hacc]
    decide
  · rw [clone_reports_iff]
    decide
  · rw [clone_reports_iff]
    decide

end FailureReports
