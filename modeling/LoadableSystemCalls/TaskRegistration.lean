import LoadableSystemCalls.ModuleRegistry

/-! # Registering tasks on modules (ioctl_device.c, sys_clone2.c, syscall_new.c)

Each function is proved to do one thing: give one task a new registration, with the
reference counts following. -/
namespace TaskRegistration

open KernelTypes ModuleRegistry

/-- `kmallocOk` is the outcome of the allocation of a new record; its failure is not
checked before the record is written. -/
def getIoctlHelper (kmallocOk : Bool) (msg : IoctlArg) (k : Kernel) : Option Kernel :=
  if msg.vector = 0 then
    match findTask msg.pid k.tasks with
    | none => some k
    | some task =>
      match task.sysVector with
      | none => some k
      | some v => (decrementModuleRc v.moduleAddr k).map (·.setSysVector msg.pid none)
  else
    match getModule msg.moduleType k with
    | none => none
    | some none => some k
    | some (some addr) =>
      match findTask msg.pid k.tasks with
      | none => some k
      | some task =>
        match task.sysVector with
        | none =>
          if kmallocOk then
            (incrementModuleRc addr k).map (·.setSysVector msg.pid (some ⟨msg.vector, addr⟩))
          else none
        | some v =>
          if v.moduleAddr ≠ addr then
            ((decrementModuleRc v.moduleAddr k).bind (incrementModuleRc addr)).map
              (·.setSysVector msg.pid (some ⟨msg.vector, addr⟩))
          else some (k.setSysVector msg.pid (some ⟨msg.vector, addr⟩))

structure CloneArgs where
  moduleId : BitVec 16
  vector : BitVec 32
  deriving DecidableEq, Repr

/-- The message sys_clone2 builds: the result of _do_fork is stored in an int, whether it
is a PID or an error, and the module id is widened from int16_t. -/
def cloneMessage (forkRet : BitVec 64) (args : CloneArgs) : IoctlArg where
  vector := args.vector
  pid := forkRet.setWidth 32
  moduleType := args.moduleId.signExtend 32

/-- `current` is the task numbered `pid`. -/
def newExitGroup (pid : BitVec 32) (k : Kernel) : Option Kernel :=
  match (findTask pid k.tasks).bind TaskStruct.sysVector with
  | some v => (decrementModuleRc v.moduleAddr k).map (·.setSysVector pid none)
  | none => some k

/-- original_exit_group: the task is gone. -/
def endTask (pid : BitVec 32) (k : Kernel) : Kernel :=
  { k with tasks := KeyedList.remove TaskStruct.pid pid k.tasks }

/-- The kernel's fork: the child gets its own copy of the record and one more reference. -/
def forkTask (parent child : BitVec 32) (k : Kernel) : Option Kernel :=
  match findTask parent k.tasks with
  | none => none
  | some t =>
    let k' := { k with tasks := k.tasks ++ [{ t with pid := child }] }
    match t.sysVector with
    | none => some k'
    | some v => (k.mods.lookup v.moduleAddr).map fun r => k'.moduleGet r.module

/-- The record refers to a loaded module that belongs to the kernel module `mod`. -/
def refersTo (mods : AList fun _ : Addr => ModuleReg) (mod : Addr) (v : Option NewSysVector) :
    Bool :=
  v.any fun v => (mods.lookup v.moduleAddr).any fun r => r.module = mod

def references (k : Kernel) (mod : Addr) : ℕ :=
  k.tasks.countP fun t => refersTo k.mods mod t.sysVector

/-- The registry list holds exactly the loaded modules, every record points into it, and
the kernel counts the records, and `leaked` references that no record accounts for. -/
structure Accounted (leaked : Addr → ℕ) (k : Kernel) : Prop where
  listed : ∃ ms, Listed k ms ∧ ms.Nodup ∧ ∀ m, m ∈ ms ↔ (k.mods.lookup m).isSome
  pids : KeyedList.Distinct TaskStruct.pid k.tasks
  modules : ∀ m r m' r', k.mods.lookup m = some r → k.mods.lookup m' = some r' →
    r.module = r'.module → m = m'
  attached : ∀ t ∈ k.tasks, ∀ v, t.sysVector = some v → (k.mods.lookup v.moduleAddr).isSome
  counted : ∀ mod, k.refcnt mod = references k mod + leaked mod
  puts : k.skippedPuts = 0

abbrev Consistent (k : Kernel) : Prop := Accounted (fun _ => 0) k

/-- Task `t` now has the registration `new`; counts moved with it; nothing else changed. -/
structure Reassigned (k : Kernel) (t : TaskStruct) (new : Option NewSysVector) (k' : Kernel) :
    Prop where
  nodes : k'.nodes = k.nodes
  headNode : k'.headNode = k.headNode
  mods : k'.mods = k.mods
  skippedPuts : k'.skippedPuts = k.skippedPuts
  tasks : k'.tasks = (k.setSysVector t.pid new).tasks
  refcnt : ∀ mod, k'.refcnt mod + (if refersTo k.mods mod t.sysVector then 1 else 0) =
    k.refcnt mod + (if refersTo k.mods mod new then 1 else 0)

theorem refersTo_some {mods : AList fun _ : Addr => ModuleReg} {v : NewSysVector}
    {r : ModuleReg} (h : mods.lookup v.moduleAddr = some r) (mod : Addr) :
    refersTo mods mod (some v) = decide (r.module = mod) := by simp [refersTo, h]

@[simp] theorem refersTo_none (mods : AList fun _ : Addr => ModuleReg) (mod : Addr) :
    refersTo mods mod none = false := rfl

theorem Reassigned.find {k k' : Kernel} {t : TaskStruct} {new : Option NewSysVector}
    (h : Reassigned k t new k') {pid : BitVec 32} (ht : findTask pid k.tasks = some t)
    (q : BitVec 32) :
    findTask q k'.tasks = if q = pid then some { t with sysVector := new }
      else findTask q k.tasks := by
  have hkey : ∀ x : TaskStruct, TaskStruct.pid { x with sysVector := new } = x.pid := fun _ => rfl
  have htasks := h.tasks
  rw [(KeyedList.mem_of_lookup ht).2] at htasks
  rw [htasks]
  by_cases hq : q = pid
  · subst hq
    rw [if_pos rfl]
    exact (KeyedList.lookup_modify_self hkey k.tasks).trans (congrArg (Option.map _) ht)
  · rw [if_neg hq]
    exact KeyedList.lookup_modify_ne hq hkey k.tasks

variable {leaked : Addr → ℕ}

theorem Accounted.refcnt_pos {k : Kernel} (h : Accounted leaked k) {t : TaskStruct}
    (ht : t ∈ k.tasks) {v : NewSysVector} (hv : t.sysVector = some v) {r : ModuleReg}
    (hr : k.mods.lookup v.moduleAddr = some r) : 0 < k.refcnt r.module := by
  have hpos : 0 < references k r.module :=
    List.countP_pos_iff.mpr ⟨t, ht, by simp [hv, refersTo_some hr]⟩
  rw [h.counted]
  omega

theorem Accounted.put {k : Kernel} (h : Accounted leaked k) {t : TaskStruct} (ht : t ∈ k.tasks)
    {v : NewSysVector} (hv : t.sysVector = some v) :
    ∃ r, k.mods.lookup v.moduleAddr = some r ∧ 0 < k.refcnt r.module ∧
      decrementModuleRc v.moduleAddr k = some (k.modulePut r.module) := by
  obtain ⟨ms, hl, -, hms⟩ := h.listed
  obtain ⟨r, hr⟩ := Option.isSome_iff_exists.mp (h.attached t ht v hv)
  have hp := h.refcnt_pos ht hv hr
  exact ⟨r, hr, hp, hl.decrementModuleRc ((hms _).mpr (by simp [hr])) hr hp⟩

theorem Accounted.module_of_type {k : Kernel} (h : Accounted leaked k) (type : ModuleType) :
    (getModule type k = some none ∧ ∀ m r, k.mods.lookup m = some r → r.type ≠ type) ∨
    ∃ m r, getModule type k = some (some m) ∧ k.mods.lookup m = some r ∧ r.type = type := by
  obtain ⟨ms, hl, -, hms⟩ := h.listed
  rw [hl.getModule]
  cases hf : ms.find? (k.typeIs type) with
  | none =>
    refine Or.inl ⟨rfl, fun m r hr => ?_⟩
    have := List.find?_eq_none.mp hf m ((hms m).mpr (by simp [hr]))
    simpa [Kernel.typeIs, hr] using this
  | some m =>
    obtain ⟨r, hr⟩ := hl.loaded m (List.mem_of_find?_eq_some hf)
    refine Or.inr ⟨m, r, rfl, hr, ?_⟩
    simpa [Kernel.typeIs, hr] using List.find?_some hf

theorem Accounted.get {k : Kernel} (h : Accounted leaked k) {m : Addr} {r : ModuleReg}
    (hr : k.mods.lookup m = some r) {k' : Kernel} (hn : k'.nodes = k.nodes)
    (hh : k'.headNode = k.headNode) (hm : k'.mods = k.mods) :
    incrementModuleRc m k' = some (k'.moduleGet r.module) := by
  obtain ⟨ms, hl, -, hms⟩ := h.listed
  exact (hl.congr hn hh hm).incrementModuleRc ((hms m).mpr (by simp [hr])) (hm ▸ hr)

section moves
variable {k : Kernel} {t : TaskStruct} {v : NewSysVector} {r r' : ModuleReg} {m : Addr}

theorem reassigned_put (hv : t.sysVector = some v) (hr : k.mods.lookup v.moduleAddr = some r)
    (hp : 0 < k.refcnt r.module) :
    Reassigned k t none ((k.modulePut r.module).setSysVector t.pid none) := by
  refine ⟨rfl, rfl, rfl, rfl, rfl, fun mod => ?_⟩
  rw [hv, refersTo_some hr]
  by_cases hm : mod = r.module
  · subst hm
    simp [Kernel.modulePut]
    omega
  · simp [Kernel.modulePut, hm, Ne.symm hm]

theorem reassigned_get (hv : t.sysVector = none) (hr : k.mods.lookup m = some r)
    (sv : BitVec 32) : Reassigned k t (some ⟨sv, m⟩)
      ((k.moduleGet r.module).setSysVector t.pid (some ⟨sv, m⟩)) := by
  refine ⟨rfl, rfl, rfl, rfl, rfl, fun mod => ?_⟩
  rw [hv, refersTo_some hr]
  by_cases hm : mod = r.module
  · subst hm
    simp [Kernel.moduleGet]
  · simp [Kernel.moduleGet, hm, Ne.symm hm]

theorem reassigned_move (hv : t.sysVector = some v) (hr : k.mods.lookup v.moduleAddr = some r)
    (hr' : k.mods.lookup m = some r') (hne : r.module ≠ r'.module) (hp : 0 < k.refcnt r.module)
    (sv : BitVec 32) : Reassigned k t (some ⟨sv, m⟩)
      (((k.modulePut r.module).moduleGet r'.module).setSysVector t.pid (some ⟨sv, m⟩)) := by
  refine ⟨rfl, rfl, rfl, rfl, rfl, fun mod => ?_⟩
  rw [hv, refersTo_some hr, refersTo_some hr']
  by_cases hm' : mod = r'.module
  · subst hm'
    simp [Kernel.moduleGet, Kernel.modulePut, hne, Ne.symm hne]
  · by_cases hm : mod = r.module
    · subst hm
      simp [Kernel.moduleGet, Kernel.modulePut, hne, Ne.symm hne]
      omega
    · simp [Kernel.moduleGet, Kernel.modulePut, hm, hm', Ne.symm hm, Ne.symm hm']

theorem reassigned_retune (hv : t.sysVector = some v) (sv : BitVec 32) :
    Reassigned k t (some ⟨sv, v.moduleAddr⟩)
      (k.setSysVector t.pid (some ⟨sv, v.moduleAddr⟩)) := by
  refine ⟨rfl, rfl, rfl, rfl, rfl, fun mod => ?_⟩
  rw [hv]
  rfl

theorem setSysVector_self (hd : KeyedList.Distinct TaskStruct.pid k.tasks) (ht : t ∈ k.tasks) :
    k.tasks = (k.setSysVector t.pid t.sysVector).tasks := by
  refine (List.map_id _).symm.trans (List.map_congr_left fun x hx => ?_)
  by_cases he : x.pid = t.pid
  · have hx' := KeyedList.lookup_of_mem hd hx
    rw [he, KeyedList.lookup_of_mem hd ht] at hx'
    obtain rfl := Option.some.inj hx'
    simp
  · simp [he]

end moves

/-- The registration a message asks for: `none` when no loaded module has the type. -/
def requested (msg : IoctlArg) (k : Kernel) : Option (Option NewSysVector) :=
  if msg.vector = 0 then some none
  else (getModule msg.moduleType k).join.map fun m => some ⟨msg.vector, m⟩

theorem Accounted.clear {k : Kernel} (h : Accounted leaked k) {msg : IoctlArg} {t : TaskStruct}
    (ht : findTask msg.pid k.tasks = some t) (hz : msg.vector = 0) :
    ∃ k', getIoctlHelper true msg k = some k' ∧ Reassigned k t none k' := by
  obtain ⟨hmem, hpid⟩ := KeyedList.mem_of_lookup ht
  cases hv : t.sysVector with
  | none =>
    refine ⟨k, ?_, rfl, rfl, rfl, rfl, ?_, ?_⟩
    · rw [getIoctlHelper, if_pos hz]
      simp [ht, hv]
    · exact hv ▸ setSysVector_self h.pids hmem
    · intro mod
      rw [hv]
  | some v =>
    obtain ⟨r, hr, hp, hd⟩ := h.put hmem hv
    refine ⟨_, ?_, reassigned_put hv hr hp⟩
    rw [getIoctlHelper, if_pos hz]
    simp [ht, hv, hd, hpid]

theorem Accounted.assign {k : Kernel} (h : Accounted leaked k) {msg : IoctlArg} {t : TaskStruct}
    (ht : findTask msg.pid k.tasks = some t) (hz : msg.vector ≠ 0) {m : Addr} {r : ModuleReg}
    (hg : getModule msg.moduleType k = some (some m)) (hr : k.mods.lookup m = some r) :
    ∃ k', getIoctlHelper true msg k = some k' ∧
      Reassigned k t (some ⟨msg.vector, m⟩) k' := by
  obtain ⟨hmem, hpid⟩ := KeyedList.mem_of_lookup ht
  cases hv : t.sysVector with
  | none =>
    refine ⟨_, ?_, reassigned_get hv hr msg.vector⟩
    rw [getIoctlHelper, if_neg hz]
    simp [ht, hv, hg, hpid, h.get hr rfl rfl rfl]
  | some v =>
    obtain ⟨r₀, hr₀, hp, hd⟩ := h.put hmem hv
    by_cases hne : v.moduleAddr = m
    · subst hne
      refine ⟨_, ?_, reassigned_retune hv msg.vector⟩
      rw [getIoctlHelper, if_neg hz]
      simp [ht, hv, hg, hpid]
    · have hmod : r₀.module ≠ r.module := fun e => hne (h.modules _ _ _ _ hr₀ hr e)
      have hi : incrementModuleRc m (k.modulePut r₀.module) =
          some ((k.modulePut r₀.module).moduleGet r.module) := h.get hr rfl rfl rfl
      refine ⟨_, ?_, reassigned_move hv hr₀ hr hmod hp msg.vector⟩
      rw [getIoctlHelper, if_neg hz]
      simp [ht, hv, hg, hpid, hne, hd, hi]

/-- What get_ioctl_helper does: reassign the task that is found, if the request can be met,
and otherwise nothing. -/
theorem Accounted.ioctl_effect {k : Kernel} (h : Accounted leaked k) (msg : IoctlArg) :
    ∃ k', getIoctlHelper true msg k = some k' ∧
      match findTask msg.pid k.tasks, requested msg k with
      | some t, some new => Reassigned k t new k'
      | _, _ => k' = k := by
  by_cases hz : msg.vector = 0
  · cases ht : findTask msg.pid k.tasks with
    | none =>
      refine ⟨k, ?_, rfl⟩
      rw [getIoctlHelper, if_pos hz, ht]
    | some t =>
      rw [requested, if_pos hz]
      exact h.clear ht hz
  · rw [requested, if_neg hz]
    rcases h.module_of_type msg.moduleType with ⟨hg, -⟩ | ⟨m, r, hg, hr, -⟩
    · refine ⟨k, ?_, ?_⟩
      · rw [getIoctlHelper, if_neg hz, hg]
      · rw [hg]
        cases findTask msg.pid k.tasks <;> rfl
    · rw [hg]
      cases ht : findTask msg.pid k.tasks with
      | none =>
        refine ⟨k, ?_, rfl⟩
        rw [getIoctlHelper, if_neg hz, hg, ht]
      | some t => exact h.assign ht hz hg hr

def Allocates (msg : IoctlArg) (k : Kernel) : Prop :=
  msg.vector ≠ 0 ∧ (getModule msg.moduleType k).join.isSome = true ∧
  (findTask msg.pid k.tasks).any (fun t => t.sysVector.isNone) = true

def Supplied (kmallocOk : Bool) (msg : IoctlArg) (k : Kernel) : Prop :=
  kmallocOk = true ∨ ¬ Allocates msg k

instance (msg : IoctlArg) (k : Kernel) : Decidable (Allocates msg k) :=
  inferInstanceAs (Decidable (_ ∧ _ ∧ _))

instance (kmallocOk : Bool) (msg : IoctlArg) (k : Kernel) :
    Decidable (Supplied kmallocOk msg k) :=
  inferInstanceAs (Decidable (_ ∨ _))

theorem getIoctlHelper_of_not_allocates {msg : IoctlArg} {k : Kernel} (h : ¬ Allocates msg k)
    (kmallocOk : Bool) : getIoctlHelper kmallocOk msg k = getIoctlHelper true msg k := by
  by_cases hz : msg.vector = 0
  · simp only [getIoctlHelper, if_pos hz]
  · rcases hg : getModule msg.moduleType k with _ | _ | m
    · simp only [getIoctlHelper, if_neg hz, hg]
    · simp only [getIoctlHelper, if_neg hz, hg]
    · cases ht : findTask msg.pid k.tasks with
      | none => simp only [getIoctlHelper, if_neg hz, hg, ht]
      | some t =>
        cases hv : t.sysVector with
        | none =>
          refine absurd ⟨hz, ?_, ?_⟩ h
          · rw [hg]
            rfl
          · rw [ht, Option.any_some, hv]
            rfl
        | some v => simp only [getIoctlHelper, if_neg hz, hg, ht, hv]

theorem getIoctlHelper_supplied {kmallocOk : Bool} {msg : IoctlArg} {k : Kernel}
    (h : Supplied kmallocOk msg k) :
    getIoctlHelper kmallocOk msg k = getIoctlHelper true msg k := by
  rcases h with rfl | h
  · rfl
  · exact getIoctlHelper_of_not_allocates h kmallocOk

theorem getIoctlHelper_starved {kmallocOk : Bool} {msg : IoctlArg} {k : Kernel}
    (h : ¬ Supplied kmallocOk msg k) : getIoctlHelper kmallocOk msg k = none := by
  obtain ⟨hk, ha⟩ := not_or.mp h
  obtain ⟨hz, hm, ht⟩ := not_not.mp ha
  obtain ⟨t, hfind, hnone⟩ := (Option.any_eq_true _ _).mp ht
  obtain ⟨m, hjoin⟩ := Option.isSome_iff_exists.mp hm
  have hg : getModule msg.moduleType k = some (some m) := Option.join_eq_some_iff.mp hjoin
  have hv : t.sysVector = none := Option.isNone_iff_eq_none.mp hnone
  rw [getIoctlHelper, if_neg hz]
  simp [hg, hfind, hv, hk]

end TaskRegistration
