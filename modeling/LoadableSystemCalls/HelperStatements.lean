import LoadableSystemCalls.FailureReports
import LoadableSystemCalls.StatementBodies
import LoadableSystemCalls.VectorReport

/-! # ioctl_funcs and get_ioctl_helper, statement by statement (ioctl_device.c, bitmap.c)

Everywhere else a message is carried out in one step. Here it is a body of statements, with
the record half written in between, and the mutex is what makes one step of it. -/
namespace HelperStatements

open KernelTypes ModuleRegistry TaskRegistration FailureReports StatementBodies TransitionRuns
open ReferenceCounts (ioctl_accounted ioctl_registry)
open TextBuffers (Shows shows_strlen shows_take nulFree_or_shows)
open VectorReport (registered report reportSize)
open StatementBodies.Body (read write)
open ThreadGroups (System)

abbrev Byte := CStrings.Byte

/-- `pid_task(find_get_pid(pid), PIDTYPE_PID)`. -/
def pidTask (pid : BitVec 32) (k : Kernel) : Option (BitVec 32) :=
  (findTask pid k.tasks).map TaskStruct.pid

/-- Reading `task->sys_vector`, through a pointer that may have gone stale. -/
def sysVector (task : BitVec 32) (k : Kernel) : Option (Option NewSysVector) :=
  (findTask task k.tasks).map TaskStruct.sysVector

def moduleAddr (task : BitVec 32) (k : Kernel) : Option Addr :=
  (sysVector task k).join.map NewSysVector.moduleAddr

def storeSysVector (task : BitVec 32) (v : Option NewSysVector) (k : Kernel) : Option Kernel :=
  (findTask task k.tasks).map fun _ => k.setSysVector task v

/-- `task->sys_vector->module_addr = addr`. -/
def storeModuleAddr (task : BitVec 32) (addr : Addr) (k : Kernel) : Option Kernel :=
  (sysVector task k).join.map fun v => k.setSysVector task (some { v with moduleAddr := addr })

/-- `task->sys_vector->sv = sv`. -/
def storeSv (task : BitVec 32) (sv : BitVec 32) (k : Kernel) : Option Kernel :=
  (sysVector task k).join.map fun v => k.setSysVector task (some { v with sv := sv })

/-- The walk to the node of a module, and on to the kernel module it belongs to. -/
def walk (moduleReg : Addr) (k : Kernel) : Option (Option Addr) :=
  match findNode k fun m => some (m = moduleReg) with
  | none => none
  | some none => some none
  | some (some (_, _, c)) => (k.mods.lookup c.value).map fun r => some r.module

/-- No put was made; only the ghost count moves. -/
def skipPut (k : Kernel) : Option Kernel := some { k with skippedPuts := k.skippedPuts + 1 }

def incrementBody (moduleReg : Addr) : Body Kernel Unit := do
  match ← read (walk moduleReg) with
  | none => pure ()
  | some module => write fun k => some (k.moduleGet module)

def decrementBody (moduleReg : Addr) : Body Kernel Unit := do
  match ← read (walk moduleReg) with
  | none => write skipPut
  | some module =>
    match ← read fun k => some (decide (0 < k.moduleRefcount module)) with
    | true => write fun k => some (k.modulePut module)
    | false => write skipPut

section helper
variable (kmallocOk : Bool) (stale : NewSysVector) (msg : IoctlArg)

/-- The branch of a zero vector. kfree leaves the pointer, and `stale` behind it. -/
def clearBody : Option (BitVec 32) → Body Kernel Unit
  | none => pure ()
  | some task => do
    match ← read (sysVector task) with
    | none => pure ()
    | some _ =>
      let addr ← read (moduleAddr task)
      decrementBody addr
      write (storeSysVector task (some stale))
      write (storeSysVector task none)

/-- The record that kmalloc returns holds `stale` until its fields are written. -/
def newRecordBody (task : BitVec 32) (addr : Addr) : Body Kernel Unit := do
  write (storeSysVector task (if kmallocOk then some stale else none))
  write (storeModuleAddr task addr)
  incrementBody addr

def moveRecordBody (task : BitVec 32) (addr : Addr) : Body Kernel Unit := do
  let old ← read (moduleAddr task)
  if old ≠ addr then
    let old ← read (moduleAddr task)
    decrementBody old
    incrementBody addr
  else pure ()

def fillBody (task : BitVec 32) (addr : Addr) : Body Kernel Unit := do
  write (storeModuleAddr task addr)
  write (storeSv task msg.vector)

def registerBody (task : BitVec 32) (addr : Addr) : Body Kernel Unit := do
  match ← read (sysVector task) with
  | none => newRecordBody kmallocOk stale task addr
  | some _ => moveRecordBody task addr
  fillBody msg task addr

def assignBody (task : Option (BitVec 32)) : Body Kernel Unit := do
  match ← read (getModule msg.moduleType), task with
  | none, _ => pure ()
  | some _, none => pure ()
  | some addr, some task => registerBody kmallocOk stale msg task addr

def getIoctlHelperBody : Body Kernel Unit := do
  let task ← read fun k => some (pidTask msg.pid k)
  if msg.vector = 0 then clearBody stale task else assignBody kmallocOk stale msg task

end helper

theorem run_increment (moduleReg : Addr) (k : Kernel) :
    (incrementBody moduleReg).run k = (incrementModuleRc moduleReg k).map fun k => (k, ()) := by
  simp only [incrementBody, incrementModuleRc, walk, Body.run_bind, Body.run_read]
  rcases findNode k fun m => some (m = moduleReg) with _ | _ | ⟨prev, a, c⟩
  · rfl
  · rfl
  · cases hr : k.mods.lookup c.value <;> simp [hr]

theorem run_decrement (moduleReg : Addr) (k : Kernel) :
    (decrementBody moduleReg).run k = (decrementModuleRc moduleReg k).map fun k => (k, ()) := by
  simp only [decrementBody, decrementModuleRc, walk, Body.run_bind, Body.run_read]
  rcases findNode k fun m => some (m = moduleReg) with _ | _ | ⟨prev, a, c⟩
  · rfl
  · simp [skipPut]
  · cases hr : k.mods.lookup c.value with
    | none => simp [hr]
    | some r =>
      by_cases hp : 0 < k.moduleRefcount r.module
      · simp [hr, hp]
      · simp [hr, hp, skipPut]

section record
variable {k : Kernel} {pid : BitVec 32} {t : TaskStruct}

theorem setSysVector_find (ht : findTask pid k.tasks = some t) (v : Option NewSysVector) :
    findTask pid (k.setSysVector pid v).tasks = some { t with sysVector := v } := by
  have hkey : ∀ x : TaskStruct, TaskStruct.pid { x with sysVector := v } = x.pid := fun _ => rfl
  exact (KeyedList.lookup_modify_self hkey k.tasks).trans (congrArg (Option.map _) ht)

theorem setSysVector_setSysVector (k : Kernel) (pid : BitVec 32) (v w : Option NewSysVector) :
    (k.setSysVector pid v).setSysVector pid w = k.setSysVector pid w := by
  simp only [Kernel.setSysVector, KeyedList.modify, List.map_map]
  congr 1
  apply List.map_congr_left
  intro x _
  by_cases hx : x.pid = pid <;> simp [hx]

theorem pidTask_of_find (ht : findTask pid k.tasks = some t) : pidTask pid k = some pid := by
  rw [pidTask, ht, Option.map_some, (KeyedList.mem_of_lookup ht).2]

theorem sysVector_of_find (ht : findTask pid k.tasks = some t) :
    sysVector pid k = some t.sysVector := by
  rw [sysVector, ht, Option.map_some]

theorem moduleAddr_of_find {v : NewSysVector} (ht : findTask pid k.tasks = some t)
    (hv : t.sysVector = some v) : moduleAddr pid k = some v.moduleAddr := by
  rw [moduleAddr, sysVector_of_find ht, hv]
  rfl

theorem storeSysVector_of_find (ht : findTask pid k.tasks = some t) (v : Option NewSysVector) :
    storeSysVector pid v k = some (k.setSysVector pid v) := by
  rw [storeSysVector, ht, Option.map_some]

theorem storeModuleAddr_of_find {v : NewSysVector} (ht : findTask pid k.tasks = some t)
    (hv : t.sysVector = some v) (addr : Addr) :
    storeModuleAddr pid addr k =
      some (k.setSysVector pid (some { v with moduleAddr := addr })) := by
  rw [storeModuleAddr, sysVector_of_find ht, hv]
  rfl

theorem storeSv_of_find {v : NewSysVector} (ht : findTask pid k.tasks = some t)
    (hv : t.sysVector = some v) (sv : BitVec 32) :
    storeSv pid sv k = some (k.setSysVector pid (some { v with sv := sv })) := by
  rw [storeSv, sysVector_of_find ht, hv]
  rfl

end record

theorem incrementModuleRc_setSysVector (m : Addr) (k : Kernel) (pid : BitVec 32)
    (v : Option NewSysVector) : incrementModuleRc m (k.setSysVector pid v) =
      (incrementModuleRc m k).map (·.setSysVector pid v) := by
  have hwalk : findNode (k.setSysVector pid v) (fun x => some (x = m)) =
      findNode k fun x => some (x = m) := rfl
  rw [incrementModuleRc, incrementModuleRc, hwalk]
  rcases findNode k fun x => some (x = m) with _ | _ | ⟨prev, a, c⟩
  · rfl
  · rfl
  · cases hr : k.mods.lookup c.value with
    | none => simp [hr]
    | some r =>
      simp only [setSysVector_mods, hr, Option.map_some]
      rfl

section whole
variable {stale : NewSysVector} {msg : IoctlArg} {k : Kernel} {t : TaskStruct}

theorem run_clear (ht : findTask msg.pid k.tasks = some t) :
    (clearBody stale (some msg.pid)).run k =
      match t.sysVector with
      | none => some (k, ())
      | some v => (decrementModuleRc v.moduleAddr k).map fun k =>
        (k.setSysVector msg.pid none, ()) := by
  cases hv : t.sysVector with
  | none => simp [clearBody, sysVector_of_find ht, hv]
  | some v =>
    simp only [clearBody, Body.run_bind, Body.run_read, Body.run_write, sysVector_of_find ht, hv,
      moduleAddr_of_find ht hv, Option.map_some, Option.bind_some, run_decrement]
    cases hd : decrementModuleRc v.moduleAddr k with
    | none => rfl
    | some k' =>
      have ht' : findTask msg.pid k'.tasks = some t := by rwa [decrementModuleRc_tasks hd]
      simp [storeSysVector_of_find ht', storeSysVector_of_find (setSysVector_find ht' _),
        setSysVector_setSysVector]

theorem run_fill {v : NewSysVector} (ht : findTask msg.pid k.tasks = some t)
    (hv : t.sysVector = some v) (addr : Addr) :
    (fillBody msg msg.pid addr).run k =
      some (k.setSysVector msg.pid (some ⟨msg.vector, addr⟩), ()) := by
  have ht' := setSysVector_find ht (some { v with moduleAddr := addr })
  simp [fillBody, storeModuleAddr_of_find ht hv, storeSv_of_find ht' rfl,
    setSysVector_setSysVector]

theorem run_newRecord (ht : findTask msg.pid k.tasks = some t) (kmallocOk : Bool) (addr : Addr) :
    (newRecordBody kmallocOk stale msg.pid addr).run k =
      if kmallocOk then (incrementModuleRc addr k).map fun k =>
        (k.setSysVector msg.pid (some ⟨stale.sv, addr⟩), ())
      else none := by
  cases kmallocOk with
  | false =>
    have hnull : storeModuleAddr msg.pid addr (k.setSysVector msg.pid none) = none := by
      rw [storeModuleAddr, sysVector_of_find (setSysVector_find ht none)]
      rfl
    simp [newRecordBody, storeSysVector_of_find ht, hnull]
  | true =>
    have hnew := setSysVector_find ht (some stale)
    simp [newRecordBody, storeSysVector_of_find ht, storeModuleAddr_of_find hnew rfl,
      setSysVector_setSysVector, run_increment, incrementModuleRc_setSysVector, Function.comp_def]

theorem run_moveRecord {v : NewSysVector} (ht : findTask msg.pid k.tasks = some t)
    (hv : t.sysVector = some v) (addr : Addr) :
    (moveRecordBody msg.pid addr).run k =
      (if v.moduleAddr ≠ addr then
        (decrementModuleRc v.moduleAddr k).bind (incrementModuleRc addr) else some k).map
          fun k => (k, ()) := by
  by_cases hsame : v.moduleAddr = addr
  · simp [moveRecordBody, moduleAddr_of_find ht hv, hsame]
  · simp only [moveRecordBody, Body.run_bind, Body.run_read, moduleAddr_of_find ht hv,
      Option.map_some, Option.bind_some, ne_eq, hsame, not_false_eq_true, if_true,
      run_decrement]
    cases decrementModuleRc v.moduleAddr k with
    | none => rfl
    | some k' => simp [run_increment]

theorem moved_tasks {m addr : Addr} {k' : Kernel}
    (h : (decrementModuleRc m k).bind (incrementModuleRc addr) = some k') :
    k'.tasks = k.tasks := by
  obtain ⟨j, hj, hk⟩ := Option.bind_eq_some_iff.mp h
  rw [incrementModuleRc_tasks hk, decrementModuleRc_tasks hj]

theorem run_register_new (ht : findTask msg.pid k.tasks = some t) (hv : t.sysVector = none)
    (kmallocOk : Bool) (addr : Addr) :
    (registerBody kmallocOk stale msg msg.pid addr).run k =
      if kmallocOk then (incrementModuleRc addr k).map fun k =>
        (k.setSysVector msg.pid (some ⟨msg.vector, addr⟩), ())
      else none := by
  simp only [registerBody, Body.run_bind, Body.run_read, sysVector_of_find ht, hv, Option.map_some,
    Option.bind_some, run_newRecord ht]
  cases kmallocOk with
  | false => rfl
  | true =>
    cases hi : incrementModuleRc addr k with
    | none => rfl
    | some k' =>
      have ht' : findTask msg.pid k'.tasks = some t := by rwa [incrementModuleRc_tasks hi]
      simp [run_fill (setSysVector_find ht' _) rfl, setSysVector_setSysVector]

theorem run_register_move {v : NewSysVector} (ht : findTask msg.pid k.tasks = some t)
    (hv : t.sysVector = some v) (kmallocOk : Bool) (addr : Addr) :
    (registerBody kmallocOk stale msg msg.pid addr).run k =
      (if v.moduleAddr ≠ addr then
        (decrementModuleRc v.moduleAddr k).bind (incrementModuleRc addr) else some k).map
          fun k => (k.setSysVector msg.pid (some ⟨msg.vector, addr⟩), ()) := by
  simp only [registerBody, Body.run_bind, Body.run_read, sysVector_of_find ht, hv, Option.map_some,
    Option.bind_some, run_moveRecord ht hv]
  by_cases hsame : v.moduleAddr = addr
  · simp [hsame, run_fill ht hv]
  · simp only [ne_eq, hsame, not_false_eq_true, if_true]
    cases hm : (decrementModuleRc v.moduleAddr k).bind (incrementModuleRc addr) with
    | none => rfl
    | some k' =>
      have ht' : findTask msg.pid k'.tasks = some t := by rwa [moved_tasks hm]
      simp [run_fill ht' hv]

/-- Without interruption the statements come to the one step of the other models. -/
theorem run_getIoctlHelper (kmallocOk : Bool) (stale : NewSysVector) (msg : IoctlArg)
    (k : Kernel) : (getIoctlHelperBody kmallocOk stale msg).run k =
      (getIoctlHelper kmallocOk msg k).map fun k => (k, ()) := by
  rw [getIoctlHelperBody, getIoctlHelper]
  by_cases hz : msg.vector = 0
  · simp only [Body.run_bind, Body.run_read, Option.map_some, Option.bind_some, if_pos hz]
    cases ht : findTask msg.pid k.tasks with
    | none => simp [pidTask, ht, clearBody]
    | some t =>
      rw [pidTask_of_find ht, run_clear ht]
      cases hv : t.sysVector with
      | none => simp [hv]
      | some v => simp [hv, Function.comp_def]
  · simp only [Body.run_bind, Body.run_read, Option.map_some, Option.bind_some, if_neg hz]
    rcases hg : getModule msg.moduleType k with _ | _ | addr
    · simp [assignBody, hg]
    · simp [assignBody, hg]
    · cases ht : findTask msg.pid k.tasks with
      | none => simp [assignBody, hg, pidTask, ht]
      | some t =>
        simp only [assignBody, Body.run_bind, Body.run_read, hg, pidTask_of_find ht,
          Option.map_some, Option.bind_some]
        cases hv : t.sysVector with
        | none =>
          rw [run_register_new ht hv]
          cases kmallocOk <;> simp [Function.comp_def]
        | some v =>
          rw [run_register_move ht hv]
          by_cases hsame : v.moduleAddr = addr <;> simp [hsame, Function.comp_def]

end whole

/-- A call of ioctl_funcs, with how the calls it makes end: `accepted` bytes get to the
caller's buffer. -/
inductive Command where
  | set (c : IoctlCall)
  | get (page strType : Option (List Byte)) (accepted : ℕ)
  | other (cmd : BitVec 32)
  deriving DecidableEq, Repr

structure Reply where
  ret : ℤ
  copied : List Byte
  deriving DecidableEq, Repr

/-- copy_to_user. -/
def deliver (accepted : ℕ) (ret : ℤ) (bytes : List Byte) : Reply :=
  ⟨if accepted < bytes.length then efault else ret, bytes.take accepted⟩

section ioctl
variable (groups : System)

/-- The walk of the module list is one statement, and so is a round of the outer loop. -/
def getVectorBody (strType : Option (List Byte)) (ioctlBuffer : List Byte) :
    Body Kernel (List Byte) :=
  match strType with
  | none => pure ioctlBuffer
  | some strType => do
    let ms ← read moduleList
    let b ← ms.foldlM (fun b m => read fun k => VectorReport.moduleStep (groups.onKernel k) b m)
      (⟨ioctlBuffer, strType.set 0 0⟩ : VectorReport.Buffers)
    pure b.ioctlBuffer

/-- What stands between mutex_lock and mutex_unlock; all errors end at `out`. -/
def ioctlBody (stale : NewSysVector) : Command → Body Kernel Reply
  | .set c =>
    if c.kmallocMsg then
      match c.copied with
      | none => pure ⟨efault, []⟩
      | some msg => do
        getIoctlHelperBody c.kmallocRecord stale msg
        pure ⟨0, []⟩
    else pure ⟨enomem, []⟩
  | .get page strType accepted =>
    match page with
    | none => pure (deliver accepted enomem [])
    | some ioctlBuffer => do
      let buff ← getVectorBody groups strType ioctlBuffer
      let n ← read fun _ => CStrings.strlen buff
      pure (deliver accepted 0 (buff.take n))
  | .other _ => pure ⟨0, []⟩

def ioctlCall : Command → Kernel → Option (Kernel × Reply)
  | .set c, k => (ioctlFuncs c k).map fun p => (p.1, ⟨p.2, []⟩)
  | .get page strType accepted, k =>
    (VectorReport.ioctlGet (groups.onKernel k) page strType).map fun p =>
      (k, deliver accepted p.1 p.2)
  | .other _, k => some (k, ⟨0, []⟩)

variable {groups}

theorem run_getVector (strType : Option (List Byte)) (ioctlBuffer : List Byte) (k : Kernel) :
    (getVectorBody groups strType ioctlBuffer).run k =
      (VectorReport.getVector (groups.onKernel k) strType ioctlBuffer).map fun p => (k, p.1) := by
  cases strType with
  | none => rfl
  | some strType =>
    simp only [getVectorBody, VectorReport.getVector, Body.run_bind, Body.run_read,
      Body.run_pure, Body.run_foldlM_read]
    change _ = ((moduleList k).bind _).map _
    cases moduleList k with
    | none => rfl
    | some ms =>
      simp only [Option.map_some, Option.bind_some]
      cases ms.foldlM (VectorReport.moduleStep (groups.onKernel k))
        ⟨ioctlBuffer, strType.set 0 0⟩ <;> rfl

theorem run_ioctl (stale : NewSysVector) (cmd : Command) (k : Kernel) :
    (ioctlBody groups stale cmd).run k = ioctlCall groups cmd k := by
  cases cmd with
  | set c =>
    rw [ioctlBody, ioctlCall, ioctlFuncs]
    cases c.kmallocMsg with
    | false => rfl
    | true =>
      cases c.copied with
      | none => rfl
      | some msg =>
        simp only [if_true, Body.run_bind, run_getIoctlHelper, Body.run_pure]
        cases getIoctlHelper c.kmallocRecord msg k <;> rfl
  | get page strType accepted =>
    cases page with
    | none => rfl
    | some ioctlBuffer =>
      simp only [ioctlBody, ioctlCall, Body.run_bind, run_getVector, VectorReport.ioctlGet]
      cases VectorReport.getVector (groups.onKernel k) strType ioctlBuffer with
      | none => rfl
      | some p => cases hn : CStrings.strlen p.1 <;> simp [hn]
  | other cmd => rfl

/-- Calls carried out whole in this order: the kernel after them and what each was told. -/
def inOrder {T : Type} [DecidableEq T] (groups : System) (cmds : T → Command) :
    Kernel × (T → Option Reply) → List T → Option (Kernel × (T → Option Reply))
  | p, [] => some p
  | (k, replies), t :: ts => (ioctlCall groups (cmds t) k).bind fun q =>
    inOrder groups cmds (q.1, Function.update replies t (some q.2)) ts

end ioctl

def reply : Phase Kernel Reply → Option Reply
  | .left r => some r
  | _ => none

section mutex
variable {T : Type} [DecidableEq T] {groups : System} {stale : NewSysVector} {cmds : T → Command}

theorem serial_inOrder {c d : Config T Kernel Reply} {ts : List T}
    (h : serial (fun t => ioctlBody groups stale (cmds t)) c ts = some d) :
    inOrder groups cmds (c.shared, fun t => reply (c.phase t)) ts =
      some (d.shared, fun t => reply (d.phase t)) := by
  induction ts generalizing c with
  | nil => rw [inOrder, Option.some.inj h]
  | cons t ts ih =>
    obtain ⟨p, hp, hrest⟩ := Option.bind_eq_some_iff.mp h
    rw [run_ioctl] at hp
    rw [inOrder, hp, Option.bind_some, ← ih hrest]
    congr 2
    funext u
    by_cases hu : u = t
    · subst hu
      simp [reply]
    · simp [hu]

/-- However the statements of any number of calls of ioctl_funcs interleave, at most one
call is between lock and unlock, and whenever the mutex is free the kernel and the replies
are those of the whole calls, carried out in the order in which they took the mutex. -/
theorem calls_serialise {k : Kernel} {es : List (Event T)} {c : Config T Kernel Reply}
    (hr : Run (Step fun t => ioctlBody groups stale (cmds t)) (begin k) es c) :
    (∀ t u b b', c.phase t = .inside b → c.phase u = .inside b' → t = u) ∧
    (c.owner = none → inOrder groups cmds (k, fun _ => none) (acquired es) =
      some (c.shared, fun t => reply (c.phase t))) := by
  refine ⟨fun t u b b' ht hu => run_exclusive hr ht hu, fun ho => ?_⟩
  have hserial := run_serialised hr
  unfold Serialised at hserial
  rw [ho] at hserial
  exact serial_inOrder hserial

/-- Registration messages lose no task, no reference and no module. -/
structure Kept (leaked : Addr → ℕ) (k k' : Kernel) : Prop where
  accounted : Accounted leaked k'
  tasks : pids k' = pids k
  nodes : k'.nodes = k.nodes
  headNode : k'.headNode = k.headNode
  mods : k'.mods = k.mods

/-- A record gets its memory, and a report fits its page behind what the page shows, however
the tasks are registered. -/
def Answered (groups : System) (leaked : Addr → ℕ) (k : Kernel) : Command → Prop
  | .set c => c.kmallocRecord = true
  | .get none _ _ => True
  | .get (some page) none _ => ∃ t, Shows page t
  | .get (some page) (some strType) _ => strType.length = 16 ∧ ∃ t, Shows page t ∧
    ∀ k', Kept leaked k k' → t.length + reportSize (groups.onKernel k') < page.length
  | .other _ => True

theorem Kept.refl {leaked : Addr → ℕ} {k : Kernel} (h : Accounted leaked k) : Kept leaked k k :=
  ⟨h, rfl, rfl, rfl, rfl⟩

theorem Kept.reportSize_le {leaked : Addr → ℕ} {k k' : Kernel} (h : Kept leaked k k') :
    reportSize (groups.onKernel k') ≤
      (registered (groups.onKernel k)).length * (40 + k.tasks.length * 35) := by
  have hmodules : registered (groups.onKernel k') = registered (groups.onKernel k) := by
    simp only [registered, moduleList, System.onKernel, h.nodes, h.headNode]
  have htasks : k'.tasks.length = k.tasks.length := by
    simpa [pids] using congrArg List.length h.tasks
  rw [← hmodules, ← htasks]
  exact VectorReport.reportSize_le (groups.onKernel k')

theorem get_answered {leaked : Addr → ℕ} {k k' : Kernel} {page strType : Option (List Byte)}
    {accepted : ℕ} (hc : Answered groups leaked k (.get page strType accepted))
    (h : Kept leaked k k') :
    ∃ p, VectorReport.ioctlGet (groups.onKernel k') page strType = some p := by
  have hreadable := VectorReport.accounted_readable (s := groups.onKernel k') h.accounted
  cases page with
  | none => exact ⟨_, rfl⟩
  | some page =>
    cases strType with
    | none =>
      obtain ⟨t, ht⟩ := hc
      have hbare : VectorReport.ioctlGet (groups.onKernel k') (some page) none =
          (CStrings.strlen page).map fun n => (0, page.take n) := rfl
      rw [hbare, shows_strlen ht]
      exact ⟨_, rfl⟩
    | some strType =>
      obtain ⟨hstr, t, ht, hroom⟩ := hc
      rw [VectorReport.ioctlGet_shows hreadable ht hstr, if_pos (hroom k' h)]
      exact ⟨_, rfl⟩

theorem call_kept {leaked : Addr → ℕ} {k k' : Kernel} {cmd : Command}
    (hc : Answered groups leaked k cmd) (h : Kept leaked k k') :
    ∃ p, ioctlCall groups cmd k' = some p ∧ Kept leaked k p.1 := by
  cases cmd with
  | set c =>
    have hsupplied : c.kmallocRecord = true := hc
    cases hreceived : c.received with
    | none =>
      obtain ⟨ret, hcall, -⟩ := ioctlFuncs_lost hreceived k'
      refine ⟨(k', ⟨ret, []⟩), ?_, h⟩
      rw [ioctlCall, hcall, Option.map_some]
    | some msg =>
      obtain ⟨k₁, hk₁, -⟩ := h.accounted.ioctl_effect msg
      obtain ⟨hnodes, hhead, hmods⟩ := ioctl_registry h.accounted hk₁
      refine ⟨(k₁, ⟨0, []⟩), ?_, ioctl_accounted h.accounted hk₁,
        (getIoctlHelper_pids hk₁).trans h.tasks, hnodes.trans h.nodes, hhead.trans h.headNode,
        hmods.trans h.mods⟩
      rw [ioctlCall, ioctlFuncs_received hreceived, hsupplied, hk₁]
      rfl
  | get page strType accepted =>
    obtain ⟨p, hp⟩ := get_answered hc h
    refine ⟨(k', deliver accepted p.1 p.2), ?_, h⟩
    rw [ioctlCall, hp, Option.map_some]
  | other cmd => exact ⟨(k', ⟨0, []⟩), rfl, h⟩

/-- The reply that is asked for when the call finds this kernel: a registration is told how its
message got in, a report is that of the kernel, behind what the page showed. -/
def Asks (groups : System) (k : Kernel) : Command → Reply → Prop
  | .set c, r => r = ⟨if c.kmallocMsg then if c.copied.isSome then 0 else efault else enomem, []⟩
  | .get none _ _, r => r = ⟨enomem, []⟩
  | .get (some page) none accepted, r => ∃ t, Shows page t ∧ r = deliver accepted 0 t
  | .get (some page) (some strType) accepted, r => strType.length = 16 →
    ∃ t, Shows page t ∧
      r = deliver accepted 0 (t ++ VectorReport.report (groups.onKernel k))
  | .other _, r => r = ⟨0, []⟩

theorem set_asks {k k' : Kernel} {c : IoctlCall} {r : Reply}
    (h : ioctlCall groups (.set c) k = some (k', r)) : Asks groups k (.set c) r := by
  obtain ⟨p, hp, he⟩ := Option.map_eq_some_iff.mp h
  obtain ⟨-, rfl⟩ := Prod.mk.inj he
  rw [ioctlFuncs] at hp
  cases hmsg : c.kmallocMsg with
  | false =>
    rw [hmsg, if_neg Bool.false_ne_true] at hp
    obtain rfl := Option.some.inj hp
    simp [Asks, hmsg]
  | true =>
    rw [hmsg, if_pos rfl] at hp
    cases hcopied : c.copied with
    | none =>
      rw [hcopied] at hp
      obtain rfl := Option.some.inj hp
      simp [Asks, hmsg, hcopied]
    | some msg =>
      rw [hcopied] at hp
      obtain ⟨k₁, -, rfl⟩ := Option.map_eq_some_iff.mp hp
      simp [Asks, hmsg, hcopied]

theorem get_asks {leaked : Addr → ℕ} {k k' : Kernel} (hk : Accounted leaked k)
    {page strType : Option (List Byte)} {accepted : ℕ} {r : Reply}
    (h : ioctlCall groups (.get page strType accepted) k = some (k', r)) :
    Asks groups k (.get page strType accepted) r := by
  obtain ⟨p, hp, he⟩ := Option.map_eq_some_iff.mp h
  obtain ⟨-, rfl⟩ := Prod.mk.inj he
  have hreadable := VectorReport.accounted_readable (s := groups.onKernel k) hk
  cases page with
  | none =>
    obtain rfl := Option.some.inj hp
    simp [Asks, deliver, enomem]
  | some page =>
    have hbare : VectorReport.ioctlGet (groups.onKernel k) (some page) none =
        (CStrings.strlen page).map fun n => (0, page.take n) := rfl
    rcases nulFree_or_shows page with hfree | ⟨t, ht⟩
    · cases strType with
      | none =>
        rw [hbare, CStrings.strlen_nulFree hfree] at hp
        cases hp
      | some strType =>
        rw [VectorReport.ioctlGet_unterminated hreadable hfree] at hp
        cases hp
    · cases strType with
      | none =>
        rw [hbare, shows_strlen ht, Option.map_some, shows_take ht] at hp
        obtain rfl := Option.some.inj hp
        exact ⟨t, ht, rfl⟩
      | some strType =>
        intro hstr
        rw [VectorReport.ioctlGet_shows hreadable ht hstr] at hp
        split at hp
        · obtain rfl := Option.some.inj hp
          exact ⟨t, ht, rfl⟩
        · cases hp

theorem call_asks {leaked : Addr → ℕ} {k k' : Kernel} (hk : Accounted leaked k) {cmd : Command}
    {r : Reply} (h : ioctlCall groups cmd k = some (k', r)) : Asks groups k cmd r := by
  cases cmd with
  | set c => exact set_asks h
  | get page strType accepted => exact get_asks hk h
  | other cmd =>
    obtain ⟨-, rfl⟩ := Prod.mk.inj (Option.some.inj h)
    rfl

/-- However the statements interleaved so far, no statement faults, no call holds the mutex
for ever or waits for it in vain, and a call that has returned got the reply it asks for of
the kernel it found, the one after whole calls of those that took the mutex before it. -/
theorem calls_return {leaked : Addr → ℕ} {k : Kernel} (h : Accounted leaked k)
    (hc : ∀ t, Answered groups leaked k (cmds t)) {es : List (Event T)}
    {c : Config T Kernel Reply}
    (hr : Run (Step fun t => ioctlBody groups stale (cmds t)) (begin k) es c) :
    (∀ t b, c.phase t = .inside b → (∃ r, b = .done r) ∨
      ∃ c', Step (fun t => ioctlBody groups stale (cmds t)) c (.act t) c') ∧
    (∀ t, ∃ es' c', Run (Step fun t => ioctlBody groups stale (cmds t)) c es' c' ∧
      ∃ r, c'.phase t = .left r) ∧
    ∀ t r, c.phase t = .left r → ∃ ts k' replies, ts ++ [t] <+: acquired es ∧
      inOrder groups cmds (k, fun _ => none) ts = some (k', replies) ∧
      Asks groups k' (cmds t) r := by
  have hcompletes : Completes (fun t => ioctlBody groups stale (cmds t)) (Kept leaked k) := by
    intro u s hs
    rw [run_ioctl]
    exact call_kept (hc u) hs
  refine ⟨fun t b ht => run_progress hcompletes (.refl h) hr ht,
    run_leaves hcompletes (.refl h) hr, fun t r ht => ?_⟩
  obtain ⟨ts, d, q, hts, hd, hq⟩ := run_replied hr ht
  rw [run_ioctl] at hq
  have hkept := serial_completes hcompletes hd (.refl h)
  exact ⟨ts, d.shared, fun t => reply (d.phase t), hts, serial_inOrder hd,
    call_asks hkept.accounted hq⟩

end mutex

def traced : Kernel :=
  { boot [⟨7, none⟩] with
    nodes := AList.singleton 1 ⟨10, none⟩
    headNode := some 1
    mods := AList.singleton 10 ⟨100, traceModule, 0⟩ }

def twoGroups : System := ⟨traced, id, fun _ => false, []⟩

def twoCalls (first : Bool) : Command :=
  .set ⟨true, some ⟨if first then 9 else 0, 7, traceModule⟩, true⟩

def twoCallsRun : List (Event Bool) :=
  [.lock true] ++ List.replicate 9 (.act true) ++ [.unlock true, .lock false] ++
    List.replicate 8 (.act false) ++ [.unlock false]

theorem twoCalls_run : ∃ c, Run (Step fun t => ioctlBody twoGroups ⟨5, 5⟩ (twoCalls t))
    (begin traced) twoCallsRun c ∧ c.owner.isNone = true := by
  have h : (replay (next fun t => ioctlBody twoGroups ⟨5, 5⟩ (twoCalls t)) (begin traced)
      twoCallsRun).any (fun c => c.owner.isNone) = true := by decide
  exact replay_reaches (fun _ _ _ h => h) h

theorem calls_serialise_two : ∃ c : Config Bool Kernel Reply,
    inOrder twoGroups twoCalls (traced, fun _ => none) [true, false] =
      some (c.shared, fun t => reply (c.phase t)) := by
  obtain ⟨c, hr, ho⟩ := twoCalls_run
  exact ⟨c, (calls_serialise hr).2 (Option.isNone_iff_eq_none.mp ho)⟩

def setAndGet (first : Bool) : Command :=
  if first then .set ⟨true, some ⟨9, 7, traceModule⟩, true⟩
  else .get (some (List.replicate 4096 0)) (some (List.replicate 16 0)) 4096

theorem seven_initial : ReferenceCounts.Initial (boot [⟨7, none⟩]) :=
  ⟨_, rfl, List.nodup_singleton 7, by decide⟩

theorem reachable_accounted {k : Kernel}
    (h : Reachable ReferenceCounts.Initial ReferenceCounts.Step k) :
    Accounted (fun _ => 0) k :=
  (ReferenceCounts.reachable_invariant h).consistent

theorem oneModule_reached : ∃ k, Reachable ReferenceCounts.Initial ReferenceCounts.Step k ∧
    moduleList k = some [10] ∧ pids k = [7] := by
  have h : (replay ReferenceCounts.next (boot [⟨7, none⟩])
      [.moduleRegister 10 ⟨100, traceModule, 50⟩ 1]).any (fun k =>
        decide (moduleList k = some [10]) && decide (pids k = [7])) = true := by decide
  obtain ⟨k, hk, h⟩ := replay_reaches ReferenceCounts.next_sound h
  simp only [Bool.and_eq_true, decide_eq_true_eq] at h
  exact ⟨k, ⟨_, _, seven_initial, hk⟩, h⟩

theorem setAndGet_answered {k : Kernel} (hlist : moduleList k = some [10]) (hpids : pids k = [7])
    (first : Bool) : Answered twoGroups (fun _ => 0) k (setAndGet first) := by
  cases first with
  | true => exact rfl
  | false =>
    refine ⟨List.length_replicate, [], TextBuffers.shows_nil rfl, fun k' hk => ?_⟩
    have hsize : reportSize (twoGroups.onKernel k') ≤ _ := hk.reportSize_le
    have hmodules : registered (twoGroups.onKernel k) = [10] := by
      rw [registered, System.onKernel, hlist, Option.getD_some]
    have htasks : k.tasks.length = 1 := by simpa [pids] using congrArg List.length hpids
    rw [hmodules, htasks, List.length_singleton] at hsize
    rw [List.length_nil, List.length_replicate]
    omega

theorem calls_return_two : ∃ (k : Kernel) (es' : List (Event Bool)) (c' : Config Bool Kernel Reply)
    (ts : List Bool) (k' : Kernel) (replies : Bool → Option Reply) (shown : List Byte),
    Run (Step fun t => ioctlBody twoGroups ⟨5, 5⟩ (setAndGet t)) (begin k)
      (.lock true :: es') c' ∧
    inOrder twoGroups setAndGet (k, fun _ => none) ts = some (k', replies) ∧
    ts ++ [false] <+: true :: acquired es' ∧
    Shows (List.replicate 4096 0) shown ∧
    c'.phase false = .left (deliver 4096 0 (shown ++ report (twoGroups.onKernel k'))) := by
  obtain ⟨k, hk, hlist, hpids⟩ := oneModule_reached
  have hacc := reachable_accounted hk
  have hanswered := setAndGet_answered hlist hpids
  have hr : Run (Step fun t => ioctlBody twoGroups ⟨5, 5⟩ (setAndGet t)) (begin k)
      ([] ++ [.lock true]) _ := .snoc (.nil _) rfl
  obtain ⟨es', c', hr', r, hleft⟩ := (calls_return hacc hanswered hr).2.1 false
  have hrun := hr.append hr'
  obtain ⟨ts, k', replies, hts, hin, hasks⟩ := (calls_return hacc hanswered hrun).2.2 false r hleft
  obtain ⟨shown, hshown, rfl⟩ := hasks List.length_replicate
  exact ⟨k, es', c', ts, k', replies, shown, hrun, hin, hts, hshown, hleft⟩

end HelperStatements
