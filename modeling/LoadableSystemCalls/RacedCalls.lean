import LoadableSystemCalls.CallRouting
import LoadableSystemCalls.HelperStatements
import LoadableSystemCalls.PublishedFields

/-! # Hooked calls against messages for their caller (syscall_new.c, ioctl_device.c)

A hook reads the caller's record without the mutex that get_ioctl_helper is called under:
the pointer, then the vector, then the module. The helper writes the module before the
vector. -/
namespace RacedCalls

open KernelTypes ModuleRegistry TaskRegistration FailureReports StatementBodies TransitionRuns
open HelperStatements PublishedFields CallRouting
open SyscallHooks (SystemCallType opAllowed)
open ThreadGroups (System)

/-- `current->sys_vector->sv`. -/
def recordSv (pid : BitVec 32) (k : Kernel) : Option (BitVec 32) :=
  (sysVector pid k).join.map NewSysVector.sv

theorem recordSv_eq {pid : BitVec 32} {k : Kernel} {v : NewSysVector}
    (h : sysVector pid k = some (some v)) : recordSv pid k = some v.sv := by
  rw [recordSv, h]
  rfl

theorem moduleAddr_eq {pid : BitVec 32} {k : Kernel} {v : NewSysVector}
    (h : sysVector pid k = some (some v)) : moduleAddr pid k = some v.moduleAddr := by
  rw [moduleAddr, h]
  rfl

def hookModule (pid : BitVec 32) : Look Kernel Route :=
  .read (moduleAddr pid) fun newNode =>
    .read (fun k => entryPoint k newNode) fun op => .done (.asks op)

def hookChecked (pid : BitVec 32) (type : SystemCallType) : Look Kernel Route :=
  .read (recordSv pid) fun sv => if opAllowed type sv then hookModule pid else .done .forbidden

/-- The statements of a hook up to the call of `sys_op`. -/
def hookLook (pid : BitVec 32) (type : SystemCallType) : Look Kernel Route :=
  .read (sysVector pid) fun
    | none => .done .original
    | some _ => hookChecked pid type

theorem run_hookLook {W : Type*} {s : State W} {pid : BitVec 32} {call : SyscallHooks.Call}
    (hlive : (findTask pid s.kernel.tasks).isSome) (hread : SyscallHooks.isRead call = false) :
    (hookLook pid call.type).run s.kernel = (routing s).route pid call := by
  obtain ⟨t, ht⟩ := Option.isSome_iff_exists.mp hlive
  have hmap : (routing s).registry.map pid = t.sysVector.map RegistrationMap.entryOf := by
    simp [routing, RegistrationMap.abstraction, RegistrationMap.registration, ht]
  rw [Routing.route, hread, hmap]
  simp only [hookLook, Look.run, sysVector_of_find ht, Option.bind_some]
  cases hv : t.sysVector with
  | none => rfl
  | some v =>
    simp only [hookChecked, recordSv, sysVector_of_find ht, hv, Option.join_some, Option.map_some,
      Look.run, Option.bind_some, SyscallHooks.opAllowed_eq, RegistrationMap.entryOf]
    cases v.sv.getLsbD (SyscallHooks.readmeBit call) with
    | false => rfl
    | true =>
      simp only [if_true, hookModule, Look.run, moduleAddr_of_find ht hv, Option.bind_some]
      cases hop : entryPoint s.kernel v.moduleAddr with
      | none =>
        have hentry : (routing s).entry v.moduleAddr = none := hop
        simp [hentry]
      | some op =>
        have hentry : (routing s).entry v.moduleAddr = some op := hop
        simp [hentry]

section keeps
variable {V : Type} {v : Kernel → V} {pid : BitVec 32}

def Uncounted (v : Kernel → V) : Prop :=
  ∀ k k' : Kernel, k'.tasks = k.tasks → k'.mods = k.mods → v k' = v k

/-- A view that a message for this task does not change. -/
structure Unconcerned (v : Kernel → V) (pid : BitVec 32) : Prop where
  counts : Uncounted v
  record : ∀ k w, v (k.setSysVector pid w) = v k

theorem increment_keeps (h : Uncounted v) (moduleReg : Addr) :
    Keeps v (incrementBody moduleReg) := by
  refine keeps_read_bind fun k x _ => ?_
  cases x with
  | none => exact keeps_pure ()
  | some module =>
    refine keeps_write fun k k' hk => ?_
    obtain rfl := Option.some.inj hk
    exact h _ _ rfl rfl

theorem skipPut_keeps (h : Uncounted v) : Keeps v (Body.write skipPut) := by
  refine keeps_write fun k k' hk => ?_
  obtain rfl := Option.some.inj hk
  exact h _ _ rfl rfl

theorem decrement_keeps (h : Uncounted v) (moduleReg : Addr) :
    Keeps v (decrementBody moduleReg) := by
  refine keeps_read_bind fun k x _ => ?_
  cases x with
  | none => exact skipPut_keeps h
  | some module =>
    refine keeps_read_bind fun k b _ => ?_
    cases b with
    | true =>
      refine keeps_write fun k k' hk => ?_
      obtain rfl := Option.some.inj hk
      exact h _ _ rfl rfl
    | false => exact skipPut_keeps h

theorem storeSysVector_keeps (h : Unconcerned v pid) (w : Option NewSysVector) :
    Keeps v (Body.write (storeSysVector pid w)) := by
  refine keeps_write fun k k' hk => ?_
  obtain ⟨t, -, rfl⟩ := Option.map_eq_some_iff.mp hk
  exact h.record k _

theorem storeModuleAddr_keeps (h : Unconcerned v pid) (addr : Addr) :
    Keeps v (Body.write (storeModuleAddr pid addr)) := by
  refine keeps_write fun k k' hk => ?_
  obtain ⟨u, -, rfl⟩ := Option.map_eq_some_iff.mp hk
  exact h.record k _

theorem storeSv_keeps (h : Unconcerned v pid) (sv : BitVec 32) :
    Keeps v (Body.write (storeSv pid sv)) := by
  refine keeps_write fun k k' hk => ?_
  obtain ⟨u, -, rfl⟩ := Option.map_eq_some_iff.mp hk
  exact h.record k _

theorem moveRecord_keeps (h : Uncounted v) (pid : BitVec 32) (addr : Addr) :
    Keeps v (moveRecordBody pid addr) := by
  refine keeps_read_bind fun k old _ => ?_
  split
  · refine keeps_read_bind fun k old _ => ?_
    exact keeps_bind (decrement_keeps h old) fun _ => increment_keeps h addr
  · exact keeps_pure ()

theorem newRecord_keeps (h : Unconcerned v pid) (kmallocOk : Bool) (stale : NewSysVector)
    (addr : Addr) : Keeps v (newRecordBody kmallocOk stale pid addr) :=
  keeps_bind (storeSysVector_keeps h _) fun _ =>
    keeps_bind (storeModuleAddr_keeps h addr) fun _ => increment_keeps h.counts addr

theorem register_keeps (h : Unconcerned v pid) (kmallocOk : Bool) (stale : NewSysVector)
    (msg : IoctlArg) (addr : Addr) : Keeps v (registerBody kmallocOk stale msg pid addr) := by
  have hfill : Keeps v (fillBody msg pid addr) :=
    keeps_bind (storeModuleAddr_keeps h addr) fun _ => storeSv_keeps h msg.vector
  refine keeps_read_bind fun k x _ => ?_
  cases x with
  | none => exact keeps_bind (newRecord_keeps h kmallocOk stale addr) fun _ => hfill
  | some => exact keeps_bind (moveRecord_keeps h.counts pid addr) fun _ => hfill

theorem clear_keeps (h : Unconcerned v pid) (stale : NewSysVector) :
    Keeps v (clearBody stale (some pid)) := by
  refine keeps_read_bind fun k x _ => ?_
  cases x with
  | none => exact keeps_pure ()
  | some =>
    refine keeps_read_bind fun k addr _ => ?_
    exact keeps_bind (decrement_keeps h.counts addr) fun _ =>
      keeps_bind (storeSysVector_keeps h _) fun _ => storeSysVector_keeps h none

theorem pidTask_cases (pid : BitVec 32) (k : Kernel) :
    pidTask pid k = none ∨ pidTask pid k = some pid := by
  cases ht : findTask pid k.tasks with
  | none => exact Or.inl (by rw [pidTask, ht, Option.map_none])
  | some t => exact Or.inr (pidTask_of_find ht)

theorem helper_keeps {msg : IoctlArg} (h : Unconcerned v msg.pid) (kmallocOk : Bool)
    (stale : NewSysVector) : Keeps v (getIoctlHelperBody kmallocOk stale msg) := by
  refine keeps_read_bind fun k x hx => ?_
  obtain rfl := Option.some.inj hx
  split
  · rcases pidTask_cases msg.pid k with hnone | hpid
    · rw [hnone]
      exact keeps_pure ()
    · rw [hpid]
      exact clear_keeps h stale
  · refine keeps_read_bind fun k' addr _ => ?_
    cases addr with
    | none => exact keeps_pure ()
    | some addr =>
      rcases pidTask_cases msg.pid k with hnone | hpid
      · rw [hnone]
        exact keeps_pure ()
      · rw [hpid]
        exact register_keeps h kmallocOk stale msg addr

theorem ioctl_keeps (groups : System) (stale : NewSysVector) {cmd : Command}
    (h : ∀ c msg, cmd = .set c → c.received = some msg → Unconcerned v msg.pid) :
    Keeps v (ioctlBody groups stale cmd) := by
  cases cmd with
  | set c =>
    rw [ioctlBody]
    cases hmsg : c.kmallocMsg with
    | false => exact keeps_pure _
    | true =>
      rw [if_pos rfl]
      cases hcopied : c.copied with
      | none => exact keeps_pure _
      | some msg =>
        have hreceived : c.received = some msg := by rw [IoctlCall.received, if_pos hmsg, hcopied]
        exact keeps_bind (helper_keeps (h c msg rfl hreceived) _ stale) fun _ => keeps_pure _
  | get page strType accepted =>
    cases page with
    | none => exact keeps_pure _
    | some ioctlBuffer =>
      have hvector : Keeps v (getVectorBody groups strType ioctlBuffer) := by
        cases strType with
        | none => exact keeps_pure _
        | some strType =>
          refine keeps_read_bind fun k ms _ => ?_
          exact keeps_bind (keeps_foldlM_read _ ms _) fun _ => keeps_pure _
      refine keeps_bind hvector fun buff => ?_
      exact keeps_read_bind fun k n _ => keeps_pure _
  | other => exact keeps_pure _

theorem mods_unconcerned (pid : BitVec 32) : Unconcerned Kernel.mods pid :=
  ⟨fun _ _ _ hmods => hmods, fun _ _ => rfl⟩

theorem sysVector_uncounted (pid : BitVec 32) : Uncounted (sysVector pid) :=
  fun k k' htasks _ => by rw [sysVector, sysVector, htasks]

theorem ioctl_keeps_mods (groups : System) (stale : NewSysVector) (cmd : Command) :
    Keeps Kernel.mods (ioctlBody groups stale cmd) :=
  ioctl_keeps groups stale fun _ msg _ _ => mods_unconcerned msg.pid

theorem sysVector_unconcerned {q : BitVec 32} (hq : q ≠ pid) : Unconcerned (sysVector q) pid := by
  refine ⟨sysVector_uncounted q, fun k w => ?_⟩
  have hkey : ∀ x : TaskStruct, TaskStruct.pid { x with sysVector := w } = x.pid := fun _ => rfl
  exact congrArg (Option.map _) (KeyedList.lookup_modify_ne hq hkey k.tasks)

end keeps

section fields
variable {groups : System} {stale : NewSysVector} {pid : BitVec 32} {k : Kernel}

/-- Somewhere on the way from `v` to `w`: the vector is still that of `v`. -/
def Moving (pid : BitVec 32) (v w : NewSysVector) (k : Kernel) : Prop :=
  ∃ m, sysVector pid k = some (some ⟨v.sv, m⟩) ∧ (m = v.moduleAddr ∨ m = w.moduleAddr)

def Moved (pid : BitVec 32) (w : NewSysVector) (k : Kernel) : Prop :=
  sysVector pid k = some (some w)

theorem moving_start {v : NewSysVector} (hv : sysVector pid k = some (some v)) (w : NewSysVector) :
    Moving pid v w k := ⟨v.moduleAddr, hv, Or.inl rfl⟩

theorem fill_turns {msg : IoctlArg} {v : NewSysVector}
    (hv : sysVector msg.pid k = some (some v)) (addr : Addr) :
    Turns (Moving msg.pid v ⟨msg.vector, addr⟩) (Moved msg.pid ⟨msg.vector, addr⟩)
      (fillBody msg msg.pid addr) k := by
  have hstored {k k' : Kernel} {u w : NewSysVector} (hu : sysVector msg.pid k = some (some u))
      (hk : k' = k.setSysVector msg.pid (some w)) : sysVector msg.pid k' = some (some w) := by
    obtain ⟨t, ht, -⟩ := Option.map_eq_some_iff.mp hu
    rw [hk, sysVector_of_find (setSysVector_find ht (some w))]
  refine turns_bind ⟨moving_start hv _, fun p hp => ?_⟩ fun p hp => ?_
  · obtain ⟨k', hk', rfl⟩ := Option.map_eq_some_iff.mp hp
    rw [storeModuleAddr, hv] at hk'
    exact ⟨addr, hstored hv (Option.some.inj hk').symm, Or.inr rfl⟩
  · rw [Body.run_write, storeModuleAddr, hv] at hp
    obtain rfl := Option.some.inj hp
    have hmodule := hstored hv (w := { v with moduleAddr := addr }) rfl
    refine turns_write ⟨addr, hmodule, Or.inr rfl⟩ fun k' hk' => ?_
    rw [storeSv, hmodule] at hk'
    exact hstored hmodule (Option.some.inj hk').symm

theorem register_turns {msg : IoctlArg} {v : NewSysVector}
    (hv : sysVector msg.pid k = some (some v)) (kmallocOk : Bool) (addr : Addr) :
    Turns (Moving msg.pid v ⟨msg.vector, addr⟩) (Moved msg.pid ⟨msg.vector, addr⟩)
      (registerBody kmallocOk stale msg msg.pid addr) k := by
  have hmove := always_of_keeps
    (moveRecord_keeps (sysVector_uncounted msg.pid) msg.pid addr) hv
  refine turns_read_bind (moving_start hv _) hv ?_
  exact turns_bind (hmove.mono fun _ h => moving_start h _) fun p hp =>
    fill_turns (hmove.ends hp) addr

theorem helper_turns (stale : NewSysVector) {msg : IoctlArg} {v : NewSysVector}
    (hz : msg.vector ≠ 0) (hv : sysVector msg.pid k = some (some v)) (kmallocOk : Bool) :
    ∃ w, Turns (Moving msg.pid v w) (Moved msg.pid w)
      (getIoctlHelperBody kmallocOk stale msg) k := by
  have hpid : pidTask msg.pid k = some msg.pid := by
    obtain ⟨t, ht, -⟩ := Option.map_eq_some_iff.mp hv
    exact pidTask_of_find ht
  cases hg : getModule msg.moduleType k with
  | none =>
    refine ⟨v, turns_read_bind (moving_start hv v) rfl ?_⟩
    rw [if_neg hz]
    refine Or.inr ⟨moving_start hv v, fun p hp => ?_⟩
    obtain ⟨x, hx, -⟩ := Option.map_eq_some_iff.mp hp
    rw [hg] at hx
    cases hx
  | some found =>
    cases found with
    | none =>
      refine ⟨v, turns_read_bind (moving_start hv v) rfl ?_⟩
      rw [if_neg hz]
      refine turns_read_bind (moving_start hv v) hg ?_
      exact turns_of_always (always_of_keeps (keeps_pure ()) hv)
    | some addr =>
      refine ⟨⟨msg.vector, addr⟩, turns_read_bind (moving_start hv _) rfl ?_⟩
      rw [if_neg hz, hpid]
      exact turns_read_bind (moving_start hv _) hg (register_turns hv kmallocOk addr)

/-- The messages under which a registered task stays registered. -/
def KeepsRegistered (pid : BitVec 32) (cmd : Command) : Prop :=
  ∀ c msg, cmd = .set c → c.received = some msg → msg.pid = pid → msg.vector ≠ 0

theorem call_turns (groups : System) (stale : NewSysVector) {cmd : Command} {v : NewSysVector}
    (hkeep : KeepsRegistered pid cmd) (hv : sysVector pid k = some (some v)) :
    ∃ w, Turns (Moving pid v w) (Moved pid w) (ioctlBody groups stale cmd) k := by
  by_cases hown : ∃ c msg, cmd = .set c ∧ c.received = some msg ∧ msg.pid = pid
  · obtain ⟨c, msg, rfl, hreceived, rfl⟩ := hown
    have hz := hkeep c msg rfl hreceived rfl
    obtain ⟨hmsg, hcopied⟩ : c.kmallocMsg = true ∧ c.copied = some msg := by
      simpa [IoctlCall.received] using hreceived
    obtain ⟨w, hturns⟩ := helper_turns stale hz hv c.kmallocRecord
    refine ⟨w, ?_⟩
    rw [ioctlBody, if_pos hmsg, hcopied]
    exact hturns.bind fun p hp => hturns.ends hp
  · refine ⟨v, turns_of_always (always_of_keeps (ioctl_keeps groups stale ?_) hv)⟩
    intro c msg hcmd hreceived
    exact sysVector_unconcerned fun hpid => hown ⟨c, msg, hcmd, hreceived, hpid.symm⟩

theorem moving_before {v w : NewSysVector} {k' x : Kernel}
    (hv : sysVector pid k = some (some v)) (hw : Moved pid w k') (hx : Moving pid v w x) :
    Before (recordSv pid) (moduleAddr pid) k k' x := by
  obtain ⟨m, hm, hmodule⟩ := hx
  refine ⟨(recordSv_eq hm).trans (recordSv_eq hv).symm, ?_⟩
  rcases hmodule with rfl | rfl
  · exact Or.inl ((moduleAddr_eq hm).trans (moduleAddr_eq hv).symm)
  · exact Or.inr ((moduleAddr_eq hm).trans (moduleAddr_eq hw).symm)

theorem moved_after {w : NewSysVector} {k' x : Kernel} (hw : Moved pid w k') (hx : Moved pid w x) :
    After (recordSv pid) (moduleAddr pid) k' x :=
  ⟨(recordSv_eq hx).trans (recordSv_eq hw).symm, (moduleAddr_eq hx).trans (moduleAddr_eq hw).symm⟩

/-- What whole calls keep, and that the task is registered. -/
structure Held (leaked : Addr → ℕ) (k : Kernel) (pid : BitVec 32) (k' : Kernel) : Prop where
  kept : Kept leaked k k'
  registered : ∃ v, sysVector pid k' = some (some v)

theorem calls_publish (stale : NewSysVector) {T : Type} {leaked : Addr → ℕ} {cmds : T → Command}
    (hc : ∀ t, Answered groups leaked k (cmds t)) (hkeep : ∀ t, KeepsRegistered pid (cmds t)) :
    Publishes (recordSv pid) (moduleAddr pid) (fun t => ioctlBody groups stale (cmds t))
      (Held leaked k pid) := by
  constructor
  · intro t s hs
    obtain ⟨v, hv⟩ := hs.registered
    obtain ⟨p, hp, hkept⟩ := call_kept (hc t) hs.kept
    rw [← run_ioctl stale] at hp
    obtain ⟨w, hturns⟩ := call_turns groups stale (hkeep t) hv
    exact ⟨p, hp, hkept, w, hturns.ends hp⟩
  · intro t s p hs hp
    obtain ⟨v, hv⟩ := hs.registered
    obtain ⟨w, hturns⟩ := call_turns groups stale (hkeep t) hv
    have hw := hturns.ends hp
    exact hturns.mono (fun _ => moving_before hv hw) fun _ => moved_after hw

theorem Held.shows {leaked : Addr → ℕ} {k' : Kernel} (h : Held leaked k pid k') :
    ∃ v op, sysVector pid k' = some (some v) ∧ entryPoint k v.moduleAddr = some op := by
  obtain ⟨v, hv⟩ := h.registered
  obtain ⟨t, ht, htv⟩ := Option.map_eq_some_iff.mp hv
  have hloaded := h.kept.accounted.attached t (KeyedList.mem_of_lookup ht).1 v htv
  obtain ⟨r, hr⟩ := Option.isSome_iff_exists.mp hloaded
  rw [h.kept.mods] at hr
  exact ⟨v, r.sysOp, hv, by rw [entryPoint, hr, Option.map_some]⟩

end fields

section race
variable {T U : Type} [DecidableEq T] [DecidableEq U] {groups : System} {stale : NewSysVector}
  {cmds : T → Command} {leaked : Addr → ℕ} {k : Kernel}

/-- A statement of a call of ioctl_funcs, or of a hook. -/
abbrev RaceStep (groups : System) (stale : NewSysVector) (cmds : T → Command) :
    Watched T U Kernel Reply Route → WatchedEvent T U → Watched T U Kernel Reply Route → Prop :=
  Watched.Step fun t => ioctlBody groups stale (cmds t)

/-- The task's record after these calls as a whole. -/
def recordAfter (groups : System) (cmds : T → Command) (k : Kernel) (pid : BitVec 32)
    (ts : List T) : Option NewSysVector :=
  ((inOrder groups cmds (k, fun _ => none) ts).bind fun p => sysVector pid p.1).join

theorem serial_recordAfter {d : Config T Kernel Reply} {ts : List T}
    (h : serial (fun t => ioctlBody groups stale (cmds t)) (begin k) ts = some d)
    (pid : BitVec 32) : recordAfter groups cmds k pid ts = (sysVector pid d.shared).join := by
  have hinOrder : inOrder groups cmds (k, fun _ => none) ts = _ := serial_inOrder h
  rw [recordAfter, hinOrder, Option.bind_some]

theorem entryPoint_kept {es : List (Event T)} {c : Config T Kernel Reply}
    (hr : Run (Step fun t => ioctlBody groups stale (cmds t)) (begin k) es c) :
    entryPoint c.shared = entryPoint k := by
  have hmods := run_keeps (v := Kernel.mods)
    (fun t => ioctl_keeps_mods groups stale (cmds t)) hr
  funext m
  rw [entryPoint, entryPoint, hmods]

section held
variable {pid : BitVec 32} (h : Held leaked k pid k) (hc : ∀ t, Answered groups leaked k (cmds t))
  (hkeep : ∀ t, KeepsRegistered pid (cmds t))
include h hc hkeep

theorem record_read {look : U → Look Kernel Route} {es es₁ es₂ : List (WatchedEvent T U)}
    {w w₁ w₂ : Watched T U Kernel Reply Route}
    (hr : Run (RaceStep groups stale cmds) (watch k look) es w)
    (hr₁ : Run (RaceStep groups stale cmds) w es₁ w₁)
    (hr₂ : Run (RaceStep groups stale cmds) w₁ es₂ w₂) :
    ∃ us vs v₁ v₂ op, finished w.threads (acquired (threadEvents es)) <+: us ∧ us <+: vs ∧
      vs <+: acquired (threadEvents (es ++ (es₁ ++ es₂))) ∧
      recordAfter groups cmds k pid us = some v₁ ∧ recordSv pid w₁.threads.shared = some v₁.sv ∧
      recordAfter groups cmds k pid vs = some v₂ ∧
      moduleAddr pid w₂.threads.shared = some v₂.moduleAddr ∧
      entryPoint k v₂.moduleAddr = some op := by
  have hpub := calls_publish stale hc hkeep
  obtain ⟨us, vs, d, d', hfinished, hus, hvs, hd, hfirst, hd', hsecond⟩ :=
    fields_read hpub h (run_threads hr) (run_threads hr₁) (run_threads hr₂)
  obtain ⟨v₁, -, hv₁, -⟩ := (serial_completes hpub.completes hd h).shows
  obtain ⟨v₂, op, hv₂, hop⟩ := (serial_completes hpub.completes hd' h).shows
  refine ⟨us, vs, v₁, v₂, op, hfinished, hus, ?_, ?_, ?_, ?_, ?_, hop⟩
  · rwa [threadEvents_append, threadEvents_append, ← List.append_assoc]
  · rw [serial_recordAfter hd, hv₁, Option.join_some]
  · rw [hfirst, recordSv_eq hv₁]
  · rw [serial_recordAfter hd', hv₂, Option.join_some]
  · rw [hsecond, moduleAddr_eq hv₂]

theorem registered_now {look : U → Look Kernel Route} {es : List (WatchedEvent T U)}
    {w : Watched T U Kernel Reply Route}
    (hr : Run (RaceStep groups stale cmds) (watch k look) es w) :
    ∃ v op, sysVector pid w.threads.shared = some (some v) ∧
      entryPoint k v.moduleAddr = some op := by
  obtain ⟨-, -, -, v₂, op, -, -, -, -, -, -, hm, hop⟩ :=
    record_read h hc hkeep hr (.nil w) (.nil w)
  cases hv : (sysVector pid w.threads.shared).join with
  | none => simp [moduleAddr, hv] at hm
  | some v =>
    rw [moduleAddr, hv] at hm
    rw [← Option.some.inj hm] at hop
    exact ⟨v, op, Option.join_eq_some_iff.mp hv, hop⟩

/-- A hooked call of a registered task, in any run with messages that keep it registered.
Its statements never fault. It is decided by the vector of one moment between whole calls of
ioctl_funcs and goes to the module of a moment no earlier; what has returned before the hook
was entered shows in both. -/
theorem raced_call {look : U → Look Kernel Route} {u : U} {type : SystemCallType}
    {es es' : List (WatchedEvent T U)} {w w' : Watched T U Kernel Reply Route}
    (hr : Run (RaceStep groups stale cmds) (watch k look) es w)
    (hu : w.look u = hookLook pid type) (hr' : Run (RaceStep groups stale cmds) w es' w') :
    ((∃ r, w'.look u = .done r) ∨ ∃ w'', RaceStep groups stale cmds w' (.look u) w'') ∧
    ∀ r, w'.look u = .done r → ∃ us vs v₁ v₂ op,
      finished w.threads (acquired (threadEvents es)) <+: us ∧ us <+: vs ∧
      vs <+: acquired (threadEvents (es ++ es')) ∧ recordAfter groups cmds k pid us = some v₁ ∧
      recordAfter groups cmds k pid vs = some v₂ ∧ entryPoint k v₂.moduleAddr = some op ∧
      r = if opAllowed type v₁.sv then .asks op else .forbidden := by
  have hgoes {α : Type} {f : Kernel → Option α} {rest : α → Look Kernel Route} {x : α}
      {P : Route → Prop} (hstill : w'.look u = .read f rest) (hx : f w'.threads.shared = some x) :
      ((∃ r, w'.look u = .done r) ∨ ∃ w'', RaceStep groups stale cmds w' (.look u) w'') ∧
      ∀ r, w'.look u = .done r → P r := by
    obtain ⟨w'', hs, -⟩ := look_goes hstill hx
    refine ⟨Or.inr ⟨w'', hs⟩, fun r hdone => ?_⟩
    cases hstill.symm.trans hdone
  -- one read after the other: the hook stands before it, or it was made at a state of the run
  rcases run_read hr' hu with hstill | ⟨es₁, es₂, w₁, x, rfl, hr₁, hr', hx, hrest⟩
  · obtain ⟨v, -, hv, -⟩ := registered_now h hc hkeep (hr.append hr')
    exact hgoes hstill hv
  obtain ⟨v, -, hv, -⟩ := registered_now h hc hkeep (hr.append hr₁)
  obtain rfl : x = some v := Option.some.inj (hx.symm.trans hv)
  rcases run_read hr' hrest with hstill | ⟨es₂, es₃, w₂, sv, rfl, hr₂, hr', hsv, hrest⟩
  · obtain ⟨v, -, hv, -⟩ := registered_now h hc hkeep (hr.append (hr₁.append hr'))
    exact hgoes hstill (recordSv_eq hv)
  have hr₁₂ := hr₁.append hr₂
  cases hbit : opAllowed type sv with
  | false =>
    rw [hbit, if_neg Bool.false_ne_true] at hrest
    have hdone := run_done hr' hrest
    refine ⟨Or.inl ⟨_, hdone⟩, fun r hr'' => ?_⟩
    obtain ⟨us, vs, v₁, v₂, op, hus, huv, hvs, hv₁, hsv₁, hv₂, -, hop⟩ :=
      record_read h hc hkeep hr hr₁₂ (.nil w₂)
    refine ⟨us, vs, v₁, v₂, op, hus, huv, hvs.trans ?_, hv₁, hv₂, hop, ?_⟩
    · simpa only [List.append_assoc, List.append_nil] using begun_prefix (es ++ es₁ ++ es₂) es₃
    · obtain rfl := Option.some.inj (hsv.symm.trans hsv₁)
      rw [hbit, if_neg Bool.false_ne_true]
      exact Look.done.inj (hr''.symm.trans hdone)
  | true =>
    rw [hbit, if_pos rfl] at hrest
    rcases run_read hr' hrest with hstill | ⟨es₃, es₄, w₃, m, rfl, hr₃, hr', hm, hrest⟩
    · obtain ⟨v, -, hv, -⟩ := registered_now h hc hkeep (hr.append (hr₁₂.append hr'))
      exact hgoes hstill (moduleAddr_eq hv)
    obtain ⟨us, vs, v₁, v₂, op, hus, huv, hvs, hv₁, hsv₁, hv₂, hm₂, hop⟩ :=
      record_read h hc hkeep hr hr₁₂ hr₃
    obtain rfl := Option.some.inj (hsv.symm.trans hsv₁)
    obtain rfl := Option.some.inj (hm.symm.trans hm₂)
    have hentry {es w} (hr : Run (RaceStep groups stale cmds) (watch k look) es w) :
        entryPoint w.threads.shared v₂.moduleAddr = some op := by
      rw [entryPoint_kept (run_threads hr), hop]
    rcases run_read hr' hrest with hstill | ⟨es₄, es₅, w₄, op', rfl, hr₄, hr', hop', hrest⟩
    · exact hgoes hstill (hentry (hr.append (hr₁₂.append (hr₃.append hr'))))
    have hdone := run_done hr' hrest
    refine ⟨Or.inl ⟨_, hdone⟩, fun r hr'' => ?_⟩
    refine ⟨us, vs, v₁, v₂, op, hus, huv, hvs.trans ?_, hv₁, hv₂, hop, ?_⟩
    · simpa only [List.append_assoc] using begun_prefix (es ++ es₁ ++ es₂ ++ es₃) (es₄ ++ es₅)
    · rw [hentry (hr.append (hr₁₂.append (hr₃.append hr₄)))] at hop'
      rw [hbit, if_pos rfl, Option.some.inj hop']
      exact Look.done.inj (hr''.symm.trans hdone)

end held

theorem clear_passes (h : Accounted leaked k) {c : IoctlCall} {msg : IoctlArg}
    (hreceived : c.received = some msg) (hrecord : c.kmallocRecord = true) {t : TaskStruct}
    (ht : findTask msg.pid k.tasks = some t) (hz : msg.vector = 0) :
    Passes (fun k => sysVector msg.pid k = some none) (ioctlBody groups stale (.set c)) k := by
  obtain ⟨k', hk', hreassigned⟩ := h.clear ht hz
  have hrun : (ioctlBody groups stale (.set c)).run k = some (k', ⟨0, []⟩) := by
    rw [run_ioctl, ioctlCall, ioctlFuncs_received hreceived, hrecord, hk']
    rfl
  refine passes_end hrun ?_
  rw [sysVector, hreassigned.find ht, if_pos rfl, Option.map_some]

theorem first_passes {c : IoctlCall} {msg : IoctlArg} (hreceived : c.received = some msg)
    (hrecord : c.kmallocRecord = true) {t : TaskStruct} (ht : findTask msg.pid k.tasks = some t)
    (hv : t.sysVector = none) (hz : msg.vector ≠ 0) {m : Addr}
    (hm : getModule msg.moduleType k = some (some m)) :
    Passes (fun k => sysVector msg.pid k = some (some stale))
      (ioctlBody groups stale (.set c)) k := by
  obtain ⟨hmsg, hcopied⟩ : c.kmallocMsg = true ∧ c.copied = some msg := by
    simpa [IoctlCall.received] using hreceived
  have hnone : sysVector msg.pid k = some none := by rw [sysVector_of_find ht, hv]
  have hstored : sysVector msg.pid (k.setSysVector msg.pid (some stale)) = some (some stale) :=
    sysVector_of_find (setSysVector_find ht (some stale))
  have hregister : Passes (fun k => sysVector msg.pid k = some (some stale))
      (registerBody true stale msg msg.pid m) k :=
    passes_read_bind hnone (.bind (.bind (passes_write (storeSysVector_of_find ht _) hstored) _) _)
  have hhelper : Passes (fun k => sysVector msg.pid k = some (some stale))
      (getIoctlHelperBody true stale msg) k := by
    refine passes_read_bind rfl ?_
    rw [if_neg hz, pidTask_of_find ht]
    exact passes_read_bind hm hregister
  rw [ioctlBody, if_pos hmsg, hcopied, hrecord]
  exact hhelper.bind _

/-- The messages that take a record away, or give the first one over memory that would let
the call through to a module that is not there. -/
def Breaks (stale : NewSysVector) (msg : IoctlArg) (type : SystemCallType) (k : Kernel) : Prop :=
  match sysVector msg.pid k with
  | none => False
  | some none => msg.vector ≠ 0 ∧ (∃ m, getModule msg.moduleType k = some (some m)) ∧
    opAllowed type stale.sv = true ∧ entryPoint k stale.moduleAddr = none
  | some (some _) => msg.vector = 0

/-- With such a message on its way a hooked call of the task can fault. -/
theorem raced_call_faults (h : Accounted leaked k) {t : T} {c : IoctlCall} {msg : IoctlArg}
    (hcmd : cmds t = .set c) (hreceived : c.received = some msg) (hrecord : c.kmallocRecord = true)
    {type : SystemCallType} (hbreaks : Breaks stale msg type k) {look : U → Look Kernel Route}
    {u : U} (hu : look u = hookLook msg.pid type) :
    ∃ es w, Run (RaceStep groups stale cmds) (watch k look) es w ∧ Faults w u := by
  have hbegin {P : Kernel → Prop} (hp : Passes P (ioctlBody groups stale (.set c)) k) :
      ∃ es c', Run (Step fun t => ioctlBody groups stale (cmds t)) (begin k) es c' ∧
        P c'.shared := begin_passes (t := t) (by rwa [hcmd])
  unfold Breaks at hbreaks
  cases hv : sysVector msg.pid k with
  | none => simp [hv] at hbreaks
  | some v =>
    obtain ⟨task, ht, htv⟩ := Option.map_eq_some_iff.mp hv
    cases v with
    | none =>
      simp only [hv] at hbreaks
      obtain ⟨hz, ⟨m, hm⟩, hbit, hentry⟩ := hbreaks
      -- the record is linked in while it still holds what the memory held
      obtain ⟨es, c', hr, hstale⟩ := hbegin (first_passes hreceived hrecord ht htv hz hm)
      have hr₀ := watched_threads look hr
      obtain ⟨w₁, hs₁, hw₁, hu₁⟩ := look_goes (w := ⟨c', look⟩) hu hstale
      have hw₁ : w₁.threads = c' := hw₁
      rw [← hw₁] at hstale
      obtain ⟨w₂, hs₂, hw₂, hu₂⟩ := look_goes hu₁ (recordSv_eq hstale)
      rw [← hw₂] at hstale
      rw [hbit, if_pos rfl] at hu₂
      obtain ⟨w₃, hs₃, hw₃, hu₃⟩ := look_goes hu₂ (moduleAddr_eq hstale)
      refine ⟨_, w₃, ((hr₀.snoc hs₁).snoc hs₂).snoc hs₃, _, _, _, hu₃, ?_⟩
      rw [hw₃, hw₂, hw₁, entryPoint_kept hr, hentry]
    | some v =>
      simp only [hv] at hbreaks
      -- the hook has found a record, and it goes before the vector is read
      obtain ⟨⟨c₁, look₁⟩, hs₁, hw₁, hu₁⟩ :=
        look_goes (w := (watch k look : Watched T U Kernel Reply Route)) hu hv
      obtain rfl : c₁ = begin k := hw₁
      obtain ⟨es, c', hr, hnone⟩ := hbegin (clear_passes h hreceived hrecord ht hbreaks)
      have hr₁ := watched_threads look₁ hr
      refine ⟨_, _, .cons hs₁ hr₁, _, _, _, hu₁, ?_⟩
      rw [recordSv, hnone]
      rfl

end race

def movedSetup : List ReferenceCounts.Event :=
  [.moduleRegister 10 ⟨100, traceModule, 50⟩ 1, .moduleRegister 20 ⟨200, protectModule, 60⟩ 2,
    .ioctlSet ⟨8, 7, traceModule⟩]

def moveCall (_ : Unit) : Command := .set ⟨true, some ⟨1, 7, protectModule⟩, true⟩

def writeHook (_ : Unit) : Look Kernel Route := hookLook 7 .sysWrite

/-- The call of write comes between the stores of the module and of the vector. -/
def movedRun : List (WatchedEvent Unit Unit) :=
  [.thread (.lock ())] ++ List.replicate 11 (.thread (.act ())) ++
    List.replicate 4 (.look ()) ++ [.thread (.act ()), .thread (.unlock ())]

theorem movedRun_runs : ∃ k w, Reachable ReferenceCounts.Initial ReferenceCounts.Step k ∧
    (∃ v, sysVector 7 k = some (some v)) ∧
    Run (RaceStep twoGroups ⟨5, 5⟩ moveCall) (watch k writeHook) movedRun w ∧
    w.look () = .done (.asks 60) := by
  have h : ((replay ReferenceCounts.next (boot [⟨7, none⟩]) movedSetup).any fun k =>
      decide (sysVector 7 k = some (some ⟨8, 10⟩)) &&
      (replay (Watched.next fun t => ioctlBody twoGroups ⟨5, 5⟩ (moveCall t)) (watch k writeHook)
        movedRun).any fun w => decide ((w.look ()).result = some (.asks 60))) = true := by decide
  obtain ⟨k, hk, h⟩ := replay_reaches ReferenceCounts.next_sound h
  simp only [Bool.and_eq_true, decide_eq_true_eq] at h
  obtain ⟨hreg, hrun⟩ := h
  obtain ⟨w, hrun, hasks⟩ := replay_reaches (fun _ _ _ h => h) hrun
  exact ⟨k, w, ⟨_, _, seven_initial, hk⟩, ⟨_, hreg⟩, hrun,
    Look.done_of_result (of_decide_eq_true hasks)⟩

theorem moveCall_keeps (t : Unit) : KeepsRegistered 7 (moveCall t) := by
  intro c msg hcmd hreceived _
  obtain rfl := Command.set.inj hcmd
  obtain rfl := Option.some.inj hreceived
  decide

theorem raced_call_moved : ∃ (k : Kernel) (us vs : List Unit) (v₁ v₂ : NewSysVector) (op : Addr),
    us <+: vs ∧ recordAfter twoGroups moveCall k 7 us = some v₁ ∧
    recordAfter twoGroups moveCall k 7 vs = some v₂ ∧ entryPoint k v₂.moduleAddr = some op ∧
    Route.asks 60 = if opAllowed .sysWrite v₁.sv then .asks op else .forbidden := by
  obtain ⟨k, w, hk, hreg, hrun, hdone⟩ := movedRun_runs
  have hheld : Held (fun _ => 0) k 7 k := ⟨.refl (reachable_accounted hk), hreg⟩
  have hanswered : ∀ t, Answered twoGroups (fun _ => 0) k (moveCall t) := fun _ => rfl
  obtain ⟨us, vs, v₁, v₂, op, -, huv, -, hv₁, hv₂, hop, hroute⟩ :=
    (raced_call hheld hanswered moveCall_keeps (.nil _) rfl hrun).2 _ hdone
  exact ⟨k, us, vs, v₁, v₂, op, huv, hv₁, hv₂, hop, hroute⟩

def clearCall : IoctlCall := ⟨true, some ⟨0, 7, 0⟩, true⟩

def clearing (_ : Unit) : Command := .set clearCall

theorem raced_call_faults_cleared : ∃ k es w,
    Run (RaceStep twoGroups ⟨5, 5⟩ clearing) (watch k writeHook) es w ∧ Faults w () := by
  obtain ⟨k, -, hk, ⟨v, hv⟩, -⟩ := movedRun_runs
  have hreceived : clearCall.received = some ⟨0, 7, 0⟩ := rfl
  have hrecord : clearCall.kmallocRecord = true := rfl
  have hbreaks : Breaks ⟨5, 5⟩ ⟨0, 7, 0⟩ .sysWrite k := by
    unfold Breaks
    rw [hv]
  have hcmd : clearing () = .set clearCall := rfl
  have hhook : writeHook () = hookLook 7 .sysWrite := rfl
  obtain ⟨es, w, hr, hfault⟩ :=
    raced_call_faults (reachable_accounted hk) hcmd hreceived hrecord hbreaks hhook
  exact ⟨k, es, w, hr, hfault⟩

end RacedCalls
