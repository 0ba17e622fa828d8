import LoadableSystemCalls.DriverSetup
import LoadableSystemCalls.ReferenceCounts

/-! # The trace module while it is being loaded (trace_module.c)

trace_init registers the module first, opens the log file next and allocates the buffer
last. Tasks may be given registrations, and make hooked calls, between its steps. -/
namespace TraceReadiness

open KernelTypes ModuleRegistry TaskRegistration ReferenceCounts SyscallHooks TransitionRuns
open DriverSetup (Pointer)

structure TraceModule where
  address : Addr
  thisModule : Addr
  systemCallEntry : Addr

def TraceModule.trace (tm : TraceModule) : ModuleReg :=
  ⟨tm.thisModule, traceModule, tm.systemCallEntry⟩

/-- What trace_init does next. -/
inductive Stage where
  | registering
  | opening
  | allocating
  | loaded
  deriving DecidableEq, Repr

structure State where
  kernel : Kernel
  stage : Stage
  filpOut : Pointer
  writeFileBuff : Bool

def State.onKernel (s : State) (k : Kernel) : State := { s with kernel := k }

def State.record (s : State) (pid : BitVec 32) : Option NewSysVector :=
  (findTask pid s.kernel.tasks).bind TaskStruct.sysVector

/-- The first three are the steps of trace_init, with the outcomes of filp_open and kmalloc. -/
inductive Event where
  | moduleRegister (node : Addr)
  | filpOpen (ok : Bool)
  | kmalloc (ok : Bool)
  | ioctlSet (msg : IoctlArg)
  | clone2 (forkRet : BitVec 64) (args : CloneArgs)
  | fork (parent child : BitVec 32)
  | exitGroup (pid : BitVec 32)
  | systemCall (pid : BitVec 32) (call : Call)
  deriving DecidableEq, Repr

section
variable (tm : TraceModule)

def Enabled (s : State) : Event → Prop
  | .moduleRegister node =>
    s.stage = .registering ∧ Loadable s.kernel tm.address tm.trace node
  | .filpOpen _ => s.stage = .opening
  | .kmalloc _ => s.stage = .allocating
  | .ioctlSet _ => True
  | .clone2 _ _ => True
  | .fork parent child =>
    (findTask parent s.kernel.tasks).isSome ∧ findTask child s.kernel.tasks = none
  | .exitGroup pid => (findTask pid s.kernel.tasks).isSome
  | .systemCall pid _ => (findTask pid s.kernel.tasks).isSome

/-- trace_init goes on whatever filp_open and kmalloc return. -/
def perform (s : State) : Event → Option State
  | .moduleRegister node =>
    (loadModule tm.address tm.trace node s.kernel).map fun k =>
      { s with kernel := k, stage := .opening }
  | .filpOpen ok =>
    some { s with filpOut := if ok then .object else .error, stage := .allocating }
  | .kmalloc ok => some { s with writeFileBuff := ok, stage := .loaded }
  | .ioctlSet msg => (getIoctlHelper true msg s.kernel).map s.onKernel
  | .clone2 forkRet args =>
    (getIoctlHelper true (cloneMessage forkRet args) s.kernel).map s.onKernel
  | .fork parent child => (forkTask parent child s.kernel).map s.onKernel
  | .exitGroup pid => (exitTask pid s.kernel).map s.onKernel
  | .systemCall _ _ => some s

def Step (s : State) (e : Event) (t : State) : Prop :=
  Enabled tm s e ∧ perform tm s e = some t

instance (s : State) (e : Event) : Decidable (Enabled tm s e) := by
  cases e <;> simp only [Enabled] <;> infer_instance

def next : State → Event → Option State := guardedNext (Enabled tm) (perform tm)

theorem next_sound (s : State) (e : Event) (t : State) (h : next tm s e = some t) :
    Step tm s e t := guardedNext_eq_some.mp h

/-- insmod has begun: trace_init has done nothing yet, and no task is registered on it. -/
def Initial (s : State) : Prop :=
  (∃ leaked, Accounted leaked s.kernel) ∧ s.kernel.mods.lookup tm.address = none ∧
  s.stage = .registering ∧ s.filpOut = .null ∧ s.writeFileBuff = false

/-- The call of the task makes the module run a `trace_*` function. -/
def Enters (s : State) (pid : BitVec 32) (call : Call) : Prop :=
  ∃ v, s.record pid = some v ∧ v.moduleAddr = tm.address ∧ isRead call = false ∧
    opAllowed call.type v.sv = true

def Ready (s : State) : Prop := s.filpOut = .object ∧ s.writeFileBuff = true

/-- Whatever task calls now, a `trace_*` function runs only if the file and the buffer are
there. -/
def Safe (s : State) : Prop := ∀ pid call, Enters tm s pid call → Ready s

def hookedTypes : List SystemCallType :=
  [.sysOpen, .sysClose, .sysWrite, .sysRename, .sysRmdir, .sysMkdir, .sysLink, .sysSymlink,
    .sysUnlink]

def hooks (sv : BitVec 32) : Bool := hookedTypes.any fun type => opAllowed type sv

/-- The message gives a task a registration on the module, with a hooked call. -/
def Publishes (s : State) (msg : IoctlArg) : Prop :=
  (findTask msg.pid s.kernel.tasks).isSome = true ∧
  getModule msg.moduleType s.kernel = some (some tm.address) ∧ hooks msg.vector = true

def Event.message : Event → Option IoctlArg
  | .ioctlSet msg => some msg
  | .clone2 forkRet args => some (cloneMessage forkRet args)
  | _ => none

def Careful (s : State) (e : Event) : Prop :=
  ∀ msg, e.message = some msg → Publishes tm s msg → Ready s

end

section
variable {tm : TraceModule} {s t : State}

def Exposed (tm : TraceModule) (record : Option NewSysVector) : Prop :=
  ∃ v, record = some v ∧ v.moduleAddr = tm.address ∧ hooks v.sv = true

theorem call_of_hooked {type : SystemCallType} (h : type ∈ hookedTypes) :
    ∃ call, isRead call = false ∧ Call.type call = type := by
  cases type with
  | sysRead => simp [hookedTypes] at h
  | sysOpen => exact ⟨.openFile 0 0 0, rfl, rfl⟩
  | sysClose => exact ⟨.close 0, rfl, rfl⟩
  | sysWrite => exact ⟨.write 0 0 0, rfl, rfl⟩
  | sysRename => exact ⟨.rename 0 0, rfl, rfl⟩
  | sysRmdir => exact ⟨.rmdir 0, rfl, rfl⟩
  | sysMkdir => exact ⟨.mkdir 0 0, rfl, rfl⟩
  | sysLink => exact ⟨.link 0 0, rfl, rfl⟩
  | sysSymlink => exact ⟨.symlink 0 0, rfl, rfl⟩
  | sysUnlink => exact ⟨.unlink 0, rfl, rfl⟩

theorem hooks_iff {sv : BitVec 32} :
    hooks sv = true ↔ ∃ call, isRead call = false ∧ opAllowed call.type sv = true := by
  rw [hooks, List.any_eq_true]
  constructor
  · rintro ⟨type, htype, hallowed⟩
    obtain ⟨call, hread, rfl⟩ := call_of_hooked htype
    exact ⟨call, hread, hallowed⟩
  · rintro ⟨call, hread, hallowed⟩
    refine ⟨call.type, ?_, hallowed⟩
    cases call with
    | read => cases hread
    | _ => simp [hookedTypes, Call.type]

theorem not_hooks_zero : hooks 0 = false := by decide

theorem exposed_iff {pid : BitVec 32} :
    Exposed tm (s.record pid) ↔ ∃ call, Enters tm s pid call := by
  constructor
  · rintro ⟨v, hrecord, haddr, hhooks⟩
    obtain ⟨call, hread, hallowed⟩ := hooks_iff.mp hhooks
    exact ⟨call, v, hrecord, haddr, hread, hallowed⟩
  · rintro ⟨call, v, hrecord, haddr, hread, hallowed⟩
    exact ⟨v, hrecord, haddr, hooks_iff.mpr ⟨call, hread, hallowed⟩⟩

theorem safe_iff : Safe tm s ↔ ∀ pid, Exposed tm (s.record pid) → Ready s := by
  constructor
  · intro h pid hexposed
    obtain ⟨call, henters⟩ := exposed_iff.mp hexposed
    exact h pid call henters
  · intro h pid call henters
    exact h pid (exposed_iff.mpr ⟨call, henters⟩)

theorem Safe.kept (h : Safe tm s) (hready : Ready s → Ready t)
    (hrecords : ∀ pid, Exposed tm (t.record pid) → ∃ pid', Exposed tm (s.record pid')) :
    Safe tm t := by
  rw [safe_iff] at h ⊢
  intro pid hexposed
  obtain ⟨pid', hexposed'⟩ := hrecords pid hexposed
  exact hready (h pid' hexposed')

theorem publishes_iff {msg : IoctlArg} :
    Publishes tm s msg ↔ (findTask msg.pid s.kernel.tasks).isSome = true ∧
      ∃ new, requested msg s.kernel = some new ∧ Exposed tm new := by
  constructor
  · rintro ⟨hlive, hmodule, hhooks⟩
    have hz : msg.vector ≠ 0 := by
      intro hz
      rw [hz, not_hooks_zero] at hhooks
      cases hhooks
    refine ⟨hlive, some ⟨msg.vector, tm.address⟩, ?_, _, rfl, rfl, hhooks⟩
    rw [requested, if_neg hz, hmodule]
    rfl
  · rintro ⟨hlive, new, hnew, v, rfl, haddr, hhooks⟩
    unfold requested at hnew
    split at hnew
    · cases hnew
    · obtain ⟨m, hjoin, heq⟩ := Option.map_eq_some_iff.mp hnew
      obtain rfl : (⟨msg.vector, m⟩ : NewSysVector) = v := Option.some.inj heq
      obtain rfl : m = tm.address := haddr
      exact ⟨hlive, Option.join_eq_some_iff.mp hjoin, hhooks⟩

structure Invariant (tm : TraceModule) (s : State) : Prop where
  accounted : ∃ leaked, Accounted leaked s.kernel
  data : ∀ r, s.kernel.mods.lookup tm.address = some r → r = tm.trace
  unallocated : s.stage ≠ .loaded → s.writeFileBuff = false

theorem Invariant.not_ready (h : Invariant tm s) (hstage : s.stage ≠ .loaded) : ¬ Ready s := by
  rintro ⟨-, hbuff⟩
  rw [h.unallocated hstage] at hbuff
  cases hbuff

theorem Invariant.early_safe (h : Invariant tm s) (hstage : s.stage ≠ .loaded) (hs : Safe tm s)
    (hkernel : t.kernel = s.kernel) : Safe tm t := by
  refine hs.kept (fun hready => absurd hready (h.not_ready hstage)) fun pid hexposed => ⟨pid, ?_⟩
  rw [State.record, hkernel] at hexposed
  exact hexposed

theorem Invariant.onKernel (h : Invariant tm s) {k : Kernel} {leaked : Addr → ℕ}
    (hacc : Accounted leaked k) (hmods : k.mods = s.kernel.mods) : Invariant tm (s.onKernel k) := by
  refine ⟨⟨leaked, hacc⟩, fun r hr => h.data r ?_, h.unallocated⟩
  rw [← hmods]
  exact hr

theorem initial_invariant (h : Initial tm s) : Invariant tm s := by
  obtain ⟨hacc, hunused, -, -, hbuff⟩ := h
  refine ⟨hacc, fun r hr => ?_, fun _ => hbuff⟩
  rw [hunused] at hr
  cases hr

theorem initial_safe (h : Initial tm s) : Safe tm s := by
  obtain ⟨⟨leaked, hacc⟩, hunused, -⟩ := h
  rintro pid call ⟨v, hrecord, haddr, -⟩
  obtain ⟨x, hx, hv⟩ := Option.bind_eq_some_iff.mp hrecord
  have hloaded := hacc.attached x (KeyedList.mem_of_lookup hx).1 v hv
  rw [haddr, hunused] at hloaded
  cases hloaded

theorem message_record {leaked : Addr → ℕ} (h : Accounted leaked s.kernel) {msg : IoctlArg}
    {k : Kernel} (hk : getIoctlHelper true msg s.kernel = some k) (pid : BitVec 32) :
    (s.onKernel k).record pid =
      match findTask msg.pid s.kernel.tasks, requested msg s.kernel with
      | some _, some new => if pid = msg.pid then new else s.record pid
      | _, _ => s.record pid := by
  obtain ⟨k', hk', heffect⟩ := h.ioctl_effect msg
  obtain rfl : k' = k := Option.some.inj (hk'.symm.trans hk)
  cases hx : findTask msg.pid s.kernel.tasks with
  | none =>
    simp only [hx] at heffect
    rw [heffect]
    rfl
  | some x =>
    cases hnew : requested msg s.kernel with
    | none =>
      simp only [hx, hnew] at heffect
      rw [heffect]
      rfl
    | some new =>
      simp only [hx, hnew] at heffect
      simp only [State.record, State.onKernel, heffect.find hx pid]
      split <;> rfl

theorem message_safe_iff {leaked : Addr → ℕ} (h : Accounted leaked s.kernel) (hs : Safe tm s)
    {msg : IoctlArg} {k : Kernel} (hk : getIoctlHelper true msg s.kernel = some k) :
    Safe tm (s.onKernel k) ↔ (Publishes tm s msg → Ready s) := by
  have hrecord := message_record h hk
  have hrest := safe_iff.mp hs
  rw [safe_iff, publishes_iff]
  constructor
  · rintro hsafe ⟨hlive, new, hnew, hexposed⟩
    obtain ⟨x, hx⟩ := Option.isSome_iff_exists.mp hlive
    have hself := hrecord msg.pid
    simp only [hx, hnew, if_true] at hself
    apply hsafe msg.pid
    rw [hself]
    exact hexposed
  · intro hcare pid hexposed
    rw [hrecord pid] at hexposed
    split at hexposed
    · next x new hx hnew =>
      split at hexposed
      · refine hcare ⟨?_, new, hnew, hexposed⟩
        rw [hx]
        rfl
      · exact hrest pid hexposed
    · exact hrest pid hexposed

theorem message_step {leaked : Addr → ℕ} (h : Accounted leaked s.kernel) (msg : IoctlArg) :
    ∃ k, getIoctlHelper true msg s.kernel = some k ∧ Accounted leaked k ∧
      k.mods = s.kernel.mods ∧
      (getIoctlHelper true msg s.kernel).map s.onKernel = some (s.onKernel k) := by
  obtain ⟨k, hk, -⟩ := h.ioctl_effect msg
  exact ⟨k, hk, ioctl_accounted h hk, ioctl_kept h hk, congrArg (Option.map _) hk⟩

theorem birth_step {leaked : Addr → ℕ} (h : Accounted leaked s.kernel) {parent child : BitVec 32}
    (hp : (findTask parent s.kernel.tasks).isSome = true)
    (hc : findTask child s.kernel.tasks = none) :
    ∃ k, perform tm s (.fork parent child) = some (s.onKernel k) ∧ Accounted leaked k ∧
      k.mods = s.kernel.mods ∧ ∀ pid,
        (s.onKernel k).record pid = if pid = child then s.record parent else s.record pid := by
  obtain ⟨x, hx⟩ := Option.isSome_iff_exists.mp hp
  obtain ⟨k, hk, -, hmods, -, htasks, hacc⟩ := forkTask_accounted h hx hc
  refine ⟨k, congrArg (Option.map _) hk, hacc, hmods, fun pid => ?_⟩
  simp only [State.record, State.onKernel, find_born hc htasks pid]
  split
  · rw [hx]
    rfl
  · rfl

theorem exit_step {leaked : Addr → ℕ} (h : Accounted leaked s.kernel) {pid : BitVec 32}
    (hp : (findTask pid s.kernel.tasks).isSome = true) :
    ∃ k, perform tm s (.exitGroup pid) = some (s.onKernel k) ∧ Accounted leaked k ∧
      k.mods = s.kernel.mods ∧
      ∀ q, (s.onKernel k).record q = if q = pid then none else s.record q := by
  obtain ⟨x, hx⟩ := Option.isSome_iff_exists.mp hp
  obtain ⟨k₁, k, -, hk, hr, rfl, hacc, hfind⟩ := exitTask_accounted h hx
  refine ⟨_, congrArg (Option.map _) hk, hacc, hr.mods, fun q => ?_⟩
  simp only [State.record, State.onKernel, hfind q]
  split <;> rfl

/-- One step: it does not fault, the invariant survives, and from a safe state the next is
safe if and only if the step is careful. -/
theorem enabled_step (h : Invariant tm s) {e : Event} (he : Enabled tm s e) :
    ∃ t, perform tm s e = some t ∧ Invariant tm t ∧ (Safe tm s → (Safe tm t ↔ Careful tm s e)) := by
  obtain ⟨leaked, hacc⟩ := h.accounted
  cases e with
  | moduleRegister node =>
    obtain ⟨k, hk, hmods, htasks, -, hacc'⟩ := loadModule_accounted hacc he.2
    have hbuff : s.writeFileBuff = false := by
      apply h.unallocated
      rw [he.1]
      decide
    have hdata : ∀ r, k.mods.lookup tm.address = some r → r = tm.trace := by
      intro r hr
      rw [hmods, AList.lookup_insert] at hr
      exact (Option.some.inj hr).symm
    refine ⟨_, congrArg (Option.map _) hk, ⟨⟨leaked, hacc'⟩, hdata, fun _ => hbuff⟩, fun hs => ?_⟩
    refine iff_of_true (hs.kept id fun pid hexposed => ⟨pid, ?_⟩) nofun
    simp only [State.record, htasks] at hexposed
    exact hexposed
  | filpOpen ok =>
    have hstage : s.stage ≠ .loaded := by
      rw [he]
      decide
    refine ⟨_, rfl, ⟨⟨leaked, hacc⟩, h.data, fun _ => h.unallocated hstage⟩, fun hs => ?_⟩
    exact iff_of_true (h.early_safe hstage hs rfl) nofun
  | kmalloc ok =>
    have hstage : s.stage ≠ .loaded := by
      rw [he]
      decide
    refine ⟨_, rfl, ⟨⟨leaked, hacc⟩, h.data, fun hne => absurd rfl hne⟩, fun hs => ?_⟩
    exact iff_of_true (h.early_safe hstage hs rfl) nofun
  | ioctlSet msg =>
    obtain ⟨k, hk, hacc', hmods, hperform⟩ := message_step hacc msg
    refine ⟨_, hperform, h.onKernel hacc' hmods, fun hs => (message_safe_iff hacc hs hk).trans ?_⟩
    simp [Careful, Event.message]
  | clone2 forkRet args =>
    obtain ⟨k, hk, hacc', hmods, hperform⟩ := message_step hacc (cloneMessage forkRet args)
    refine ⟨_, hperform, h.onKernel hacc' hmods, fun hs => (message_safe_iff hacc hs hk).trans ?_⟩
    simp [Careful, Event.message]
  | fork parent child =>
    obtain ⟨k, hperform, hacc', hmods, hrecord⟩ := birth_step hacc he.1 he.2
    refine ⟨_, hperform, h.onKernel hacc' hmods, fun hs => iff_of_true (hs.kept id ?_) nofun⟩
    intro pid hexposed
    rw [hrecord] at hexposed
    split at hexposed
    · exact ⟨parent, hexposed⟩
    · exact ⟨pid, hexposed⟩
  | exitGroup pid =>
    obtain ⟨k, hperform, hacc', hmods, hrecord⟩ := exit_step hacc he
    refine ⟨_, hperform, h.onKernel hacc' hmods, fun hs => iff_of_true (hs.kept id ?_) nofun⟩
    intro q hexposed
    rw [hrecord] at hexposed
    split at hexposed
    · obtain ⟨v, hnone, -⟩ := hexposed
      cases hnone
    · exact ⟨q, hexposed⟩
  | systemCall pid call => exact ⟨s, rfl, h, fun hs => iff_of_true hs nofun⟩

end

section hooks
variable {W : Type*} {c : Context W} {sys : ℕ → Addr}

/-- The call of a task enters the module if and only if it runs system_call_entry, which is
the entry point of no other module. -/
theorem enters_iff_invoked {tm : TraceModule} {s : State} (hi : Invariant tm s)
    (h : Installed c sys) {pid : BitVec 32} (hrecord : c.sysVector = s.record pid)
    (hmods : c.mods = s.kernel.mods)
    (hentry : ∀ m r, s.kernel.mods.lookup m = some r → r.sysOp = tm.systemCallEntry →
      m = tm.address) (call : Call) (w : W) :
    (∃ o req, systemCall c call w = some o ∧
      Invocation.sysOp tm.systemCallEntry req ∈ o.invoked) ↔ Enters tm s pid call := by
  apply (systemCall_invokes_iff h call w tm.systemCallEntry).trans
  rw [hrecord, hmods]
  constructor
  · rintro ⟨v, r, hv, hread, hallowed, hr, hop⟩
    exact ⟨v, hv, hentry _ r hr hop, hread, hallowed⟩
  · rintro ⟨v, hv, haddr, hread, hallowed⟩
    obtain ⟨r, hr⟩ := h.loaded v (hrecord.trans hv)
    rw [hmods] at hr
    have htrace := hi.data r (haddr ▸ hr)
    refine ⟨v, r, hv, hread, hallowed, hr, ?_⟩
    rw [htrace]
    rfl

end hooks

section
variable {tm : TraceModule} {s t : State}

theorem step_invariant (s : State) (e : Event) (t : State) (h : Invariant tm s)
    (hs : Step tm s e t) : Invariant tm t := by
  obtain ⟨t', ht', hi, -⟩ := enabled_step h hs.1
  obtain rfl : t' = t := Option.some.inj (ht'.symm.trans hs.2)
  exact hi

theorem safe_iff_careful (h : Invariant tm s) (hsafe : Safe tm s) {e : Event}
    (hs : Step tm s e t) : Safe tm t ↔ Careful tm s e := by
  obtain ⟨t', ht', -, hiff⟩ := enabled_step h hs.1
  obtain rfl : t' = t := Option.some.inj (ht'.symm.trans hs.2)
  exact hiff hsafe

/-- In every interleaving no step of trace_init, of a registration, a fork or an exit faults,
and in every state of the run a `trace_*` function runs only when the file and the buffer are
there if and only if every step is careful. A call changes no state here: what it would run in
a state is what `Safe` asks. -/
theorem ready_when_entered_iff (h : Initial tm s) (es : List Event) :
    (Run (Step tm) s es t → ∀ e, Enabled tm t e → ∃ u, Step tm t e u) ∧
    (Run (fun s e t => Safe tm t ∧ Step tm s e t) s es t ↔
      Run (Guarded (Careful tm) (Step tm)) s es t) := by
  have hi : Invariant tm s ∧ Safe tm s := ⟨initial_invariant h, initial_safe h⟩
  refine ⟨?_, ?_, ?_⟩
  · intro hr e he
    obtain ⟨u, hu, -⟩ := enabled_step (hr.invariant step_invariant hi.1) he
    exact ⟨u, he, hu⟩
  · intro hr
    refine (hr.transfer (P := fun s => Invariant tm s ∧ Safe tm s) (fun s e t hs hst => ?_) hi).1
    have hcareful := (safe_iff_careful hs.1 hs.2 hst.2).mp hst.1
    exact ⟨⟨hcareful, hst.2⟩, step_invariant s e t hs.1 hst.2, hst.1⟩
  · intro hr
    refine (hr.transfer (P := fun s => Invariant tm s ∧ Safe tm s) (fun s e t hs hst => ?_) hi).1
    have hsafe := (safe_iff_careful hs.1 hs.2 hst.2).mpr hst.1
    exact ⟨⟨hsafe, hst.2⟩, step_invariant s e t hs.1 hst.2, hsafe⟩

end

instance (s : State) : Decidable (Ready s) := inferInstanceAs (Decidable (_ ∧ _))

instance (tm : TraceModule) (s : State) (msg : IoctlArg) : Decidable (Publishes tm s msg) :=
  inferInstanceAs (Decidable (_ ∧ _ ∧ _))

instance (tm : TraceModule) (s : State) (e : Event) : Decidable (Careful tm s e) :=
  decidable_of_iff (∀ msg ∈ e.message, Publishes tm s msg → Ready s) Iff.rfl

def before : State := ⟨boot [⟨7, none⟩], .registering, .null, false⟩

def traceAt : TraceModule := ⟨10, 100, 0⟩

theorem before_initial : Initial traceAt before := by
  have hboot : ReferenceCounts.Initial before.kernel :=
    ⟨_, rfl, List.nodup_singleton 7, by decide⟩
  exact ⟨⟨_, (initial_consistent hboot)⟩, rfl, rfl, rfl, rfl⟩

def loadedFirst : List Event :=
  [.moduleRegister 1, .filpOpen true, .kmalloc true, .ioctlSet ⟨1023, 7, traceModule⟩,
    .systemCall 7 (.close 3)]

theorem ready_when_entered_loadedFirst : ∃ t, Enters traceAt t 7 (.close 3) ∧
    Run (fun s e t => Safe traceAt t ∧ Step traceAt s e t) before loadedFirst t := by
  have hrun : (replay (guardedNext (Careful traceAt) (next traceAt)) before loadedFirst).any
      (fun t => decide (t.record 7 = some ⟨1023, 10⟩)) = true := by decide
  obtain ⟨t, hr, hrecord⟩ := replay_reaches (guardedNext_sound (next_sound traceAt)) hrun
  refine ⟨t, ⟨_, of_decide_eq_true hrecord, rfl, rfl, by decide⟩, ?_⟩
  exact (ready_when_entered_iff before_initial loadedFirst).2.mpr hr

theorem unsafe_of_replay {es : List Event}
    (h : (replay (next traceAt) before es).any
      (fun t => decide (t.record 7 = some ⟨1023, 10⟩ ∧ ¬ Ready t)) = true) :
    ∃ t, Run (Step traceAt) before es t ∧ Enters traceAt t 7 (.close 3) ∧ ¬ Ready t := by
  obtain ⟨t, hr, hstate⟩ := replay_reaches (next_sound traceAt) h
  obtain ⟨hrecord, hready⟩ := of_decide_eq_true hstate
  exact ⟨t, hr, ⟨_, hrecord, rfl, rfl, by decide⟩, hready⟩

/-- Task 7 is registered while trace_init is under way, or after the open or the allocation
has failed, and its next call runs trace_close. -/
theorem entered_before_ready : Initial traceAt before ∧
    (∃ t, Run (Step traceAt) before [.moduleRegister 1, .ioctlSet ⟨1023, 7, traceModule⟩] t ∧
      Enters traceAt t 7 (.close 3) ∧ ¬ Ready t) ∧
    (∃ t, Run (Step traceAt) before [.moduleRegister 1, .filpOpen false, .kmalloc true,
        .ioctlSet ⟨1023, 7, traceModule⟩] t ∧ Enters traceAt t 7 (.close 3) ∧ ¬ Ready t) ∧
    ∃ t, Run (Step traceAt) before [.moduleRegister 1, .filpOpen true, .kmalloc false,
        .ioctlSet ⟨1023, 7, traceModule⟩] t ∧ Enters traceAt t 7 (.close 3) ∧ ¬ Ready t := by
  refine ⟨before_initial, ?_, ?_, ?_⟩
  · exact unsafe_of_replay (by decide)
  · exact unsafe_of_replay (by decide)
  · exact unsafe_of_replay (by decide)

end TraceReadiness
