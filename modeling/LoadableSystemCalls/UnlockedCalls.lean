import LoadableSystemCalls.HelperStatements

/-! # Calls of get_ioctl_helper without the mutex (sys_clone2.c)

sys_clone2 calls get_ioctl_helper outside the mutex. Calls that address different tasks share
the module list and the reference counts only, and each of them has a reference of its own
to put, so their statements may interleave in any order. -/
namespace UnlockedCalls

open KernelTypes ModuleRegistry TaskRegistration HelperStatements StatementBodies TransitionRuns
open StatementBodies.Body (read write)

abbrev Pid := BitVec 32

/-- What belongs to one task while its message is carried out: the record, which may be half
written, and the module it has a reference to. -/
structure Part where
  record : Option NewSysVector
  held : Option Addr

def Part.registered (v : Option NewSysVector) : Part := ⟨v, v.map NewSysVector.moduleAddr⟩

def Part.holds (mods : AList fun _ : Addr => ModuleReg) (mod : Addr) (p : Part) : Bool :=
  p.held.any fun m => (mods.lookup m).any fun r => r.module = mod

theorem registered_holds (mods : AList fun _ : Addr => ModuleReg) (mod : Addr)
    (v : Option NewSysVector) : (Part.registered v).holds mods mod = refersTo mods mod v := by
  cases v <;> rfl

/-- The kernel whose tasks are in these parts. -/
def assemble (leaked : Addr → ℕ) (k : Kernel) (parts : Pid → Part) : Kernel :=
  { k with
    tasks := k.tasks.map fun t => { t with sysVector := (parts t.pid).record }
    refcnt := fun mod =>
      k.tasks.countP (fun t => (parts t.pid).holds k.mods mod) + leaked mod }

def partsOf (k : Kernel) (pid : Pid) : Part :=
  .registered ((findTask pid k.tasks).bind TaskStruct.sysVector)

section
variable {leaked : Addr → ℕ} {k : Kernel}

theorem assemble_partsOf (h : Accounted leaked k) : assemble leaked k (partsOf k) = k := by
  have hself : ∀ t ∈ k.tasks, (findTask t.pid k.tasks).bind TaskStruct.sysVector = t.sysVector := by
    intro t ht
    rw [findTask, KeyedList.lookup_of_mem h.pids ht, Option.bind_some]
  ext1
  · rfl
  · rfl
  · rfl
  · funext mod
    refine Eq.trans (congrArg (· + leaked mod) ?_) (h.counted mod).symm
    apply List.countP_congr
    intro t ht
    rw [partsOf, registered_holds, hself t ht]
  · refine Eq.trans (List.map_congr_left fun t ht => ?_) (List.map_id _)
    rw [partsOf, hself t ht]
    rfl
  · rfl

variable {parts : Pid → Part} {pid : Pid} {t : TaskStruct} {l : Part}

theorem assemble_find (ht : findTask pid k.tasks = some t) :
    findTask pid (assemble leaked k parts).tasks =
      some { t with sysVector := (parts pid).record } := by
  have hmap : ∀ ts : List TaskStruct, KeyedList.lookup TaskStruct.pid pid
      (ts.map fun t => { t with sysVector := (parts t.pid).record }) =
      (KeyedList.lookup TaskStruct.pid pid ts).map fun t =>
        { t with sysVector := (parts t.pid).record } := by
    intro ts
    rw [KeyedList.lookup, KeyedList.lookup, List.find?_map]
    rfl
  refine (hmap k.tasks).trans ((congrArg _ ht).trans ?_)
  rw [Option.map_some, (KeyedList.mem_of_lookup ht).2]

theorem assemble_find_none (ht : findTask pid k.tasks = none) :
    findTask pid (assemble leaked k parts).tasks = none := by
  rw [findTask, KeyedList.lookup_eq_none] at ht ⊢
  intro x hx
  obtain ⟨y, hy, rfl⟩ := List.mem_map.mp hx
  exact ht y hy

theorem update_keeps {β : Type*} (g : Part → β) {p : Part} (hp : g p = g (parts pid)) (q : Pid) :
    g (Function.update parts pid p q) = g (parts q) := by
  by_cases hq : q = pid
  · subst hq
    rw [Function.update_self, hp]
  · rw [Function.update_of_ne hq]

theorem assemble_setSysVector (v : Option NewSysVector) :
    (assemble leaked k parts).setSysVector pid v =
      assemble leaked k (Function.update parts pid { parts pid with record := v }) := by
  ext1
  · rfl
  · rfl
  · rfl
  · funext mod
    simp only [assemble, setSysVector_refcnt, Part.holds,
      update_keeps (p := { parts pid with record := v }) Part.held rfl]
  · simp only [assemble, Kernel.setSysVector, KeyedList.modify, List.map_map]
    apply List.map_congr_left
    intro x _
    by_cases hx : x.pid = pid
    · simp [hx]
    · simp [hx]
  · rfl

theorem held_holds {p : Part} {m : Addr} {r : ModuleReg} (hp : p.held = some m)
    (hr : k.mods.lookup m = some r) (mod : Addr) :
    p.holds k.mods mod = decide (r.module = mod) := by
  simp [Part.holds, hp, hr]

theorem unheld_holds {p : Part} (hp : p.held = none) (mod : Addr) :
    p.holds k.mods mod = false := by
  simp [Part.holds, hp]

section counts
variable (h : Accounted leaked k) (ht : (findTask pid k.tasks).isSome)
include h ht

theorem assemble_refcnt (parts : Pid → Part) (p : Part) (mod : Addr) :
    (assemble leaked k (Function.update parts pid p)).refcnt mod +
        (if (parts pid).holds k.mods mod then 1 else 0) =
      (assemble leaked k parts).refcnt mod + (if p.holds k.mods mod then 1 else 0) := by
  have hcount := KeyedList.countP_update h.pids ht parts p (Part.holds k.mods mod)
  simp only [assemble]
  omega

variable {m : Addr} {r : ModuleReg} (hr : k.mods.lookup m = some r)
include hr

theorem assemble_get (hheld : (parts pid).held = none) :
    (assemble leaked k parts).moduleGet r.module =
      assemble leaked k (Function.update parts pid { parts pid with held := some m }) := by
  ext1
  · rfl
  · rfl
  · rfl
  · funext mod
    have hcount := assemble_refcnt h ht parts { parts pid with held := some m } mod
    rw [unheld_holds hheld, held_holds rfl hr] at hcount
    by_cases hm : mod = r.module
    · subst hm
      simpa [Kernel.moduleGet] using hcount.symm
    · simpa [Kernel.moduleGet, hm, Ne.symm hm] using hcount.symm
  · simp only [assemble, moduleGet_tasks,
      update_keeps (p := { parts pid with held := some m }) Part.record rfl]
  · rfl

theorem assemble_refcnt_pos (hheld : (parts pid).held = some m) :
    0 < (assemble leaked k parts).refcnt r.module := by
  have hcount := assemble_refcnt h ht parts { parts pid with held := none } r.module
  rw [held_holds hheld hr, unheld_holds rfl] at hcount
  simp only [decide_true, if_true, Bool.false_eq_true, if_false] at hcount
  omega

theorem assemble_put (hheld : (parts pid).held = some m) :
    (assemble leaked k parts).modulePut r.module =
      assemble leaked k (Function.update parts pid { parts pid with held := none }) := by
  ext1
  · rfl
  · rfl
  · rfl
  · funext mod
    have hcount := assemble_refcnt h ht parts { parts pid with held := none } mod
    rw [held_holds hheld hr, unheld_holds rfl] at hcount
    by_cases hm : mod = r.module
    · subst hm
      simp [Kernel.modulePut] at hcount ⊢
      omega
    · simpa [Kernel.modulePut, hm, Ne.symm hm] using hcount.symm
  · simp only [assemble, modulePut_tasks,
      update_keeps (p := { parts pid with held := none }) Part.record rfl]
  · rfl

end counts

end

section statements
variable {leaked : Addr → ℕ} {k : Kernel} {pid : Pid} {t : TaskStruct} {l : Part}

abbrev Own (leaked : Addr → ℕ) (k : Kernel) (pid : Pid) {ρ : Type} (b : Body Kernel ρ)
    (l l' : Part) (r : ρ) : Prop := Local (assemble leaked k) pid b l l' r

theorem own_setSysVector (ht : findTask pid k.tasks = some t) (v : Option NewSysVector) :
    Own leaked k pid (write (storeSysVector pid v)) l { l with record := v } () := by
  apply local_write
  rintro parts rfl
  rw [storeSysVector_of_find (assemble_find ht), assemble_setSysVector]

theorem own_storeModuleAddr (ht : findTask pid k.tasks = some t) {v : NewSysVector}
    (hv : l.record = some v) (addr : Addr) :
    Own leaked k pid (write (storeModuleAddr pid addr)) l
      { l with record := some { v with moduleAddr := addr } } () := by
  apply local_write
  rintro parts rfl
  rw [storeModuleAddr_of_find (assemble_find ht) hv, assemble_setSysVector]

theorem own_storeSv (ht : findTask pid k.tasks = some t) {v : NewSysVector}
    (hv : l.record = some v) (sv : BitVec 32) :
    Own leaked k pid (write (storeSv pid sv)) l
      { l with record := some { v with sv := sv } } () := by
  apply local_write
  rintro parts rfl
  rw [storeSv_of_find (assemble_find ht) hv, assemble_setSysVector]

theorem own_sysVector (ht : findTask pid k.tasks = some t) :
    Own leaked k pid (read (sysVector pid)) l l l.record := by
  apply local_read
  rintro parts rfl
  rw [sysVector_of_find (assemble_find ht)]

theorem own_moduleAddr (ht : findTask pid k.tasks = some t) {v : NewSysVector}
    (hv : l.record = some v) : Own leaked k pid (read (moduleAddr pid)) l l v.moduleAddr := by
  apply local_read
  rintro parts rfl
  exact moduleAddr_of_find (assemble_find ht) hv

section modules
variable (h : Accounted leaked k) (ht : findTask pid k.tasks = some t) {m : Addr}
  {r : ModuleReg} (hr : k.mods.lookup m = some r)
include h hr

theorem own_walk : Own leaked k pid (read (walk m)) l l (some r.module) := by
  obtain ⟨ms, hlisted, -, hms⟩ := h.listed
  obtain ⟨prev, a, next, hfind⟩ := hlisted.findNode_pointer ((hms m).mpr (by simp [hr]))
  apply local_read
  intro parts _
  have hwalk : findNode (assemble leaked k parts) (fun x => some (x = m)) =
      some (some (prev, a, ⟨m, next⟩)) := hfind
  rw [walk, hwalk]
  exact congrArg (Option.map _) hr

include ht

theorem own_increment (hheld : l.held = none) :
    Own leaked k pid (incrementBody m) l { l with held := some m } () := by
  have hget : Own leaked k pid (write fun k => some (k.moduleGet r.module)) l
      { l with held := some m } () := by
    apply local_write
    rintro parts rfl
    rw [assemble_get h (by simp [ht]) hr hheld]
  exact (own_walk h hr).bind hget

/-- A task's own reference keeps the count positive. -/
theorem own_decrement (hheld : l.held = some m) :
    Own leaked k pid (decrementBody m) l { l with held := none } () := by
  have hpositive : Own leaked k pid
      (read fun k => some (decide (0 < k.moduleRefcount r.module))) l l true := by
    apply local_read
    rintro parts rfl
    exact congrArg some (decide_eq_true (assemble_refcnt_pos h (by simp [ht]) hr hheld))
  have hput : Own leaked k pid (write fun k => some (k.modulePut r.module)) l
      { l with held := none } () := by
    apply local_write
    rintro parts rfl
    rw [assemble_put h (by simp [ht]) hr hheld]
  exact (own_walk h hr).bind (hpositive.bind hput)

end modules

end statements

section bodies
variable {leaked : Addr → ℕ} {k : Kernel} {msg : IoctlArg} {t : TaskStruct}
  {stale : NewSysVector} {v : Option NewSysVector}

def Attached (k : Kernel) (v : Option NewSysVector) : Prop :=
  ∀ x, v = some x → (k.mods.lookup x.moduleAddr).isSome

theorem own_clear (h : Accounted leaked k) (ht : findTask msg.pid k.tasks = some t)
    (hv : Attached k v) :
    Own leaked k msg.pid (clearBody stale (some msg.pid)) (.registered v) (.registered none)
      () := by
  cases v with
  | none => exact (own_sysVector ht).bind (local_pure ())
  | some v =>
    obtain ⟨r, hr⟩ := Option.isSome_iff_exists.mp (hv v rfl)
    exact (own_sysVector ht).bind ((own_moduleAddr ht rfl).bind
      ((own_decrement h ht hr rfl).bind
        ((own_setSysVector ht (some stale)).bind (own_setSysVector ht none))))

theorem own_fill {l : Part} {x : NewSysVector} (ht : findTask msg.pid k.tasks = some t)
    (hx : l.record = some x) (addr : Addr) :
    Own leaked k msg.pid (fillBody msg msg.pid addr) l
      { l with record := some ⟨msg.vector, addr⟩ } () := by
  have hx' : (Part.mk (some { x with moduleAddr := addr }) l.held).record =
      some { x with moduleAddr := addr } := rfl
  exact (own_storeModuleAddr ht hx addr).bind (own_storeSv ht hx' msg.vector)

theorem own_newRecord (h : Accounted leaked k) (ht : findTask msg.pid k.tasks = some t)
    {addr : Addr} {r : ModuleReg} (hr : k.mods.lookup addr = some r) :
    Own leaked k msg.pid (newRecordBody true stale msg.pid addr) (.registered none)
      (.registered (some { stale with moduleAddr := addr })) () :=
  (own_setSysVector ht (some stale)).bind
    ((own_storeModuleAddr ht rfl addr).bind (own_increment h ht hr rfl))

theorem own_moveRecord (h : Accounted leaked k) (ht : findTask msg.pid k.tasks = some t)
    {addr : Addr} {r : ModuleReg} (hr : k.mods.lookup addr = some r) {x : NewSysVector}
    (hx : (k.mods.lookup x.moduleAddr).isSome) :
    Own leaked k msg.pid (moveRecordBody msg.pid addr) (.registered (some x))
      ⟨some x, some addr⟩ () := by
  obtain ⟨r₀, hr₀⟩ := Option.isSome_iff_exists.mp hx
  refine (own_moduleAddr ht rfl).bind ?_
  by_cases hsame : x.moduleAddr = addr
  · rw [if_neg (not_not.mpr hsame), ← hsame]
    exact local_pure ()
  · rw [if_pos hsame]
    exact (own_moduleAddr ht rfl).bind
      ((own_decrement h ht hr₀ rfl).bind (own_increment h ht hr rfl))

theorem own_register (h : Accounted leaked k) (ht : findTask msg.pid k.tasks = some t)
    {addr : Addr} {r : ModuleReg} (hr : k.mods.lookup addr = some r) (hv : Attached k v) :
    Own leaked k msg.pid (registerBody true stale msg msg.pid addr) (.registered v)
      (.registered (some ⟨msg.vector, addr⟩)) () := by
  refine (own_sysVector ht).bind ?_
  cases v with
  | none => exact (own_newRecord h ht hr).bind (own_fill ht rfl addr)
  | some x => exact (own_moveRecord h ht hr (hv x rfl)).bind (own_fill ht rfl addr)

theorem getModule_assemble (type : ModuleType) (parts : Pid → Part) :
    getModule type (assemble leaked k parts) = getModule type k := rfl

/-- What the task of a message ends with: what was asked for, or what it had. -/
def answer (msg : IoctlArg) (k : Kernel) (v : Option NewSysVector) : Option NewSysVector :=
  if (findTask msg.pid k.tasks).isSome then (requested msg k).getD v else v

theorem own_assign (h : Accounted leaked k) (hz : msg.vector ≠ 0) (hv : Attached k v)
    (task : Option (BitVec 32)) (htask : pidTask msg.pid k = task) :
    Own leaked k msg.pid (assignBody true stale msg task) (.registered v)
      (.registered (answer msg k v)) () := by
  have hget : ∀ o, getModule msg.moduleType k = some o →
      Own leaked k msg.pid (read (getModule msg.moduleType)) (.registered v) (.registered v) o := by
    intro o ho
    apply local_read
    intro parts _
    rw [getModule_assemble, ho]
  rcases h.module_of_type msg.moduleType with ⟨hg, -⟩ | ⟨m, r, hg, hr, -⟩
  · have hanswer : answer msg k v = v := by
      rw [answer, requested, if_neg hz, hg]
      exact ite_self v
    rw [hanswer]
    exact (hget none hg).bind (local_pure ())
  · cases ht : findTask msg.pid k.tasks with
    | none =>
      have hanswer : answer msg k v = v := by simp [answer, ht]
      obtain rfl : none = task := by simpa [pidTask, ht] using htask
      rw [hanswer]
      exact (hget (some m) hg).bind (local_pure ())
    | some t =>
      have hanswer : answer msg k v = some ⟨msg.vector, m⟩ := by
        rw [answer, requested, if_neg hz, hg, ht]
        rfl
      obtain rfl : some msg.pid = task := (pidTask_of_find ht).symm.trans htask
      rw [hanswer]
      exact (hget (some m) hg).bind (own_register h ht hr hv)

/-- The statements of a message touch nothing but the part of its task. -/
theorem own_helper (h : Accounted leaked k) (hv : Attached k v) :
    Own leaked k msg.pid (getIoctlHelperBody true stale msg) (.registered v)
      (.registered (answer msg k v)) () := by
  have hpid : Own leaked k msg.pid (read fun k => some (pidTask msg.pid k)) (.registered v)
      (.registered v) (pidTask msg.pid k) := by
    apply local_read
    intro parts _
    cases ht : findTask msg.pid k.tasks with
    | none => simp [pidTask, assemble_find_none ht, ht]
    | some t => simp [pidTask, assemble_find ht, ht]
  refine hpid.bind ?_
  by_cases hz : msg.vector = 0
  · rw [if_pos hz]
    cases ht : findTask msg.pid k.tasks with
    | none =>
      have hanswer : answer msg k v = v := by simp [answer, ht]
      rw [hanswer, pidTask, ht]
      exact local_pure ()
    | some t =>
      have hanswer : answer msg k v = none := by simp [answer, ht, requested, hz]
      rw [hanswer, pidTask_of_find ht]
      exact own_clear h ht hv
  · rw [if_neg hz]
    exact own_assign h hz hv _ rfl

end bodies

section interleavings
variable {leaked : Addr → ℕ} {k : Kernel} {msgs : List IoctlArg} {stale : Pid → NewSysVector}

/-- Each task's message, in a thread that calls get_ioctl_helper with it; every kmalloc of a
record succeeds. -/
def helperBodies (stale : Pid → NewSysVector) (msgs : List IoctlArg) (pid : Pid) :
    Body Kernel Unit :=
  match KeyedList.lookup IoctlArg.pid pid msgs with
  | none => pure ()
  | some msg => getIoctlHelperBody true (stale pid) msg

def answered (msgs : List IoctlArg) (k : Kernel) (pid : Pid) : Part :=
  match KeyedList.lookup IoctlArg.pid pid msgs with
  | none => partsOf k pid
  | some msg => .registered (answer msg k ((findTask pid k.tasks).bind TaskStruct.sysVector))

theorem helperBodies_own (h : Accounted leaked k) (pid : Pid) :
    Local (assemble leaked k) pid (helperBodies stale msgs pid) (partsOf k pid)
      (answered msgs k pid) () := by
  rw [helperBodies, answered]
  cases hm : KeyedList.lookup IoctlArg.pid pid msgs with
  | none => exact local_pure ()
  | some msg =>
    obtain ⟨-, rfl⟩ := KeyedList.mem_of_lookup hm
    apply own_helper h
    intro x hx
    obtain ⟨t, ht, hx⟩ := Option.bind_eq_some_iff.mp hx
    exact h.attached t (KeyedList.mem_of_lookup ht).1 x hx

theorem helperBodies_run (hd : KeyedList.Distinct IoctlArg.pid msgs) {msg : IoctlArg}
    (hmsg : msg ∈ msgs) (k : Kernel) :
    getIoctlHelper true msg k = ((helperBodies stale msgs msg.pid).run k).map Prod.fst := by
  rw [helperBodies, KeyedList.lookup_of_mem hd hmsg, run_getIoctlHelper, Option.map_map]
  exact (Option.map_id').symm

theorem messages_in_order (h : Accounted leaked k) {order : List IoctlArg}
    (hperm : order.Perm msgs) (hd : KeyedList.Distinct IoctlArg.pid msgs) :
    order.foldlM (fun k msg => getIoctlHelper true msg k) k =
      some (assemble leaked k (answered msgs k)) := by
  have hd' : (order.map IoctlArg.pid).Nodup := (hperm.map IoctlArg.pid).nodup_iff.mpr hd
  have hown : ∀ pid, Local (assemble leaked k) pid (helperBodies (fun _ => ⟨0, 0⟩) msgs pid)
      (partsOf k pid) (answered msgs k pid) () := helperBodies_own h
  have hserial := local_serial hown
    (fun msg hmsg k => helperBodies_run hd (hperm.mem_iff.mp hmsg) k) hd' (fun msg _ => rfl)
  rw [assemble_partsOf h] at hserial
  rw [hserial]
  congr 2
  funext pid
  by_cases hpid : pid ∈ order.map IoctlArg.pid
  · rw [if_pos hpid]
  · have hnone : KeyedList.lookup IoctlArg.pid pid msgs = none := by
      rw [KeyedList.lookup_eq_none]
      intro msg hmsg he
      exact hpid (he ▸ List.mem_map_of_mem (hperm.mem_iff.mpr hmsg))
    rw [if_neg hpid, answered, hnone]

/-- Calls of get_ioctl_helper for different tasks need no mutex: however their statements
interleave, none faults, and when all have returned the kernel is the one that the whole
calls lead to, in whatever order they are carried out. -/
theorem unlocked_calls_serialise (h : Accounted leaked k)
    (hd : KeyedList.Distinct IoctlArg.pid msgs) {ts : List Pid} {c : Threads Pid Kernel Unit}
    (hr : Run Threads.Step ⟨k, helperBodies stale msgs⟩ ts c) :
    (∀ pid, (∃ r, c.body pid = .done r) ∨ ∃ c', Threads.Step c pid c') ∧
    ((∀ msg ∈ msgs, ∃ r, c.body msg.pid = .done r) → ∀ order : List IoctlArg, order.Perm msgs →
      order.foldlM (fun k msg => getIoctlHelper true msg k) k = some c.shared) := by
  have hown : ∀ pid, Local (assemble leaked k) pid (helperBodies stale msgs pid)
      (partsOf k pid) (answered msgs k pid) () := helperBodies_own h
  have hidle : ∀ pid, KeyedList.lookup IoctlArg.pid pid msgs = none → c.body pid = .done () := by
    intro pid hnone
    have hdone : (Threads.mk k (helperBodies stale msgs)).body pid = .done () := by
      simp only [helperBodies, hnone]
      rfl
    exact hr.invariant (fun _ _ _ hc hs => step_done hc hs) hdone
  rw [← assemble_partsOf h] at hr
  refine ⟨fun pid => local_progress hown hr pid, fun hreturned order hperm => ?_⟩
  have hdone : ∀ pid, ∃ r, c.body pid = .done r := by
    intro pid
    cases hm : KeyedList.lookup IoctlArg.pid pid msgs with
    | none => exact ⟨(), hidle pid hm⟩
    | some msg =>
      obtain ⟨hmem, rfl⟩ := KeyedList.mem_of_lookup hm
      exact hreturned msg hmem
  rw [messages_in_order h hperm hd, (local_ended hown hr hdone).1]

end interleavings

def twoChildren : Option Kernel :=
  replay ReferenceCounts.next (boot [⟨7, none⟩, ⟨8, none⟩])
    [.moduleRegister 10 ⟨100, traceModule, 0⟩ 1]

def childMessages : List IoctlArg := [⟨9, 7, traceModule⟩, ⟨5, 8, traceModule⟩]

def takingTurns : List Pid := (List.replicate 9 [7, 8]).flatten

theorem childMessages_run : ∃ k, twoChildren = some k ∧ ∃ c,
    Run Threads.Step ⟨k, helperBodies (fun _ => ⟨0, 0⟩) childMessages⟩ takingTurns c ∧
    ((c.body 7).isDone && (c.body 8).isDone) = true := by
  have h : twoChildren.any (fun k =>
      (replay Threads.next ⟨k, helperBodies (fun _ => ⟨0, 0⟩) childMessages⟩ takingTurns).any
        fun c => (c.body 7).isDone && (c.body 8).isDone) = true := by decide
  obtain ⟨k, hk, hrun⟩ := (Option.any_eq_true _ _).mp h
  exact ⟨k, hk, replay_reaches (fun _ _ _ h => h) hrun⟩

theorem unlocked_calls_serialise_two : ∃ k c,
    twoChildren = some k ∧
    Run Threads.Step ⟨k, helperBodies (fun _ => ⟨0, 0⟩) childMessages⟩ takingTurns c ∧
    childMessages.reverse.foldlM (fun k msg => getIoctlHelper true msg k) k =
      some c.shared := by
  obtain ⟨k, hk, c, hr, hdone⟩ := childMessages_run
  have hinit : ReferenceCounts.Initial (boot [⟨7, none⟩, ⟨8, none⟩]) :=
    ⟨_, rfl, by decide, by decide⟩
  have hreach : Reachable ReferenceCounts.Initial ReferenceCounts.Step k :=
    ⟨_, _, hinit, replay_sound ReferenceCounts.next_sound hk⟩
  have hacc := (ReferenceCounts.reachable_invariant hreach).consistent
  rw [Bool.and_eq_true] at hdone
  refine ⟨k, c, hk, hr, (unlocked_calls_serialise hacc (by decide) hr).2 ?_ _
    (List.reverse_perm _)⟩
  intro msg hmsg
  rcases List.mem_cons.mp hmsg with rfl | hmsg
  · exact Body.done_of_isDone hdone.1
  · obtain rfl := List.mem_singleton.mp hmsg
    exact Body.done_of_isDone hdone.2

end UnlockedCalls
