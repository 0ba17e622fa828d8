import LoadableSystemCalls.OwnedCells
import LoadableSystemCalls.RegistrationMap

/-! # Registration records on the kernel heap (ioctl_device.c, syscall_new.c)

The other models keep a record inside its task. Here `task->sys_vector` is a pointer to memory
that kmalloc hands out and kfree takes back, and a stale pointer or a second kfree is an
oops. -/
namespace RecordHeap

open KernelTypes ModuleRegistry TaskRegistration TransitionRuns OwnedCells
open ReferenceCounts (Event Invariant)

abbrev Pid := BitVec 32

/-- The tasks with their pointers and the records they lead to; `base` is the rest. -/
structure PointerKernel where
  base : Kernel
  table : Table Pid NewSysVector

def withTasks (k : Kernel) (ts : List TaskStruct) : Kernel := { k with tasks := ts }

def tasksOf (table : Table Pid NewSysVector) : List TaskStruct :=
  table.contents.map fun o => ⟨o.1, o.2⟩

def view (p : PointerKernel) : Kernel := withTasks p.base (tasksOf p.table)

/-- The three statements that give a record back. -/
def release (pid : Pid) (a : Addr) (p : PointerKernel) : Option PointerKernel :=
  (p.table.cells.lookup a).bind fun v =>
    (decrementModuleRc v.moduleAddr p.base).bind fun base =>
      (p.table.free a).map fun table => ⟨base, table.repoint pid none⟩

/-- A message that names a module. `fresh` is what kmalloc returns. -/
def assign (kmallocOk : Bool) (fresh : Addr) (msg : IoctlArg) (addr : Addr) (p : PointerKernel) :
    Option PointerKernel :=
  match p.table.pointer msg.pid with
  | none => some p
  | some none =>
    if kmallocOk then
      (incrementModuleRc addr p.base).map fun base =>
        ⟨base, (p.table.fill fresh ⟨msg.vector, addr⟩).repoint msg.pid (some fresh)⟩
    else none
  | some (some a) =>
    (p.table.cells.lookup a).bind fun v =>
      (if v.moduleAddr ≠ addr then
          (decrementModuleRc v.moduleAddr p.base).bind (incrementModuleRc addr)
        else some p.base).bind fun base =>
        (p.table.store a ⟨msg.vector, addr⟩).map fun table => ⟨base, table⟩

def getIoctlHelper (kmallocOk : Bool) (fresh : Addr) (msg : IoctlArg) (p : PointerKernel) :
    Option PointerKernel :=
  if msg.vector = 0 then
    match p.table.pointer msg.pid with
    | none => some p
    | some none => some p
    | some (some a) => release msg.pid a p
  else
    match getModule msg.moduleType p.base with
    | none => none
    | some none => some p
    | some (some addr) => assign kmallocOk fresh msg addr p

def newExitGroup (pid : Pid) (p : PointerKernel) : Option PointerKernel :=
  match p.table.pointer pid with
  | some (some a) => release pid a p
  | _ => some p

def exitTask (pid : Pid) (p : PointerKernel) : Option PointerKernel :=
  (newExitGroup pid p).map fun p => { p with table := p.table.remove pid }

/-- The child's copy of the record is memory of its own. -/
def forkTask (parent child : Pid) (fresh : Addr) (p : PointerKernel) : Option PointerKernel :=
  match p.table.pointer parent with
  | none => none
  | some none => some { p with table := p.table.add child none }
  | some (some a) =>
    (p.table.cells.lookup a).bind fun v =>
      (p.base.mods.lookup v.moduleAddr).map fun r =>
        ⟨p.base.moduleGet r.module,
          ((p.table.add child none).fill fresh v).repoint child (some fresh)⟩

def perform (p : PointerKernel) : Event × Addr → Option PointerKernel
  | (.moduleRegister m reg node, _) =>
    (ReferenceCounts.loadModule m reg node p.base).map fun base => { p with base := base }
  | (.moduleDeregister m, _) =>
    (ReferenceCounts.unloadModule m p.base).map fun base => { p with base := base }
  | (.ioctlSet msg, fresh) => getIoctlHelper true fresh msg p
  | (.clone2 forkRet args, fresh) => getIoctlHelper true fresh (cloneMessage forkRet args) p
  | (.fork parent child, fresh) => forkTask parent child fresh p
  | (.exitGroup pid, _) => exitTask pid p

/-- kmalloc returns memory that is not in use. -/
def Enabled (p : PointerKernel) (e : Event × Addr) : Prop :=
  ReferenceCounts.Enabled (view p) e.1 ∧ p.table.cells.lookup e.2 = none

instance (p : PointerKernel) (e : Event × Addr) : Decidable (Enabled p e) :=
  inferInstanceAs (Decidable (_ ∧ _))

def Step (p : PointerKernel) (e : Event × Addr) (p' : PointerKernel) : Prop :=
  Enabled p e ∧ perform p e = some p'

def next : PointerKernel → Event × Addr → Option PointerKernel := guardedNext Enabled perform

theorem next_sound (p : PointerKernel) (e : Event × Addr) (p' : PointerKernel)
    (h : next p e = some p') : Step p e p' := guardedNext_eq_some.mp h

def Initial (p : PointerKernel) : Prop :=
  ReferenceCounts.Initial (view p) ∧ p.table.cells = ∅ ∧ ∀ o ∈ p.table.owners, o.2 = none

section base
variable (k : Kernel) (ts : List TaskStruct)

theorem increment_withTasks (m : Addr) :
    incrementModuleRc m (withTasks k ts) = (incrementModuleRc m k).map (withTasks · ts) := by
  have hwalk : findNode (withTasks k ts) (fun x => some (x = m)) =
      findNode k fun x => some (x = m) := rfl
  rw [incrementModuleRc, incrementModuleRc, hwalk]
  rcases findNode k fun x => some (x = m) with _ | _ | ⟨prev, a, c⟩
  · rfl
  · rfl
  · change (k.mods.lookup c.value).map _ = ((k.mods.lookup c.value).map _).map _
    rw [Option.map_map]
    rfl

theorem decrement_withTasks (m : Addr) :
    decrementModuleRc m (withTasks k ts) = (decrementModuleRc m k).map (withTasks · ts) := by
  have hwalk : findNode (withTasks k ts) (fun x => some (x = m)) =
      findNode k fun x => some (x = m) := rfl
  rw [decrementModuleRc, decrementModuleRc, hwalk]
  rcases findNode k fun x => some (x = m) with _ | _ | ⟨prev, a, c⟩
  · rfl
  · rfl
  · change (k.mods.lookup c.value).map _ = ((k.mods.lookup c.value).map _).map _
    rw [Option.map_map]
    congr 1
    funext r
    change (if 0 < k.refcnt r.module then _ else _) =
      withTasks (if 0 < k.refcnt r.module then _ else _) ts
    split <;> rfl

theorem loadModule_withTasks (m : Addr) (reg : ModuleReg) (node : Addr) :
    ReferenceCounts.loadModule m reg node (withTasks k ts) =
      (ReferenceCounts.loadModule m reg node k).map (withTasks · ts) := by
  simp only [ReferenceCounts.loadModule, moduleRegister, addModule, withTasks]
  cases k.headNode with
  | none => rfl
  | some head =>
    dsimp only
    generalize LinkedChain.lastCell (AList.insert node _ _) _ _ _ = last
    rcases last with _ | _ | prev
    · rfl
    · rfl
    · simp only [Option.map_map]
      rfl

theorem unloadModule_withTasks (m : Addr) :
    ReferenceCounts.unloadModule m (withTasks k ts) =
      (ReferenceCounts.unloadModule m k).map (withTasks · ts) := by
  have hmods : (withTasks k ts).mods = k.mods := rfl
  simp only [ReferenceCounts.unloadModule, moduleDeregister, hmods]
  cases hr : k.mods.lookup m with
  | none => rfl
  | some r =>
    have hwalk : findNode (withTasks k ts) ((withTasks k ts).hasType r.type) =
        findNode k (k.hasType r.type) := rfl
    simp only [removeModule, hwalk]
    rcases findNode k (k.hasType r.type) with _ | _ | ⟨_ | prev, curr, c⟩
    · rfl
    · rfl
    · simp only [Option.map_map]
      rfl
    · simp only [Option.map_map]
      rfl

end base

section steps
variable {p : PointerKernel} {pid : Pid} {a fresh : Addr} {msg : IoctlArg}

def Simulates (o : Option Kernel) (o' : Option PointerKernel) : Prop :=
  o = o'.map view ∧ ∀ p', o' = some p' → Owned p'.table

theorem simulates_none : Simulates none none := by
  refine ⟨rfl, fun p' hp => ?_⟩
  cases hp

theorem simulates_some (h : Owned p.table) : Simulates (some (view p)) (some p) := by
  refine ⟨rfl, fun p' hp => ?_⟩
  obtain rfl := Option.some.inj hp
  exact h

theorem view_find (p : PointerKernel) (pid : Pid) : findTask pid (view p).tasks =
    (p.table.pointer pid).map fun q => ⟨pid, q.bind p.table.cells.lookup⟩ := by
  have hmap : findTask pid (view p).tasks =
      (KeyedList.lookup Prod.fst pid p.table.contents).map fun o => ⟨o.1, o.2⟩ := by
    change (p.table.contents.map _).find? _ = _
    rw [List.find?_map]
    rfl
  rw [hmap, contents_lookup, Option.map_map]
  rfl

theorem view_find_cell (hk : p.table.pointer pid = some (some a)) :
    findTask pid (view p).tasks = some ⟨pid, p.table.cells.lookup a⟩ := by
  rw [view_find, hk]
  rfl

theorem tasksOf_moves {t : Table Pid NewSysVector} {q : Option ℕ}
    {cells : AList fun _ : ℕ => NewSysVector} (h : Moves t pid q cells) (k : Kernel) :
    withTasks k (tasksOf ({ t with cells := cells }.repoint pid q)) =
      (withTasks k (tasksOf t)).setSysVector pid (q.bind cells.lookup) := by
  simp only [withTasks, Kernel.setSysVector, tasksOf, h.contents, KeyedList.modify, List.map_map]
  congr 1
  apply List.map_congr_left
  intro o _
  by_cases ho : o.1 = pid <;> simp [ho]

theorem release_simulates (h : Owned p.table) (hk : p.table.pointer pid = some (some a))
    {v : NewSysVector} (hv : p.table.cells.lookup a = some v) :
    Simulates ((decrementModuleRc v.moduleAddr (view p)).map (·.setSysVector pid none))
      (release pid a p) := by
  have hmoves := moves_free h hk
  have hrelease : release pid a p = (decrementModuleRc v.moduleAddr p.base).map fun base =>
      ⟨base, { p.table with cells := p.table.cells.erase a }.repoint pid none⟩ := by
    simp only [release, hv, Option.bind_some, Table.free, Option.map_some]
    cases decrementModuleRc v.moduleAddr p.base <;> rfl
  rw [view, decrement_withTasks, hrelease]
  constructor
  · rw [Option.map_map, Option.map_map]
    congr 1
    funext base
    exact (tasksOf_moves hmoves base).symm
  · intro p' hp
    obtain ⟨base, -, rfl⟩ := Option.map_eq_some_iff.mp hp
    exact hmoves.owned h (by simp [hk])

theorem assign_new_simulates (h : Owned p.table) (hk : p.table.pointer msg.pid = some none)
    (hfresh : p.table.cells.lookup fresh = none) (addr : Addr) :
    Simulates ((incrementModuleRc addr (view p)).map
      (·.setSysVector msg.pid (some ⟨msg.vector, addr⟩))) (assign true fresh msg addr p) := by
  have hmoves := moves_alloc h hk hfresh (NewSysVector.mk msg.vector addr)
  have hassign : assign true fresh msg addr p = (incrementModuleRc addr p.base).map fun base =>
      ⟨base, (p.table.fill fresh ⟨msg.vector, addr⟩).repoint msg.pid (some fresh)⟩ := by
    simp only [assign, hk, if_true]
  rw [view, increment_withTasks, hassign]
  constructor
  · rw [Option.map_map, Option.map_map]
    congr 1
    funext base
    have hmoved := tasksOf_moves hmoves base
    rw [Option.bind_some, AList.lookup_insert] at hmoved
    exact hmoved.symm
  · intro p' hp
    obtain ⟨base, -, rfl⟩ := Option.map_eq_some_iff.mp hp
    exact hmoves.owned h (by simp [hk])

theorem assign_move_simulates (h : Owned p.table) (hk : p.table.pointer msg.pid = some (some a))
    {v : NewSysVector} (hv : p.table.cells.lookup a = some v) (kmallocOk : Bool)
    (fresh addr : Addr) :
    Simulates ((if v.moduleAddr ≠ addr then
        (decrementModuleRc v.moduleAddr (view p)).bind (incrementModuleRc addr)
      else some (view p)).map (·.setSysVector msg.pid (some ⟨msg.vector, addr⟩)))
      (assign kmallocOk fresh msg addr p) := by
  have hmoves := moves_store h hk (NewSysVector.mk msg.vector addr)
  have hsame : (p.table.fill a ⟨msg.vector, addr⟩).repoint msg.pid (some a) =
      p.table.fill a ⟨msg.vector, addr⟩ := repoint_self h.keys hk
  have hassign : assign kmallocOk fresh msg addr p = (if v.moduleAddr ≠ addr then
        (decrementModuleRc v.moduleAddr p.base).bind (incrementModuleRc addr)
      else some p.base).map fun base =>
        ⟨base, (p.table.fill a ⟨msg.vector, addr⟩).repoint msg.pid (some a)⟩ := by
    simp only [assign, hk, hv, Option.bind_some, Table.store, Option.map_some, hsame]
    generalize (if v.moduleAddr ≠ addr then _ else some p.base) = o
    cases o <;> rfl
  have hbase : (if v.moduleAddr ≠ addr then
        (decrementModuleRc v.moduleAddr (view p)).bind (incrementModuleRc addr)
      else some (view p)) = (if v.moduleAddr ≠ addr then
        (decrementModuleRc v.moduleAddr p.base).bind (incrementModuleRc addr)
      else some p.base).map (withTasks · (tasksOf p.table)) := by
    by_cases hne : v.moduleAddr ≠ addr
    · rw [if_pos hne, if_pos hne, view, decrement_withTasks, Option.bind_map]
      cases decrementModuleRc v.moduleAddr p.base with
      | none => rfl
      | some k => exact increment_withTasks k (tasksOf p.table) addr
    · rw [if_neg hne, if_neg hne]
      rfl
  rw [hbase, hassign]
  constructor
  · rw [Option.map_map, Option.map_map]
    congr 1
    funext base
    have hmoved := tasksOf_moves hmoves base
    rw [Option.bind_some, AList.lookup_insert] at hmoved
    exact hmoved.symm
  · intro p' hp
    obtain ⟨base, -, rfl⟩ := Option.map_eq_some_iff.mp hp
    exact hmoves.owned h (by simp [hk])

theorem helper_simulates (h : Owned p.table) (hfresh : p.table.cells.lookup fresh = none)
    (kmallocOk : Bool) (msg : IoctlArg) :
    Simulates (TaskRegistration.getIoctlHelper kmallocOk msg (view p))
      (getIoctlHelper kmallocOk fresh msg p) := by
  rw [TaskRegistration.getIoctlHelper, getIoctlHelper]
  by_cases hz : msg.vector = 0
  · rw [if_pos hz, if_pos hz]
    rcases hk : p.table.pointer msg.pid with _ | _ | a
    · simp only [view_find, hk]
      exact simulates_some h
    · simp only [view_find, hk]
      exact simulates_some h
    · obtain ⟨v, hv⟩ := Option.isSome_iff_exists.mp (h.live _ (mem_of_pointer hk) a rfl)
      simp only [view_find_cell hk, hv]
      exact release_simulates h hk hv
  · rw [if_neg hz, if_neg hz]
    have hget : getModule msg.moduleType (view p) = getModule msg.moduleType p.base := rfl
    rw [hget]
    rcases getModule msg.moduleType p.base with _ | _ | addr
    · exact simulates_none
    · exact simulates_some h
    · dsimp only
      rcases hk : p.table.pointer msg.pid with _ | _ | a
      · simp only [view_find, hk, assign]
        exact simulates_some h
      · have hassign := assign_new_simulates h hk hfresh addr
        simp only [view_find, hk, Option.map_some, Option.bind_none]
        cases kmallocOk with
        | true => exact hassign
        | false =>
          simp only [assign, hk, Bool.false_eq_true, if_false]
          exact simulates_none
      · obtain ⟨v, hv⟩ := Option.isSome_iff_exists.mp (h.live _ (mem_of_pointer hk) a rfl)
        have hassign := assign_move_simulates h hk hv kmallocOk fresh addr
        simp only [view_find_cell hk, hv]
        by_cases hne : v.moduleAddr ≠ addr
        · rw [if_pos hne] at hassign ⊢
          exact hassign
        · rw [if_neg hne] at hassign ⊢
          exact hassign

theorem newExitGroup_simulates (h : Owned p.table) (pid : Pid) :
    Simulates (TaskRegistration.newExitGroup pid (view p)) (newExitGroup pid p) := by
  rw [TaskRegistration.newExitGroup, newExitGroup]
  rcases hk : p.table.pointer pid with _ | _ | a
  · simp only [view_find, hk]
    exact simulates_some h
  · simp only [view_find, hk]
    exact simulates_some h
  · obtain ⟨v, hv⟩ := Option.isSome_iff_exists.mp (h.live _ (mem_of_pointer hk) a rfl)
    simp only [view_find_cell hk, Option.bind_some, hv]
    exact release_simulates h hk hv

theorem newExitGroup_pointer {p' : PointerKernel} (hk : (p.table.pointer pid).isSome)
    (hp : newExitGroup pid p = some p') :
    p'.table.pointer pid = some none := by
  obtain ⟨q, hq⟩ := Option.isSome_iff_exists.mp hk
  simp only [newExitGroup, hq] at hp
  cases q with
  | none =>
    obtain rfl := Option.some.inj hp
    exact hq
  | some a =>
    obtain ⟨v, -, hp⟩ := Option.bind_eq_some_iff.mp hp
    obtain ⟨base, -, hp⟩ := Option.bind_eq_some_iff.mp hp
    obtain ⟨table, hfree, rfl⟩ := Option.map_eq_some_iff.mp hp
    obtain ⟨-, -, rfl⟩ := Option.map_eq_some_iff.mp hfree
    have hkey : ∀ o : Pid × Option ℕ, Prod.fst (o.1, (none : Option ℕ)) = o.1 := fun _ => rfl
    have hlookup := KeyedList.lookup_modify_self (k := pid) hkey p.table.owners
    rw [Table.pointer, Option.map_eq_some_iff] at hq
    obtain ⟨o, ho, -⟩ := hq
    rw [ho] at hlookup
    exact congrArg (Option.map Prod.snd) hlookup

theorem exitTask_simulates (h : Owned p.table) (hk : (p.table.pointer pid).isSome) :
    Simulates (ReferenceCounts.exitTask pid (view p)) (exitTask pid p) := by
  obtain ⟨hview, howned⟩ := newExitGroup_simulates h pid
  rw [ReferenceCounts.exitTask, exitTask, hview]
  constructor
  · rw [Option.map_map, Option.map_map]
    congr 1
    funext p'
    simp only [Function.comp_apply, view, withTasks, endTask, tasksOf, contents_remove,
      KeyedList.remove, List.filter_map]
    rfl
  · intro p' hp
    obtain ⟨p₁, hp₁, rfl⟩ := Option.map_eq_some_iff.mp hp
    exact owned_remove (howned p₁ hp₁) (newExitGroup_pointer hk hp₁)

theorem forkTask_simulates (h : Owned p.table) {parent child : Pid}
    (hc : p.table.pointer child = none) (hfresh : p.table.cells.lookup fresh = none) :
    Simulates (TaskRegistration.forkTask parent child (view p))
      (forkTask parent child fresh p) := by
  have hadded := owned_add h hc
  rw [TaskRegistration.forkTask, forkTask]
  rcases hk : p.table.pointer parent with _ | _ | a
  · simp only [view_find, hk]
    exact simulates_none
  · simp only [view_find, hk]
    refine ⟨?_, fun p' hp => ?_⟩
    · simp [view, withTasks, tasksOf, Table.contents, Table.add]
    · obtain rfl := Option.some.inj hp
      exact hadded
  · obtain ⟨v, hv⟩ := Option.isSome_iff_exists.mp (h.live _ (mem_of_pointer hk) a rfl)
    have hchild : (p.table.add child none).pointer child = some none := by
      have hmem : (child, (none : Option ℕ)) ∈ (p.table.add child none).owners := by
        simp [Table.add]
      exact hadded.pointer_of_mem hmem
    have hmoves := moves_alloc hadded hchild hfresh v
    simp only [view_find_cell hk, hv, Option.bind_some]
    change Simulates ((p.base.mods.lookup v.moduleAddr).map _) _
    cases hr : p.base.mods.lookup v.moduleAddr with
    | none => exact simulates_none
    | some r =>
      refine ⟨?_, fun p' hp => ?_⟩
      · have hborn : tasksOf ((p.table.add child none).fill fresh v |>.repoint child (some fresh)) =
            tasksOf p.table ++ [⟨child, some v⟩] := by
          have hcontents := hmoves.contents_add hc
          rw [Option.bind_some, AList.lookup_insert] at hcontents
          exact (congrArg (List.map _) hcontents).trans (List.map_append)
        exact congrArg some (congrArg (withTasks (p.base.moduleGet r.module)) hborn).symm
      · obtain rfl := Option.some.inj hp
        exact hmoves.owned hadded (by simp [hchild])

theorem base_simulates (h : Owned p.table) {f : Kernel → Option Kernel}
    (hf : ∀ k ts, f (withTasks k ts) = (f k).map (withTasks · ts)) :
    Simulates (f (view p)) ((f p.base).map fun base => { p with base := base }) := by
  constructor
  · rw [view, hf, Option.map_map]
    rfl
  · intro p' hp
    obtain ⟨base, -, rfl⟩ := Option.map_eq_some_iff.mp hp
    exact h

theorem perform_simulates (h : Owned p.table) {e : Event × Addr} (he : Enabled p e) :
    Simulates (ReferenceCounts.perform (view p) e.1) (perform p e) := by
  obtain ⟨e, fresh⟩ := e
  obtain ⟨henabled, hfresh⟩ := he
  have hpointer : ∀ pid, (p.table.pointer pid).isSome = (findTask pid (view p).tasks).isSome := by
    intro pid
    rw [view_find, Option.isSome_map]
  cases e with
  | moduleRegister m reg node =>
    exact base_simulates h fun k ts => loadModule_withTasks k ts m reg node
  | moduleDeregister m => exact base_simulates h fun k ts => unloadModule_withTasks k ts m
  | ioctlSet msg => exact helper_simulates h hfresh true msg
  | clone2 forkRet args => exact helper_simulates h hfresh true (cloneMessage forkRet args)
  | fork parent child =>
    have hc : p.table.pointer child = none := by
      have hdead := hpointer child
      rw [henabled.2] at hdead
      simpa using hdead
    exact forkTask_simulates h hc hfresh
  | exitGroup pid => exact exitTask_simulates h ((hpointer pid).trans henabled)

end steps

def Sound (p : PointerKernel) : Prop := Owned p.table ∧ Invariant (view p)

theorem initial_sound {p : PointerKernel} (h : Initial p) : Sound p := by
  obtain ⟨hinit, hcells, hnull⟩ := h
  have hinvariant := ReferenceCounts.initial_invariant hinit
  refine ⟨⟨?_, ?_, ?_, ?_⟩, hinvariant⟩
  · have hpids : p.table.owners.map Prod.fst = (view p).tasks.map TaskStruct.pid := by
      simp [view, withTasks, tasksOf, Table.contents, Function.comp_def]
    have hdistinct : ((view p).tasks.map TaskStruct.pid).Nodup := hinvariant.consistent.pids
    rwa [← hpids] at hdistinct
  · intro o ho a ha
    rw [hnull o ho] at ha
    cases ha
  · intro o ho o' ho' a ha
    rw [hnull o ho] at ha
    cases ha
  · intro a ha
    simp [hcells] at ha

theorem step_simulated {p p' : PointerKernel} {e : Event × Addr} (h : Sound p)
    (hs : Step p e p') : Sound p' ∧ ReferenceCounts.Step (view p) e.1 (view p') := by
  obtain ⟨howned, hinvariant⟩ := h
  obtain ⟨he, hp⟩ := hs
  obtain ⟨hview, hkeep⟩ := perform_simulates howned he
  have hstep : ReferenceCounts.Step (view p) e.1 (view p') :=
    ⟨he.1, by rw [hview, hp, Option.map_some]⟩
  exact ⟨⟨hkeep p' hp, ReferenceCounts.step_invariant _ _ _ hinvariant hstep⟩, hstep⟩

theorem step_sound (p : PointerKernel) (e : Event × Addr) (p' : PointerKernel) (h : Sound p)
    (hs : Step p e p') : Sound p' := (step_simulated h hs).1

theorem run_view {p p' : PointerKernel} {es : List (Event × Addr)} (h : Sound p)
    (hr : Run Step p es p') : Run ReferenceCounts.Step (view p) (es.map Prod.fst) (view p') := by
  induction hr with
  | nil => exact .nil _
  | snoc hr hs ih =>
    have hsound := hr.invariant step_sound h
    rw [List.map_append]
    exact ih.snoc (step_simulated hsound hs).2

/-- A run with records on the heap is a run of the model that keeps them inside the tasks. In
the state it reaches each record in memory is the record of one live task and of no other,
there are no more records than registered tasks, and no step that can be taken follows a
stale pointer or frees a record twice. -/
theorem records_owned {p₀ p : PointerKernel} {es : List (Event × Addr)} (h : Initial p₀)
    (hr : Run Step p₀ es p) :
    Run ReferenceCounts.Step (view p₀) (es.map Prod.fst) (view p) ∧
    (∀ o ∈ p.table.owners, ∀ a, o.2 = some a → (p.table.cells.lookup a).isSome) ∧
    (∀ a, (p.table.cells.lookup a).isSome → ∃! o, o ∈ p.table.owners ∧ o.2 = some a) ∧
    p.table.cells.keys.length = (view p).tasks.countP (fun t => t.sysVector.isSome) ∧
    ∀ e, Enabled p e → ∃ p', Step p e p' := by
  obtain ⟨howned, hinvariant⟩ := hr.invariant step_sound (initial_sound h)
  refine ⟨run_view (initial_sound h) hr, howned.live, ?_, ?_, ?_⟩
  · intro a ha
    obtain ⟨o, ho, hoa⟩ := howned.covered a ha
    exact ⟨o, ⟨ho, hoa⟩, fun o' ho' => howned.single o' ho'.1 o ho a ho'.2 hoa⟩
  · rw [howned.count]
    simp only [view, withTasks, tasksOf, Table.contents, List.map_map, List.countP_map]
    apply List.countP_congr
    intro o ho
    cases hp : o.2 with
    | none => simp [hp]
    | some a => simp [hp, howned.live o ho a hp]
  · intro e he
    obtain ⟨hview, -⟩ := perform_simulates howned he
    obtain ⟨k', hk, -⟩ := ReferenceCounts.enabled_step hinvariant he.1
    rw [hview] at hk
    obtain ⟨p', hp, -⟩ := Option.map_eq_some_iff.mp hk
    exact ⟨p', he, hp⟩

def oneTask : PointerKernel := ⟨boot [], ⟨[(7, none)], ∅⟩⟩

theorem oneTask_initial : Initial oneTask := by
  refine ⟨⟨[⟨7, none⟩], rfl, by decide, by decide⟩, rfl, ?_⟩
  intro o ho
  obtain rfl := List.mem_singleton.mp ho
  rfl

/-- A record is allocated, copied, and one of the two is freed. -/
def copyAndFree : List (Event × Addr) :=
  [(.moduleRegister 10 ⟨100, traceModule, 0⟩ 1, 500), (.ioctlSet ⟨9, 7, traceModule⟩, 500),
    (.fork 7 8, 501), (.exitGroup 7, 502)]

theorem records_owned_copyAndFree : ∃ p, Run Step oneTask copyAndFree p ∧
    p.table.cells.keys.length = (view p).tasks.countP (fun t => t.sysVector.isSome) := by
  have h : (replay next oneTask copyAndFree).isSome = true := by decide
  obtain ⟨p, hp⟩ := Option.isSome_iff_exists.mp h
  have hr := replay_sound next_sound hp
  exact ⟨p, hr, (records_owned oneTask_initial hr).2.2.2.1⟩

end RecordHeap
