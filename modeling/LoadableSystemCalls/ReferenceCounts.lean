import LoadableSystemCalls.TaskRegistration
import LoadableSystemCalls.TransitionRuns

/-! # Reference counts over whole runs

The steps of the driver and of the kernel around it, each atomic: module loading and
unloading, registration messages, fork, clone2 and exit. -/
namespace ReferenceCounts

open KernelTypes ModuleRegistry TaskRegistration TransitionRuns

/-- insmod: the module's data appears at `m`, then its init function registers it. -/
def loadModule (m : Addr) (reg : ModuleReg) (node : Addr) (k : Kernel) : Option Kernel :=
  (moduleRegister (some node) m { k with mods := k.mods.insert m reg }).map Prod.fst

/-- The exit function deregisters, then the module's data is gone. -/
def unloadModule (m : Addr) (k : Kernel) : Option Kernel :=
  (moduleDeregister m k).map fun p => { p.1 with mods := p.1.mods.erase m }

def exitTask (pid : BitVec 32) (k : Kernel) : Option Kernel :=
  (newExitGroup pid k).map (endTask pid)

inductive Event where
  | moduleRegister (m : Addr) (reg : ModuleReg) (node : Addr)
  | moduleDeregister (m : Addr)
  | ioctlSet (msg : IoctlArg)
  | clone2 (forkRet : BitVec 64) (args : CloneArgs)
  | fork (parent child : BitVec 32)
  | exitGroup (pid : BitVec 32)
  deriving DecidableEq, Repr

def perform (k : Kernel) : Event → Option Kernel
  | .moduleRegister m reg node => loadModule m reg node k
  | .moduleDeregister m => unloadModule m k
  | .ioctlSet msg => getIoctlHelper true msg k
  | .clone2 forkRet args => getIoctlHelper true (cloneMessage forkRet args) k
  | .fork parent child => forkTask parent child k
  | .exitGroup pid => exitTask pid k

/-- A module is loaded at unused addresses; it is its own kernel module. -/
def Loadable (k : Kernel) (m : Addr) (reg : ModuleReg) (node : Addr) : Prop :=
  k.mods.lookup m = none ∧ k.nodes.lookup node = none ∧
  ∀ e ∈ k.mods.entries, e.2.module ≠ reg.module

/-- rmmod's rule. -/
def Unused (k : Kernel) (m : Addr) : Prop :=
  (k.mods.lookup m).any (fun r => k.moduleRefcount r.module = 0) = true

def Enabled (k : Kernel) : Event → Prop
  | .moduleRegister m reg node =>
    Loadable k m reg node ∧ ∀ e ∈ k.mods.entries, e.2.type ≠ reg.type
  | .moduleDeregister m => Unused k m
  | .ioctlSet _ => True
  | .clone2 _ _ => True
  | .fork parent child => (findTask parent k.tasks).isSome ∧ findTask child k.tasks = none
  | .exitGroup pid => (findTask pid k.tasks).isSome

instance (k : Kernel) (m : Addr) (reg : ModuleReg) (node : Addr) :
    Decidable (Loadable k m reg node) :=
  inferInstanceAs (Decidable (_ ∧ _ ∧ _))

instance (k : Kernel) (m : Addr) : Decidable (Unused k m) :=
  inferInstanceAs (Decidable (_ = true))

instance (k : Kernel) (e : Event) : Decidable (Enabled k e) := by
  cases e <;> simp only [Enabled] <;> infer_instance

def Step (k : Kernel) (e : Event) (k' : Kernel) : Prop := Enabled k e ∧ perform k e = some k'

def next : Kernel → Event → Option Kernel := guardedNext Enabled perform

theorem next_sound (k : Kernel) (e : Event) (k' : Kernel) (h : next k e = some k') :
    Step k e k' := guardedNext_eq_some.mp h

/-- Before any module is loaded, with any live tasks. -/
def Initial (k : Kernel) : Prop :=
  ∃ tasks, k = boot tasks ∧ KeyedList.Distinct TaskStruct.pid tasks ∧
    ∀ t ∈ tasks, t.sysVector = none

theorem initial_consistent {k : Kernel} (h : Initial k) : Consistent k := by
  obtain ⟨tasks, rfl, hd, hn⟩ := h
  refine ⟨⟨[], listed_boot tasks, by simp, by simp [boot]⟩, hd, by simp [boot], ?_, ?_, rfl⟩
  · intro t ht v hv
    rw [hn t ht] at hv
    cases hv
  · intro mod
    symm
    simp only [boot, references, Nat.add_zero, List.countP_eq_zero]
    intro t ht
    simp [hn t ht]

variable {leaked : Addr → ℕ}

theorem reassigned_accounted {k k' : Kernel} (h : Accounted leaked k) {t : TaskStruct}
    (ht : t ∈ k.tasks) {new : Option NewSysVector}
    (hnew : ∀ v, new = some v → (k.mods.lookup v.moduleAddr).isSome)
    (hr : Reassigned k t new k') : Accounted leaked k' := by
  have hkey : ∀ x : TaskStruct, TaskStruct.pid { x with sysVector := new } = x.pid := fun _ => rfl
  refine ⟨?_, ?_, hr.mods ▸ h.modules, ?_, fun mod => ?_, hr.skippedPuts.trans h.puts⟩
  · obtain ⟨ms, hl, hd, hms⟩ := h.listed
    exact ⟨ms, hl.congr hr.nodes hr.headNode hr.mods, hd, hr.mods ▸ hms⟩
  · rw [hr.tasks]
    exact (KeyedList.distinct_modify hkey).mpr h.pids
  · intro x hx v hv
    rw [hr.tasks] at hx
    rw [hr.mods]
    rcases KeyedList.mem_modify hx with ⟨hx, -⟩ | ⟨y, -, -, rfl⟩
    · exact h.attached x hx v hv
    · exact hnew v hv
  · have hc := KeyedList.countP_modify (p := fun x => refersTo k.mods mod x.sysVector)
      (f := fun x => { x with sysVector := new }) h.pids (KeyedList.lookup_of_mem h.pids ht)
    have href := hr.refcnt mod
    have hcount := h.counted mod
    simp only [references, hr.mods, hr.tasks, Kernel.setSysVector] at hc hcount ⊢
    omega

theorem ioctl_accounted {k k' : Kernel} (h : Accounted leaked k) {msg : IoctlArg}
    (hk : getIoctlHelper true msg k = some k') : Accounted leaked k' := by
  obtain ⟨k₁, hk₁, heff⟩ := h.ioctl_effect msg
  obtain rfl : k₁ = k' := Option.some.inj (hk₁.symm.trans hk)
  split at heff
  · next t new ht hq =>
    refine reassigned_accounted h (KeyedList.mem_of_lookup ht).1 ?_ heff
    rintro v rfl
    unfold requested at hq
    split at hq
    · cases hq
    · rcases h.module_of_type msg.moduleType with ⟨hg, -⟩ | ⟨m, r, hg, hr, -⟩
      · rw [hg] at hq
        cases hq
      · rw [hg] at hq
        simp only [Option.join_some, Option.map_some, Option.some.injEq] at hq
        subst hq
        simp [hr]
  · subst heff
    exact h

theorem ioctl_registry {k k' : Kernel} (h : Accounted leaked k) {msg : IoctlArg}
    (hk : getIoctlHelper true msg k = some k') :
    k'.nodes = k.nodes ∧ k'.headNode = k.headNode ∧ k'.mods = k.mods := by
  obtain ⟨k₁, hk₁, heff⟩ := h.ioctl_effect msg
  obtain rfl : k₁ = k' := Option.some.inj (hk₁.symm.trans hk)
  split at heff
  · exact ⟨heff.nodes, heff.headNode, heff.mods⟩
  · rw [heff]
    exact ⟨rfl, rfl, rfl⟩

theorem ioctl_kept {k k' : Kernel} (h : Accounted leaked k) {msg : IoctlArg}
    (hk : getIoctlHelper true msg k = some k') : k'.mods = k.mods := (ioctl_registry h hk).2.2

theorem newExitGroup_effect {k : Kernel} (h : Accounted leaked k) {pid : BitVec 32} {t : TaskStruct}
    (ht : findTask pid k.tasks = some t) :
    ∃ k', newExitGroup pid k = some k' ∧ Reassigned k t none k' := by
  obtain ⟨hmem, hpid⟩ := KeyedList.mem_of_lookup ht
  cases hv : t.sysVector with
  | none =>
    refine ⟨k, by simp [newExitGroup, ht, hv], rfl, rfl, rfl, rfl, ?_, fun mod => by rw [hv]⟩
    exact hv ▸ setSysVector_self h.pids hmem
  | some v =>
    obtain ⟨r, hr, hp, hd⟩ := h.put hmem hv
    refine ⟨_, ?_, reassigned_put hv hr hp⟩
    simp [newExitGroup, ht, hv, hd, hpid]

/-- A task that goes with its record leaves a reference that nothing accounts for. -/
theorem endTask_accounted {k : Kernel} (h : Accounted leaked k) {pid : BitVec 32}
    {t : TaskStruct} (ht : findTask pid k.tasks = some t) :
    Accounted (fun mod => leaked mod + if refersTo k.mods mod t.sysVector then 1 else 0)
      (endTask pid k) := by
  obtain ⟨ms, hl, hd, hms⟩ := h.listed
  refine ⟨⟨ms, hl.congr rfl rfl rfl, hd, hms⟩, KeyedList.distinct_remove h.pids, h.modules,
    ?_, fun mod => ?_, h.puts⟩
  · intro x hx v hxv
    exact h.attached x (KeyedList.mem_remove.mp hx).1 v hxv
  · have hc := KeyedList.countP_remove (p := fun x => refersTo k.mods mod x.sysVector) h.pids ht
    have hcount := h.counted mod
    simp only [references, endTask] at hc hcount ⊢
    omega

theorem exitTask_accounted {k : Kernel} (h : Accounted leaked k) {pid : BitVec 32}
    {t : TaskStruct} (ht : findTask pid k.tasks = some t) :
    ∃ k₁ k', newExitGroup pid k = some k₁ ∧ exitTask pid k = some k' ∧
      Reassigned k t none k₁ ∧ k' = endTask pid k₁ ∧ Accounted leaked k' ∧
      ∀ q, findTask q k'.tasks = if q = pid then none else findTask q k.tasks := by
  obtain ⟨hmem, -⟩ := KeyedList.mem_of_lookup ht
  obtain ⟨k₁, hk₁, hr⟩ := newExitGroup_effect h ht
  have h₁ := reassigned_accounted h hmem (by simp) hr
  refine ⟨k₁, endTask pid k₁, hk₁, by simp [exitTask, hk₁], hr, rfl, ?_, fun q => ?_⟩
  · exact endTask_accounted h₁ ((hr.find ht pid).trans (if_pos rfl))
  · by_cases hq : q = pid
    · subst hq
      rw [if_pos rfl]
      exact KeyedList.lookup_remove_self _ _
    · have hrest := hr.find ht q
      rw [if_neg hq] at hrest ⊢
      exact (KeyedList.lookup_remove_ne hq _).trans hrest

theorem exitTask_find {k k' : Kernel} (h : Consistent k) {pid : BitVec 32} {t : TaskStruct}
    (ht : findTask pid k.tasks = some t) (hk : exitTask pid k = some k') (q : BitVec 32) :
    findTask q k'.tasks = if q = pid then none else findTask q k.tasks := by
  obtain ⟨-, k₂, -, hk₂, -, -, -, hfind⟩ := exitTask_accounted h ht
  obtain rfl := Option.some.inj (hk₂.symm.trans hk)
  exact hfind q

theorem forkTask_accounted {k : Kernel} (h : Accounted leaked k) {parent child : BitVec 32}
    {t : TaskStruct} (ht : findTask parent k.tasks = some t)
    (hc : findTask child k.tasks = none) :
    ∃ k', forkTask parent child k = some k' ∧ k'.nodes = k.nodes ∧ k'.mods = k.mods ∧
      k'.headNode = k.headNode ∧ k'.tasks = k.tasks ++ [{ t with pid := child }] ∧
      Accounted leaked k' := by
  obtain ⟨hmem, -⟩ := KeyedList.mem_of_lookup ht
  obtain ⟨ms, hl, hd, hms⟩ := h.listed
  have hpids : KeyedList.Distinct TaskStruct.pid (k.tasks ++ [{ t with pid := child }]) := by
    rw [KeyedList.lookup_eq_none] at hc
    simp only [KeyedList.Distinct, List.map_append, List.map_cons, List.map_nil,
      List.nodup_append]
    refine ⟨h.pids, by simp, ?_⟩
    intro p hp q hq
    obtain ⟨x, hx, rfl⟩ := List.mem_map.mp hp
    rw [List.mem_singleton.mp hq]
    exact hc x hx
  have hattached : ∀ x ∈ k.tasks ++ [{ t with pid := child }], ∀ v, x.sysVector = some v →
      (k.mods.lookup v.moduleAddr).isSome := by
    intro x hx v hv
    rcases List.mem_append.mp hx with hx | hx
    · exact h.attached x hx v hv
    · obtain rfl := List.mem_singleton.mp hx
      exact h.attached t hmem v hv
  rcases Option.eq_none_or_eq_some t.sysVector with hv | ⟨v, hv⟩
  · refine ⟨{ k with tasks := k.tasks ++ [{ t with pid := child }] }, ?_, rfl, rfl, rfl, rfl,
      ⟨ms, hl.congr rfl rfl rfl, hd, hms⟩, hpids, h.modules, hattached, fun mod => ?_, h.puts⟩
    · simp [forkTask, ht, hv]
    · simpa [references, List.countP_append, hv] using h.counted mod
  · obtain ⟨r, hr⟩ := Option.isSome_iff_exists.mp (h.attached t hmem v hv)
    refine ⟨{ k with tasks := k.tasks ++ [{ t with pid := child }] }.moduleGet r.module, ?_, rfl,
      rfl, rfl, rfl, ⟨ms, hl.congr rfl rfl rfl, hd, hms⟩, hpids, h.modules, hattached,
      fun mod => ?_, h.puts⟩
    · simp [forkTask, ht, hv, hr]
    · have hcount := h.counted mod
      simp only [references, moduleGet_mods, moduleGet_tasks, List.countP_append,
        List.countP_cons, List.countP_nil, hv, refersTo_some hr, Nat.zero_add] at hcount ⊢
      by_cases hm : mod = r.module
      · subst hm
        simp [Kernel.moduleGet, hcount]
        omega
      · simp [Kernel.moduleGet, hm, Ne.symm hm, hcount]

theorem find_born {k k' : Kernel} {t : TaskStruct} {child : BitVec 32}
    (hc : findTask child k.tasks = none) (htasks : k'.tasks = k.tasks ++ [{ t with pid := child }])
    (q : BitVec 32) :
    findTask q k'.tasks = if q = child then some { t with pid := child }
      else findTask q k.tasks := by
  rw [htasks]
  apply KeyedList.lookup_append.trans
  by_cases hq : q = child
  · subst hq
    rw [if_pos rfl, if_pos rfl]
    exact congrArg (Option.or · _) hc
  · rw [if_neg hq, if_neg (Ne.symm hq), Option.or_none]

theorem forkTask_find {k k' : Kernel} (h : Consistent k) {parent child : BitVec 32}
    {t : TaskStruct} (ht : findTask parent k.tasks = some t)
    (hc : findTask child k.tasks = none) (hk : forkTask parent child k = some k')
    (q : BitVec 32) :
    findTask q k'.tasks = if q = child then some { t with pid := child }
      else findTask q k.tasks := by
  obtain ⟨k₁, hk₁, -, -, -, htasks, -⟩ := forkTask_accounted h ht hc
  obtain rfl := Option.some.inj (hk₁.symm.trans hk)
  exact find_born hc htasks q

theorem references_load {k : Kernel} (h : Accounted leaked k) {m : Addr}
    (hm : k.mods.lookup m = none)
    (reg : ModuleReg) (mod : Addr) :
    k.tasks.countP (fun t => refersTo (k.mods.insert m reg) mod t.sysVector) =
      references k mod := by
  apply List.countP_congr
  intro t ht
  cases hv : t.sysVector with
  | none => simp
  | some v =>
    have hne : v.moduleAddr ≠ m := by
      rintro rfl
      simpa [hm] using h.attached t ht v hv
    simp [refersTo, AList.lookup_insert_ne hne]

theorem loadModule_accounted {k : Kernel} (h : Accounted leaked k) {m node : Addr}
    {reg : ModuleReg} (hl : Loadable k m reg node) :
    ∃ k', loadModule m reg node k = some k' ∧ k'.mods = k.mods.insert m reg ∧
      k'.tasks = k.tasks ∧ k'.refcnt = k.refcnt ∧ Accounted leaked k' := by
  obtain ⟨hm, hn, hfresh⟩ := hl
  obtain ⟨ms, hlist, hd, hms⟩ := h.listed
  obtain ⟨nodes, head, ha, hlist'⟩ := (hlist.load hm reg).addModule (a := node) hn (m := m)
    ⟨reg, AList.lookup_insert _⟩
  have hmod : ∀ x r, k.mods.lookup x = some r → r.module ≠ reg.module := fun x r hr =>
    hfresh ⟨x, r⟩ (AList.mem_lookup_iff.mp hr)
  refine ⟨{ k with nodes := nodes, headNode := head, mods := k.mods.insert m reg }, ?_, rfl,
    rfl, rfl, ⟨ms ++ [m], hlist', ?_, fun x => ?_⟩, h.pids, ?_, ?_, fun mod => ?_, h.puts⟩
  · rw [loadModule, moduleRegister, ha]
    rfl
  · rw [List.nodup_append]
    refine ⟨hd, by simp, fun x hx y hy => ?_⟩
    obtain rfl := List.mem_singleton.mp hy
    rintro rfl
    simpa [hm] using (hms x).mp hx
  · by_cases hx : x = m
    · subst hx
      simp
    · simp [AList.lookup_insert_ne hx, hms x, hx]
  · intro x r y r' hr hr' he
    by_cases hx : x = m <;> by_cases hy : y = m
    · rw [hx, hy]
    · subst hx
      rw [AList.lookup_insert, Option.some.injEq] at hr
      rw [AList.lookup_insert_ne hy] at hr'
      exact absurd (hr ▸ he.symm) (hmod y r' hr')
    · subst hy
      rw [AList.lookup_insert, Option.some.injEq] at hr'
      rw [AList.lookup_insert_ne hx] at hr
      exact absurd (hr' ▸ he) (hmod x r hr)
    · rw [AList.lookup_insert_ne hx] at hr
      rw [AList.lookup_insert_ne hy] at hr'
      exact h.modules x r y r' hr hr' he
  · intro t ht v hv
    have := h.attached t ht v hv
    have hne : v.moduleAddr ≠ m := by
      rintro rfl
      simp [hm] at this
    simpa [AList.lookup_insert_ne hne] using this
  · exact (h.counted mod).trans (congrArg (· + leaked mod) (references_load h hm reg mod).symm)

theorem no_record_of_refcnt_zero {k : Kernel} (h : Accounted leaked k) {m : Addr} {r : ModuleReg}
    (hr : k.mods.lookup m = some r) (hz : k.refcnt r.module = 0) {t : TaskStruct}
    (ht : t ∈ k.tasks) {v : NewSysVector} (hv : t.sysVector = some v) : v.moduleAddr ≠ m := by
  rintro rfl
  have := h.refcnt_pos ht hv hr
  omega

theorem unloadModule_accounted {k : Kernel} (h : Accounted leaked k) {m : Addr} {r : ModuleReg}
    (hr : k.mods.lookup m = some r) (hg : getModule r.type k = some (some m))
    (hz : k.refcnt r.module = 0) :
    ∃ k', unloadModule m k = some k' ∧ k'.mods = k.mods.erase m ∧ k'.tasks = k.tasks ∧
      k'.refcnt = k.refcnt ∧ Accounted leaked k' := by
  obtain ⟨ms, hlist, hd, hms⟩ := h.listed
  obtain ⟨nodes, head, ha, hlist'⟩ := hlist.removeModule r.type
  have hfind : ms.find? (k.typeIs r.type) = some m := by
    rw [hlist.getModule] at hg
    exact Option.some.inj hg
  obtain ⟨hp, as, bs, rfl, has⟩ := List.find?_eq_some_iff_append.mp hfind
  have her : (as ++ m :: bs).eraseP (k.typeIs r.type) = as ++ bs := by
    rw [List.eraseP_append_right _ (by simpa using has)]
    simp [hp]
  rw [her] at hlist'
  have hmid := List.nodup_cons.mp (List.nodup_middle.mp hd)
  have hne : ∀ t ∈ k.tasks, ∀ v, t.sysVector = some v → v.moduleAddr ≠ m := fun t ht v hv =>
    no_record_of_refcnt_zero h hr hz ht hv
  refine ⟨{ k with nodes := nodes, headNode := head, mods := k.mods.erase m }, ?_, rfl, rfl,
    rfl, ⟨as ++ bs, ⟨hlist'.chain, fun x hx => ?_⟩, hmid.2, fun x => ?_⟩, h.pids, ?_, ?_,
    fun mod => ?_, h.puts⟩
  · simp [unloadModule, moduleDeregister, hr, ha]
  · obtain ⟨r', hr'⟩ := hlist'.loaded x hx
    have hx' : x ≠ m := fun e => hmid.1 (e ▸ hx)
    exact ⟨r', (AList.lookup_erase_ne hx').trans hr'⟩
  · by_cases hx : x = m
    · subst hx
      simpa using hmid.1
    · rw [AList.lookup_erase_ne hx, ← hms x]
      simp [hx]
  · intro x rx y ry hx hy he
    have hxm : x ≠ m := by rintro rfl; simp at hx
    have hym : y ≠ m := by rintro rfl; simp at hy
    rw [AList.lookup_erase_ne hxm] at hx
    rw [AList.lookup_erase_ne hym] at hy
    exact h.modules x rx y ry hx hy he
  · intro t ht v hv
    rw [AList.lookup_erase_ne (hne t ht v hv)]
    exact h.attached t ht v hv
  · rw [h.counted mod]
    apply congrArg (· + leaked mod)
    apply List.countP_congr
    intro t ht
    cases hv : t.sysVector with
    | none => simp
    | some v => simp [refersTo, AList.lookup_erase_ne (hne t ht v hv)]

def DistinctTypes (k : Kernel) : Prop :=
  ∀ m r m' r', k.mods.lookup m = some r → k.mods.lookup m' = some r' → r.type = r'.type → m = m'

structure Invariant (k : Kernel) : Prop where
  consistent : Consistent k
  types : DistinctTypes k

theorem initial_invariant {k : Kernel} (h : Initial k) : Invariant k := by
  refine ⟨initial_consistent h, ?_⟩
  obtain ⟨tasks, rfl, -, -⟩ := h
  intro m r m' r' hr
  simp [boot] at hr

theorem Invariant.getModule {k : Kernel} (h : Invariant k) {m : Addr} {r : ModuleReg}
    (hr : k.mods.lookup m = some r) : getModule r.type k = some (some m) := by
  rcases h.consistent.module_of_type r.type with ⟨-, hno⟩ | ⟨m', r', hg, hr', he⟩
  · exact absurd rfl (hno m r hr)
  · rw [hg, h.types m' r' m r hr' hr he]

theorem distinctTypes_load {k k' : Kernel} (h : DistinctTypes k) {m : Addr} {reg : ModuleReg}
    (hf : ∀ e ∈ k.mods.entries, e.2.type ≠ reg.type) (hm : k'.mods = k.mods.insert m reg) :
    DistinctTypes k' := by
  have hne : ∀ x r, k.mods.lookup x = some r → r.type ≠ reg.type := fun x r hr =>
    hf ⟨x, r⟩ (AList.mem_lookup_iff.mp hr)
  intro x r y r' hr hr' he
  rw [hm] at hr hr'
  by_cases hx : x = m <;> by_cases hy : y = m
  · rw [hx, hy]
  · subst hx
    rw [AList.lookup_insert, Option.some.injEq] at hr
    rw [AList.lookup_insert_ne hy] at hr'
    exact absurd (hr ▸ he.symm) (hne y r' hr')
  · subst hy
    rw [AList.lookup_insert, Option.some.injEq] at hr'
    rw [AList.lookup_insert_ne hx] at hr
    exact absurd (hr' ▸ he) (hne x r hr)
  · rw [AList.lookup_insert_ne hx] at hr
    rw [AList.lookup_insert_ne hy] at hr'
    exact h x r y r' hr hr' he

theorem distinctTypes_unload {k k' : Kernel} (h : DistinctTypes k) {m : Addr}
    (hm : k'.mods = k.mods.erase m) : DistinctTypes k' := by
  intro x r y r' hr hr' he
  rw [hm] at hr hr'
  have hx : x ≠ m := by rintro rfl; simp at hr
  have hy : y ≠ m := by rintro rfl; simp at hr'
  rw [AList.lookup_erase_ne hx] at hr
  rw [AList.lookup_erase_ne hy] at hr'
  exact h x r y r' hr hr' he

theorem unused_iff {k : Kernel} {m : Addr} :
    Unused k m ↔ ∃ r, k.mods.lookup m = some r ∧ k.refcnt r.module = 0 := by
  unfold Unused
  cases hl : k.mods.lookup m with
  | none => simp
  | some r =>
    simp only [Option.any_some, Option.some.injEq, exists_eq_left']
    exact decide_eq_true_iff

/-- One step: it does not fault, and the invariant survives. -/
theorem enabled_step {k : Kernel} (h : Invariant k) {e : Event} (he : Enabled k e) :
    ∃ k', perform k e = some k' ∧ Invariant k' := by
  cases e with
  | moduleRegister m reg node =>
    obtain ⟨k', hk, hm, -, -, hc⟩ := loadModule_accounted h.consistent he.1
    exact ⟨k', hk, hc, distinctTypes_load h.types he.2 hm⟩
  | moduleDeregister m =>
    obtain ⟨r, hr, hz⟩ := unused_iff.mp he
    obtain ⟨k', hk, hm, -, -, hc⟩ := unloadModule_accounted h.consistent hr (h.getModule hr) hz
    exact ⟨k', hk, hc, distinctTypes_unload h.types hm⟩
  | ioctlSet msg =>
    obtain ⟨k', hk, -⟩ := h.consistent.ioctl_effect msg
    exact ⟨k', hk, ioctl_accounted h.consistent hk, by
      unfold DistinctTypes; rw [ioctl_kept h.consistent hk]; exact h.types⟩
  | clone2 forkRet args =>
    obtain ⟨k', hk, -⟩ := h.consistent.ioctl_effect (cloneMessage forkRet args)
    exact ⟨k', hk, ioctl_accounted h.consistent hk, by
      unfold DistinctTypes; rw [ioctl_kept h.consistent hk]; exact h.types⟩
  | fork parent child =>
    obtain ⟨t, ht⟩ := Option.isSome_iff_exists.mp he.1
    obtain ⟨k', hk, -, hm, -, -, hc⟩ := forkTask_accounted h.consistent ht he.2
    exact ⟨k', hk, hc, by unfold DistinctTypes; rw [hm]; exact h.types⟩
  | exitGroup pid =>
    obtain ⟨t, ht⟩ := Option.isSome_iff_exists.mp he
    obtain ⟨k₁, k', -, hk, hr, rfl, hc, -⟩ := exitTask_accounted h.consistent ht
    exact ⟨_, hk, hc, by unfold DistinctTypes; rw [endTask, hr.mods]; exact h.types⟩

theorem step_invariant (k : Kernel) (e : Event) (k' : Kernel) (h : Invariant k)
    (hs : Step k e k') : Invariant k' := by
  obtain ⟨k₁, hk₁, hi⟩ := enabled_step h hs.1
  obtain rfl : k₁ = k' := Option.some.inj (hk₁.symm.trans hs.2)
  exact hi

theorem reachable_invariant {k : Kernel} (h : Reachable Initial Step k) : Invariant k :=
  h.invariant (fun _ => initial_invariant) step_invariant

/-- The live tasks whose record points at the module. -/
def registrations (k : Kernel) (m : Addr) : ℕ :=
  k.tasks.countP fun t => t.sysVector.any fun v => v.moduleAddr = m

theorem references_eq_registrations {k : Kernel} (h : Consistent k) {m : Addr} {r : ModuleReg}
    (hr : k.mods.lookup m = some r) : references k r.module = registrations k m := by
  apply List.countP_congr
  intro t ht
  cases hv : t.sysVector with
  | none => simp
  | some v =>
    obtain ⟨r', hr'⟩ := Option.isSome_iff_exists.mp (h.attached t ht v hv)
    rw [refersTo_some hr']
    simp only [decide_eq_true_eq, Option.any_some]
    constructor
    · intro he
      exact h.modules _ _ _ _ hr' hr he
    · rintro rfl
      rw [Option.some.inj (hr'.symm.trans hr)]

/-- In every reachable state each registered module's reference count is the number of live
tasks registered on it, every registered task's module is on the list, no decrement was
ever skipped, and no step can fault. -/
theorem refcount_counts_registrations {k : Kernel} (h : Reachable Initial Step k) :
    (∃ ms, moduleList k = some ms ∧
      (∀ m ∈ ms, ∃ r, k.mods.lookup m = some r ∧
        k.moduleRefcount r.module = registrations k m) ∧
      ∀ t ∈ k.tasks, ∀ v, t.sysVector = some v → v.moduleAddr ∈ ms) ∧
    k.skippedPuts = 0 ∧ ∀ e, Enabled k e → ∃ k', Step k e k' := by
  have hi := reachable_invariant h
  obtain ⟨ms, hl, -, hms⟩ := hi.consistent.listed
  refine ⟨⟨ms, hl.moduleList, ?_, ?_⟩, hi.consistent.puts, ?_⟩
  · intro m hm
    obtain ⟨r, hr⟩ := hl.loaded m hm
    exact ⟨r, hr, (hi.consistent.counted _).trans (references_eq_registrations hi.consistent hr)⟩
  · intro t ht v hv
    exact (hms _).mpr (hi.consistent.attached t ht v hv)
  · intro e he
    obtain ⟨k', hk, -⟩ := enabled_step hi he
    exact ⟨k', he, hk⟩

def mixedRun : List Event :=
  [.moduleRegister 10 ⟨100, traceModule, 0⟩ 1, .moduleRegister 20 ⟨200, protectModule, 0⟩ 2,
    .ioctlSet ⟨1023, 7, traceModule⟩, .fork 7 8, .clone2 8 ⟨2, 5⟩, .exitGroup 7,
    .moduleDeregister 10]

theorem refcount_counts_registrations_mixedRun :
    ∃ k, replay next (boot [⟨7, none⟩]) mixedRun = some k ∧ k.skippedPuts = 0 := by
  have h : (replay next (boot [⟨7, none⟩]) mixedRun).isSome = true := by decide
  obtain ⟨k, hk⟩ := Option.isSome_iff_exists.mp h
  have hi : Initial (boot [⟨7, none⟩]) := ⟨_, rfl, List.nodup_singleton 7, by decide⟩
  have hr : Reachable Initial Step k := ⟨_, _, hi, replay_sound next_sound hk⟩
  exact ⟨k, hk, (refcount_counts_registrations hr).2.1⟩

end ReferenceCounts
