import LoadableSystemCalls.ReferenceCounts

/-! # Registration as a map from tasks to modules and vectors

What registration is for, stated without records, lists or counts: a partial map that
messages update and exits clear. The kernel state is proved to simulate it. -/
namespace RegistrationMap

open KernelTypes ModuleRegistry TaskRegistration ReferenceCounts TransitionRuns

abbrev Pid := BitVec 32

@[ext] structure Registry where
  live : Pid → Bool
  loaded : ModuleType → Option Addr
  map : Pid → Option (Addr × BitVec 32)

/-- A message to an unknown task, or for a type nobody implements, is lost. -/
def Registry.assign (s : Registry) (msg : IoctlArg) : Registry :=
  if s.live msg.pid then
    if msg.vector = 0 then { s with map := Function.update s.map msg.pid none }
    else
      match s.loaded msg.moduleType with
      | none => s
      | some m => { s with map := Function.update s.map msg.pid (some (m, msg.vector)) }
  else s

def Registry.step (s : Registry) : Event → Registry
  | .moduleRegister m reg _ => { s with loaded := Function.update s.loaded reg.type (some m) }
  | .moduleDeregister m =>
    { s with loaded := fun type => if s.loaded type = some m then none else s.loaded type }
  | .ioctlSet msg => s.assign msg
  | .clone2 forkRet args => s.assign (cloneMessage forkRet args)
  | .fork parent child =>
    { s with live := Function.update s.live child true
             map := Function.update s.map child (s.map parent) }
  | .exitGroup pid =>
    { s with live := Function.update s.live pid false
             map := Function.update s.map pid none }

def loadedOfType (k : Kernel) (type : ModuleType) : Option Addr :=
  (k.mods.entries.find? fun e => e.2.type = type).map Sigma.fst

def entryOf (v : NewSysVector) : Addr × BitVec 32 := (v.moduleAddr, v.sv)

def registration (k : Kernel) (pid : Pid) : Option (Addr × BitVec 32) :=
  ((findTask pid k.tasks).bind TaskStruct.sysVector).map entryOf

def abstraction (k : Kernel) : Registry where
  live pid := (findTask pid k.tasks).isSome
  loaded := loadedOfType k
  map := registration k

theorem loadedOfType_iff {k : Kernel} (h : DistinctTypes k) {type : ModuleType} {m : Addr} :
    loadedOfType k type = some m ↔ ∃ r, k.mods.lookup m = some r ∧ r.type = type := by
  unfold loadedOfType
  constructor
  · intro hm
    obtain ⟨⟨x, r⟩, he, rfl⟩ := Option.map_eq_some_iff.mp hm
    exact ⟨r, AList.mem_lookup_iff.mpr (List.mem_of_find?_eq_some he),
      by simpa using List.find?_some he⟩
  · rintro ⟨r, hr, ht⟩
    have hmem := AList.mem_lookup_iff.mp hr
    cases hf : k.mods.entries.find? fun e => e.2.type = type with
    | none => exact absurd ht (by simpa using List.find?_eq_none.mp hf _ hmem)
    | some e =>
      have het : e.2.type = type := by simpa using List.find?_some hf
      have hel := AList.mem_lookup_iff.mpr (List.mem_of_find?_eq_some hf)
      exact congrArg some (h _ _ _ _ hel hr (het.trans ht.symm))

theorem getModule_eq_loaded {k : Kernel} (h : Invariant k) (type : ModuleType) :
    getModule type k = some (loadedOfType k type) := by
  rcases h.consistent.module_of_type type with ⟨hg, hno⟩ | ⟨m, r, hg, hr, ht⟩
  · rw [hg]
    cases hl : loadedOfType k type with
    | none => rfl
    | some m =>
      obtain ⟨r, hr, ht⟩ := (loadedOfType_iff h.types).mp hl
      exact absurd ht (hno m r hr)
  · rw [hg, (loadedOfType_iff h.types).mpr ⟨r, hr, ht⟩]

theorem requested_eq {k : Kernel} (h : Invariant k) (msg : IoctlArg) :
    requested msg k = if msg.vector = 0 then some none
      else (loadedOfType k msg.moduleType).map fun m => some ⟨msg.vector, m⟩ := by
  rw [requested, getModule_eq_loaded h]
  rfl

theorem abstraction_reassigned {k k' : Kernel} {t : TaskStruct} {pid : Pid}
    (ht : findTask pid k.tasks = some t) {new : Option NewSysVector}
    (hr : Reassigned k t new k') :
    abstraction k' = { abstraction k with
      map := Function.update (registration k) pid (new.map entryOf) } := by
  have hfind := hr.find ht
  ext1
  · funext q
    by_cases hq : q = pid
    · subst hq
      simp [abstraction, hfind, ht]
    · simp [abstraction, hfind, hq]
  · funext type
    simp [abstraction, loadedOfType, hr.mods]
  · funext q
    by_cases hq : q = pid
    · subst hq
      simp [abstraction, registration, hfind]
    · simp [abstraction, registration, hfind, hq]

theorem abstraction_assign {k k' : Kernel} (h : Invariant k) {msg : IoctlArg}
    (hk : getIoctlHelper true msg k = some k') :
    abstraction k' = (abstraction k).assign msg := by
  obtain ⟨k₁, hk₁, heff⟩ := h.consistent.ioctl_effect msg
  obtain rfl : k₁ = k' := Option.some.inj (hk₁.symm.trans hk)
  rw [requested_eq h] at heff
  unfold Registry.assign
  cases ht : findTask msg.pid k.tasks with
  | none =>
    rw [ht] at heff
    have hdead : (abstraction k).live msg.pid = false := by simp [abstraction, ht]
    simp only [hdead, Bool.false_eq_true, if_false]
    rw [heff]
  | some t =>
    have hlive : (abstraction k).live msg.pid = true := by simp [abstraction, ht]
    rw [ht] at heff
    simp only [hlive, if_true]
    by_cases hz : msg.vector = 0
    · rw [if_pos hz] at heff
      rw [if_pos hz, abstraction_reassigned ht heff]
      rfl
    · rw [if_neg hz] at heff
      rw [if_neg hz]
      change _ = match loadedOfType k msg.moduleType with
        | none => abstraction k
        | some m => _
      cases hl : loadedOfType k msg.moduleType with
      | none =>
        rw [hl] at heff
        simp only [Option.map_none] at heff
        rw [heff]
      | some m =>
        rw [hl] at heff
        rw [abstraction_reassigned ht heff]
        rfl

theorem abstraction_exit {k k' : Kernel} (h : Consistent k) {pid : Pid}
    (hlive : (findTask pid k.tasks).isSome) (hk : exitTask pid k = some k') :
    abstraction k' = (abstraction k).step (.exitGroup pid) := by
  rcases Option.isSome_iff_exists.mp hlive with ⟨t, ht⟩
  have hfind := exitTask_find h ht hk
  rcases exitTask_accounted h ht with ⟨k₁, k₂, -, hk₂, hr, rfl, -⟩
  obtain rfl := Option.some.inj (hk₂.symm.trans hk)
  ext1
  · funext q
    by_cases hq : q = pid
    · subst hq
      simp [abstraction, Registry.step, hfind]
    · simp [abstraction, Registry.step, hfind, hq]
  · have hloaded : loadedOfType (endTask pid k₁) = loadedOfType k₁ := rfl
    exact hloaded.trans (congrArg Registry.loaded (abstraction_reassigned ht hr))
  · funext q
    by_cases hq : q = pid
    · subst hq
      simp [abstraction, registration, Registry.step, hfind]
    · simp [abstraction, registration, Registry.step, hfind, hq]

theorem abstraction_fork {k k' : Kernel} (h : Consistent k) {parent child : Pid}
    (hp : (findTask parent k.tasks).isSome) (hc : findTask child k.tasks = none)
    (hk : forkTask parent child k = some k') :
    abstraction k' = (abstraction k).step (.fork parent child) := by
  rcases Option.isSome_iff_exists.mp hp with ⟨t, ht⟩
  have hfind := forkTask_find h ht hc hk
  rcases forkTask_accounted h ht hc with ⟨k₁, hk₁, -, hm, -⟩
  obtain rfl := Option.some.inj (hk₁.symm.trans hk)
  ext1
  · funext q
    by_cases hq : q = child
    · subst hq
      simp [abstraction, Registry.step, hfind]
    · simp [abstraction, Registry.step, hfind, hq]
  · funext type
    simp [abstraction, Registry.step, loadedOfType, hm]
  · funext q
    by_cases hq : q = child
    · subst hq
      simp [abstraction, registration, Registry.step, hfind, ht]
    · simp [abstraction, registration, Registry.step, hfind, hq]

theorem abstraction_load {k k' : Kernel} (h : Invariant k) (h' : Invariant k') {m node : Addr}
    {reg : ModuleReg} (he : Enabled k (.moduleRegister m reg node))
    (hk : loadModule m reg node k = some k') :
    abstraction k' = (abstraction k).step (.moduleRegister m reg node) := by
  obtain ⟨k₁, hk₁, hm, htasks, -, -⟩ := loadModule_accounted h.consistent he.1
  obtain rfl := Option.some.inj (hk₁.symm.trans hk)
  ext1
  · simp [abstraction, Registry.step, htasks]
  · funext type
    apply Option.ext
    intro x
    change loadedOfType k₁ type = some x ↔
      Function.update (loadedOfType k) reg.type (some m) type = some x
    rw [loadedOfType_iff h'.types, hm]
    by_cases hx : x = m <;> by_cases ht : type = reg.type
    · subst hx ht
      simp
    · subst hx
      rw [Function.update_of_ne ht, loadedOfType_iff h.types, he.1.1]
      simp [Ne.symm ht]
    · subst ht
      rw [Function.update_self, AList.lookup_insert_ne hx]
      constructor
      · rintro ⟨r, hr, hrt⟩
        exact absurd hrt (he.2 ⟨x, r⟩ (AList.mem_lookup_iff.mp hr))
      · intro e
        exact absurd (Option.some.inj e).symm hx
    · rw [Function.update_of_ne ht, loadedOfType_iff h.types, AList.lookup_insert_ne hx]
  · funext q
    simp [abstraction, registration, Registry.step, htasks]

theorem abstraction_unload {k k' : Kernel} (h : Invariant k) (h' : Invariant k') {m : Addr}
    (he : Unused k m) (hk : unloadModule m k = some k') :
    abstraction k' = (abstraction k).step (.moduleDeregister m) := by
  obtain ⟨r, hr, hz⟩ := unused_iff.mp he
  obtain ⟨k₁, hk₁, hm, htasks, -, -⟩ := unloadModule_accounted h.consistent hr (h.getModule hr) hz
  obtain rfl := Option.some.inj (hk₁.symm.trans hk)
  ext1
  · simp [abstraction, Registry.step, htasks]
  · funext type
    apply Option.ext
    intro x
    change loadedOfType k₁ type = some x ↔
      (if loadedOfType k type = some m then none else loadedOfType k type) = some x
    rw [loadedOfType_iff h'.types, hm]
    by_cases hx : x = m
    · subst hx
      by_cases hl : loadedOfType k type = some x <;> simp [hl]
    · rw [AList.lookup_erase_ne hx, ← loadedOfType_iff h.types]
      by_cases hl : loadedOfType k type = some m
      · simp [hl, Ne.symm hx]
      · simp [hl]
  · funext q
    simp [abstraction, registration, Registry.step, htasks]

theorem step_simulates {k k' : Kernel} (h : Invariant k) {e : Event} (hs : Step k e k') :
    abstraction k' = (abstraction k).step e := by
  have h' := step_invariant k e k' h hs
  obtain ⟨he, hk⟩ := hs
  cases e with
  | moduleRegister m reg node => exact abstraction_load h h' he hk
  | moduleDeregister m => exact abstraction_unload h h' he hk
  | ioctlSet msg => exact abstraction_assign h hk
  | clone2 forkRet args => exact abstraction_assign h hk
  | fork parent child => exact abstraction_fork h.consistent he.1 he.2 hk
  | exitGroup pid => exact abstraction_exit h.consistent he hk

theorem run_simulates {k k' : Kernel} (h : Invariant k) {es : List Event}
    (hr : Run Step k es k') : abstraction k' = es.foldl Registry.step (abstraction k) := by
  induction hr with
  | nil => rfl
  | snoc hr hs ih =>
    rw [List.foldl_append, ← ih, List.foldl_cons, List.foldl_nil]
    exact step_simulates (hr.invariant step_invariant h) hs

def Event.message : Event → Option IoctlArg
  | .ioctlSet msg => some msg
  | .clone2 forkRet args => some (cloneMessage forkRet args)
  | _ => none

/-- Nobody to register, or nothing to register on. -/
def Lost (s : Registry) (msg : IoctlArg) : Prop :=
  s.live msg.pid = false ∨ msg.vector ≠ 0 ∧ s.loaded msg.moduleType = none

theorem step_message {k k' : Kernel} {e : Event} {msg : IoctlArg}
    (hm : Event.message e = some msg) (hs : Step k e k') : getIoctlHelper true msg k = some k' := by
  cases e with
  | ioctlSet => exact Option.some.inj hm ▸ hs.2
  | clone2 => exact Option.some.inj hm ▸ hs.2
  | _ => cases hm

theorem lost_message {k k' : Kernel} (h : Invariant k) {msg : IoctlArg}
    (hl : Lost (abstraction k) msg) (hk : getIoctlHelper true msg k = some k') : k' = k := by
  obtain ⟨k₁, hk₁, heff⟩ := h.consistent.ioctl_effect msg
  obtain rfl : k₁ = k' := Option.some.inj (hk₁.symm.trans hk)
  rw [requested_eq h] at heff
  rcases hl with hdead | ⟨hv, hno⟩
  · have ht : findTask msg.pid k.tasks = none := by simpa [abstraction] using hdead
    rw [ht] at heff
    exact heff
  · have hl : loadedOfType k msg.moduleType = none := hno
    rw [if_neg hv, hl] at heff
    cases ht : findTask msg.pid k.tasks with
    | none =>
      rw [ht] at heff
      exact heff
    | some t =>
      rw [ht] at heff
      exact heff

def addressedTo (pid : Pid) : Event → Bool
  | .ioctlSet msg => msg.pid = pid
  | .clone2 forkRet args => (cloneMessage forkRet args).pid = pid
  | .exitGroup p => p = pid
  | _ => false

def forksInto (pid : Pid) : Event → Bool
  | .fork _ child => child = pid
  | _ => false

/-- The steps addressed to a task, each with the module of its type loaded at that step. -/
def addressed (pid : Pid) : Registry → List Event → List (Event × Option Addr)
  | _, [] => []
  | s, e :: es =>
    let rest := addressed pid (s.step e) es
    if addressedTo pid e then
      (e, (Event.message e).bind fun msg => s.loaded msg.moduleType) :: rest
    else rest

abbrev View := Bool × Option (Addr × BitVec 32)

def Registry.view (s : Registry) (pid : Pid) : View := (s.live pid, s.map pid)

/-- What a step addressed to a task does to it, from the step alone. -/
def settle (view : View) : Event × Option Addr → View
  | (.exitGroup _, _) => (false, none)
  | (e, loaded) =>
    match Event.message e with
    | none => view
    | some msg =>
      if view.1 then
        if msg.vector = 0 then (true, none)
        else (true, match loaded with
          | none => view.2
          | some m => some (m, msg.vector))
      else view

theorem view_assign_self (s : Registry) (msg : IoctlArg) :
    (s.assign msg).view msg.pid =
      settle (s.view msg.pid) (.ioctlSet msg, s.loaded msg.moduleType) := by
  cases hl : s.live msg.pid with
  | false => simp [Registry.assign, Registry.view, settle, Event.message, hl]
  | true =>
    by_cases hz : msg.vector = 0
    · rw [Registry.assign, if_pos hl, if_pos hz]
      simp only [settle, Event.message, Registry.view, hl, if_true, if_pos hz,
        Function.update_self]
    · rw [Registry.assign, if_pos hl, if_neg hz]
      simp only [settle, Event.message, Registry.view, hl, if_true, if_neg hz]
      cases hm : s.loaded msg.moduleType with
      | none => simp only [hl]
      | some m => simp only [hl, Function.update_self]

theorem view_assign_ne (s : Registry) {msg : IoctlArg} {pid : Pid} (hne : msg.pid ≠ pid) :
    (s.assign msg).view pid = s.view pid := by
  unfold Registry.assign
  split
  · split
    · simp [Registry.view, Function.update_of_ne hne.symm]
    · cases s.loaded msg.moduleType with
      | none => rfl
      | some m => simp [Registry.view, Function.update_of_ne hne.symm]
  · rfl

theorem view_step_addressed (s : Registry) {pid : Pid} {e : Event} (h : addressedTo pid e) :
    (s.step e).view pid =
      settle (s.view pid) (e, (Event.message e).bind fun msg => s.loaded msg.moduleType) := by
  cases e with
  | ioctlSet msg =>
    obtain rfl : msg.pid = pid := by simpa [addressedTo] using h
    exact view_assign_self s msg
  | clone2 forkRet args =>
    obtain rfl : (cloneMessage forkRet args).pid = pid := by simpa [addressedTo] using h
    exact view_assign_self s (cloneMessage forkRet args)
  | exitGroup p =>
    obtain rfl : p = pid := by simpa [addressedTo] using h
    simp [Registry.step, Registry.view, settle]
  | _ => cases h

theorem view_step_other (s : Registry) {pid : Pid} {e : Event} (h : addressedTo pid e = false)
    (hf : forksInto pid e = false) : (s.step e).view pid = s.view pid := by
  cases e with
  | ioctlSet msg => exact view_assign_ne s (by simpa [addressedTo] using h)
  | clone2 forkRet args => exact view_assign_ne s (by simpa [addressedTo] using h)
  | exitGroup p =>
    have hne : pid ≠ p := Ne.symm (by simpa [addressedTo] using h)
    simp [Registry.step, Registry.view, Function.update_of_ne hne]
  | fork parent child =>
    have hne : pid ≠ child := Ne.symm (by simpa [forksInto] using hf)
    simp [Registry.step, Registry.view, Function.update_of_ne hne]
  | moduleRegister => rfl
  | moduleDeregister => rfl

theorem view_foldl (s : Registry) {pid : Pid} {es : List Event}
    (hf : ∀ e ∈ es, forksInto pid e = false) :
    (es.foldl Registry.step s).view pid =
      (addressed pid s es).foldl settle (s.view pid) := by
  induction es generalizing s with
  | nil => rfl
  | cons e es ih =>
    have hrest := ih (s.step e) fun x hx => hf x (List.mem_cons_of_mem _ hx)
    rw [List.foldl_cons, hrest, addressed]
    cases ha : addressedTo pid e with
    | true => rw [if_pos rfl, List.foldl_cons, view_step_addressed s ha]
    | false => rw [if_neg (by simp), view_step_other s ha (hf e (by simp))]

theorem reassigned_comm {k k₁ k₂ j₁ j₂ : Kernel} {t u : TaskStruct} (hne : t.pid ≠ u.pid)
    {new new' : Option NewSysVector} (h₁ : Reassigned k t new k₁) (h₂ : Reassigned k₁ u new' k₂)
    (g₁ : Reassigned k u new' j₁) (g₂ : Reassigned j₁ t new j₂) : k₂ = j₂ := by
  have hkey : ∀ v, ∀ x : TaskStruct, TaskStruct.pid { x with sysVector := v } = x.pid :=
    fun _ _ => rfl
  ext1
  · rw [h₂.nodes, h₁.nodes, g₂.nodes, g₁.nodes]
  · rw [h₂.headNode, h₁.headNode, g₂.headNode, g₁.headNode]
  · rw [h₂.mods, h₁.mods, g₂.mods, g₁.mods]
  · funext mod
    have e₁ := h₁.refcnt mod
    have e₂ := h₂.refcnt mod
    have e₃ := g₁.refcnt mod
    have e₄ := g₂.refcnt mod
    rw [h₁.mods] at e₂
    rw [g₁.mods] at e₄
    omega
  · simp only [h₂.tasks, h₁.tasks, g₂.tasks, g₁.tasks, Kernel.setSysVector]
    exact KeyedList.modify_modify_of_ne hne.symm (hkey _) (hkey _) _
  · rw [h₂.skippedPuts, h₁.skippedPuts, g₂.skippedPuts, g₁.skippedPuts]

theorem message_frame {k k' : Kernel} (h : Invariant k) {msg other : IoctlArg}
    (hne : msg.pid ≠ other.pid) (hk : getIoctlHelper true msg k = some k') :
    Invariant k' ∧ requested other k' = requested other k ∧
      findTask other.pid k'.tasks = findTask other.pid k.tasks := by
  have h' := step_invariant k (.ioctlSet msg) k' h ⟨trivial, hk⟩
  refine ⟨h', ?_, ?_⟩
  · have hloaded : loadedOfType k' = loadedOfType k := by
      unfold loadedOfType
      rw [ioctl_kept h.consistent hk]
    rw [requested_eq h', requested_eq h, hloaded]
  · obtain ⟨k₁, hk₁, heff⟩ := h.consistent.ioctl_effect msg
    obtain rfl : k₁ = k' := Option.some.inj (hk₁.symm.trans hk)
    split at heff
    · next t new ht hq => rw [heff.find ht, if_neg hne.symm]
    · rw [heff]

theorem lost_or_reassigned {k k' : Kernel} (h : Invariant k) {msg : IoctlArg}
    (hk : getIoctlHelper true msg k = some k') :
    (k' = k ∧ (findTask msg.pid k.tasks = none ∨ requested msg k = none)) ∨
    ∃ t new, findTask msg.pid k.tasks = some t ∧ requested msg k = some new ∧
      Reassigned k t new k' := by
  obtain ⟨k₁, hk₁, heff⟩ := h.consistent.ioctl_effect msg
  obtain rfl : k₁ = k' := Option.some.inj (hk₁.symm.trans hk)
  cases ht : findTask msg.pid k.tasks with
  | none =>
    rw [ht] at heff
    exact Or.inl ⟨heff, Or.inl rfl⟩
  | some t =>
    cases hq : requested msg k with
    | none =>
      rw [ht, hq] at heff
      exact Or.inl ⟨heff, Or.inr rfl⟩
    | some new =>
      rw [ht, hq] at heff
      exact Or.inr ⟨t, new, rfl, rfl, heff⟩

theorem lost_after_other {k kb kba : Kernel} (h : Invariant k) {a b : IoctlArg}
    (hne : a.pid ≠ b.pid) (hlost : findTask a.pid k.tasks = none ∨ requested a k = none)
    (hkb : getIoctlHelper true b k = some kb) (hkba : getIoctlHelper true a kb = some kba) :
    kba = kb := by
  obtain ⟨hb, hreq, hfind⟩ := message_frame h hne.symm hkb
  rcases lost_or_reassigned hb hkba with ⟨hsame, -⟩ | ⟨t, new, ht, hq, -⟩
  · exact hsame
  · rcases hlost with hno | hno
    · rw [hfind, hno] at ht
      cases ht
    · rw [hreq, hno] at hq
      cases hq

theorem messages_commute {k : Kernel} (h : Invariant k) {a b : IoctlArg} (hne : a.pid ≠ b.pid) :
    ∃ k', (getIoctlHelper true a k).bind (getIoctlHelper true b) = some k' ∧
      (getIoctlHelper true b k).bind (getIoctlHelper true a) = some k' := by
  obtain ⟨ka, hka, -⟩ := h.consistent.ioctl_effect a
  obtain ⟨kb, hkb, -⟩ := h.consistent.ioctl_effect b
  obtain ⟨ha, hreqb, hfindb⟩ := message_frame h hne hka
  obtain ⟨hb, hreqa, hfinda⟩ := message_frame h hne.symm hkb
  obtain ⟨kab, hkab, -⟩ := ha.consistent.ioctl_effect b
  obtain ⟨kba, hkba, -⟩ := hb.consistent.ioctl_effect a
  have heq : kba = kab := by
    rcases lost_or_reassigned h hka with ⟨rfl, hlost⟩ | ⟨t, new, ht, hq, ea⟩
    · rw [lost_after_other h hne hlost hkb hkba]
      exact Option.some.inj (hkb.symm.trans hkab)
    rcases lost_or_reassigned h hkb with ⟨rfl, hlost⟩ | ⟨u, new', hu, hq', eb⟩
    · rw [lost_after_other h hne.symm hlost hka hkab]
      exact Option.some.inj (hkba.symm.trans hka)
    rcases lost_or_reassigned ha hkab with ⟨-, hno⟩ | ⟨u₂, new₂, hu₂, hq₂, eab⟩
    · rw [hfindb, hu, hreqb, hq'] at hno
      simp at hno
    rcases lost_or_reassigned hb hkba with ⟨-, hno⟩ | ⟨t₂, new₁, ht₂, hq₁, eba⟩
    · rw [hfinda, ht, hreqa, hq] at hno
      simp at hno
    rw [hfindb, hu] at hu₂
    rw [hreqb, hq'] at hq₂
    rw [hfinda, ht] at ht₂
    rw [hreqa, hq] at hq₁
    cases hu₂
    cases hq₂
    cases ht₂
    cases hq₁
    refine reassigned_comm ?_ eb eba ea eab
    rw [(KeyedList.mem_of_lookup ht).2, (KeyedList.mem_of_lookup hu).2]
    exact hne.symm
  refine ⟨kab, ?_, ?_⟩
  · rw [hka]
    exact hkab
  · rw [hkb, ← heq]
    exact hkba

/-- From every reachable state: whole runs are runs of the map; a message that can do
nothing changes nothing; a task's registration follows from the steps addressed to it and
the modules they found; messages to different tasks commute. -/
theorem registration_refines_map {k : Kernel} (h : Reachable Initial Step k) :
    (∀ es k', Run Step k es k' →
      abstraction k' = es.foldl Registry.step (abstraction k)) ∧
    (∀ e msg k', Event.message e = some msg → Lost (abstraction k) msg → Step k e k' →
      k' = k) ∧
    (∀ es k' pid, Run Step k es k' → (∀ e ∈ es, forksInto pid e = false) →
      (abstraction k').view pid =
        (addressed pid (abstraction k) es).foldl settle ((abstraction k).view pid)) ∧
    (∀ a b, a.pid ≠ b.pid → ∃ k',
      (getIoctlHelper true a k).bind (getIoctlHelper true b) = some k' ∧
      (getIoctlHelper true b k).bind (getIoctlHelper true a) = some k') := by
  have hi := reachable_invariant h
  refine ⟨?_, ?_, ?_, ?_⟩
  · intro es k' hr
    exact run_simulates hi hr
  · intro e msg k' hm hl hs
    exact lost_message hi hl (step_message hm hs)
  · intro es k' pid hr hf
    rw [run_simulates hi hr]
    exact view_foldl (abstraction k) hf
  · intro a b hne
    exact messages_commute hi hne

theorem registration_refines_map_mixedRun :
    ∃ k, replay next (boot [⟨7, none⟩]) mixedRun = some k ∧
      abstraction k = mixedRun.foldl Registry.step (abstraction (boot [⟨7, none⟩])) ∧
      registration k 8 = some (20, 5) := by
  have h : (replay next (boot [⟨7, none⟩]) mixedRun).map (registration · 8) =
      some (some (20, 5)) := by decide
  obtain ⟨k, hk, hreg⟩ := Option.map_eq_some_iff.mp h
  have hi : Initial (boot [⟨7, none⟩]) := ⟨_, rfl, List.nodup_singleton 7, by decide⟩
  exact ⟨k, hk, (registration_refines_map (Reachable.initial hi)).1 _ _
    (replay_sound next_sound hk), hreg⟩

end RegistrationMap
