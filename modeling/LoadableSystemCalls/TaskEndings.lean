import LoadableSystemCalls.ThreadGroups

/-! # What a task that ends gives back (syscall_new.c)

new_exit_group releases the registration of its caller. The siblings that end with it, and
the tasks that end by exit(2) or a signal, keep theirs. -/
namespace TaskEndings

open KernelTypes ModuleRegistry TaskRegistration TransitionRuns ThreadGroups

def Ends (s t : System) (pid : BitVec 32) : Prop := s.ended pid = false ∧ t.ended pid = true

instance (s t : System) (pid : BitVec 32) : Decidable (Ends s t pid) :=
  inferInstanceAs (Decidable (_ ∧ _))

def endingRecords (s t : System) (mod : Addr) : ℕ :=
  s.kernel.tasks.countP fun x =>
    decide (Ends s t x.pid) && refersTo s.kernel.mods mod x.sysVector

/-- Each registered task that ends has its record freed once, and the references of the
records are put back. -/
structure ReleasedOnce (s t : System) : Prop where
  freed : ∀ x ∈ s.kernel.tasks, Ends s t x.pid →
    t.freed.count x.pid = s.freed.count x.pid + if x.sysVector.isSome then 1 else 0
  detached : ∀ x ∈ s.kernel.tasks, Ends s t x.pid → t.record x.pid = none
  counts : ∀ mod, t.kernel.refcnt mod + endingRecords s t mod = s.kernel.refcnt mod

/-- A module no live task is registered on has no references. -/
def Unpinned (s : System) : Prop :=
  ∀ m r, s.kernel.mods.lookup m = some r →
    (∀ x ∈ s.kernel.tasks, s.ended x.pid = false →
      ∀ v, x.sysVector = some v → v.moduleAddr ≠ m) →
    s.kernel.refcnt r.module = 0

def isEnding : Event → Bool
  | .exitGroup _ => true
  | .exit _ => true
  | .fatalSignal _ => true
  | _ => false

/-- Of the tasks that end, only a caller of exit_group is registered. -/
def CleanEnding (s : System) : Event → Prop
  | .exitGroup pid => ∀ x ∈ s.kernel.tasks, x.pid ≠ pid ∧ s.tgid x.pid = s.tgid pid ∧
      s.ended x.pid = false → x.sysVector = none
  | .exit pid => ∀ x ∈ s.kernel.tasks, x.pid = pid → x.sysVector = none
  | .fatalSignal pid => ∀ x ∈ s.kernel.tasks, s.tgid x.pid = s.tgid pid ∧
      s.ended x.pid = false → x.sysVector = none
  | _ => True

/-- No task that has ended is given a registration. -/
def AddressesLive (s : System) (msg : IoctlArg) : Prop :=
  msg.vector = 0 ∨ getModule msg.moduleType s.kernel = some none ∨ s.ended msg.pid = false ∨
    findTask msg.pid s.kernel.tasks = none

def Careful (s : System) (e : Event) : Prop :=
  UnlinksItself s e ∧ CleanEnding s e ∧
  match e with
  | .ioctlSet msg => AddressesLive s msg
  | .clone2 forkRet args => AddressesLive s (cloneMessage forkRet args)
  | _ => True

instance (s : System) (e : Event) : Decidable (CleanEnding s e) :=
  match e with
  | .exitGroup _ | .exit _ | .fatalSignal _ =>
    inferInstanceAs (Decidable (∀ x ∈ s.kernel.tasks, _ → x.sysVector = none))
  | .moduleRegister .. | .moduleDeregister _ | .ioctlSet _ | .clone2 .. | .fork .. |
    .cloneThread .. | .reap _ => inferInstanceAs (Decidable True)

instance (s : System) (msg : IoctlArg) : Decidable (AddressesLive s msg) :=
  inferInstanceAs (Decidable (_ ∨ _ ∨ _ ∨ _))

instance (s : System) (e : Event) : Decidable (Careful s e) :=
  match e with
  | .ioctlSet msg => inferInstanceAs (Decidable (_ ∧ _ ∧ AddressesLive s msg))
  | .clone2 forkRet args =>
    inferInstanceAs (Decidable (_ ∧ _ ∧ AddressesLive s (cloneMessage forkRet args)))
  | .moduleRegister .. | .moduleDeregister _ | .fork .. | .cloneThread .. | .exitGroup _ |
    .exit _ | .fatalSignal _ | .reap _ => inferInstanceAs (Decidable (_ ∧ _ ∧ True))

structure Invariant (s : System) : Prop where
  accounted : Accounted (fun _ => 0) s.kernel
  bare : ∀ pid, s.ended pid = true → s.record pid = none

section
variable {s t : System} {pid : BitVec 32} {x : TaskStruct}

theorem record_of_mem (hd : KeyedList.Distinct TaskStruct.pid s.kernel.tasks)
    (hx : x ∈ s.kernel.tasks) : s.record x.pid = x.sysVector := by
  rw [System.record, findTask, KeyedList.lookup_of_mem hd hx, Option.bind_some]

theorem record_of_find (hx : findTask pid s.kernel.tasks = some x) :
    s.record pid = x.sysVector := by
  rw [System.record, hx, Option.bind_some]

theorem record_congr (h : t.kernel.tasks = s.kernel.tasks) (pid : BitVec 32) :
    t.record pid = s.record pid := by
  rw [System.record, System.record, h]

theorem record_reassigned {new : Option NewSysVector} (hx : findTask pid s.kernel.tasks = some x)
    (hr : Reassigned s.kernel x new t.kernel) (q : BitVec 32) :
    t.record q = if q = pid then new else s.record q := by
  rw [System.record, hr.find hx q]
  by_cases hq : q = pid
  · rw [if_pos hq, if_pos hq, Option.bind_some]
  · rw [if_neg hq, if_neg hq, System.record]

theorem unregistered_of_count {v : Option NewSysVector} {n : ℕ}
    (h : n = n + if v.isSome then 1 else 0) : v = none := by
  cases v with
  | none => rfl
  | some v => simp at h

theorem endingRecords_zero {tasks : List TaskStruct} {mod : Addr}
    (h : ∀ x ∈ tasks, Ends s t x.pid → x.sysVector = none) :
    tasks.countP (fun x => decide (Ends s t x.pid) && refersTo s.kernel.mods mod x.sysVector) =
      0 := by
  apply List.countP_eq_zero.mpr
  intro x hx
  by_cases hends : Ends s t x.pid
  · simp [h x hx hends]
  · simp [hends]

theorem endingRecords_apart (hd : KeyedList.Distinct TaskStruct.pid s.kernel.tasks)
    (hx : findTask pid s.kernel.tasks = some x) (hends : Ends s t pid) {mod : Addr}
    (h : ∀ y ∈ s.kernel.tasks, y.pid ≠ pid → Ends s t y.pid → y.sysVector = none) :
    endingRecords s t mod = if refersTo s.kernel.mods mod x.sysVector then 1 else 0 := by
  have hothers : ∀ y ∈ KeyedList.remove TaskStruct.pid pid s.kernel.tasks, Ends s t y.pid →
      y.sysVector = none := by
    intro y hy hy'
    rcases KeyedList.mem_remove.mp hy with ⟨hy, hp⟩
    exact h y hy hp hy'
  have hremove := KeyedList.countP_remove
    (p := fun y => decide (Ends s t y.pid) && refersTo s.kernel.mods mod y.sysVector) hd hx
  rw [endingRecords_zero hothers, (KeyedList.mem_of_lookup hx).2, decide_eq_true hends,
    Bool.true_and, Nat.zero_add] at hremove
  exact hremove.symm

theorem released_unhooked (hd : KeyedList.Distinct TaskStruct.pid s.kernel.tasks)
    (hk : t.kernel = s.kernel) (hf : t.freed = s.freed) :
    ReleasedOnce s t ↔ ∀ x ∈ s.kernel.tasks, Ends s t x.pid → x.sysVector = none := by
  constructor
  · intro h x hx hends
    have hcount := h.freed x hx hends
    rw [hf] at hcount
    exact unregistered_of_count hcount
  · intro h
    constructor
    · intro x hx hends
      rw [h x hx hends, hf]
      rfl
    · intro x hx hends
      have hrecord := record_congr (congrArg Kernel.tasks hk) x.pid
      rw [hrecord, record_of_mem hd hx, h x hx hends]
    · intro mod
      rw [endingRecords, endingRecords_zero h, hk, Nat.add_zero]

theorem count_kfreed (s : System) (pid q : BitVec 32) :
    (s.kfreed pid).count q = if q = pid ∧ (s.record pid).isSome then 1 else 0 := by
  unfold System.kfreed
  by_cases hsome : (s.record pid).isSome
  · rw [if_pos hsome, List.count_singleton]
    by_cases hq : q = pid
    · simp [hq, hsome]
    · simp [hq, Ne.symm hq]
  · simp [hsome]

theorem released_hooked (hd : KeyedList.Distinct TaskStruct.pid s.kernel.tasks)
    (hx : findTask pid s.kernel.tasks = some x) (hr : Reassigned s.kernel x none t.kernel)
    (hf : t.freed = s.freed ++ s.kfreed pid) (hends : Ends s t pid) :
    ReleasedOnce s t ↔
      ∀ y ∈ s.kernel.tasks, y.pid ≠ pid → Ends s t y.pid → y.sysVector = none := by
  have hself : t.freed.count pid = s.freed.count pid + if x.sysVector.isSome then 1 else 0 := by
    rw [hf, List.count_append, count_kfreed, record_of_find hx]
    simp only [true_and]
  have hother : ∀ q, q ≠ pid → t.freed.count q = s.freed.count q := by
    intro q hq
    rw [hf, List.count_append, count_kfreed, if_neg (fun h => hq h.1), Nat.add_zero]
  constructor
  · intro h y hy hne hy'
    have hcount := h.freed y hy hy'
    rw [hother y.pid hne] at hcount
    exact unregistered_of_count hcount
  · intro h
    constructor
    · intro y hy hy'
      by_cases hp : y.pid = pid
      · have hsame : y.sysVector = x.sysVector :=
          (record_of_mem hd hy).symm.trans (hp ▸ record_of_find hx)
        rw [hsame, hp, hself]
      · rw [h y hy hp hy', hother y.pid hp]
        rfl
    · intro y hy hy'
      rw [record_reassigned hx hr]
      by_cases hp : y.pid = pid
      · rw [if_pos hp]
      · rw [if_neg hp, record_of_mem hd hy, h y hy hp hy']
    · intro mod
      have hput := hr.refcnt mod
      simp only [refersTo_none, Bool.false_eq_true, if_false, Nat.add_zero] at hput
      rw [endingRecords_apart hd hx hends h, hput]

theorem ends_endGroup (q : BitVec 32) :
    Ends s (s.endGroup pid) q ↔ s.ended q = false ∧ s.tgid q = s.tgid pid := by
  cases he : s.ended q <;> simp [Ends, System.endGroup, he]

theorem ends_endOne (q : BitVec 32) :
    Ends s (s.endOne pid) q ↔ s.ended q = false ∧ q = pid := by
  cases he : s.ended q <;> simp [Ends, System.endOne, he]

/-- Each ending releases what it should if and only if it is clean. -/
theorem released_iff_clean (h : Invariant s) {e : Event} (hend : isEnding e = true)
    (hs : Step s e t) : ReleasedOnce s t ↔ CleanEnding s e := by
  have hd := h.accounted.pids
  rcases hs with ⟨he, ht⟩
  cases e with
  | exitGroup pid =>
    rcases exitGroup_effect h.accounted he with ⟨k, x, hx, hr, -, hk⟩
    obtain rfl := Option.some.inj (hk.symm.trans ht)
    have hends : ∀ q, Ends s (s.groupExited pid k) q ↔
        s.ended q = false ∧ s.tgid q = s.tgid pid := ends_endGroup
    apply (released_hooked hd hx hr rfl ((hends pid).mpr ⟨he.2, rfl⟩)).trans
    constructor
    · rintro hclean y hy ⟨hne, hgroup, hlive⟩
      exact hclean y hy hne ((hends y.pid).mpr ⟨hlive, hgroup⟩)
    · intro hclean y hy hne hy'
      rcases (hends y.pid).mp hy' with ⟨hlive, hgroup⟩
      exact hclean y hy ⟨hne, hgroup, hlive⟩
  | exit pid =>
    obtain rfl := Option.some.inj ht
    apply (released_unhooked (t := s.endOne pid) hd rfl rfl).trans
    constructor
    · intro hclean y hy hp
      exact hclean y hy ((ends_endOne y.pid).mpr ⟨hp ▸ he.2, hp⟩)
    · intro hclean y hy hy'
      exact hclean y hy ((ends_endOne y.pid).mp hy').2
  | fatalSignal pid =>
    obtain rfl := Option.some.inj ht
    apply (released_unhooked (t := s.endGroup pid) hd rfl rfl).trans
    constructor
    · rintro hclean y hy ⟨hgroup, hlive⟩
      exact hclean y hy ((ends_endGroup y.pid).mpr ⟨hlive, hgroup⟩)
    · intro hclean y hy hy'
      rcases (ends_endGroup y.pid).mp hy' with ⟨hlive, hgroup⟩
      exact hclean y hy ⟨hgroup, hlive⟩
  | _ => cases hend

end

section
variable {s t : System}

theorem ending_record (h : Invariant s) {e : Event} (hend : isEnding e = true)
    (hs : Step s e t) {q : BitVec 32} (hq : s.record q = none) : t.record q = none := by
  rcases hs with ⟨he, ht⟩
  cases e with
  | exitGroup pid =>
    rcases exitGroup_effect h.accounted he with ⟨k, x, hx, hr, -, hk⟩
    obtain rfl := Option.some.inj (hk.symm.trans ht)
    have hrecord := record_reassigned (t := s.groupExited pid k) hx hr q
    rw [hrecord, hq, ite_self]
  | exit pid =>
    obtain rfl := Option.some.inj ht
    exact hq
  | fatalSignal pid =>
    obtain rfl := Option.some.inj ht
    exact hq
  | _ => cases hend

theorem ending_bare (h : Invariant s) {e : Event} (hend : isEnding e = true)
    (hs : Step s e t) (hclean : CleanEnding s e) {q : BitVec 32} (hq : t.ended q = true) :
    t.record q = none := by
  have hreleased := (released_iff_clean h hend hs).mpr hclean
  cases hlive : s.ended q with
  | true => exact ending_record h hend hs (h.bare q hlive)
  | false =>
    cases hx : findTask q s.kernel.tasks with
    | none =>
      apply ending_record h hend hs
      rw [System.record, hx, Option.bind_none]
    | some x =>
      rcases KeyedList.mem_of_lookup hx with ⟨hmem, rfl⟩
      exact hreleased.detached x hmem ⟨hlive, hq⟩

theorem reap_bare (h : Invariant s) (pid : BitVec 32) {q : BitVec 32} (hq : s.ended q = true) :
    (s.onKernel (endTask pid s.kernel)).record q = none := by
  have hbare := h.bare q hq
  rw [System.record] at hbare ⊢
  by_cases hp : q = pid
  · subst hp
    have hgone : findTask q (endTask q s.kernel).tasks = none :=
      KeyedList.lookup_remove_self q s.kernel.tasks
    exact congrArg (Option.bind · TaskStruct.sysVector) hgone
  · have hkept : findTask q (endTask pid s.kernel).tasks = findTask q s.kernel.tasks :=
      KeyedList.lookup_remove_ne hp s.kernel.tasks
    exact (congrArg (Option.bind · TaskStruct.sysVector) hkept).trans hbare

theorem message_bare (h : Invariant s) {msg : IoctlArg} (ha : AddressesLive s msg) {k : Kernel}
    (hk : getIoctlHelper true msg s.kernel = some k) {q : BitVec 32} (hq : s.ended q = true) :
    (s.messaged msg k).record q = none := by
  rcases h.accounted.ioctl_effect msg with ⟨k₁, hk₁, heff⟩
  obtain rfl := Option.some.inj (hk₁.symm.trans hk)
  have hbare := h.bare q hq
  cases hx : findTask msg.pid s.kernel.tasks with
  | none =>
    rw [hx] at heff
    subst heff
    exact hbare
  | some x =>
    rw [hx] at heff
    cases hnew : requested msg s.kernel with
    | none =>
      rw [hnew] at heff
      subst heff
      exact hbare
    | some new =>
      rw [hnew] at heff
      have hrecord := record_reassigned (t := s.messaged msg k₁) hx heff q
      rw [hrecord]
      by_cases hp : q = msg.pid
      · rw [if_pos hp]
        subst hp
        rcases ha with hz | hg | hlive | hnone
        · rw [requested, if_pos hz] at hnew
          exact (Option.some.inj hnew).symm
        · rw [requested, hg] at hnew
          split at hnew
          · exact (Option.some.inj hnew).symm
          · cases hnew
        · rw [hlive] at hq
          cases hq
        · rw [hx] at hnone
          cases hnone
      · rw [if_neg hp, hbare]

theorem born_bare (h : Invariant s) {child group : BitVec 32} {k : Kernel} {x : TaskStruct}
    (htasks : k.tasks = s.kernel.tasks ++ [{ x with pid := child }]) {q : BitVec 32}
    (hq : ((s.born child group).onKernel k).ended q = true) :
    ((s.born child group).onKernel k).record q = none := by
  have hne : q ≠ child := by
    rintro rfl
    simp [System.onKernel, System.born] at hq
  have hended : s.ended q = true := by
    simpa [System.onKernel, System.born, Function.update_of_ne hne] using hq
  have hfind : findTask q k.tasks = findTask q s.kernel.tasks := by
    rw [htasks, findTask, KeyedList.lookup_append]
    simp [Ne.symm hne]
  have hbare := h.bare q hended
  rw [System.record] at hbare ⊢
  exact (congrArg (Option.bind · TaskStruct.sysVector) hfind).trans hbare

theorem initial_invariant (h : Initial s) : Invariant s := by
  refine ⟨initial_accounted h, fun pid hp => ?_⟩
  rw [h.2.1 pid] at hp
  cases hp

theorem careful_bare (h : Invariant s) {e : Event} (hc : Careful s e) (hs : Step s e t) :
    ∀ pid, t.ended pid = true → t.record pid = none := by
  rcases hc with ⟨hu, hclean, hmsg⟩
  rcases hs with ⟨he, ht⟩
  intro q hq
  cases e with
  | moduleRegister m reg node =>
    rcases ReferenceCounts.loadModule_accounted h.accounted he with ⟨k, hk, -, htasks, -⟩
    obtain rfl := Option.some.inj ((congrArg (Option.map s.onKernel) hk).symm.trans ht)
    exact (record_congr (s := s) (t := s.onKernel k) htasks q).trans (h.bare q hq)
  | moduleDeregister m =>
    rcases ReferenceCounts.unused_iff.mp he with ⟨r, hr, hz⟩
    have hfirst : getModule r.type s.kernel = some (some m) := by
      simpa [UnlinksItself, hr] using hu
    rcases ReferenceCounts.unloadModule_accounted h.accounted hr hfirst hz with
      ⟨k, hk, -, htasks, -⟩
    obtain rfl := Option.some.inj ((congrArg (Option.map s.onKernel) hk).symm.trans ht)
    exact (record_congr (s := s) (t := s.onKernel k) htasks q).trans (h.bare q hq)
  | ioctlSet msg =>
    rcases message_effect h.accounted msg with ⟨k, hk, -, hmessage⟩
    obtain rfl := Option.some.inj (hmessage.symm.trans ht)
    exact message_bare h hmsg hk hq
  | clone2 forkRet args =>
    rcases message_effect h.accounted (cloneMessage forkRet args) with ⟨k, hk, -, hmessage⟩
    obtain rfl := Option.some.inj (hmessage.symm.trans ht)
    exact message_bare h hmsg hk hq
  | fork parent child =>
    rcases birth_effect h.accounted he.1 he.2 child with ⟨k, x, -, -, htasks, -, hborn⟩
    obtain rfl := Option.some.inj (hborn.symm.trans ht)
    exact born_bare h htasks hq
  | cloneThread parent child =>
    rcases birth_effect h.accounted he.1 he.2 (s.tgid parent) with
      ⟨k, x, -, -, htasks, -, hborn⟩
    obtain rfl := Option.some.inj (hborn.symm.trans ht)
    exact born_bare h htasks hq
  | exitGroup pid => exact ending_bare h rfl ⟨he, ht⟩ hclean hq
  | exit pid => exact ending_bare h rfl ⟨he, ht⟩ hclean hq
  | fatalSignal pid => exact ending_bare h rfl ⟨he, ht⟩ hclean hq
  | reap pid =>
    obtain rfl := Option.some.inj ht
    exact reap_bare h pid hq

theorem leakedAfter_zero (h : Invariant s) {e : Event} (he : Enabled s e) :
    leakedAfter s (fun _ => 0) e = fun _ => 0 := by
  cases e with
  | reap pid =>
    funext mod
    rw [leakedAfter, h.bare pid he.2.1]
    rfl
  | _ => rfl

theorem careful_step (s : System) (e : Event) (t : System) (h : Invariant s)
    (hs : Guarded Careful Step s e t) : Invariant t := by
  rcases hs with ⟨hc, hs⟩
  rcases enabled_step h.accounted hs.1 hc.1 with ⟨t', ht', hacc⟩
  obtain rfl := Option.some.inj (ht'.symm.trans hs.2)
  rw [leakedAfter_zero h hs.1] at hacc
  exact ⟨hacc, careful_bare h hc hs⟩

theorem unpinned_of_invariant (h : Invariant s) : Unpinned s := by
  intro m r hr hnone
  have hcons := h.accounted
  have hcount := hcons.counted r.module
  rw [ReferenceCounts.references_eq_registrations hcons hr] at hcount
  rw [hcount]
  apply List.countP_eq_zero.mpr
  intro x hx
  cases hv : x.sysVector with
  | none => simp
  | some v =>
    have hlive : s.ended x.pid = false := by
      cases he : s.ended x.pid with
      | false => rfl
      | true =>
        have hbare := h.bare x.pid he
        rw [record_of_mem h.accounted.pids hx, hv] at hbare
        cases hbare
    simpa using hnone x hx hlive v hv

end

/-- In every careful run no module stays referenced without a live registered task, and
from every state of it an ending releases each registration once if and only if it is
clean. -/
theorem released_while_careful {s₀ s : System} {es : List Event} (h : Initial s₀)
    (hr : Run (Guarded Careful Step) s₀ es s) :
    Unpinned s ∧ ∀ e t, isEnding e = true → Step s e t →
      (ReleasedOnce s t ↔ CleanEnding s e) := by
  have hi : Invariant s := hr.invariant careful_step (initial_invariant h)
  constructor
  · exact unpinned_of_invariant hi
  · intro e t hend hs
    exact released_iff_clean hi hend hs

def twoThreads : System where
  kernel := boot [⟨7, none⟩, ⟨8, none⟩]
  tgid := fun pid => if pid = 8 then 7 else pid
  ended := fun _ => false
  freed := []

theorem twoThreads_initial : Initial twoThreads := by
  refine ⟨⟨_, rfl, ?_, ?_⟩, fun _ => rfl, rfl⟩
  · change [7, 8].Nodup
    decide
  · decide

def registerSeven : List Event :=
  [.moduleRegister 10 ⟨100, traceModule, 0⟩ 1, .ioctlSet ⟨1023, 7, traceModule⟩]

theorem released_while_careful_exitGroup : ∃ s,
    Run (Guarded Careful Step) twoThreads (registerSeven ++ [.exitGroup 7]) s ∧ Unpinned s := by
  have hrun : (replay (guardedNext Careful next) twoThreads
      (registerSeven ++ [.exitGroup 7])).isSome = true := by
    decide
  obtain ⟨s, hs⟩ := Option.isSome_iff_exists.mp hrun
  have hr := replay_sound (guardedNext_sound next_sound) hs
  exact ⟨s, hr, (released_while_careful twoThreads_initial hr).1⟩

theorem pinned {s : System} {m : Addr} {r : ModuleReg} (hr : s.kernel.mods.lookup m = some r)
    (hc : s.kernel.refcnt r.module ≠ 0)
    (hx : ∀ x ∈ s.kernel.tasks, s.ended x.pid = false → x.sysVector = none) : ¬ Unpinned s := by
  intro h
  apply hc
  apply h m r hr
  intro x hmem hlive v hv
  rw [hx x hmem hlive] at hv
  cases hv

theorem pinned_of_replay {es : List Event}
    (h : (replay next twoThreads es).any (fun s =>
      decide (s.kernel.mods.lookup 10 = some ⟨100, traceModule, 0⟩ ∧ s.kernel.refcnt 100 ≠ 0 ∧
        ∀ x ∈ s.kernel.tasks, s.ended x.pid = false → x.sysVector = none)) = true) :
    ∃ s, Run Step twoThreads es s ∧ ¬ Unpinned s := by
  obtain ⟨s, hr, hstate⟩ := replay_reaches next_sound h
  obtain ⟨hmodule, hcount, hrecords⟩ := of_decide_eq_true hstate
  exact ⟨s, hr, pinned hmodule hcount hrecords⟩

/-- A signal, exit(2), or the exit_group of its thread: the reference of task 7 stays. -/
theorem ended_task_pins :
    (∃ s, Run Step twoThreads (registerSeven ++ [.fatalSignal 7]) s ∧ ¬ Unpinned s) ∧
    (∃ s, Run Step twoThreads (registerSeven ++ [.exit 7]) s ∧ ¬ Unpinned s) ∧
    ∃ s, Run Step twoThreads (registerSeven ++ [.exitGroup 8]) s ∧ ¬ Unpinned s := by
  refine ⟨?_, ?_, ?_⟩
  · exact pinned_of_replay (by decide)
  · exact pinned_of_replay (by decide)
  · exact pinned_of_replay (by decide)

end TaskEndings
