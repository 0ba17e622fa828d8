import LoadableSystemCalls.ReferenceCounts

/-! # The window between fork and registration (sys_clone2.c)

sys_clone2 forks first and registers the new PID afterwards. The child runs in between,
with its copy of the parent's record, and its number may be freed and given to another
task. -/
namespace CloneRegistration

open KernelTypes ModuleRegistry TaskRegistration ReferenceCounts TransitionRuns

/-- One call of sys_clone2 after _do_fork: what it returned, the arguments, the module of
the requested type and the record the child was born with. -/
structure Clone where
  forkRet : BitVec 64
  args : CloneArgs
  m : Addr
  inherited : Option NewSysVector

namespace Clone

def msg (c : Clone) : IoctlArg := cloneMessage c.forkRet c.args

def pid (c : Clone) : BitVec 32 := c.msg.pid

def wanted (c : Clone) : Option NewSysVector := some ⟨c.args.vector, c.m⟩

end Clone

/-- `childAlive`: the task that _do_fork made still lives; `done`: get_ioctl_helper ran. -/
structure State where
  kernel : Kernel
  childAlive : Bool
  done : Bool

inductive Event where
  | childCall
  | childExit
  | fork (parent child : BitVec 32)
  | exitGroup (pid : BitVec 32)
  | register
  deriving DecidableEq, Repr

def Enabled (c : Clone) (s : State) : Event → Prop
  | .childCall => s.childAlive = true
  | .childExit => s.childAlive = true
  | .fork parent child =>
    (findTask parent s.kernel.tasks).isSome ∧ findTask child s.kernel.tasks = none
  | .exitGroup pid =>
    (findTask pid s.kernel.tasks).isSome ∧ (pid = c.pid → s.childAlive = false)
  | .register => s.done = false

def perform (c : Clone) (s : State) : Event → Option State
  | .childCall => some s
  | .childExit =>
    (exitTask c.pid s.kernel).map fun k => { s with kernel := k, childAlive := false }
  | .fork parent child => (forkTask parent child s.kernel).map fun k => { s with kernel := k }
  | .exitGroup pid => (exitTask pid s.kernel).map fun k => { s with kernel := k }
  | .register =>
    (getIoctlHelper true c.msg s.kernel).map fun k => { s with kernel := k, done := true }

def Step (c : Clone) (s : State) (e : Event) (t : State) : Prop :=
  Enabled c s e ∧ perform c s e = some t

def Initial (c : Clone) (s : State) : Prop :=
  (∃ k parent p, Consistent k ∧ findTask parent k.tasks = some p ∧
    findTask c.pid k.tasks = none ∧ forkTask parent c.pid k = some s.kernel ∧
    p.sysVector = c.inherited) ∧
  c.args.vector ≠ 0 ∧ getModule c.msg.moduleType s.kernel = some (some c.m) ∧
  s.childAlive = true ∧ s.done = false

/-- A call of the child goes by the requested module and vector; the registration changes
no task but the child. -/
def Faithful (c : Clone) (s : State) (e : Event) (t : State) : Prop :=
  match e with
  | .childCall =>
    ∃ x, findTask c.pid s.kernel.tasks = some x ∧ x.sysVector = c.wanted
  | .register => ∀ q, (q = c.pid → s.childAlive = false) →
    findTask q t.kernel.tasks = findTask q s.kernel.tasks
  | _ => True

/-- The child calls nothing before it is registered, unless it was born with the requested
registration; at the registration its number is still its own, or free, or held by a task
that has the requested registration already. -/
def Careful (c : Clone) (s : State) : Event → Prop
  | .childCall => s.done = true ∨ c.inherited = c.wanted
  | .register => s.childAlive = true ∨
    ∀ x, findTask c.pid s.kernel.tasks = some x → x.sysVector = c.wanted
  | _ => True

structure Invariant (c : Clone) (s : State) : Prop where
  consistent : Consistent s.kernel
  vector : c.args.vector ≠ 0
  module : getModule c.msg.moduleType s.kernel = some (some c.m)
  child : s.childAlive = true → ∃ x, findTask c.pid s.kernel.tasks = some x ∧
    x.sysVector = if s.done then c.wanted else c.inherited

theorem getModule_congr {k k' : Kernel} (hn : k'.nodes = k.nodes)
    (hh : k'.headNode = k.headNode) (hm : k'.mods = k.mods) (type : ModuleType) :
    getModule type k' = getModule type k := by
  have hnode : findNode k' (k'.hasType type) = findNode k (k.hasType type) := by
    unfold findNode Kernel.hasType
    rw [hn, hh, hm]
  rw [getModule, getModule, hnode]

theorem initial_invariant {c : Clone} {s : State} (h : Initial c s) : Invariant c s := by
  rcases h with ⟨⟨k, parent, p, hc, hp, hfree, hfork, hrec⟩, hv, hm, hlive, hdone⟩
  rcases forkTask_accounted hc hp hfree with ⟨k₁, hk₁, -, -, -, -, hc₁⟩
  obtain rfl := Option.some.inj (hk₁.symm.trans hfork)
  refine ⟨hc₁, hv, hm, fun _ => ⟨{ p with pid := c.pid }, ?_, ?_⟩⟩
  · rw [forkTask_find hc hp hfree hfork, if_pos rfl]
  · simpa [hdone] using hrec

theorem register_effect {c : Clone} {s : State} (h : Invariant c s) :
    ∃ k, getIoctlHelper true c.msg s.kernel = some k ∧ Consistent k ∧
      k.nodes = s.kernel.nodes ∧ k.headNode = s.kernel.headNode ∧ k.mods = s.kernel.mods ∧
      ∀ q, findTask q k.tasks = if q = c.pid
        then (findTask c.pid s.kernel.tasks).map fun x => { x with sysVector := c.wanted }
        else findTask q s.kernel.tasks := by
  rcases h.consistent.ioctl_effect c.msg with ⟨k, hk, heff⟩
  have hreq : requested c.msg s.kernel = some c.wanted := by
    have hv : c.msg.vector ≠ 0 := h.vector
    rw [requested, if_neg hv, h.module]
    rfl
  rw [hreq] at heff
  have hcons := ioctl_accounted h.consistent hk
  cases ht : findTask c.msg.pid s.kernel.tasks with
  | none =>
    rw [ht] at heff
    subst heff
    refine ⟨s.kernel, hk, hcons, rfl, rfl, rfl, fun q => ?_⟩
    by_cases hq : q = c.pid
    · subst hq
      rw [if_pos rfl]
      change findTask c.msg.pid _ = (findTask c.msg.pid _).map _
      rw [ht]
      rfl
    · rw [if_neg hq]
  | some t =>
    rw [ht] at heff
    refine ⟨k, hk, hcons, heff.nodes, heff.headNode, heff.mods, fun q => ?_⟩
    rw [heff.find ht q]
    change _ = if q = c.msg.pid then (findTask c.msg.pid _).map _ else _
    rw [ht]
    rfl

theorem exit_effect {k : Kernel} (h : Consistent k) {pid : BitVec 32}
    (hlive : (findTask pid k.tasks).isSome) :
    ∃ k', exitTask pid k = some k' ∧ Consistent k' ∧ k'.nodes = k.nodes ∧
      k'.headNode = k.headNode ∧ k'.mods = k.mods ∧
      ∀ q, findTask q k'.tasks = if q = pid then none else findTask q k.tasks := by
  rcases Option.isSome_iff_exists.mp hlive with ⟨t, ht⟩
  rcases exitTask_accounted h ht with ⟨k₁, k', -, hk, hr, he, hc, -⟩
  refine ⟨k', hk, hc, ?_, ?_, ?_, exitTask_find h ht hk⟩
  · rw [he, endTask, hr.nodes]
  · rw [he, endTask, hr.headNode]
  · rw [he, endTask, hr.mods]

theorem enabled_step {c : Clone} {s : State} (h : Invariant c s) {e : Event}
    (he : Enabled c s e) : ∃ t, perform c s e = some t ∧ Invariant c t := by
  cases e with
  | childCall => exact ⟨s, rfl, h⟩
  | childExit =>
    rcases h.child he with ⟨x, hx, -⟩
    have hlive : (findTask c.pid s.kernel.tasks).isSome := by
      rw [hx]
      rfl
    rcases exit_effect h.consistent hlive with ⟨k, hk, hc, hn, hh, hm, -⟩
    refine ⟨{ s with kernel := k, childAlive := false }, by rw [perform, hk]; rfl, hc,
      h.vector, (getModule_congr hn hh hm _).trans h.module, ?_⟩
    intro hdead
    cases hdead
  | fork parent child =>
    rcases Option.isSome_iff_exists.mp he.1 with ⟨p, hp⟩
    rcases forkTask_accounted h.consistent hp he.2 with ⟨k, hk, hn, hm, hh, -, hc⟩
    refine ⟨{ s with kernel := k }, by rw [perform, hk]; rfl, hc, h.vector,
      (getModule_congr hn hh hm _).trans h.module, ?_⟩
    intro hlive
    rcases h.child hlive with ⟨x, hx, hrec⟩
    have hne : c.pid ≠ child := by
      rintro rfl
      rw [he.2] at hx
      cases hx
    refine ⟨x, ?_, hrec⟩
    rw [forkTask_find h.consistent hp he.2 hk, if_neg hne, hx]
  | exitGroup pid =>
    rcases exit_effect h.consistent he.1 with ⟨k, hk, hc, hn, hh, hm, hfind⟩
    refine ⟨{ s with kernel := k }, by rw [perform, hk]; rfl, hc, h.vector,
      (getModule_congr hn hh hm _).trans h.module, ?_⟩
    intro hlive
    rcases h.child hlive with ⟨x, hx, hrec⟩
    have hne : c.pid ≠ pid := by
      rintro rfl
      rw [he.2 rfl] at hlive
      cases hlive
    exact ⟨x, by rw [hfind, if_neg hne, hx], hrec⟩
  | register =>
    rcases register_effect h with ⟨k, hk, hc, hn, hh, hm, hfind⟩
    refine ⟨{ s with kernel := k, done := true }, by rw [perform, hk]; rfl, hc, h.vector,
      (getModule_congr hn hh hm _).trans h.module, ?_⟩
    intro hlive
    rcases h.child hlive with ⟨x, hx, -⟩
    refine ⟨{ x with sysVector := c.wanted }, ?_, rfl⟩
    rw [hfind, if_pos rfl, hx]
    rfl

theorem step_invariant {c : Clone} (s : State) (e : Event) (t : State) (h : Invariant c s)
    (hs : Step c s e t) : Invariant c t := by
  rcases enabled_step h hs.1 with ⟨t', ht', hi⟩
  obtain rfl : t' = t := Option.some.inj (ht'.symm.trans hs.2)
  exact hi

theorem faithful_iff_careful {c : Clone} {s t : State} (h : Invariant c s) {e : Event}
    (hs : Step c s e t) : Faithful c s e t ↔ Careful c s e := by
  rcases hs with ⟨he, hp⟩
  cases e with
  | childCall =>
    rcases h.child he with ⟨x, hx, hrec⟩
    simp only [Faithful, Careful, hx, Option.some.injEq, exists_eq_left', hrec]
    cases s.done <;> simp
  | register =>
    rcases register_effect h with ⟨k, hk, -, -, -, -, hfind⟩
    simp only [perform, hk, Option.map_some, Option.some.injEq] at hp
    subst hp
    simp only [Faithful, Careful, hfind]
    constructor
    · intro hframe
      cases hlive : s.childAlive with
      | true => exact Or.inl rfl
      | false =>
        apply Or.inr
        intro x hx
        have hself := hframe c.pid fun _ => hlive
        rw [if_pos rfl, hx, Option.map_some, Option.some.injEq] at hself
        exact (congrArg TaskStruct.sysVector hself).symm
    · rintro hcare q hq
      by_cases hqp : q = c.pid
      · subst hqp
        rw [if_pos rfl]
        have hdead := hq rfl
        rcases hcare with hlive | hwanted
        · rw [hdead] at hlive
          cases hlive
        · cases hx : findTask c.pid s.kernel.tasks with
          | none => rfl
          | some x =>
            have hrec := hwanted x hx
            rw [Option.map_some, ← hrec]
      · rw [if_neg hqp]
  | _ => exact Iff.rfl

/-- In every interleaving no step faults, and every step of the run is faithful if and only
if every step is careful. -/
theorem clone_faithful_iff {c : Clone} {s t : State} (h : Initial c s) (es : List Event) :
    (Run (Step c) s es t → ∀ e, Enabled c t e → ∃ u, Step c t e u) ∧
    (Run (fun s e t => Faithful c s e t ∧ Step c s e t) s es t ↔
      Run (Guarded (Careful c) (Step c)) s es t) := by
  have hi := initial_invariant h
  refine ⟨?_, ?_, ?_⟩
  · intro hr e he
    rcases enabled_step (hr.invariant step_invariant hi) he with ⟨u, hu, -⟩
    exact ⟨u, he, hu⟩
  · intro hr
    refine (hr.transfer (fun s e t hs hst => ?_) hi).1
    exact ⟨⟨(faithful_iff_careful hs hst.2).mp hst.1, hst.2⟩, step_invariant s e t hs hst.2⟩
  · intro hr
    refine (hr.transfer (fun s e t hs hst => ?_) hi).1
    exact ⟨⟨(faithful_iff_careful hs hst.2).mpr hst.1, hst.2⟩, step_invariant s e t hs hst.2⟩

instance (c : Clone) (s : State) (e : Event) : Decidable (Enabled c s e) := by
  cases e <;> simp only [Enabled] <;> infer_instance

def next (c : Clone) : State → Event → Option State := guardedNext (Enabled c) (perform c)

theorem next_sound (c : Clone) (s : State) (e : Event) (t : State) (h : next c s e = some t) :
    Step c s e t := guardedNext_eq_some.mp h

def parentRun : List ReferenceCounts.Event :=
  [.moduleRegister 10 ⟨100, traceModule, 50⟩ 1, .moduleRegister 20 ⟨200, protectModule, 60⟩ 2,
    .ioctlSet ⟨1023, 7, traceModule⟩]

def strictClone : Clone := ⟨8, ⟨2, 1⟩, 20, some ⟨1023, 10⟩⟩

def forked : Option State :=
  ((replay ReferenceCounts.next (boot [⟨7, none⟩]) parentRun).bind (forkTask 7 8)).map
    fun k => ⟨k, true, false⟩

theorem forked_initial {s : State} (h : forked = some s) : Initial strictClone s := by
  rcases Option.map_eq_some_iff.mp h with ⟨k', hk', rfl⟩
  rcases Option.bind_eq_some_iff.mp hk' with ⟨k, hk, hfork⟩
  have hi : ReferenceCounts.Initial (boot [⟨7, none⟩]) :=
    ⟨_, rfl, List.nodup_singleton 7, by decide⟩
  have hr : Reachable ReferenceCounts.Initial ReferenceCounts.Step k :=
    ⟨_, _, hi, replay_sound ReferenceCounts.next_sound hk⟩
  have htasks : (replay ReferenceCounts.next (boot [⟨7, none⟩]) parentRun).map
      (fun k => k.tasks) = some [⟨7, some ⟨1023, 10⟩⟩] := by decide
  have hmodule : forked.map (fun s => getModule protectModule s.kernel) =
      some (some (some 20)) := by decide
  rw [hk, Option.map_some, Option.some.injEq] at htasks
  rw [h, Option.map_some, Option.some.injEq] at hmodule
  refine ⟨⟨k, 7, ⟨7, some ⟨1023, 10⟩⟩, (reachable_invariant hr).consistent, ?_, ?_, hfork, rfl⟩,
    by decide, hmodule, rfl, rfl⟩
  · rw [htasks]
    rfl
  · rw [htasks]
    rfl

theorem clone_faithful_iff_forked : ∃ s t, forked = some s ∧
    Run (fun s e t => Faithful strictClone s e t ∧ Step strictClone s e t) s
      [.register, .childCall] t := by
  have hrun : (forked.bind fun s => replay (next strictClone) s [.register, .childCall]).isSome =
      true := by decide
  rcases Option.isSome_iff_exists.mp hrun with ⟨t, ht⟩
  rcases Option.bind_eq_some_iff.mp ht with ⟨s, hs, hst⟩
  rcases Option.bind_eq_some_iff.mp hst with ⟨u, hu, hut⟩
  rcases Option.bind_eq_some_iff.mp hut with ⟨t', ht', htt⟩
  obtain rfl : t' = t := Option.some.inj htt
  have hi := forked_initial hs
  have hregister := next_sound strictClone s .register u hu
  have hdone : u.done = true := by
    rcases Option.map_eq_some_iff.mp hregister.2 with ⟨k, -, rfl⟩
    rfl
  have hfirst : Guarded (Careful strictClone) (Step strictClone) s .register u :=
    ⟨Or.inl hi.2.2.2.1, hregister⟩
  have hsecond : Guarded (Careful strictClone) (Step strictClone) u .childCall t' :=
    ⟨Or.inl hdone, next_sound strictClone u .childCall t' ht'⟩
  exact ⟨s, t', hs, (clone_faithful_iff hi [.register, .childCall]).2.mpr
    (.cons hfirst (.cons hsecond (.nil t')))⟩

/-- The child calls before it is registered, and goes by the parent's registration; or it
exits, its number goes to another child of the parent, and that task is registered. -/
theorem early_call_and_reused_number : ∃ s, Initial strictClone s ∧
    (∃ t, Step strictClone s .childCall t ∧ ¬ Faithful strictClone s .childCall t) ∧
    ∃ u t, Run (Step strictClone) s [.childExit, .fork 7 8] u ∧
      Step strictClone u .register t ∧ ¬ Faithful strictClone u .register t := by
  have hfork : forked.map (fun s => findTask 8 s.kernel.tasks) =
      some (some ⟨8, some ⟨1023, 10⟩⟩) := by decide
  have hreuse : (forked.bind fun s => (replay (next strictClone) s [.childExit, .fork 7 8]).bind
      fun u => (next strictClone u .register).map fun t =>
        (u.childAlive, findTask 8 u.kernel.tasks, findTask 8 t.kernel.tasks)) =
      some (false, some ⟨8, some ⟨1023, 10⟩⟩, some ⟨8, some ⟨1, 20⟩⟩) := by decide
  rcases Option.bind_eq_some_iff.mp hreuse with ⟨s, hs, hsu⟩
  rcases Option.bind_eq_some_iff.mp hsu with ⟨u, hu, hut⟩
  rcases Option.map_eq_some_iff.mp hut with ⟨t, ht, he⟩
  simp only [Prod.mk.injEq] at he
  rcases he with ⟨hdead, hbefore, hafter⟩
  rw [hs, Option.map_some, Option.some.injEq] at hfork
  have hi := forked_initial hs
  refine ⟨s, hi, ⟨s, ⟨hi.2.2.2.1, rfl⟩, ?_⟩, u, t, replay_sound (next_sound strictClone) hu,
    next_sound strictClone u .register t ht, ?_⟩
  · rintro ⟨x, hx, hwanted⟩
    obtain rfl : _ = x := Option.some.inj (hfork.symm.trans hx)
    exact absurd hwanted (by decide)
  · intro hframe
    have hsame := hframe 8 fun _ => hdead
    rw [hbefore, hafter] at hsame
    exact absurd hsame (by decide)

end CloneRegistration
