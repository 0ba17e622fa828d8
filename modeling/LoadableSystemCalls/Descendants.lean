import LoadableSystemCalls.CallRouting
import LoadableSystemCalls.ProtectModule

/-! # The descendants of registered tasks

A fork copies the registration, and nothing a task calls changes it. Registered tasks and
whatever descends from them stay on their module until a message reaches one of them. -/
namespace Descendants

open KernelTypes TaskRegistration ReferenceCounts RegistrationMap SyscallHooks CallRouting
open TransitionRuns CStrings ProtectModule

abbrev Family := Pid → Bool

/-- A child joins its parent's family. The number of an ended task may be used again. -/
def descend (family : Family) : CallRouting.Event → Family
  | .kernel (.fork parent child) =>
    if family parent then Function.update family child true else family
  | .kernel (.exitGroup pid) => Function.update family pid false
  | _ => family

structure Seen (W : Type*) where
  world : W
  pid : Pid
  call : Call
  outcome : Outcome W

structure Watch (W : Type*) where
  family : Family
  seen : List (Seen W)

variable {W : Type*}

def newlySeen (p : Programs W) (family : Family) (s : State W) : CallRouting.Event → List (Seen W)
  | .call pid call =>
    if family pid then (outcome p s pid call).toList.map fun o => ⟨s.world, pid, call, o⟩ else []
  | .kernel _ => []

def watch (p : Programs W) (x : Watch W) (s : State W) (e : CallRouting.Event) : Watch W where
  family := descend x.family e
  seen := x.seen ++ newlySeen p x.family s e

/-- No message that has an effect is addressed to a member. -/
def Undisturbed (x : State W × Watch W) : CallRouting.Event → Prop
  | .kernel e => ∀ msg, RegistrationMap.Event.message e = some msg → x.2.family msg.pid = true →
      Lost (abstraction x.1.kernel) msg
  | .call _ _ => True

instance (x : State W × Watch W) (e : CallRouting.Event) : Decidable (Undisturbed x e) :=
  match e with
  | .kernel e => inferInstanceAs (Decidable (∀ msg ∈ RegistrationMap.Event.message e,
      x.2.family msg.pid = true → _ ∨ _ ∧ _))
  | .call _ _ => inferInstanceAs (Decidable True)

/-- The steps that leave the family's registration to itself. -/
abbrev FamilyStep (p : Programs W) :
    State W × Watch W → CallRouting.Event → State W × Watch W → Prop :=
  Guarded Undisturbed (Beside (watch p) (CallRouting.Step p))

def familyNext (p : Programs W) :
    State W × Watch W → CallRouting.Event → Option (State W × Watch W) :=
  guardedNext Undisturbed (besideNext (watch p) (CallRouting.next p))

theorem familyNext_sound (p : Programs W) (x : State W × Watch W) (e : CallRouting.Event)
    (y : State W × Watch W) (h : familyNext p x e = some y) : FamilyStep p x e y :=
  guardedNext_sound (besideNext_sound (CallRouting.next_sound p)) x e y h

def AllOn (k : Kernel) (family : Family) (m : Addr) (sv : BitVec 32) (r : ModuleReg) : Prop :=
  ∀ pid, family pid = true → (abstraction k).view pid = (true, some (m, sv)) ∧
    k.mods.lookup m = some r

def confinedRoute (sv : BitVec 32) (op : Addr) (call : Call) : Route :=
  if isRead call then .original
  else if sv.getLsbD (readmeBit call) then .asks op else .forbidden

section
variable {p : Programs W} {s t : State W} {family : Family} {m : Addr} {sv : BitVec 32}
  {r : ModuleReg}

theorem AllOn.route (h : AllOn s.kernel family m sv r) {pid : Pid} (hf : family pid = true)
    (call : Call) : (routing s).route pid call = some (confinedRoute sv r.sysOp call) := by
  obtain ⟨hview, hr⟩ := h pid hf
  have hmap : (routing s).registry.map pid = some (m, sv) := congrArg Prod.snd hview
  have hentry : (routing s).entry m = some r.sysOp := congrArg (Option.map _) hr
  rw [Routing.route, hmap, confinedRoute]
  simp only [hentry]
  cases isRead call with
  | true => rfl
  | false => cases sv.getLsbD (readmeBit call) <;> rfl

theorem AllOn.not_unused (h : AllOn s.kernel family m sv r) (hi : Invariant s.kernel) {pid : Pid}
    (hf : family pid = true) {m' : Addr} (hu : Unused s.kernel m') : m ≠ m' := by
  rintro rfl
  obtain ⟨hview, hr⟩ := h pid hf
  obtain ⟨r', hr', hz⟩ := unused_iff.mp hu
  obtain rfl := Option.some.inj (hr.symm.trans hr')
  have hreg : registration s.kernel pid = some (m, sv) := congrArg Prod.snd hview
  obtain ⟨v, hv, hentry⟩ := Option.map_eq_some_iff.mp hreg
  obtain ⟨t, ht, hv⟩ := Option.bind_eq_some_iff.mp hv
  have hne := no_record_of_refcnt_zero hi.consistent hr hz
    (KeyedList.mem_of_lookup ht).1 hv
  exact hne (congrArg Prod.fst hentry)

theorem used_kept {k k' : Kernel} (hi : Invariant k) {e : ReferenceCounts.Event}
    (hs : ReferenceCounts.Step k e k') {m : Addr} {r : ModuleReg} (hr : k.mods.lookup m = some r)
    (hused : ¬ Unused k m) : k'.mods.lookup m = some r := by
  rw [mods_step hi hs]
  obtain ⟨he, -⟩ := hs
  cases e with
  | moduleRegister m' reg node =>
    have hne : m ≠ m' := by
      rintro rfl
      rw [he.1.1] at hr
      cases hr
    rw [modsStep, AList.lookup_insert_ne hne, hr]
  | moduleDeregister m' =>
    have hne : m ≠ m' := by
      rintro rfl
      exact hused he
    rw [modsStep, AList.lookup_erase_ne hne, hr]
  | _ => exact hr

theorem view_undisturbed (a : Registry) {msg : IoctlArg} {pid : Pid}
    (h : msg.pid = pid → Lost a msg) : (a.assign msg).view pid = a.view pid := by
  by_cases hpid : msg.pid = pid
  · rcases h hpid with hdead | ⟨hv, hno⟩
    · rw [Registry.assign, hdead]
      rfl
    · rw [Registry.assign, if_neg hv, hno]
      split <;> rfl
  · exact view_assign_ne a hpid

theorem view_descend {a : Registry} {x : Option (Addr × BitVec 32)}
    (hall : ∀ pid, family pid = true → a.view pid = (true, x)) {e : ReferenceCounts.Event}
    (hquiet : ∀ msg, RegistrationMap.Event.message e = some msg → family msg.pid = true →
      Lost a msg)
    (hfresh : ∀ parent child, e = .fork parent child → a.live child = false) {pid : Pid}
    (hf : descend family (.kernel e) pid = true) : (a.step e).view pid = (true, x) := by
  cases e with
  | moduleRegister => exact hall pid hf
  | moduleDeregister => exact hall pid hf
  | ioctlSet msg =>
    rw [← hall pid hf]
    exact view_undisturbed a fun hpid => hquiet msg rfl (hpid ▸ hf)
  | clone2 forkRet args =>
    rw [← hall pid hf]
    exact view_undisturbed a fun hpid => hquiet _ rfl (hpid ▸ hf)
  | exitGroup q =>
    have hne : pid ≠ q := by
      rintro rfl
      simp [descend] at hf
    rw [descend, Function.update_of_ne hne] at hf
    rw [view_step_other a (by simpa [addressedTo] using hne.symm) rfl, hall pid hf]
  | fork parent child =>
    by_cases hc : pid = child
    · subst hc
      cases hp : family parent with
      | true =>
        have hmap : a.map parent = x := congrArg Prod.snd (hall parent hp)
        simp [Registry.step, Registry.view, hmap]
      | false =>
        -- A member is alive, so its number is not a new child's.
        rw [descend, hp] at hf
        have hlive : a.live pid = true := congrArg Prod.fst (hall pid hf)
        rw [hfresh parent pid rfl] at hlive
        cases hlive
    · have hmember : family pid = true := by
        rw [descend] at hf
        split at hf
        · rwa [Function.update_of_ne hc] at hf
        · exact hf
      rw [view_step_other a rfl (by simpa [forksInto] using Ne.symm hc), hall pid hmember]

theorem not_live_of_fork {k : Kernel} {e : ReferenceCounts.Event} (he : ReferenceCounts.Enabled k e)
    (parent child : Pid) (hfork : e = .fork parent child) :
    (abstraction k).live child = false := by
  subst hfork
  simp [abstraction, he.2]

theorem member_of_descend {e : CallRouting.Event} {pid : Pid} (hf : descend family e pid = true) :
    ∃ q, family q = true := by
  by_contra hno
  have hnone (q : Pid) : family q = false := by simpa using fun hq => hno ⟨q, hq⟩
  cases e with
  | call => exact absurd hf (by simp [descend, hnone])
  | kernel e =>
    cases e with
    | exitGroup q =>
      by_cases hq : pid = q
      · subst hq
        simp [descend] at hf
      · simp [descend, Function.update_of_ne hq, hnone] at hf
    | _ => exact absurd hf (by simp [descend, hnone])

theorem AllOn.kernel_step (h : AllOn s.kernel family m sv r) (hi : Invariant s.kernel)
    {e : ReferenceCounts.Event} {k : Kernel} (hs : ReferenceCounts.Step s.kernel e k)
    (hquiet : ∀ msg, RegistrationMap.Event.message e = some msg → family msg.pid = true →
      Lost (abstraction s.kernel) msg) : AllOn k (descend family (.kernel e)) m sv r := by
  intro pid hf
  obtain ⟨q, hq⟩ := member_of_descend hf
  constructor
  · rw [step_simulates hi hs]
    exact view_descend (fun q hq => (h q hq).1) hquiet (not_live_of_fork hs.1) hf
  · exact used_kept hi hs (h q hq).2 fun hu => h.not_unused hi hq hu rfl

/-- The members are where they were registered, and so were those whose calls were seen. -/
structure Confined (p : Programs W) (m : Addr) (sv : BitVec 32) (r : ModuleReg)
    (x : State W × Watch W) : Prop where
  invariant : Invariant x.1.kernel
  members : AllOn x.1.kernel x.2.family m sv r
  seen : ∀ c ∈ x.2.seen,
    c.outcome = take p c.pid c.call c.world (confinedRoute sv r.sysOp c.call)

theorem step_confined (x : State W × Watch W) (e : CallRouting.Event) (y : State W × Watch W)
    (h : Confined p m sv r x) (hs : FamilyStep p x e y) : Confined p m sv r y := by
  obtain ⟨s, w⟩ := x
  obtain ⟨t, w'⟩ := y
  obtain ⟨hquiet, hs, hw⟩ := hs
  obtain rfl : w' = watch p w s e := hw
  have hi := CallRouting.step_invariant s e t h.invariant hs
  cases e with
  | kernel e =>
    obtain ⟨k, hk, rfl⟩ := kernel_step hs
    refine ⟨hi, h.members.kernel_step h.invariant hk hquiet, ?_⟩
    simpa [watch, newlySeen] using h.seen
  | call pid call =>
    obtain ⟨route, hroute, rfl⟩ := call_step h.invariant.consistent hs
    refine ⟨hi, h.members, ?_⟩
    intro c hc
    rcases List.mem_append.mp hc with hc | hc
    · exact h.seen c hc
    · rw [newlySeen] at hc
      split at hc
      · next hf =>
        obtain ⟨route', hroute', ho⟩ :=
          outcome_routed (p := p) h.invariant.consistent hs.1 call
        rw [h.members.route hf call] at hroute'
        obtain rfl := Option.some.inj hroute'
        rw [ho] at hc
        obtain rfl := List.mem_singleton.mp hc
        rfl
      · cases hc

theorem start_confined (h : Reachable CallRouting.Initial (CallRouting.Step p) s)
    (hf : ∀ pid, family pid = true → registration s.kernel pid = some (m, sv))
    (hr : s.kernel.mods.lookup m = some r) : Confined p m sv r (s, ⟨family, []⟩) := by
  refine ⟨CallRouting.reachable_invariant h, ?_, by simp⟩
  intro pid hpid
  refine ⟨?_, hr⟩
  have hreg := hf pid hpid
  obtain ⟨v, hv, -⟩ := Option.map_eq_some_iff.mp hreg
  obtain ⟨t, ht, -⟩ := Option.bind_eq_some_iff.mp hv
  simp only [Registry.view, abstraction, hreg, ht, Option.isSome_some]

/-- Once all of a family is on one module, every descendant stays on it, alive and with the
same vector, and every call of theirs takes the way that the vector gives it, whatever the
other tasks do: as long as no message with an effect is addressed to a member. -/
theorem descendants_confined (h : Reachable CallRouting.Initial (CallRouting.Step p) s)
    (hf : ∀ pid, family pid = true → registration s.kernel pid = some (m, sv))
    (hr : s.kernel.mods.lookup m = some r) {es : List CallRouting.Event} {x : Watch W}
    (hrun : Run (FamilyStep p) (s, ⟨family, []⟩) es (t, x)) :
    (∀ pid, x.family pid = true →
      (abstraction t.kernel).view pid = (true, some (m, sv)) ∧ t.kernel.mods.lookup m = some r) ∧
    ∀ c ∈ x.seen, c.outcome = take p c.pid c.call c.world (confinedRoute sv r.sysOp c.call) := by
  have hend := hrun.invariant step_confined (start_confined h hf hr)
  exact ⟨hend.members, hend.seen⟩

/-- The entry point `op` is the protect module's; `memory` is what it sees of the world. -/
def Protects (p : Programs W) (order : EvalOrder) (memory : W → Memory) (op : Addr) : Prop :=
  ∀ pid req w ret, systemCallEntry (memory w) order req = some ret → p.sysOp pid op req w = (ret, w)

section protect
variable {order : EvalOrder} {memory : W → Memory} {op : Addr} {pid : Pid} {call : Call}
  {name : Addr} {w : W}

theorem asked_verdict (pid : Pid) (hp : Protects p order memory op)
    (hname : checkedName order call = some name)
    (hstring : (strlen ((memory w).drop name)).isSome) :
    p.sysOp pid op (requestOf call) w =
      (if IsProtected (memory w) name then eperm else 0, w) :=
  hp pid _ w _ ((entry_checked hname (memory w) (argCount call)).trans (refuseProtected_eq hstring))

theorem take_protected (hp : Protects p order memory op)
    (hname : checkedName order call = some name)
    (hstring : (strlen ((memory w).drop name)).isSome) (h : IsProtected (memory w) name) :
    take p pid call w (.asks op) = ⟨eperm.signExtend 64, w, [.sysOp op (requestOf call)]⟩ := by
  have hneg : eperm.slt 0 = true := by decide
  have hasked := asked_verdict pid hp hname hstring
  rw [if_pos h] at hasked
  rw [take_refused (by rw [hasked]; exact hneg), hasked]

theorem take_unprotected (hp : Protects p order memory op)
    (hname : checkedName order call = some name)
    (hstring : (strlen ((memory w).drop name)).isSome) (h : ¬ IsProtected (memory w) name) :
    take p pid call w (.asks op) =
      let o := take p pid call w .original
      { o with invoked := .sysOp op (requestOf call) :: o.invoked } := by
  have hzero : ¬ (0 : BitVec 32).slt 0 = true := by decide
  have hasked := asked_verdict pid hp hname hstring
  rw [if_neg h] at hasked
  rw [take_agreed (by rw [hasked]; exact hzero), hasked]

/-- What a call by the name `name` comes to for a task on the protect module. -/
structure GuardedCall (p : Programs W) (memory : W → Memory) (sv : BitVec 32) (op name : Addr)
    (c : Seen W) : Prop where
  refused : IsProtected (memory c.world) name →
    c.outcome.world = c.world ∧ (∀ a call, Invocation.original a call ∉ c.outcome.invoked) ∧
      c.outcome.result = if sv.getLsbD (readmeBit c.call) then eperm.signExtend 64 else eopnotsupp
  passed : ¬ IsProtected (memory c.world) name → sv.getLsbD (readmeBit c.call) = true →
    (c.outcome.result, c.outcome.world) =
        p.kernelCode c.pid (p.sys c.call.number) c.call c.world ∧
      c.outcome.invoked =
        [.sysOp op (requestOf c.call), .original (p.sys c.call.number) c.call]

theorem guardedCall_take (hp : Protects p order memory op) {c : Seen W}
    (hname : checkedName order c.call = some name)
    (hstring : (strlen ((memory c.world).drop name)).isSome)
    (ho : c.outcome = take p c.pid c.call c.world (confinedRoute sv op c.call)) :
    GuardedCall p memory sv op name c := by
  rw [confinedRoute, (checkedName_mem hname).2] at ho
  constructor
  · intro h
    cases hbit : sv.getLsbD (readmeBit c.call) with
    | true =>
      simp only [hbit, Bool.false_eq_true, if_false, if_true] at ho
      rw [ho, take_protected hp hname hstring h]
      simp
    | false =>
      simp only [hbit, Bool.false_eq_true, if_false] at ho
      rw [ho]
      simp [take]
  · intro h hbit
    simp only [hbit, Bool.false_eq_true, if_false, if_true] at ho
    rw [ho, take_unprotected hp hname hstring h]
    exact ⟨rfl, rfl⟩

/-- No descendant of a task on the protect module ever has an original run on a checked name
that is protected when the call is made; with their bit set the other calls by name pass
through unchanged. -/
theorem descendants_guarded (h : Reachable CallRouting.Initial (CallRouting.Step p) s)
    (hf : ∀ pid, family pid = true → registration s.kernel pid = some (m, sv))
    (hr : s.kernel.mods.lookup m = some r) (hp : Protects p order memory r.sysOp)
    {es : List CallRouting.Event} {x : Watch W}
    (hrun : Run (FamilyStep p) (s, ⟨family, []⟩) es (t, x)) :
    ∀ c ∈ x.seen, ∀ name, checkedName order c.call = some name →
      (strlen ((memory c.world).drop name)).isSome → GuardedCall p memory sv r.sysOp name c := by
  intro c hc name hname hstring
  have hend := hrun.invariant step_confined (start_confined h hf hr)
  exact guardedCall_take hp hname hstring (hend.seen c hc)

end protect

end

def protectPrograms : Programs Memory where
  kernelCode := fun _ _ _ w => (0, w)
  sysOp := fun _ _ req w => ((systemCallEntry w .rightToLeft req).getD 0, w)
  sys := id

theorem protectPrograms_protects (op : Addr) : Protects protectPrograms .rightToLeft id op := by
  intro pid req w ret hret
  simp only [protectPrograms, id] at hret ⊢
  rw [hret, Option.getD_some]

def protectStart : State Memory := ⟨boot [⟨7, none⟩, ⟨9, none⟩], twoNames, []⟩

theorem protectStart_initial : CallRouting.Initial protectStart :=
  ⟨⟨_, rfl, by decide, by decide⟩, rfl⟩

def protectSetup : List CallRouting.Event :=
  [.kernel (.moduleRegister 10 ⟨100, protectModule, 50⟩ 1),
    .kernel (.ioctlSet ⟨1023, 7, protectModule⟩)]

def protectRun : List CallRouting.Event :=
  [.kernel (.fork 7 8), .kernel (.exitGroup 7), .kernel (.ioctlSet ⟨1, 9, protectModule⟩),
    .call 8 (.unlink 0), .call 8 (.unlink 11)]

def onlySeven : Family := fun pid => decide (pid = 7)

theorem protectRun_runs : ∃ s t x,
    Reachable CallRouting.Initial (CallRouting.Step protectPrograms) s ∧
    (∀ pid, onlySeven pid = true → registration s.kernel pid = some (10, 1023)) ∧
    s.kernel.mods.lookup 10 = some ⟨100, protectModule, 50⟩ ∧
    Run (FamilyStep protectPrograms) (s, ⟨onlySeven, []⟩) protectRun (t, x) ∧
    x.seen.map (fun c => (c.call, c.world)) = [(.unlink 0, twoNames), (.unlink 11, twoNames)] := by
  have h : ((replay (CallRouting.next protectPrograms) protectStart protectSetup).any fun s =>
      registration s.kernel 7 = some (10, 1023) &&
      s.kernel.mods.lookup 10 = some ⟨100, protectModule, 50⟩ &&
      (replay (familyNext protectPrograms) (s, ⟨onlySeven, []⟩) protectRun).any fun y =>
        y.2.seen.map (fun c => (c.call, c.world)) =
          [(.unlink 0, twoNames), (.unlink 11, twoNames)]) = true := by decide
  obtain ⟨s, hs, h⟩ := replay_reaches (CallRouting.next_sound protectPrograms) h
  simp only [Bool.and_eq_true, decide_eq_true_eq] at h
  obtain ⟨⟨hreg, hr⟩, hrun⟩ := h
  obtain ⟨y, hrun, hseen⟩ := replay_reaches (familyNext_sound protectPrograms) hrun
  refine ⟨s, y.1, y.2, ⟨_, _, protectStart_initial, hs⟩, ?_, hr, hrun, of_decide_eq_true hseen⟩
  intro pid hpid
  obtain rfl := of_decide_eq_true hpid
  exact hreg

theorem descendants_confined_protectRun : ∃ (t : State Memory) (x : Watch Memory),
    (∀ pid, x.family pid = true →
      (abstraction t.kernel).view pid = (true, some (10, 1023)) ∧
      t.kernel.mods.lookup 10 = some ⟨100, protectModule, 50⟩) ∧
    x.seen.length = 2 ∧ ∀ c ∈ x.seen, c.outcome =
      take protectPrograms c.pid c.call c.world (confinedRoute 1023 50 c.call) := by
  obtain ⟨s, t, x, h, hf, hr, hrun, hseen⟩ := protectRun_runs
  obtain ⟨hmembers, hcalls⟩ := descendants_confined h hf hr hrun
  have hlength := congrArg List.length hseen
  rw [List.length_map] at hlength
  exact ⟨t, x, hmembers, hlength, hcalls⟩

theorem descendants_guarded_protectRun :
    ∃ (x : Watch Memory) (c : Seen Memory), c ∈ x.seen ∧ c.call = .unlink 0 ∧
      c.world = twoNames ∧ GuardedCall protectPrograms id 1023 50 0 c := by
  obtain ⟨s, t, x, h, hf, hr, hrun, hseen⟩ := protectRun_runs
  have hfirst : (Call.unlink 0, twoNames) ∈ x.seen.map fun c => (c.call, c.world) := by
    rw [hseen]
    exact List.mem_cons_self
  obtain ⟨c, hc, hcall⟩ := List.mem_map.mp hfirst
  obtain ⟨hcall, hworld⟩ := Prod.mk.inj hcall
  refine ⟨x, c, hc, hcall, hworld, ?_⟩
  apply descendants_guarded h hf hr (protectPrograms_protects 50) hrun c hc 0
  · rw [hcall]
    rfl
  · rw [hworld]
    decide

end Descendants
