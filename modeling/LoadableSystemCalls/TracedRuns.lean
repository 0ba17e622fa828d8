import LoadableSystemCalls.CallRouting
import LoadableSystemCalls.GuardedWrite

/-! # The trace log over whole runs

Between trace_init and trace_exit, while tasks are registered, fork, call and exit in any
order. The log grows by the calls that are routed to the trace module and by nothing else. -/
namespace TracedRuns

open KernelTypes ReferenceCounts RegistrationMap SyscallHooks CallRouting TransitionRuns
open CStrings ProtectModule TraceLog GuardedWrite

/-- What the world shows to the trace module: the callers' memory, and its own state. -/
structure Tracing (W : Type*) where
  order : EvalOrder
  memory : W → Memory
  log : W → TraceState
  op : Addr

variable {W : Type*} (tr : Tracing W) (p : Programs W)

/-- The entry point `tr.op` is the trace module's, and nothing else writes to its state. -/
structure Tracing.Runs : Prop where
  entry : ∀ pid req w s, traceSystemCallEntry tr.order (tr.memory w) pid req (tr.log w) = some s →
    (p.sysOp pid tr.op req w).1 = 0 ∧ tr.log (p.sysOp pid tr.op req w).2 = s
  others : ∀ pid op req w, op ≠ tr.op → tr.log (p.sysOp pid op req w).2 = tr.log w
  originals : ∀ pid a call w, tr.log (p.kernelCode pid a call w).2 = tr.log w

def Tracing.traced (s : State W) (pid : Pid) (call : Call) : Option TraceCall :=
  if (routing s).route pid call = some (.asks tr.op) then
    traceCall tr.order (tr.memory s.world) (requestOf call)
  else none

def Tracing.collect (cs : List (Pid × TraceCall)) (s : State W) :
    CallRouting.Event → List (Pid × TraceCall)
  | .call pid call => cs ++ (tr.traced s pid call).toList.map fun c => (pid, c)
  | .kernel _ => cs

/-- The module stays loaded, and no traced call runs off a string or a page. -/
def Tracing.Sound (x : State W × List (Pid × TraceCall)) : CallRouting.Event → Prop
  | .kernel (.moduleRegister _ reg _) => reg.sysOp ≠ tr.op
  | .kernel (.moduleDeregister m) => entryPoint x.1.kernel m ≠ some tr.op
  | .kernel _ => True
  | .call pid call => (routing x.1).route pid call = some (.asks tr.op) →
      (traceSystemCallEntry tr.order (tr.memory x.1.world) pid (requestOf call)
        (tr.log x.1.world)).isSome

abbrev Tracing.Session : State W × List (Pid × TraceCall) → CallRouting.Event →
    State W × List (Pid × TraceCall) → Prop :=
  Guarded tr.Sound (Beside tr.collect (CallRouting.Step p))

def Made.asked (op : Addr) (c : Made) : Bool := c.invoked.any fun i =>
  match i with
  | .sysOp op' _ => op' = op
  | .original _ _ => false

section
variable {tr p} {s t : State W} {pid : Pid} {call : Call}

theorem take_log (ht : tr.Runs p) {w : W} {route : Route} (hroute : route ≠ .asks tr.op) :
    tr.log (take p pid call w route).world = tr.log w := by
  cases route with
  | original => exact ht.originals pid _ call w
  | forbidden => rfl
  | asks op =>
    have hne : op ≠ tr.op := fun h => hroute (congrArg _ h)
    by_cases hneg : (p.sysOp pid op (requestOf call) w).1.slt 0 = true
    · rw [take_refused hneg]
      exact ht.others pid op _ w hne
    · rw [take_agreed hneg]
      exact (ht.originals pid _ call _).trans (ht.others pid op _ w hne)

theorem take_traced (ht : tr.Runs p) {w : W} {u : TraceState}
    (hu : traceSystemCallEntry tr.order (tr.memory w) pid (requestOf call) (tr.log w) = some u) :
    ∃ w', tr.log w' = u ∧ take p pid call w (.asks tr.op) =
      let o := take p pid call w' .original
      { o with invoked := .sysOp tr.op (requestOf call) :: o.invoked } := by
  obtain ⟨hret, hlog⟩ := ht.entry pid _ w u hu
  have hzero : ¬ (0 : BitVec 32).slt 0 = true := by decide
  exact ⟨_, hlog, take_agreed (by rw [hret]; exact hzero)⟩

theorem asked_take (pid : Pid) (call : Call) (w : W) (route : Route) (op : Addr) :
    Made.asked op ⟨pid, call, (take p pid call w route).result,
      (take p pid call w route).invoked⟩ = decide (route = .asks op) := by
  cases route with
  | original => rfl
  | forbidden => rfl
  | asks op' =>
    by_cases hneg : (p.sysOp pid op' (requestOf call) w).1.slt 0 = true
    · rw [take_refused hneg]
      simp [Made.asked]
    · rw [take_agreed hneg]
      simp [Made.asked, take]

theorem traced_asked {x : State W × List (Pid × TraceCall)} (hs : tr.Sound x (.call pid call))
    (hroute : (routing x.1).route pid call = some (.asks tr.op)) :
    ∃ c u, tr.traced x.1 pid call = some c ∧ TraceLog.perform (tr.log x.1.world) (pid, c) = some u ∧
      traceSystemCallEntry tr.order (tr.memory x.1.world) pid (requestOf call) (tr.log x.1.world) =
        some u := by
  obtain ⟨u, hu⟩ := Option.isSome_iff_exists.mp (hs hroute)
  obtain ⟨c, hc, hperform⟩ := Option.bind_eq_some_iff.mp hu
  exact ⟨c, u, by rw [Tracing.traced, if_pos hroute, hc], hperform, hu⟩

end

/-- The calls collected are those that asked the module, in order, and each of these went on
to its original. -/
structure Recorded (made : List Made) (cs : List (Pid × TraceCall)) : Prop where
  callers : cs.map Prod.fst = (made.filter (Made.asked tr.op)).map Made.pid
  originals : ∀ c ∈ made, Made.asked tr.op c = true →
    Invocation.original (p.sys c.call.number) c.call ∈ c.invoked

structure Tracked (start : TraceState) (before : List Made)
    (x : State W × List (Pid × TraceCall)) : Prop where
  invariant : Invariant x.1.kernel
  log : replay TraceLog.perform start x.2 = some (tr.log x.1.world)
  made : ∃ made, x.1.made = before ++ made ∧ Recorded tr p made x.2

section
variable {tr p} {s t : State W} {made : List Made} {cs : List (Pid × TraceCall)}

theorem Recorded.unasked (h : Recorded tr p made cs) {new : Made}
    (hnew : Made.asked tr.op new = false) : Recorded tr p (made ++ [new]) cs := by
  constructor
  · rw [h.callers, List.filter_append, List.filter_cons_of_neg (by simp [hnew])]
    simp
  · intro c hc hasked
    rcases List.mem_append.mp hc with hc | hc
    · exact h.originals c hc hasked
    · obtain rfl := List.mem_singleton.mp hc
      rw [hnew] at hasked
      cases hasked

theorem Recorded.asked (h : Recorded tr p made cs) {new : Made}
    (hnew : Made.asked tr.op new = true)
    (horiginal : Invocation.original (p.sys new.call.number) new.call ∈ new.invoked)
    (c : TraceCall) : Recorded tr p (made ++ [new]) (cs ++ [(new.pid, c)]) := by
  constructor
  · rw [List.map_append, h.callers, List.filter_append, List.filter_cons_of_pos hnew]
    simp
  · intro c hc hasked
    rcases List.mem_append.mp hc with hc | hc
    · exact h.originals c hc hasked
    · obtain rfl := List.mem_singleton.mp hc
      exact horiginal

theorem step_tracked (ht : tr.Runs p) {start : TraceState} {before : List Made}
    (x : State W × List (Pid × TraceCall)) (e : CallRouting.Event)
    (y : State W × List (Pid × TraceCall)) (h : Tracked tr p start before x)
    (hs : tr.Session p x e y) : Tracked tr p start before y := by
  obtain ⟨s, cs⟩ := x
  obtain ⟨t, cs'⟩ := y
  obtain ⟨hsound, hs, hcs⟩ := hs
  obtain rfl : cs' = tr.collect cs s e := hcs
  have hi := CallRouting.step_invariant s e t h.invariant hs
  cases e with
  | kernel e =>
    obtain ⟨k, -, rfl⟩ := kernel_step hs
    exact ⟨hi, h.log, h.made⟩
  | call pid call =>
    obtain ⟨route, hroute, rfl⟩ := call_step h.invariant.consistent hs
    obtain ⟨made, hmade, hrecorded⟩ := h.made
    have hasked := asked_take (p := p) pid call s.world route tr.op
    have hlast : (s.returned pid call (take p pid call s.world route)).made =
        before ++ (made ++ [⟨pid, call, (take p pid call s.world route).result,
          (take p pid call s.world route).invoked⟩]) := by
      rw [← List.append_assoc, ← hmade]
      rfl
    by_cases hasks : route = .asks tr.op
    · subst hasks
      obtain ⟨c, u, hc, hperform, hentry⟩ := traced_asked hsound hroute
      obtain ⟨w', hlog, htake⟩ := take_traced (p := p) ht hentry
      have hcollect : tr.collect cs s (.call pid call) = cs ++ [(pid, c)] := by
        rw [Tracing.collect, hc]
        rfl
      refine ⟨hi, ?_, _, hlast, ?_⟩
      · have hworld : tr.log (take p pid call s.world (.asks tr.op)).world = u := by
          rw [htake, ← hlog]
          exact ht.originals pid _ call w'
        rw [hcollect, replay_append, h.log, Option.bind_some, replay, hperform]
        exact congrArg some hworld.symm
      · rw [hcollect]
        refine hrecorded.asked (hasked.trans (decide_eq_true rfl)) ?_ c
        rw [htake]
        simp [take]
    · have hnone : tr.traced s pid call = none := by
        rw [Tracing.traced, if_neg]
        intro hasked
        exact hasks (Option.some.inj (hroute.symm.trans hasked))
      have hcollect : tr.collect cs s (.call pid call) = cs := by
        rw [Tracing.collect, hnone]
        simp
      refine ⟨hi, ?_, _, hlast, ?_⟩
      · rw [hcollect]
        exact h.log.trans (congrArg some (take_log ht hasks).symm)
      · rw [hcollect]
        exact hrecorded.unasked (hasked.trans (decide_eq_false hasks))

theorem short_of_replay {u v : TraceState} (h : replay TraceLog.perform u cs = some v) :
    ∀ c ∈ cs, (c.2.record c.1).length < pageSize := by
  induction cs generalizing u with
  | nil => simp
  | cons c cs ih =>
    obtain ⟨w, hw, hrest⟩ := Option.bind_eq_some_iff.mp h
    intro x hx
    rcases List.mem_cons.mp hx with rfl | hx
    · by_contra hlong
      rw [perform_eq, addRecord, if_pos rfl, if_neg hlong] at hw
      cases hw
    · exact ih hrest x hx

/-- What is in the log file after trace_exit is what the calls routed to the trace module
give, in order, each under its caller's number and each passed on to its original; and these
are their records byte for byte if and only if the page that trace_init got was zero at
the end of each batch and no batch is shorter than the one before. -/
theorem log_follows_calls (h : Reachable CallRouting.Initial (CallRouting.Step p) s)
    (ht : tr.Runs p) {page : List Byte} (hpage : page.length = pageSize)
    (hstart : tr.log s.world = traceInit page) {es : List CallRouting.Event}
    (hrun : Run (tr.Session p) (s, []) es (t, cs)) :
    (∃ made, t.made = s.made ++ made ∧ Recorded tr p made cs) ∧
    logged page cs = (traceExit (tr.log t.world)).map (fun u => u.written.flatten) ∧
    (logged page cs = some (records cs).flatten ↔
      (∀ n ∈ batches 0 ((records cs).map List.length), page[n]? = some 0) ∧
      (batches 0 ((records cs).map List.length)).Pairwise (· ≤ ·)) := by
  have htracked : Tracked tr p (traceInit page) s.made (s, []) := by
    refine ⟨CallRouting.reachable_invariant h, congrArg some hstart.symm, [], by simp, rfl, ?_⟩
    simp
  have hend := hrun.invariant (step_tracked ht) htracked
  refine ⟨hend.made, ?_, ?_⟩
  · rw [logged, hend.log]
    rfl
  · rw [logged_eq_finish, ← clean_iff]
    exact finish_exact_iff (holds_init hpage) (records_loggable (short_of_replay hend.log))

end

def tracePrograms : Programs (TraceState × Memory) where
  kernelCode := fun _ _ _ w => (0, w)
  sysOp := fun pid op req w =>
    if op = 50 then (0, (traceSystemCallEntry .rightToLeft w.2 pid req w.1).getD w.1, w.2)
    else (0, w)
  sys := id

def sampleTracing : Tracing (TraceState × Memory) := ⟨.rightToLeft, Prod.snd, Prod.fst, 50⟩

theorem sampleTracing_runs : sampleTracing.Runs tracePrograms where
  entry := by
    intro pid req w s hs
    simp only [sampleTracing] at hs ⊢
    simp only [tracePrograms, if_true, hs, Option.getD_some, and_self]
  others := by
    intro pid op req w hop
    have hne : op ≠ 50 := hop
    simp only [tracePrograms, if_neg hne]
  originals := by
    intro pid a call w
    rfl

def zeroPage : List Byte := List.replicate pageSize 0

def traceStart : State (TraceState × Memory) := ⟨boot [⟨1, none⟩], (traceInit zeroPage, []), []⟩

def traceSetup : List CallRouting.Event :=
  [.kernel (.moduleRegister 10 ⟨100, traceModule, 50⟩ 1),
    .kernel (.ioctlSet ⟨1023, 1, traceModule⟩)]

theorem traceSetup_runs : ∃ s, Reachable CallRouting.Initial (CallRouting.Step tracePrograms) s ∧
    s.world = (traceInit zeroPage, []) ∧ (findTask 1 s.kernel.tasks).isSome ∧
    (routing s).route 1 (.close 3) = some (.asks 50) := by
  have h : (replay (CallRouting.next tracePrograms) traceStart traceSetup).map
      (fun s => (s.world, (findTask 1 s.kernel.tasks).isSome, (routing s).route 1 (.close 3))) =
      some ((traceInit zeroPage, []), true, some (.asks 50)) := by rfl
  obtain ⟨s, hs, hfacts⟩ := Option.map_eq_some_iff.mp h
  simp only [Prod.mk.injEq] at hfacts
  exact ⟨s, ⟨_, _, ⟨⟨_, rfl, by decide, by decide⟩, rfl⟩,
    replay_sound (CallRouting.next_sound tracePrograms) hs⟩, hfacts⟩

theorem oneClose_session : ∃ s t,
    Reachable CallRouting.Initial (CallRouting.Step tracePrograms) s ∧
    sampleTracing.log s.world = traceInit zeroPage ∧
    Run (sampleTracing.Session tracePrograms) (s, []) [.call 1 (.close 3)] (t, oneClose) := by
  obtain ⟨s, hreach, hworld, hlive, hroute⟩ := traceSetup_runs
  have hfit := oneClose_fits (1, .close 3) (List.mem_singleton_self _)
  have hlog : sampleTracing.log s.world = traceInit zeroPage := congrArg Prod.fst hworld
  have hasks : (routing s).route 1 (.close 3) = some (.asks sampleTracing.op) := hroute
  have hcall : traceCall sampleTracing.order (sampleTracing.memory s.world) (requestOf (.close 3)) =
      some (.close 3) := rfl
  obtain ⟨u, hu⟩ : ∃ u, TraceLog.perform (traceInit zeroPage) (1, .close 3) = some u := by
    rw [perform_eq]
    rcases addRecord_effect (holds_init (List.length_replicate ..)) (record_loggable hfit) with
      ⟨-, u, hu, -⟩ | ⟨hlong, -⟩
    · exact ⟨u, hu⟩
    · rw [List.length_nil, Nat.zero_add] at hlong
      exact absurd hfit (Nat.not_lt.mpr hlong)
  obtain ⟨t, ht⟩ := CallRouting.enabled_step (p := tracePrograms)
    (CallRouting.reachable_invariant hreach) (e := .call 1 (.close 3)) hlive
  refine ⟨s, t, hreach, hlog, Run.snoc (.nil _) ⟨?_, ht, ?_⟩⟩
  · intro _
    rw [traceSystemCallEntry, hlog, hcall, Option.bind_some, hu]
    rfl
  · have htraced : sampleTracing.traced s 1 (.close 3) = some (.close 3) :=
      (if_pos hasks).trans hcall
    rw [Tracing.collect, htraced]
    rfl

theorem log_follows_calls_oneClose : ∃ t : State (TraceState × Memory),
    logged zeroPage oneClose = (traceExit t.world.1).map (fun u => u.written.flatten) ∧
    logged zeroPage oneClose = some (records oneClose).flatten := by
  obtain ⟨s, t, hreach, hlog, hrun⟩ := oneClose_session
  obtain ⟨-, hlogged, hexact⟩ := log_follows_calls hreach sampleTracing_runs
    (List.length_replicate ..) hlog hrun
  refine ⟨t, hlogged, hexact.mpr ?_⟩
  obtain ⟨n, hn, hb⟩ := oneClose_batches
  rw [hb]
  simpa [zeroPage, List.getElem?_replicate] using hn

end TracedRuns
