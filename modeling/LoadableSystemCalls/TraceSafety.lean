import LoadableSystemCalls.TraceLog

/-! # The pages of the trace module under any arguments (trace_module.c)

A record goes to a page of its own whatever its length, and a flush looks for a terminator
that only the allocator can have left. A fault of `attempt` is a write outside a page or a
strlen that finds no terminator. -/
namespace TraceSafety

open CStrings KernelTypes TransitionRuns TraceLog

/-- A call of a trace function; `kmallocOk` is the outcome of its allocation. -/
structure Attempt where
  kmallocOk : Bool
  pid : BitVec 32
  call : TraceCall

def attempt (s : TraceState) (a : Attempt) : Option TraceState :=
  match a.call with
  | .openFile path flags mode => traceOpen a.kmallocOk a.pid path flags mode s
  | .read fd pathName size => traceRead a.kmallocOk a.pid fd pathName size s
  | .close fd => traceClose a.kmallocOk a.pid fd s
  | .write fd pathName size => traceWrite a.kmallocOk a.pid fd pathName size s
  | .rmdir filename => traceRmdir a.kmallocOk a.pid filename s
  | .link oldname newname => traceLink a.kmallocOk a.pid oldname newname s
  | .symlink old new => traceSymlink a.kmallocOk a.pid old new s
  | .unlink pathname => traceUnlink a.kmallocOk a.pid pathname s
  | .rename oldname newname => traceRename a.kmallocOk a.pid oldname newname s
  | .mkdir pathname mode => traceMkdir a.kmallocOk a.pid pathname mode s

/-- Up to every call nothing was accessed outside its page, and the cursor is inside. -/
def Safe (page : List Byte) (as : List Attempt) : Prop :=
  ∀ before, before <+: as → ∃ s, replay attempt (traceInit page) before = some s ∧
    1 ≤ s.vacant ∧ s.vacant ≤ pageSize

def printed (as : List Attempt) : List (List Byte) :=
  (as.filter Attempt.kmallocOk).map fun a => a.call.record a.pid

def flushes (used : ℕ) : List ℕ → List ℕ
  | [] => []
  | n :: ns => if pageSize ≤ used + n then used :: flushes n ns else flushes (used + n) ns

/-- Each flush finds a zero behind its batch; behind a batch only later zeros are left. -/
def Terminated (zero : ℕ → Prop) : List ℕ → Prop
  | [] => True
  | u :: us => (∃ i, u ≤ i ∧ zero i) ∧ Terminated (fun i => zero i ∧ u ≤ i) us

theorem terminated_iff {zero : ℕ → Prop} {us : List ℕ} :
    Terminated zero us ↔ ∀ u ∈ us, ∃ i, u ≤ i ∧ zero i := by
  induction us generalizing zero with
  | nil => simp [Terminated]
  | cons u us ih =>
    rw [Terminated, ih, List.forall_mem_cons]
    apply and_congr_right
    intro hu
    constructor
    · intro h v hv
      obtain ⟨i, hi, hzero⟩ := h v hv
      exact ⟨i, hi, hzero.1⟩
    · intro h v hv
      -- the later of the two zeros serves both batches
      by_cases hle : u ≤ v
      · obtain ⟨i, hi, hzero⟩ := h v hv
        exact ⟨i, hi, hzero, hle.trans hi⟩
      · obtain ⟨i, hi, hzero⟩ := hu
        exact ⟨i, by omega, hzero, hi⟩

theorem terminated_congr {zero zero' : ℕ → Prop} {used : ℕ} {ns : List ℕ}
    (hns : ∀ n ∈ ns, n < pageSize) (h : ∀ i, used ≤ i → 0 < i → (zero i ↔ zero' i)) :
    Terminated zero (flushes used ns) ↔ Terminated zero' (flushes used ns) := by
  induction ns generalizing used with
  | nil => exact Iff.rfl
  | cons n ns ih =>
    have hn := hns n List.mem_cons_self
    have hns' : ∀ x ∈ ns, x < pageSize := fun x hx => hns x (List.mem_cons_of_mem n hx)
    rw [flushes]
    split
    · next hflush =>
      have hsame : ∀ i, used ≤ i → (zero i ↔ zero' i) := by
        intro i hi
        exact h i hi (by omega)
      have hlater : (fun i => zero i ∧ used ≤ i) = fun i => zero' i ∧ used ≤ i := by
        funext i
        apply propext
        exact and_congr_left (hsame i)
      have hfirst : (∃ i, used ≤ i ∧ zero i) ↔ ∃ i, used ≤ i ∧ zero' i := by
        apply exists_congr
        intro i
        exact and_congr_right (hsame i)
      rw [Terminated, Terminated, hlater, hfirst]
    · apply ih hns'
      intro i hi hpos
      exact h i (by omega) hpos

theorem vacant_bounds {chunk : List Byte} {s : TraceState} (h : Holds chunk s) :
    1 ≤ s.vacant ∧ s.vacant ≤ pageSize := by
  have hvacant := h.vacant
  have hfits := h.fits
  omega

theorem record_holds {chunk r : List Byte} {s t : TraceState} (h : Holds chunk s)
    (hr : Loggable r) (ht : addRecord true r s = some t) : ∃ chunk', Holds chunk' t := by
  rcases addRecord_effect h hr with ⟨-, t', ht', hholds, -⟩ |
    ⟨-, ⟨hnone, -⟩ | ⟨t', u, -, ht', hholds, -⟩⟩
  · have heq := Option.some.inj (ht'.symm.trans ht)
    exact ⟨chunk ++ r, heq ▸ hholds⟩
  · rw [hnone] at ht
    cases ht
  · have heq := Option.some.inj (ht'.symm.trans ht)
    exact ⟨r, heq ▸ hholds⟩

theorem records_hold {chunk : List Byte} {s t : TraceState} {rs : List (List Byte)}
    (h : Holds chunk s) (hrs : ∀ r ∈ rs, Loggable r)
    (ht : replay (fun s r => addRecord true r s) s rs = some t) : ∃ chunk', Holds chunk' t := by
  induction rs generalizing s chunk with
  | nil => exact ⟨chunk, Option.some.inj ht ▸ h⟩
  | cons r rs ih =>
    obtain ⟨u, hu, hrest⟩ := Option.bind_eq_some_iff.mp ht
    obtain ⟨chunk', hholds⟩ := record_holds h (hrs r List.mem_cons_self) hu
    exact ih hholds (fun x hx => hrs x (List.mem_cons_of_mem r hx)) hrest

theorem writeToFile_isSome {chunk : List Byte} {s : TraceState} (h : Holds chunk s) :
    (writeToFile s).isSome ↔ ∃ i, chunk.length ≤ i ∧ zeroAt s.writeFileBuff i := by
  have hstrlen : (writeToFile s).isSome ↔ 0 ∈ s.writeFileBuff := by
    rw [writeToFile, Option.isSome_map, strlen_isSome_iff]
    exact not_not
  apply hstrlen.trans
  constructor
  · intro hmem
    obtain ⟨i, hi⟩ := List.mem_iff_getElem?.mp hmem
    exact ⟨i, zeroAt_behind h hi, hi⟩
  · intro hzero
    obtain ⟨i, -, hi⟩ := hzero
    exact List.mem_of_getElem? hi

theorem records_run {chunk : List Byte} {s : TraceState} {rs : List (List Byte)}
    (h : Holds chunk s) (hrs : ∀ r ∈ rs, Loggable r) :
    (replay (fun s r => addRecord true r s) s rs).isSome ↔
      Terminated (zeroAt s.writeFileBuff) (flushes chunk.length (rs.map List.length)) := by
  induction rs generalizing s chunk with
  | nil => exact iff_of_true rfl trivial
  | cons r rs ih =>
    have hr := hrs r List.mem_cons_self
    have hrs' : ∀ x ∈ rs, Loggable x := fun x hx => hrs x (List.mem_cons_of_mem r hx)
    have hns : ∀ n ∈ rs.map List.length, n < pageSize := by
      intro n hn
      obtain ⟨x, hx, rfl⟩ := List.mem_map.mp hn
      exact (hrs' x hx).fits
    rw [replay, List.map_cons, flushes]
    rcases addRecord_effect h hr with ⟨hfit, t, ht, hholds, -, hzero⟩ | ⟨hflush, hstep⟩
    · rw [ht, Option.bind_some, if_neg (by omega), ← List.length_append]
      apply (ih hholds hrs').trans
      apply terminated_congr hns
      intro i hi _
      exact hzero i hi
    · rw [if_pos hflush, Terminated, ← writeToFile_isSome h]
      rcases hstep with ⟨hnone, hwrite⟩ | ⟨t, u, hu, ht, hholds, -, hzero⟩
      · rw [hnone, hwrite, Option.bind_none]
        simp
      · rw [ht, hu, Option.bind_some, Option.isSome_some, and_iff_right rfl]
        apply (ih hholds hrs').trans
        apply terminated_congr hns
        intro i hi hpos
        apply (hzero i hi hpos).trans
        exact ⟨fun hz => ⟨hz, zeroAt_behind h hz⟩, And.left⟩

theorem attempt_eq (s : TraceState) (a : Attempt) :
    attempt s a = addRecord a.kmallocOk (a.call.record a.pid) s := by
  rcases a with ⟨ok, pid, call⟩
  cases call <;> rfl

theorem replay_attempt (s : TraceState) (as : List Attempt) :
    replay attempt s as = replay (fun s r => addRecord true r s) s (printed as) := by
  induction as generalizing s with
  | nil => rfl
  | cons a as ih =>
    rw [replay, attempt_eq]
    cases hok : a.kmallocOk with
    | false =>
      have hskip : printed (a :: as) = printed as := by simp [printed, hok]
      rw [hskip]
      exact ih s
    | true =>
      have hprint : printed (a :: as) = a.call.record a.pid :: printed as := by
        simp [printed, hok]
      rw [hprint, replay]
      apply Option.bind_congr
      intro t _
      exact ih t

theorem replay_long {r : List Byte} (hr : ¬ r.length < pageSize) (before after : List (List Byte))
    (s : TraceState) :
    replay (fun s r => addRecord true r s) s (before ++ r :: after) = none := by
  induction before generalizing s with
  | nil =>
    have hfault : addRecord true r s = none := by rw [addRecord, if_pos rfl, if_neg hr]
    rw [List.nil_append, replay, hfault, Option.bind_none]
  | cons x before ih =>
    rw [List.cons_append, replay]
    cases addRecord true x s with
    | none => rfl
    | some t => exact ih t

theorem printed_loggable {as : List Attempt} (h : ∀ r ∈ printed as, r.length < pageSize) :
    ∀ r ∈ printed as, Loggable r := by
  intro r hr
  have hshort := h r hr
  obtain ⟨a, -, rfl⟩ := List.mem_map.mp hr
  exact record_loggable hshort

theorem printed_prefix {before as : List Attempt} (h : before <+: as) :
    printed before <+: printed as := by
  obtain ⟨after, rfl⟩ := h
  exact ⟨printed after, by simp [printed]⟩

theorem flushes_prefix {ms ns : List ℕ} (h : ms <+: ns) (used : ℕ) :
    flushes used ms <+: flushes used ns := by
  induction ms generalizing ns used with
  | nil => exact List.nil_prefix
  | cons m ms ih =>
    obtain ⟨after, rfl⟩ := h
    have hrest : ms <+: ms ++ after := List.prefix_append ms after
    rw [List.cons_append, flushes, flushes]
    split
    · exact List.cons_prefix_cons.mpr ⟨rfl, ih hrest m⟩
    · exact ih hrest (used + m)

/-- Without a record of a page or more, a run goes through if and only if the page had a
zero at or behind the size of every batch that is flushed. -/
theorem attempts_run {page : List Byte} (hpage : page.length = pageSize) {as : List Attempt}
    (hshort : ∀ r ∈ printed as, r.length < pageSize) :
    (replay attempt (traceInit page) as).isSome ↔
      ∀ n ∈ flushes 0 ((printed as).map List.length), ∃ i, n ≤ i ∧ page[i]? = some 0 := by
  rw [replay_attempt]
  exact (records_run (holds_init hpage) (printed_loggable hshort)).trans terminated_iff

theorem short_of_run {s t : TraceState} {as : List Attempt}
    (ht : replay attempt s as = some t) : ∀ r ∈ printed as, r.length < pageSize := by
  intro r hr
  by_contra hlong
  obtain ⟨before, after, hsplit⟩ := List.append_of_mem hr
  rw [replay_attempt, hsplit, replay_long hlong] at ht
  cases ht

/-- The calls are safe if and only if every printed record is shorter than a page and the
page had a zero at or behind the size of every batch that is flushed. -/
theorem trace_safe_iff {page : List Byte} (hpage : page.length = pageSize) (as : List Attempt) :
    Safe page as ↔ (∀ r ∈ printed as, r.length < pageSize) ∧
      ∀ n ∈ flushes 0 ((printed as).map List.length), ∃ i, n ≤ i ∧ page[i]? = some 0 := by
  constructor
  · intro hsafe
    obtain ⟨s, hs, -⟩ := hsafe as List.prefix_rfl
    have hshort := short_of_run hs
    exact ⟨hshort, (attempts_run hpage hshort).mp (by rw [hs]; rfl)⟩
  · rintro ⟨hshort, hzero⟩ before hbefore
    have hpart := printed_prefix hbefore
    have hshort' : ∀ r ∈ printed before, r.length < pageSize :=
      fun r hr => hshort r (hpart.subset hr)
    have hflushed := flushes_prefix (hpart.map List.length) 0
    have hsome := (attempts_run hpage hshort').mpr fun n hn => hzero n (hflushed.subset hn)
    obtain ⟨t, ht⟩ := Option.isSome_iff_exists.mp hsome
    have hrun := ht
    rw [replay_attempt] at hrun
    obtain ⟨chunk, hholds⟩ := records_hold (holds_init hpage) (printed_loggable hshort') hrun
    exact ⟨t, ht, vacant_bounds hholds⟩

theorem trace_safe_iff_close : Safe (List.replicate pageSize 0) [⟨true, 1, .close 3⟩] := by
  apply (trace_safe_iff (List.length_replicate ..) _).mpr
  have hfit := oneClose_fits (1, .close 3) (List.mem_singleton_self _)
  have hone : printed [⟨true, 1, .close 3⟩] = [(TraceCall.close 3).record 1] := rfl
  rw [hone]
  constructor
  · intro r hr
    rw [List.mem_singleton.mp hr]
    exact hfit
  · intro n hn
    have hflushes : flushes 0 ([(TraceCall.close 3).record 1].map List.length) = [] := by
      rw [List.map_singleton, flushes, if_neg, flushes]
      rw [Nat.zero_add]
      exact Nat.not_le.mpr hfit
    rw [hflushes] at hn
    cases hn

/-- A path of a page: sprintf writes past the end of the record. -/
theorem long_path_overruns :
    ¬ Safe (List.replicate pageSize 0) [⟨true, 1, .openFile (List.replicate pageSize 65) 0 0⟩] := by
  intro hsafe
  obtain ⟨s, hs, -⟩ := hsafe _ List.prefix_rfl
  have hshort := short_of_run hs _ (List.mem_singleton_self _)
  have hpath : text (List.replicate pageSize 65) = List.replicate pageSize 65 := by
    apply text_of_nulFree
    simp [NulFree, List.mem_replicate]
  have hlong : pageSize ≤ (formatRecord (ascii "OPEN") 1
      [(fileDir, List.replicate pageSize 65)]).length := by
    simp only [formatRecord, List.flatMap_cons, hpath, List.length_append, List.length_replicate]
    omega
  exact Nat.not_le.mpr hshort hlong

end TraceSafety
