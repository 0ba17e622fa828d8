import LoadableSystemCalls.TaskEndings
import LoadableSystemCalls.VectorReport

/-! # Whether the report is exact

The report joins tasks to modules by type and meets only thread group leaders. It is exact
when no registered task is lost or met twice by that. -/
namespace ReportExactness

open CStrings TextBuffers BlacklistPaging VectorReport
open KernelTypes ModuleRegistry TaskRegistration ThreadGroups TransitionRuns
open TaskEndings (twoThreads twoThreads_initial registerSeven)
open TraceLog (decimal notMem_decimal decimal_nulFree decimal_injective)

abbrev Section := Addr × List Line

def headings (k : Kernel) (m : Addr) : List Line :=
  match k.mods.lookup m with
  | none => []
  | some r => [moduleLine r, countLine k r]

def sectionText (k : Kernel) (sec : Section) : List Line := headings k sec.1 ++ sec.2

def registeredOn (m : Addr) (t : TaskStruct) : Bool :=
  t.sysVector.any fun v => v.moduleAddr = m

/-- The registered tasks, each in the section of its own module; RC_Count counts the lines
of a section whenever it counts the registrations. -/
structure ExactSections (s : System) (sections : List Section) (out : List Byte) : Prop where
  modules : sections.map Prod.fst = registered s
  lines : out = render (sections.flatMap (sectionText s.kernel))
  entries : ∀ sec ∈ sections,
    sec.2.Perm ((s.kernel.tasks.filter (registeredOn sec.1)).map taskLine)
  counts : (∀ mod, s.kernel.refcnt mod = references s.kernel mod) →
    ∀ sec ∈ sections, ∀ r, s.kernel.mods.lookup sec.1 = some r →
      sec.2.length = s.kernel.refcnt r.module

def Exact (s : System) (out : List Byte) : Prop := ∃ sections, ExactSections s sections out

/-- Every registered task leads its thread group, and no other registered module has the
type of its module. -/
def ToldApart (s : System) : Prop :=
  ∀ t ∈ s.kernel.tasks, ∀ v, t.sysVector = some v →
    s.tgid t.pid = t.pid ∧
    ∀ m ∈ registered s, ∀ r, s.kernel.mods.lookup m = some r →
      s.kernel.typeIs r.type v.moduleAddr → m = v.moduleAddr

instance (s : System) : Decidable (ToldApart s) :=
  inferInstanceAs (Decidable (∀ t ∈ s.kernel.tasks, ∀ v ∈ t.sysVector, s.tgid t.pid = t.pid ∧
    ∀ m ∈ registered s, ∀ r ∈ s.kernel.mods.lookup m,
      s.kernel.typeIs r.type v.moduleAddr = true → m = v.moduleAddr))

section
variable {α β : Type*} {entry : β → Bool} {head : α → List β}

theorem takeWhile_entries {xs : List (α × List β)} {es : List β}
    (hhead : ∀ a ∈ xs.map Prod.fst, ∃ b bs, head a = b :: bs ∧ entry b = false)
    (hes : ∀ b ∈ es, entry b = true) :
    (es ++ xs.flatMap fun p => head p.1 ++ p.2).takeWhile entry = es := by
  rw [List.takeWhile_append_of_pos hes]
  cases xs with
  | nil => simp
  | cons x xs =>
    obtain ⟨b, bs, hb, hno⟩ := hhead x.1 (by simp)
    simp [hb, hno]

/-- Where headings are told from entries, the lines give the sections back. -/
theorem sections_injective {xs ys : List (α × List β)}
    (hkeys : xs.map Prod.fst = ys.map Prod.fst)
    (hhead : ∀ a ∈ xs.map Prod.fst, ∃ b bs, head a = b :: bs ∧ entry b = false)
    (hx : ∀ p ∈ xs, ∀ b ∈ p.2, entry b = true) (hy : ∀ p ∈ ys, ∀ b ∈ p.2, entry b = true)
    (h : (xs.flatMap fun p => head p.1 ++ p.2) = ys.flatMap fun p => head p.1 ++ p.2) :
    xs = ys := by
  induction xs generalizing ys with
  | nil =>
    cases ys with
    | nil => rfl
    | cons y ys => simp at hkeys
  | cons x xs ih =>
    cases ys with
    | nil => simp at hkeys
    | cons y ys =>
      obtain ⟨a, es⟩ := x
      obtain ⟨a', es'⟩ := y
      simp only [List.map_cons, List.cons.injEq] at hkeys
      obtain ⟨rfl, hkeys⟩ := hkeys
      simp only [List.flatMap_cons, List.append_assoc] at h
      have hbody := List.append_cancel_left h
      have hhead' : ∀ b ∈ xs.map Prod.fst, ∃ c cs, head b = c :: cs ∧ entry c = false :=
        fun b hb => hhead b (List.mem_cons_of_mem a hb)
      have hfront := takeWhile_entries hhead' (hx (a, es) List.mem_cons_self)
      have hfront' := takeWhile_entries (hkeys ▸ hhead') (hy (a, es') List.mem_cons_self)
      rw [hbody, hfront'] at hfront
      obtain rfl : es' = es := hfront
      have hrest := ih hkeys hhead' (fun p hp => hx p (List.mem_cons_of_mem _ hp))
        (fun p hp => hy p (List.mem_cons_of_mem _ hp)) (List.append_cancel_left hbody)
      rw [hrest]

end

def isEntry (l : Line) : Bool := l.head? = some 80

theorem isEntry_taskLine (t : TaskStruct) : isEntry (taskLine t) = true := rfl

theorem isEntry_moduleLine (r : ModuleReg) : isEntry (moduleLine r) = false := rfl

theorem decimal_plain (x : BitVec 32) : Plain (decimal x) :=
  ⟨decimal_nulFree x, notMem_decimal (by decide) (by decide) x⟩

theorem taskLine_plain (t : TaskStruct) : Plain (taskLine t) := by
  have hpid : Plain (ascii "PID:" ++ decimal t.pid ++ ascii ",Vector:") :=
    .append (.append (by decide) (decimal_plain t.pid)) (by decide)
  cases hv : t.sysVector with
  | none =>
    rw [taskLine, hv, Option.elim_none, List.append_nil]
    exact hpid
  | some v =>
    rw [taskLine, hv, Option.elim_some]
    exact hpid.append (decimal_plain v.sv)

theorem headings_plain (k : Kernel) (m : Addr) : ∀ l ∈ headings k m, Plain l := by
  intro l hl
  cases hr : k.mods.lookup m with
  | none => simp [headings, hr] at hl
  | some r =>
    have hcases : l = moduleLine r ∨ l = countLine k r := by simpa [headings, hr] using hl
    rcases hcases with rfl | rfl
    · exact .append (by decide) (decimal_plain r.type)
    · exact .append (by decide) (decimal_plain _)

theorem taskLine_pid {t t' : TaskStruct} (h : taskLine t = taskLine t') : t.pid = t'.pid := by
  have hcomma : ascii ",Vector:" = 44 :: ascii "Vector:" := by decide
  simp only [taskLine, hcomma, List.append_assoc, List.cons_append] at h
  have hnumbers := List.append_cancel_left h
  have hplain (x : BitVec 32) : 44 ∉ decimal x := notMem_decimal (by decide) (by decide) x
  have hpid := delimited_inj (hplain t.pid) (hplain t'.pid) hnumbers
  exact decimal_injective hpid.1

section
variable {s : System} {leaked : Addr → ℕ}

theorem same_task (h : Accounted leaked s.kernel) {t t' : TaskStruct} (ht : t ∈ s.kernel.tasks)
    (ht' : t' ∈ s.kernel.tasks) (hline : taskLine t = taskLine t') : t = t' := by
  have hfind := KeyedList.lookup_of_mem h.pids ht
  have hfind' := KeyedList.lookup_of_mem h.pids ht'
  rw [taskLine_pid hline] at hfind
  exact Option.some.inj (hfind.symm.trans hfind')

def walked (s : System) (m : Addr) : Section :=
  (m, match s.kernel.mods.lookup m with
    | none => []
    | some r => (sectionTasks s r.type).map taskLine)

theorem walked_some {m : Addr} {r : ModuleReg} (hr : s.kernel.mods.lookup m = some r) :
    walked s m = (m, (sectionTasks s r.type).map taskLine) := by
  simp only [walked, hr]

theorem sectionText_walked (s : System) (m : Addr) :
    sectionText s.kernel (walked s m) = sectionLines s m := by
  cases hr : s.kernel.mods.lookup m with
  | none => simp [sectionText, headings, walked, sectionLines, hr]
  | some r => simp [sectionText, headings, walked, sectionLines, hr]

theorem report_walked (s : System) :
    report s = render (((registered s).map (walked s)).flatMap (sectionText s.kernel)) := by
  have hlines : sectionLines s = fun m => sectionText s.kernel (walked s m) := by
    funext m
    exact (sectionText_walked s m).symm
  rw [report, List.flatMap_map, hlines]

/-- The walk meets the task under `m`. -/
theorem mem_sectionTasks {type : ModuleType} {t : TaskStruct} {v : NewSysVector}
    (hv : t.sysVector = some v) : t ∈ sectionTasks s type ↔
      t ∈ s.kernel.tasks ∧ s.tgid t.pid = t.pid ∧ s.kernel.typeIs type v.moduleAddr = true := by
  have hjoins : joins s.kernel type t = s.kernel.typeIs type v.moduleAddr := by
    rw [joins, hv, Option.any_some]
  rw [sectionTasks, forEachProcess, List.mem_filter, List.mem_filter, hjoins, decide_eq_true_eq,
    and_assoc]

theorem mem_registeredOn {m : Addr} {t : TaskStruct} {v : NewSysVector}
    (hv : t.sysVector = some v) : t ∈ s.kernel.tasks.filter (registeredOn m) ↔
      t ∈ s.kernel.tasks ∧ v.moduleAddr = m := by
  have hon : registeredOn m t = decide (v.moduleAddr = m) := by
    rw [registeredOn, hv, Option.any_some]
  rw [List.mem_filter, hon, decide_eq_true_eq]

theorem references_registeredOn (h : Accounted leaked s.kernel) {m : Addr} {r : ModuleReg}
    (hr : s.kernel.mods.lookup m = some r) :
    references s.kernel r.module = (s.kernel.tasks.filter (registeredOn m)).length := by
  rw [references, List.countP_eq_length_filter]
  congr 1
  apply List.filter_congr
  intro t ht
  cases hv : t.sysVector with
  | none => rw [refersTo_none, registeredOn, hv, Option.any_none]
  | some v =>
    obtain ⟨r', hr'⟩ := Option.isSome_iff_exists.mp (h.attached t ht v hv)
    rw [refersTo_some hr', registeredOn, hv, Option.any_some]
    apply decide_eq_decide.mpr
    constructor
    · intro hmod
      exact h.modules _ _ _ _ hr' hr hmod
    · intro haddr
      rw [haddr, hr] at hr'
      rw [Option.some.inj hr']

theorem sectionTasks_toldApart (htold : ToldApart s) {m : Addr} (hm : m ∈ registered s)
    {r : ModuleReg} (hr : s.kernel.mods.lookup m = some r) :
    sectionTasks s r.type = s.kernel.tasks.filter (registeredOn m) := by
  rw [sectionTasks, forEachProcess, List.filter_filter]
  apply List.filter_congr
  intro t ht
  cases hv : t.sysVector with
  | none => simp [joins, registeredOn, hv]
  | some v =>
    obtain ⟨hleader, hapart⟩ := htold t ht v hv
    simp only [joins, registeredOn, hv, Option.any_some, decide_eq_true hleader, Bool.and_true]
    by_cases haddr : v.moduleAddr = m
    · subst haddr
      simp [Kernel.typeIs, hr]
    · have hno : ¬ s.kernel.typeIs r.type v.moduleAddr = true := by
        intro htype
        exact haddr (hapart m hm r hr htype).symm
      simp [haddr, hno]

theorem exact_of_toldApart (h : Accounted leaked s.kernel) (htold : ToldApart s) :
    Exact s (report s) := by
  have hreadable := accounted_readable h
  have hsection : ∀ sec ∈ (registered s).map (walked s), ∃ r,
      s.kernel.mods.lookup sec.1 = some r ∧
      sec.2 = (s.kernel.tasks.filter (registeredOn sec.1)).map taskLine := by
    intro sec hsec
    obtain ⟨m, hm, rfl⟩ := List.mem_map.mp hsec
    obtain ⟨r, hr⟩ := hreadable.listed.loaded m hm
    rw [walked_some hr, sectionTasks_toldApart htold hm hr]
    exact ⟨r, hr, rfl⟩
  refine ⟨(registered s).map (walked s), ?_, report_walked s, ?_, ?_⟩
  · rw [List.map_map]
    exact List.map_id _
  · intro sec hsec
    obtain ⟨r, -, hentries⟩ := hsection sec hsec
    rw [hentries]
  · intro hcounted sec hsec r hr
    obtain ⟨r', -, hentries⟩ := hsection sec hsec
    rw [hentries, List.length_map, hcounted, references_registeredOn h hr]

def TaskLines (sections : List Section) : Prop :=
  ∀ sec ∈ sections, ∀ l ∈ sec.2, ∃ t, l = taskLine t

theorem sectionText_plain {sections : List Section} (h : TaskLines sections) (k : Kernel) :
    ∀ l ∈ sections.flatMap (sectionText k), 10 ∉ l := by
  intro l hl
  obtain ⟨sec, hsec, hl⟩ := List.mem_flatMap.mp hl
  rcases List.mem_append.mp hl with hl | hl
  · exact (headings_plain k sec.1 l hl).2
  · obtain ⟨t, rfl⟩ := h sec hsec l hl
    exact (taskLine_plain t).2

theorem isEntry_of_taskLines {sections : List Section} (h : TaskLines sections) :
    ∀ sec ∈ sections, ∀ l ∈ sec.2, isEntry l = true := by
  intro sec hsec l hl
  obtain ⟨t, rfl⟩ := h sec hsec l hl
  exact isEntry_taskLine t

theorem taskLines_walked (s : System) : TaskLines ((registered s).map (walked s)) := by
  intro sec hsec l hl
  obtain ⟨m, -, rfl⟩ := List.mem_map.mp hsec
  cases hr : s.kernel.mods.lookup m with
  | none => simp [walked, hr] at hl
  | some r =>
    rw [walked_some hr] at hl
    obtain ⟨t, -, rfl⟩ := List.mem_map.mp hl
    exact ⟨t, rfl⟩

theorem sections_eq_walked (h : Readable s) {sections : List Section}
    (hexact : ExactSections s sections (report s)) : sections = (registered s).map (walked s) := by
  have htasks : TaskLines sections := by
    intro sec hsec l hl
    obtain ⟨t, -, rfl⟩ := List.mem_map.mp ((hexact.entries sec hsec).subset hl)
    exact ⟨t, rfl⟩
  have hkeys : sections.map Prod.fst = ((registered s).map (walked s)).map Prod.fst := by
    rw [hexact.modules, List.map_map]
    exact (List.map_id _).symm
  have hhead : ∀ m ∈ sections.map Prod.fst,
      ∃ l ls, headings s.kernel m = l :: ls ∧ isEntry l = false := by
    intro m hm
    rw [hexact.modules] at hm
    obtain ⟨r, hr⟩ := h.listed.loaded m hm
    refine ⟨moduleLine r, [countLine s.kernel r], ?_, isEntry_moduleLine r⟩
    simp only [headings, hr]
  have hlines := render_injective (sectionText_plain htasks s.kernel)
    (sectionText_plain (taskLines_walked s) s.kernel)
    (hexact.lines.symm.trans (report_walked s))
  exact sections_injective hkeys hhead (isEntry_of_taskLines htasks)
    (isEntry_of_taskLines (taskLines_walked s)) hlines

theorem walked_perm (h : Readable s) (hexact : Exact s (report s)) {m : Addr}
    (hm : m ∈ registered s) {r : ModuleReg} (hr : s.kernel.mods.lookup m = some r) :
    ((sectionTasks s r.type).map taskLine).Perm
      ((s.kernel.tasks.filter (registeredOn m)).map taskLine) := by
  obtain ⟨sections, hexact⟩ := hexact
  have hsections := sections_eq_walked h hexact
  have hperm := hexact.entries (walked s m) (hsections ▸ List.mem_map_of_mem hm)
  rw [walked_some hr] at hperm
  exact hperm

theorem toldApart_of_exact (h : Accounted leaked s.kernel) (hexact : Exact s (report s)) :
    ToldApart s := by
  have hreadable := accounted_readable h
  obtain ⟨ms, hlisted, -, hms⟩ := h.listed
  have hregistered : registered s = ms := by
    rw [registered, hlisted.moduleList, Option.getD_some]
  intro t ht v hv
  obtain ⟨r, hr⟩ := Option.isSome_iff_exists.mp (h.attached t ht v hv)
  have hm : v.moduleAddr ∈ registered s := by
    rw [hregistered, hms, hr]
    rfl
  have hleader : s.tgid t.pid = t.pid := by
    have hline := (walked_perm hreadable hexact hm hr).symm.subset
      (List.mem_map_of_mem ((mem_registeredOn hv).mpr ⟨ht, rfl⟩))
    obtain ⟨t', ht', hline⟩ := List.mem_map.mp hline
    have hmem : t' ∈ s.kernel.tasks :=
      List.mem_of_mem_filter (List.mem_of_mem_filter ht')
    obtain rfl := same_task h hmem ht hline
    exact ((mem_sectionTasks hv).mp ht').2.1
  refine ⟨hleader, ?_⟩
  intro m hm' r' hr' htype
  have hline := (walked_perm hreadable hexact hm' hr').subset
    (List.mem_map_of_mem ((mem_sectionTasks hv).mpr ⟨ht, hleader, htype⟩))
  obtain ⟨t', ht', hline⟩ := List.mem_map.mp hline
  obtain rfl := same_task h (List.mem_of_mem_filter ht') ht hline
  exact ((mem_registeredOn hv).mp ht').2.symm

theorem exact_iff (h : Accounted leaked s.kernel) : Exact s (report s) ↔ ToldApart s :=
  ⟨toldApart_of_exact h, exact_of_toldApart h⟩

end

/-- On every empty page that is large enough get_vector writes an exact report. -/
def ReportsExactly (s : System) : Prop :=
  ∃ room, ∀ page strType : List Byte, page[0]? = some 0 → room ≤ page.length →
    strType.length = 16 →
      ∃ page', getVector s (some strType) page = some (page', 0) ∧ Exact s (text page')

theorem getVector_large {s : System} (h : Readable s) {page strType : List Byte}
    (hempty : page[0]? = some 0) (hstr : strType.length = 16)
    (hfit : (report s).length < page.length) :
    ∃ page', getVector s (some strType) page = some (page', 0) ∧ text page' = report s := by
  have heffect := getVector_effect h (shows_nil hempty) hstr
  rw [List.length_nil, Nat.zero_add, if_pos hfit] at heffect
  obtain ⟨page', hget, hshows⟩ := heffect
  exact ⟨page', hget, shows_text hshows⟩

theorem reportsExactly_iff_exact {s : System} (h : Readable s) :
    ReportsExactly s ↔ Exact s (report s) := by
  constructor
  · intro ⟨room, hroom⟩
    have hlen : (List.replicate (room + (report s).length + 1) (0 : Byte)).length =
        room + (report s).length + 1 := List.length_replicate
    have hstr : (List.replicate 16 (0 : Byte)).length = 16 := List.length_replicate
    obtain ⟨page', hget, hexact⟩ := hroom _ _ rfl (by rw [hlen]; omega) hstr
    obtain ⟨page'', hget', htext⟩ := getVector_large h rfl hstr (by rw [hlen]; omega)
    have hpage := (Prod.mk.inj (Option.some.inj (hget.symm.trans hget'))).1
    rw [hpage, htext] at hexact
    exact hexact
  · intro hexact
    refine ⟨(report s).length + 1, ?_⟩
    intro page strType hempty hroom hstr
    obtain ⟨page', hget, htext⟩ := getVector_large h hempty hstr hroom
    refine ⟨page', hget, ?_⟩
    rw [htext]
    exact hexact

/-- In every state the report is exact if and only if tasks lead their groups and types tell
the modules of registered tasks apart. -/
theorem report_exact_iff {s t : System} {es : List Event} (h : Initial s)
    (hr : Run (Guarded UnlinksItself Step) s es t) : ReportsExactly t ↔ ToldApart t := by
  obtain ⟨leaked, hacc⟩ := run_accounted h hr
  exact (reportsExactly_iff_exact (accounted_readable hacc)).trans (exact_iff hacc)

def unlinkingNext : System → Event → Option System := guardedNext UnlinksItself next

theorem report_exact_registerSeven : ∃ t,
    Run (Guarded UnlinksItself Step) twoThreads registerSeven t ∧ ReportsExactly t := by
  have hrun : (replay unlinkingNext twoThreads registerSeven).any
      (fun t => decide (ToldApart t)) = true := by decide
  obtain ⟨t, hr, hapart⟩ := replay_reaches (guardedNext_sound next_sound) hrun
  exact ⟨t, hr, (report_exact_iff twoThreads_initial hr).mpr (of_decide_eq_true hapart)⟩

def registerThread : List Event :=
  [.moduleRegister 10 ⟨100, traceModule, 0⟩ 1, .ioctlSet ⟨1023, 8, traceModule⟩]

def twoOfOneType : List Event :=
  [.moduleRegister 10 ⟨100, traceModule, 0⟩ 1, .moduleRegister 11 ⟨101, traceModule, 0⟩ 2,
    .ioctlSet ⟨1023, 7, traceModule⟩]

theorem inexact_of_replay {es : List Event}
    (h : (replay unlinkingNext twoThreads es).any (fun t => decide (¬ ToldApart t)) = true) :
    ∃ t, Run (Guarded UnlinksItself Step) twoThreads es t ∧ ¬ ReportsExactly t := by
  obtain ⟨t, hr, hapart⟩ := replay_reaches (guardedNext_sound next_sound) h
  obtain ⟨leaked, hacc⟩ := run_accounted twoThreads_initial hr
  refine ⟨t, hr, ?_⟩
  rw [reportsExactly_iff_exact (accounted_readable hacc), exact_iff hacc]
  exact of_decide_eq_true hapart

/-- The thread is lost, and the task on the first module is shown under both. -/
theorem report_loses_and_repeats :
    (∃ t, Run (Guarded UnlinksItself Step) twoThreads registerThread t ∧ ¬ ReportsExactly t) ∧
    ∃ t, Run (Guarded UnlinksItself Step) twoThreads twoOfOneType t ∧ ¬ ReportsExactly t :=
  ⟨inexact_of_replay (by decide), inexact_of_replay (by decide)⟩

end ReportExactness
