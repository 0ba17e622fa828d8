import Mathlib.Algebra.Order.BigOperators.Group.List
import LoadableSystemCalls.BlacklistPaging
import LoadableSystemCalls.TextBuffers
import LoadableSystemCalls.ThreadGroups
import LoadableSystemCalls.TraceLog

/-! # The report of IOCTL_GET (bitmap.c, ioctl_device.c)

get_vector walks the module list and, for each module, the thread group leaders, and
appends what it finds to the page that IOCTL_GET copies out. -/
namespace VectorReport

open CStrings TextBuffers KernelTypes ModuleRegistry TaskRegistration ThreadGroups TransitionRuns
open BlacklistPaging
open TraceLog (decimal decimal_nulFree decimal_length)

structure Buffers where
  ioctlBuffer : List Byte
  strType : List Byte
  deriving DecidableEq, Repr

namespace Buffers
variable (b : Buffers)

def setBuffer (buff : List Byte) : Buffers := { b with ioctlBuffer := buff }

def onBuffer (f : List Byte → Option (List Byte)) : Option Buffers :=
  (f b.ioctlBuffer).map b.setBuffer

def reset : Buffers := { b with strType := b.strType.set 0 0 }

/-- `sprintf(str_type, "%d", x); strcat(ioctl_buffer, str_type);` -/
def appendNumber (x : BitVec 32) : Option Buffers :=
  (sprintf b.strType (decimal x)).bind fun str =>
    onBuffer { b with strType := str } fun buff => strcat buff str

def appendField (label : List Byte) (x : BitVec 32) (sep : List Byte) : Option Buffers :=
  ((b.onBuffer fun buff => strncat buff label label.length).bind fun b =>
    b.appendNumber x).bind fun b => b.onBuffer fun buff => strncat buff sep sep.length

end Buffers

/-- `for_each_process` meets the thread group leaders. -/
def forEachProcess (s : System) : List TaskStruct :=
  s.kernel.tasks.filter fun t => s.tgid t.pid = t.pid

/-- The round of the inner loop: the types are compared, not the modules. -/
def processStep (k : Kernel) (type : ModuleType) (b : Buffers) (ioctlTask : TaskStruct) :
    Option Buffers :=
  match ioctlTask.sysVector with
  | none => some b
  | some v =>
    match k.mods.lookup v.moduleAddr with
    | none => none
    | some newNode =>
      if newNode.type = type then
        (b.reset.appendField (ascii "PID:") ioctlTask.pid (ascii ",")).bind fun b =>
          b.reset.appendField (ascii "Vector:") v.sv (ascii "\n")
      else some b

def moduleStep (s : System) (b : Buffers) (m : Addr) : Option Buffers :=
  match s.kernel.mods.lookup m with
  | none => none
  | some r =>
    ((b.appendField (ascii "Module:") r.type (ascii "\n")).bind fun b =>
      b.reset.appendField (ascii "RC_Count:")
        (BitVec.ofNat 32 (s.kernel.moduleRefcount r.module)) (ascii "\n")).bind fun b =>
      (forEachProcess s).foldlM (processStep s.kernel r.type) b

/-- `strType` is what kmalloc returned for the scratch buffer; without it the page stays. -/
def getVector (s : System) (strType : Option (List Byte)) (ioctlBuffer : List Byte) :
    Option (List Byte × ℤ) :=
  match strType with
  | none => some (ioctlBuffer, -12)
  | some strType =>
    (moduleList s.kernel).bind fun ms =>
      (ms.foldlM (moduleStep s) ⟨ioctlBuffer, strType.set 0 0⟩).map fun b => (b.ioctlBuffer, 0)

/-- The IOCTL_GET branch of ioctl_funcs: its result and the bytes copied to user space, when
the address there takes them. Whether get_vector succeeded is only logged. -/
def ioctlGet (s : System) (page strType : Option (List Byte)) : Option (ℤ × List Byte) :=
  match page with
  | none => some (-12, [])
  | some ioctlBuffer =>
    (getVector s strType ioctlBuffer).bind fun (buff, _) =>
      (strlen buff).map fun n => (0, buff.take n)

def registered (s : System) : List Addr := (moduleList s.kernel).getD []

def moduleLine (r : ModuleReg) : Line := ascii "Module:" ++ decimal r.type

def countLine (k : Kernel) (r : ModuleReg) : Line :=
  ascii "RC_Count:" ++ decimal (BitVec.ofNat 32 (k.moduleRefcount r.module))

def taskLine (t : TaskStruct) : Line :=
  ascii "PID:" ++ decimal t.pid ++ ascii ",Vector:" ++ t.sysVector.elim [] fun v => decimal v.sv

def joins (k : Kernel) (type : ModuleType) (t : TaskStruct) : Bool :=
  t.sysVector.any fun v => k.typeIs type v.moduleAddr

def sectionTasks (s : System) (type : ModuleType) : List TaskStruct :=
  (forEachProcess s).filter (joins s.kernel type)

def sectionLines (s : System) (m : Addr) : List Line :=
  match s.kernel.mods.lookup m with
  | none => []
  | some r => moduleLine r :: countLine s.kernel r :: (sectionTasks s r.type).map taskLine

def report (s : System) : List Byte := render ((registered s).flatMap (sectionLines s))

/-- The module list is proper and records point to loaded modules. -/
structure Readable (s : System) : Prop where
  listed : Listed s.kernel (registered s)
  attached : ∀ t ∈ s.kernel.tasks, ∀ v, t.sysVector = some v →
    (s.kernel.mods.lookup v.moduleAddr).isSome

theorem accounted_readable {leaked : Addr → ℕ} {s : System} (h : Accounted leaked s.kernel) :
    Readable s := by
  obtain ⟨ms, hlisted, -, -⟩ := h.listed
  have hregistered : registered s = ms := by
    rw [registered, hlisted.moduleList, Option.getD_some]
  constructor
  · rw [hregistered]
    exact hlisted
  · exact h.attached

theorem run_readable {s t : System} {es : List Event} (h : Initial s)
    (hr : Run (Guarded UnlinksItself Step) s es t) : Readable t := by
  obtain ⟨leaked, hacc⟩ := run_accounted h hr
  exact accounted_readable hacc

abbrev Room (b : Buffers) : Prop := b.strType.length = 16

abbrev Reports (op : Buffers → Option Buffers) (chunk : List Byte) : Prop :=
  Appends Buffers.ioctlBuffer Room op chunk

theorem reports_literal {src : List Byte} (hsrc : NulFree src) (hne : src ≠ []) :
    Reports (fun b => b.onBuffer fun buff => strncat buff src src.length) src := by
  have happend : Reports (fun b => (append b.ioctlBuffer src).map b.setBuffer) src :=
    appends_append hsrc (fun _ _ => rfl) (fun _ _ hroom => hroom)
  have heq : (fun b : Buffers => b.onBuffer fun buff => strncat buff src src.length) =
      fun b => (append b.ioctlBuffer src).map b.setBuffer := by
    funext b
    rw [Buffers.onBuffer, strncat_eq hsrc hne]
  rw [heq]
  exact happend

theorem reports_number (x : BitVec 32) : Reports (fun b => b.appendNumber x) (decimal x) := by
  intro b t hs hroom
  have hfits : (decimal x).length < b.strType.length := by
    have hlen := decimal_length x
    omega
  obtain ⟨str, hstr, hshows, hlength⟩ := sprintf_shows (decimal_nulFree x) hfits
  have happend : Reports (fun b => (append b.ioctlBuffer (decimal x)).map b.setBuffer)
      (decimal x) :=
    appends_append (decimal_nulFree x) (fun _ _ => rfl) (fun _ _ hroom => hroom)
  have hop : b.appendNumber x = (append b.ioctlBuffer (decimal x)).map
      { b with strType := str }.setBuffer := by
    rw [Buffers.appendNumber, hstr, Option.bind_some, Buffers.onBuffer, strcat_eq hshows]
  have hroom' : Room { b with strType := str } := hlength.trans hroom
  have hwritten := happend { b with strType := str } t hs hroom'
  change if _ then (∃ s', b.appendNumber x = some s' ∧ _) else b.appendNumber x = none
  rw [hop]
  exact hwritten

theorem reports_field {label sep : List Byte} (hlabel : NulFree label) (hsep : NulFree sep)
    (hlabel' : label ≠ []) (hsep' : sep ≠ []) (x : BitVec 32) :
    Reports (fun b => b.appendField label x sep) (label ++ decimal x ++ sep) :=
  appends_bind (appends_bind (reports_literal hlabel hlabel') (reports_number x))
    (reports_literal hsep hsep')

theorem reports_reset {op : Buffers → Option Buffers} {chunk : List Byte}
    (h : Reports op chunk) : Reports (fun b => op b.reset) chunk := by
  intro b t hs hroom
  have hroom' : Room b.reset := (List.length_set).trans hroom
  exact h b.reset t hs hroom'

theorem render_map_filter (p : TaskStruct → Bool) (ts : List TaskStruct) :
    render ((ts.filter p).map taskLine) =
      ts.flatMap fun t => if p t then render [taskLine t] else [] := by
  induction ts with
  | nil => rfl
  | cons t ts ih =>
    rw [List.flatMap_cons, ← ih]
    cases hp : p t with
    | false => simp [hp]
    | true => simp [hp]

theorem taskLine_some {t : TaskStruct} {v : NewSysVector} (hv : t.sysVector = some v) :
    render [taskLine t] = ascii "PID:" ++ decimal t.pid ++ ascii "," ++
      (ascii "Vector:" ++ decimal v.sv ++ ascii "\n") := by
  have hcomma : ascii ",Vector:" = ascii "," ++ ascii "Vector:" := by decide
  have hend : ascii "\n" = [10] := by decide
  simp [taskLine, hv, hcomma, hend]

theorem reports_process {s : System} (h : Readable s) (type : ModuleType) {t : TaskStruct}
    (ht : t ∈ s.kernel.tasks) :
    Reports (fun b => processStep s.kernel type b t)
      (if joins s.kernel type t then render [taskLine t] else []) := by
  cases hv : t.sysVector with
  | none =>
    have hno : joins s.kernel type t = false := by rw [joins, hv, Option.any_none]
    simp only [processStep, hv, hno]
    exact appends_some
  | some v =>
    obtain ⟨r, hr⟩ := Option.isSome_iff_exists.mp (h.attached t ht v hv)
    have hjoins : joins s.kernel type t = decide (r.type = type) := by
      simp [joins, hv, Kernel.typeIs, hr]
    by_cases htype : r.type = type
    · have hyes : joins s.kernel type t = true := by rw [hjoins, decide_eq_true htype]
      simp only [processStep, hv, hr, if_pos htype, hyes, if_true]
      rw [taskLine_some hv]
      exact appends_bind
        (reports_reset (reports_field (by decide) (by decide) (by decide) (by decide) t.pid))
        (reports_reset (reports_field (by decide) (by decide) (by decide) (by decide) v.sv))
    · have hno : joins s.kernel type t = false := by rw [hjoins, decide_eq_false htype]
      simp only [processStep, hv, hr, if_neg htype, hno]
      exact appends_some

theorem reports_module {s : System} (h : Readable s) {m : Addr} (hm : m ∈ registered s) :
    Reports (fun b => moduleStep s b m) (render (sectionLines s m)) := by
  obtain ⟨r, hr⟩ := h.listed.loaded m hm
  have hend : ascii "\n" = [10] := by decide
  have htasks : Reports (fun b => (forEachProcess s).foldlM (processStep s.kernel r.type) b)
      (render ((sectionTasks s r.type).map taskLine)) := by
    rw [sectionTasks, render_map_filter]
    apply appends_foldlM
    intro t ht
    exact reports_process h r.type (List.mem_of_mem_filter ht)
  have hlines : render (sectionLines s m) =
      ascii "Module:" ++ decimal r.type ++ ascii "\n" ++
        (ascii "RC_Count:" ++ decimal (BitVec.ofNat 32 (s.kernel.moduleRefcount r.module)) ++
          ascii "\n") ++ render ((sectionTasks s r.type).map taskLine) := by
    simp [sectionLines, hr, moduleLine, countLine, hend]
  simp only [moduleStep, hr]
  rw [hlines]
  exact appends_bind (appends_bind
    (reports_field (by decide) (by decide) (by decide) (by decide) r.type)
    (reports_reset (reports_field (by decide) (by decide) (by decide) (by decide) _))) htasks

theorem report_sections (s : System) :
    report s = (registered s).flatMap fun m => render (sectionLines s m) := by
  simp [report, render, List.flatMap_assoc]

theorem reports_modules {s : System} (h : Readable s) :
    Reports (fun b => (registered s).foldlM (moduleStep s) b) (report s) := by
  rw [report_sections]
  apply appends_foldlM
  intro m hm
  exact reports_module h hm

/-- On a page that shows a text: the report behind it, or a write outside. -/
theorem getVector_effect {s : System} (h : Readable s) {page strType t : List Byte}
    (hpage : Shows page t) (hstr : strType.length = 16) :
    if t.length + (report s).length < page.length then
      ∃ page', getVector s (some strType) page = some (page', 0) ∧ Shows page' (t ++ report s)
    else getVector s (some strType) page = none := by
  have hroom : Room ⟨page, strType.set 0 0⟩ := (List.length_set).trans hstr
  have hall := reports_modules h ⟨page, strType.set 0 0⟩ t hpage hroom
  have hget : getVector s (some strType) page =
      ((registered s).foldlM (moduleStep s) ⟨page, strType.set 0 0⟩).map
        fun b => (b.ioctlBuffer, 0) := by
    rw [getVector, h.listed.moduleList, Option.bind_some]
  beta_reduce at hall
  rw [hget]
  by_cases hfit : t.length + (report s).length < page.length
  · rw [if_pos hfit] at hall ⊢
    obtain ⟨b, hb, hshows, -, -⟩ := hall
    exact ⟨b.ioctlBuffer, by rw [hb, Option.map_some], hshows⟩
  · rw [if_neg hfit] at hall ⊢
    rw [hall, Option.map_none]

def numberWidth (x : BitVec 32) : ℕ := (decimal x).length

def lineSize (t : TaskStruct) : ℕ :=
  13 + numberWidth t.pid + t.sysVector.elim 0 fun v => numberWidth v.sv

def sectionSize (s : System) (m : Addr) : ℕ :=
  match s.kernel.mods.lookup m with
  | none => 0
  | some r =>
    18 + numberWidth r.type + numberWidth (BitVec.ofNat 32 (s.kernel.moduleRefcount r.module)) +
      ((sectionTasks s r.type).map lineSize).sum

def reportSize (s : System) : ℕ := ((registered s).map (sectionSize s)).sum

theorem sectionSize_le (s : System) (m : Addr) :
    sectionSize s m ≤ 40 + s.kernel.tasks.length * 35 := by
  have hnumber (x : BitVec 32) : numberWidth x ≤ 11 := decimal_length x
  have hline (t : TaskStruct) : lineSize t ≤ 35 := by
    have hpid := hnumber t.pid
    cases hv : t.sysVector with
    | none =>
      simp only [lineSize, hv, Option.elim_none]
      omega
    | some v =>
      have hsv := hnumber v.sv
      simp only [lineSize, hv, Option.elim_some]
      omega
  cases hr : s.kernel.mods.lookup m with
  | none => simp [sectionSize, hr]
  | some r =>
    have hall : ∀ n ∈ (sectionTasks s r.type).map lineSize, n ≤ 35 := by
      intro n hn
      obtain ⟨t, -, rfl⟩ := List.mem_map.mp hn
      exact hline t
    have hlines : ((sectionTasks s r.type).map lineSize).sum ≤
        ((sectionTasks s r.type).map lineSize).length * 35 := List.sum_le_card_nsmul _ 35 hall
    have htasks : (sectionTasks s r.type).length ≤ s.kernel.tasks.length :=
      (List.length_filter_le _ _).trans (List.length_filter_le _ _)
    have htype := hnumber r.type
    have hcount := hnumber (BitVec.ofNat 32 (s.kernel.moduleRefcount r.module))
    rw [List.length_map] at hlines
    simp only [sectionSize, hr]
    omega

/-- At most 35 bytes for a task under a module, and 40 for the module. -/
theorem reportSize_le (s : System) :
    reportSize s ≤ (registered s).length * (40 + s.kernel.tasks.length * 35) := by
  have hall : ∀ n ∈ (registered s).map (sectionSize s), n ≤ 40 + s.kernel.tasks.length * 35 := by
    intro n hn
    obtain ⟨m, -, rfl⟩ := List.mem_map.mp hn
    exact sectionSize_le s m
  have hsum : reportSize s ≤
      ((registered s).map (sectionSize s)).length * (40 + s.kernel.tasks.length * 35) :=
    List.sum_le_card_nsmul _ _ hall
  rwa [List.length_map] at hsum

theorem render_length (ls : List Line) :
    (render ls).length = (ls.map fun l => l.length + 1).sum := by
  simp [render, List.length_flatMap]

theorem taskLine_length (t : TaskStruct) : (taskLine t).length + 1 = lineSize t := by
  have hlabels : (ascii "PID:").length = 4 ∧ (ascii ",Vector:").length = 8 := by decide
  cases hv : t.sysVector with
  | none =>
    simp only [taskLine, lineSize, numberWidth, hv, List.length_append, hlabels]
    simp
    omega
  | some v =>
    simp only [taskLine, lineSize, numberWidth, hv, List.length_append, hlabels, Option.elim_some]
    omega

theorem sectionLines_length (s : System) (m : Addr) :
    (render (sectionLines s m)).length = sectionSize s m := by
  have hlabels : (ascii "Module:").length = 7 ∧ (ascii "RC_Count:").length = 9 := by decide
  have hlines : (fun l : Line => l.length + 1) ∘ taskLine = lineSize := by
    funext t
    exact taskLine_length t
  cases hr : s.kernel.mods.lookup m with
  | none => simp [sectionLines, sectionSize, hr]
  | some r =>
    simp only [sectionLines, sectionSize, hr]
    rw [render_length, List.map_cons, List.map_cons, List.map_map, hlines]
    simp only [List.sum_cons, moduleLine, countLine, numberWidth, List.length_append, hlabels]
    omega

theorem report_length (s : System) : (report s).length = reportSize s := by
  rw [report_sections, List.length_flatMap, reportSize]
  simp only [sectionLines_length]

theorem lines_le_reportSize {s : System} {m : Addr} (hm : m ∈ registered s) {r : ModuleReg}
    (hr : s.kernel.mods.lookup m = some r) :
    (sectionTasks s r.type).length * 13 ≤ reportSize s := by
  have hline : ∀ n ∈ (sectionTasks s r.type).map lineSize, 13 ≤ n := by
    intro n hn
    obtain ⟨t, -, rfl⟩ := List.mem_map.mp hn
    rw [lineSize]
    omega
  have hlines : ((sectionTasks s r.type).map lineSize).length * 13 ≤
      ((sectionTasks s r.type).map lineSize).sum := List.card_nsmul_le_sum _ 13 hline
  have hsection : sectionSize s m ≤ reportSize s :=
    List.le_sum_of_mem (List.mem_map_of_mem hm)
  rw [List.length_map] at hlines
  simp only [sectionSize, hr] at hsection
  omega

/-- On an empty page every write stays inside the two buffers if and only if the sizes of the
sections add up to less than a page. -/
theorem report_inside_iff {s : System} (h : Readable s) {page strType : List Byte}
    (hpage : page.length = pageSize) (hempty : page[0]? = some 0) (hstr : strType.length = 16) :
    (getVector s (some strType) page).isSome ↔ reportSize s < pageSize := by
  have heffect := getVector_effect h (shows_nil hempty) hstr
  rw [List.length_nil, Nat.zero_add, report_length, hpage] at heffect
  by_cases hfit : reportSize s < pageSize
  · rw [if_pos hfit] at heffect
    obtain ⟨page', hget, -⟩ := heffect
    simp [hget, hfit]
  · rw [if_neg hfit] at heffect
    simp [heffect, hfit]

theorem ioctlGet_shows {s : System} (h : Readable s) {page strType t : List Byte}
    (hpage : Shows page t) (hstr : strType.length = 16) :
    ioctlGet s (some page) (some strType) =
      if t.length + reportSize s < page.length then some (0, t ++ report s) else none := by
  have heffect := getVector_effect h hpage hstr
  rw [report_length] at heffect
  by_cases hfit : t.length + reportSize s < page.length
  · rw [if_pos hfit] at heffect ⊢
    obtain ⟨page', hget, hshows⟩ := heffect
    simp only [ioctlGet, hget, Option.bind_some, shows_strlen hshows, Option.map_some,
      shows_take hshows]
  · rw [if_neg hfit] at heffect ⊢
    simp only [ioctlGet, heffect, Option.bind_none]

theorem ioctlGet_unterminated {s : System} (h : Readable s) {page strType : List Byte}
    (hfree : NulFree page) : ioctlGet s (some page) (some strType) = none := by
  have hlen := strlen_nulFree hfree
  rw [ioctlGet, getVector, h.listed.moduleList, Option.bind_some]
  cases hms : registered s with
  | nil => simp [hlen]
  | cons m ms =>
    have hm : m ∈ registered s := by simp [hms]
    obtain ⟨r, hr⟩ := h.listed.loaded m hm
    have hlabel : strncat page (ascii "Module:") (ascii "Module:").length = none := by
      rw [strncat_eq (by decide) (by decide), append, hlen, Option.bind_none]
    have hstep : moduleStep s ⟨page, strType.set 0 0⟩ m = none := by
      simp [moduleStep, hr, Buffers.appendField, Buffers.onBuffer, hlabel]
    simp only [List.foldlM_cons, hstep, Option.bind_eq_bind, Option.bind_none, Option.map_none]

theorem copies_report_iff {s : System} (h : Readable s) {page strType : List Byte}
    (hpage : page.length = pageSize) (hstr : strType.length = 16) :
    ioctlGet s (some page) (some strType) = some (0, report s) ↔
      page[0]? = some 0 ∧ reportSize s < pageSize := by
  rcases nulFree_or_shows page with hfree | ⟨t, ht⟩
  · rw [ioctlGet_unterminated h hfree]
    constructor
    · intro hnone
      cases hnone
    · intro hzero
      exact absurd (List.mem_of_getElem? hzero.1) hfree
  · rw [ioctlGet_shows h ht hstr, head_zero_iff ht, hpage]
    constructor
    · intro hcopied
      split at hcopied
      · next hfit =>
        have htext := (Prod.mk.inj (Option.some.inj hcopied)).2
        have hnil : t = [] := by simpa using htext
        rw [hnil, List.length_nil, Nat.zero_add] at hfit
        exact ⟨hnil, hfit⟩
      · cases hcopied
    · intro ⟨hnil, hfit⟩
      rw [hnil, List.length_nil, Nat.zero_add, if_pos hfit, List.nil_append]

/-- IOCTL_GET copies out the report whatever the pages held if and only if they began with a
terminator and the report fits. -/
theorem get_reveals_report_iff {s t : System} {es : List Event} (h : Initial s)
    (hr : Run (Guarded UnlinksItself Step) s es t) {page page' strType strType' : List Byte}
    (hpage : page.length = pageSize) (hpage' : page'.length = pageSize)
    (hstr : strType.length = 16) (hstr' : strType'.length = 16) :
    (ioctlGet t (some page) (some strType) = some (0, report t) ∧
        ioctlGet t (some page') (some strType') = some (0, report t)) ↔
      page[0]? = some 0 ∧ page'[0]? = some 0 ∧ reportSize t < pageSize := by
  have hreadable := run_readable h hr
  rw [copies_report_iff hreadable hpage hstr, copies_report_iff hreadable hpage' hstr']
  constructor
  · intro ⟨⟨hzero, hfit⟩, hzero', _⟩
    exact ⟨hzero, hzero', hfit⟩
  · intro ⟨hzero, hzero', hfit⟩
    exact ⟨⟨hzero, hfit⟩, hzero', hfit⟩

def idle : System := ⟨boot [⟨1, none⟩], id, fun _ => false, []⟩

theorem idle_initial : Initial idle := by
  have htasks : KeyedList.Distinct TaskStruct.pid [⟨1, none⟩] := by
    simp [KeyedList.Distinct]
  exact ⟨⟨_, rfl, htasks, by simp⟩, fun _ => rfl, rfl⟩

def tracing : List Event :=
  [.moduleRegister 10 ⟨100, traceModule, 0⟩ 1, .ioctlSet ⟨1023, 1, traceModule⟩]

theorem get_reveals_report_tracing : ∃ t, Run (Guarded UnlinksItself Step) idle tracing t ∧
    report t = ascii "Module:1\nRC_Count:1\nPID:1,Vector:1023\n" ∧
    ioctlGet t (some (List.replicate 4096 0)) (some (List.replicate 16 65)) =
      some (0, report t) ∧
    ioctlGet t (some (0 :: List.replicate 4095 65)) (some (List.replicate 16 0)) =
      some (0, report t) := by
  have h : (replay (guardedNext UnlinksItself next) idle tracing).any (fun t =>
      decide (report t = ascii "Module:1\nRC_Count:1\nPID:1,Vector:1023\n")) = true := by
    decide
  obtain ⟨t, hr, h⟩ := replay_reaches (guardedNext_sound next_sound) h
  have hreport := of_decide_eq_true h
  have hfit : reportSize t < pageSize := by
    rw [← report_length, hreport]
    decide
  have hpage : (0 :: List.replicate 4095 (65 : Byte)).length = pageSize := by
    rw [List.length_cons, List.length_replicate]
    rfl
  exact ⟨t, hr, hreport, (get_reveals_report_iff idle_initial hr List.length_replicate hpage
    List.length_replicate List.length_replicate).mpr ⟨rfl, rfl, hfit⟩⟩

/-- An old byte in front of the report is copied out with it. -/
theorem old_page_copied_out : Initial idle ∧
    ioctlGet idle (some (List.replicate 4096 0)) (some (List.replicate 16 0)) = some (0, []) ∧
    ioctlGet idle (some (65 :: List.replicate 4095 0)) (some (List.replicate 16 0)) =
      some (0, [65]) :=
  ⟨idle_initial, rfl, rfl⟩

def traced (tasks : List TaskStruct) : System where
  kernel := {
    nodes := AList.singleton 20 ⟨10, none⟩
    headNode := some 20
    mods := AList.singleton 10 ⟨100, traceModule, 50⟩
    refcnt := fun _ => tasks.length
    tasks := tasks
    skippedPuts := 0 }
  tgid := id
  ended := fun _ => false
  freed := []

theorem registered_traced (tasks : List TaskStruct) : registered (traced tasks) = [10] := rfl

theorem traced_readable {tasks : List TaskStruct}
    (h : ∀ t ∈ tasks, ∀ v, t.sysVector = some v → v.moduleAddr = 10) :
    Readable (traced tasks) where
  listed := by
    rw [registered_traced]
    refine ⟨LinkedChain.Holds.singleton rfl, ?_⟩
    intro m hm
    obtain rfl := List.mem_singleton.mp hm
    exact ⟨_, rfl⟩
  attached := by
    intro t ht v hv
    rw [h t ht v hv]
    rfl

theorem report_inside_oneTask :
    (getVector (traced [⟨7, some ⟨1023, 10⟩⟩]) (some (List.replicate 16 0))
      (List.replicate 4096 0)).isSome := by
  apply (report_inside_iff (traced_readable (by simp)) (List.length_replicate) rfl
    (List.length_replicate)).mpr
  decide

def client (i : ℕ) : TaskStruct := ⟨BitVec.ofNat 32 (i + 1), some ⟨1, 10⟩⟩

def crowd (n : ℕ) : System := traced ((List.range n).map client)

theorem crowd_readable (n : ℕ) : Readable (crowd n) := by
  apply traced_readable
  intro t ht v hv
  obtain ⟨i, -, rfl⟩ := List.mem_map.mp ht
  rw [← Option.some.inj hv]

theorem sectionTasks_crowd (n : ℕ) :
    sectionTasks (crowd n) traceModule = (List.range n).map client := by
  rw [sectionTasks, forEachProcess, List.filter_filter]
  apply List.filter_eq_self.mpr
  intro t ht
  obtain ⟨i, -, rfl⟩ := List.mem_map.mp ht
  have hjoins : joins (crowd n).kernel traceModule (client i) = true := rfl
  have hleader : decide ((crowd n).tgid (client i).pid = (client i).pid) = true :=
    decide_eq_true rfl
  rw [hjoins, hleader, Bool.and_self]

theorem crowd_overruns {n : ℕ} {page strType : List Byte} (hn : page.length ≤ n * 13)
    (hempty : page[0]? = some 0) (hstr : strType.length = 16) :
    getVector (crowd n) (some strType) page = none := by
  have hsize := @lines_le_reportSize (crowd n) 10 (by simp [crowd, registered_traced])
    ⟨100, traceModule, 50⟩ rfl
  have heffect := getVector_effect (crowd_readable n) (shows_nil hempty) hstr
  rw [sectionTasks_crowd, List.length_map, List.length_range] at hsize
  have hno : ¬ ([] : List Byte).length + (report (crowd n)).length < page.length := by
    rw [report_length, List.length_nil]
    omega
  rw [if_neg hno] at heffect
  exact heffect

/-- Four hundred registered processes. -/
theorem report_overruns :
    getVector (crowd 400) (some (List.replicate 16 0)) (List.replicate 4096 0) = none :=
  crowd_overruns (by rw [List.length_replicate]; omega) rfl List.length_replicate

end VectorReport
