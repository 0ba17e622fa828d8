import LoadableSystemCalls.BlacklistVerdict
import LoadableSystemCalls.ThreadGroups

/-! # When memory runs out (bitmap.c, ioctl_device.c, anti_module.c)

Registering a module, giving a task a record and checking a file each begin by allocating.
Whether a failure is survived depends on whether the pointer is tested before it is
written through. -/
namespace AllocationFailures

open CStrings KernelTypes ModuleRegistry TaskRegistration ReferenceCounts TransitionRuns
open FileScan VirusCheck BlacklistVerdict
open ThreadGroups (System Initial UnlinksItself oneTask oneTask_initial)

/-- The allocations of check_in_blacklist, and the empty string written to each page: `none`
is a write through NULL, `some none` the jump to `out`. -/
def checkPrologue (pages : Pages) : Option (Option (List Byte)) :=
  if pages.inputFileBuff then
    match pages.initBuff with
    | none => none
    | some page => if pages.hexInChar then some (some (page.set 0 0)) else none
  else some none

theorem checkInBlacklist_eq (pages : Pages) (inputFile blacklistFile : VFile)
    (fuel : ℕ) :
    checkInBlacklist pages inputFile blacklistFile fuel =
      match checkPrologue pages with
      | none => .error .oops
      | some none => .ok false
      | some (some page) =>
        checkLoop inputFile blacklistFile (toInt inputFile.iSize) fuel
          ⟨toInt blacklistFile.iSize, 0, page, none, 0, 0⟩ := by
  obtain ⟨inputFileBuff, initBuff, hexInChar, hlen⟩ := pages
  cases inputFileBuff with
  | false => rfl
  | true =>
    cases initBuff with
    | none => rfl
    | some page => cases hexInChar <;> rfl

/-- Calls with the outcomes of their allocations: the node of add_module, the record of
get_ioctl_helper, the pages of check_in_blacklist. -/
inductive Operation where
  | addModule (newNode : Option Addr) (m : Addr) (reg : ModuleReg)
  | getIoctlHelper (kmallocOk : Bool) (msg : IoctlArg)
  | checkInBlacklist (pages : Pages)

namespace Operation

/-- insmod has put the module's data in place before its init function calls add_module. -/
def start : Operation → Kernel → Kernel
  | .addModule _ m reg, k => { k with mods := k.mods.insert m reg }
  | .getIoctlHelper _ _, k => k
  | .checkInBlacklist _, k => k

def run : Operation → Kernel → Option Kernel
  | .addModule newNode m _, k => (ModuleRegistry.addModule newNode m k).map Prod.fst
  | .getIoctlHelper kmallocOk msg, k => TaskRegistration.getIoctlHelper kmallocOk msg k
  | .checkInBlacklist pages, k => (checkPrologue pages).map fun _ => k

def Admissible : Operation → Kernel → Prop
  | .addModule newNode m reg, k => ∀ a, newNode = some a → Loadable k m reg a
  | .getIoctlHelper _ _, _ => True
  | .checkInBlacklist _, _ => True

def GotMemory : Operation → Kernel → Prop
  | .addModule newNode _ _, _ => newNode.isSome = true
  | .getIoctlHelper kmallocOk msg, k => Supplied kmallocOk msg k
  | .checkInBlacklist pages, _ => Allocated pages

def FirstPageFails : Operation → Prop
  | .checkInBlacklist pages => pages.inputFileBuff = false
  | _ => False

end Operation

/-- The call touches no NULL pointer, and without its memory it leaves no trace: neither in
the state nor in what any later run can do. -/
def Harmless (s : System) (op : Operation) : Prop :=
  ∃ k, op.run (op.start s.kernel) = some k ∧
    (¬ op.GotMemory s.kernel → k = op.start s.kernel ∧
      ∀ es t, Run ThreadGroups.Step (s.onKernel k) es t ↔
        Run ThreadGroups.Step (s.onKernel (op.start s.kernel)) es t)

theorem harmless_of_run {s : System} {op : Operation} {k : Kernel}
    (hrun : op.run (op.start s.kernel) = some k) (hgot : op.GotMemory s.kernel) :
    Harmless s op :=
  ⟨k, hrun, fun hnot => absurd hgot hnot⟩

theorem harmless_of_unchanged {s : System} {op : Operation}
    (hrun : op.run (op.start s.kernel) = some (op.start s.kernel)) : Harmless s op :=
  ⟨_, hrun, fun _ => ⟨rfl, fun _ _ => Iff.rfl⟩⟩

theorem not_harmless_of_fault {s : System} {op : Operation}
    (hrun : op.run (op.start s.kernel) = none) : ¬ Harmless s op := by
  rintro ⟨k, hk, -⟩
  rw [hrun] at hk
  cases hk

section operations
variable {s : System} {leaked : Addr → ℕ}

theorem addModule_harmless_iff (h : Accounted leaked s.kernel) {newNode : Option Addr} {m : Addr}
    {reg : ModuleReg} (ha : (Operation.addModule newNode m reg).Admissible s.kernel) :
    Harmless s (.addModule newNode m reg) ↔ newNode.isSome = true := by
  cases newNode with
  | none =>
    constructor
    · intro hharmless
      exact absurd hharmless (not_harmless_of_fault rfl)
    · intro hsome
      cases hsome
  | some a =>
    obtain ⟨k, hload, -⟩ := loadModule_accounted h (ha a rfl)
    exact iff_of_true (harmless_of_run hload rfl) rfl

theorem getIoctlHelper_harmless_iff (h : Accounted leaked s.kernel) (kmallocOk : Bool)
    (msg : IoctlArg) :
    Harmless s (.getIoctlHelper kmallocOk msg) ↔ Supplied kmallocOk msg s.kernel := by
  by_cases hs : Supplied kmallocOk msg s.kernel
  · obtain ⟨k, hk, -⟩ := h.ioctl_effect msg
    have hrun := (getIoctlHelper_supplied hs).trans hk
    exact iff_of_true (harmless_of_run hrun hs) hs
  · exact iff_of_false (not_harmless_of_fault (getIoctlHelper_starved hs)) hs

theorem checkInBlacklist_harmless_iff (s : System) (pages : Pages) :
    Harmless s (.checkInBlacklist pages) ↔ Allocated pages ∨ pages.inputFileBuff = false := by
  rcases allocation_cases pages with hfirst | ⟨hinput, hother⟩ | hall
  · have hrun : checkPrologue pages = some none := by simp [checkPrologue, hfirst]
    refine iff_of_true (harmless_of_unchanged ?_) (Or.inr hfirst)
    exact congrArg (Option.map fun _ => s.kernel) hrun
  · have hrun : checkPrologue pages = none := by
      rcases hother with hnone | hhex
      · simp [checkPrologue, hinput, hnone]
      · cases hinit : pages.initBuff <;> simp [checkPrologue, hinput, hinit, hhex]
    refine iff_of_false (not_harmless_of_fault ?_) ?_
    · exact congrArg (Option.map fun _ => s.kernel) hrun
    · rcases hother with hnone | hhex
      · simp [Allocated, hinput, hnone]
      · simp [Allocated, hinput, hhex]
  · obtain ⟨hinput, hinit, hhex⟩ := hall
    obtain ⟨page, hpage⟩ := Option.isSome_iff_exists.mp hinit
    have hrun : checkPrologue pages = some (some (page.set 0 0)) := by
      simp [checkPrologue, hinput, hpage, hhex]
    refine iff_of_true (harmless_of_unchanged ?_) (Or.inl ⟨hinput, hinit, hhex⟩)
    exact congrArg (Option.map fun _ => s.kernel) hrun

end operations

/-- In every state a call is harmless if and only if it gets its memory, or is a check that
does not get its first page. -/
theorem harmless_iff {s t : System} {es : List ThreadGroups.Event} (h : Initial s)
    (hr : Run (Guarded UnlinksItself ThreadGroups.Step) s es t) {op : Operation}
    (ha : op.Admissible t.kernel) :
    Harmless t op ↔ op.GotMemory t.kernel ∨ op.FirstPageFails := by
  obtain ⟨leaked, hacc⟩ := ThreadGroups.run_accounted h hr
  cases op with
  | addModule newNode m reg =>
    exact (addModule_harmless_iff hacc ha).trans (or_iff_left not_false).symm
  | getIoctlHelper kmallocOk msg =>
    exact (getIoctlHelper_harmless_iff hacc kmallocOk msg).trans (or_iff_left not_false).symm
  | checkInBlacklist pages => exact checkInBlacklist_harmless_iff t pages

def loadTrace : List ThreadGroups.Event := [.moduleRegister 10 ⟨100, traceModule, 0⟩ 1]

theorem loadTrace_run : ∃ t, Run (Guarded UnlinksItself ThreadGroups.Step) oneTask loadTrace t ∧
    Allocates ⟨1023, 7, traceModule⟩ t.kernel := by
  have hrun : (replay (guardedNext UnlinksItself ThreadGroups.next) oneTask loadTrace).any
      (fun t => decide (Allocates ⟨1023, 7, traceModule⟩ t.kernel)) = true := by decide
  obtain ⟨t, hr, ha⟩ := replay_reaches (guardedNext_sound ThreadGroups.next_sound) hrun
  exact ⟨t, hr, of_decide_eq_true ha⟩

def noFirstPage : Pages := { freshPages with inputFileBuff := false }

def noSecondPage : Pages where
  inputFileBuff := true
  initBuff := none
  hexInChar := true
  initBuff_length := by simp

theorem harmless_loadTrace : ∃ t,
    Run (Guarded UnlinksItself ThreadGroups.Step) oneTask loadTrace t ∧
    Harmless t (.getIoctlHelper true ⟨1023, 7, traceModule⟩) ∧
    Harmless t (.checkInBlacklist noFirstPage) := by
  obtain ⟨t, hr, -⟩ := loadTrace_run
  have hrecord : (Operation.getIoctlHelper true ⟨1023, 7, traceModule⟩).Admissible t.kernel :=
    trivial
  have hcheck : (Operation.checkInBlacklist noFirstPage).Admissible t.kernel := trivial
  refine ⟨t, hr, ?_, ?_⟩
  · exact (harmless_iff oneTask_initial hr hrecord).mpr (Or.inl (Or.inl rfl))
  · exact (harmless_iff oneTask_initial hr hcheck).mpr (Or.inr rfl)

/-- The node, the record or the second page cannot be had. -/
theorem null_written_through : ∃ t,
    Run (Guarded UnlinksItself ThreadGroups.Step) oneTask loadTrace t ∧
    ¬ Harmless t (.addModule none 20 ⟨200, protectModule, 0⟩) ∧
    ¬ Harmless t (.getIoctlHelper false ⟨1023, 7, traceModule⟩) ∧
    ¬ Harmless t (.checkInBlacklist noSecondPage) := by
  obtain ⟨t, hr, ha⟩ := loadTrace_run
  refine ⟨t, hr, not_harmless_of_fault rfl, not_harmless_of_fault ?_, not_harmless_of_fault rfl⟩
  apply getIoctlHelper_starved
  rintro (hgot | hnot)
  · cases hgot
  · exact hnot ha

end AllocationFailures
