import LoadableSystemCalls.ProtectModule
import LoadableSystemCalls.TraceLog

/-! # Guarded and traced writes (new_write, protect_write, trace_write)

A hooked write hands the modules its data buffer, and both take it for the name of a file. -/
namespace GuardedWrite

open CStrings KernelTypes SyscallHooks ProtectModule TraceLog

def stringAt (mem : Memory) (a : Addr) : Option (List Byte) :=
  (strlen (mem.drop a)).map fun n => (mem.drop a).take n

/-- The trace function a request leads to. Arguments of another shape are never passed. -/
def traceCall (order : EvalOrder) (mem : Memory) (req : Request) : Option TraceCall :=
  match req.type, req.args with
  | .sysOpen, [.pointer path, .int flags, .int mode] =>
    (stringAt mem path).map fun path => .openFile path flags (mode.setWidth 16)
  | .sysClose, [.int fd] => some (.close fd)
  | .sysRead, [.int fd, .pointer pathName, .size size] =>
    (stringAt mem pathName).map fun pathName =>
      .read fd pathName ((size.setWidth 32).signExtend 64)
  | .sysWrite, [.int fd, .pointer pathName, .size size] =>
    (stringAt mem pathName).map fun pathName =>
      .write fd pathName ((size.setWidth 32).signExtend 64)
  | .sysRename, [.pointer a, .pointer b] =>
    let (oldname, newname) := vaArgs order a b
    (stringAt mem oldname).bind fun oldname => (stringAt mem newname).map fun newname =>
      .rename oldname newname
  | .sysRmdir, [.pointer filename] => (stringAt mem filename).map .rmdir
  | .sysMkdir, [.pointer pathname, .int mode] =>
    (stringAt mem pathname).map fun pathname => .mkdir pathname (mode.setWidth 16)
  | .sysSymlink, [.pointer a, .pointer b] =>
    let (old, new) := vaArgs order a b
    (stringAt mem old).bind fun old => (stringAt mem new).map fun new => .symlink old new
  | .sysLink, [.pointer a, .pointer b] =>
    let (oldname, newname) := vaArgs order a b
    (stringAt mem oldname).bind fun oldname => (stringAt mem newname).map fun newname =>
      .link oldname newname
  | .sysUnlink, [.pointer pathname] => (stringAt mem pathname).map .unlink
  | _, _ => none

def traceSystemCallEntry (order : EvalOrder) (mem : Memory) (pid : BitVec 32) (req : Request)
    (s : TraceState) : Option TraceState :=
  (traceCall order mem req).bind fun call => perform s (pid, call)

def writeRequest (fd : BitVec 32) (buf : Addr) (size : BitVec 64) : Request :=
  ⟨3, .sysWrite, [.int fd, .pointer buf, .size size]⟩

theorem systemCall_write {W : Type*} {c : Context W} {sys : ℕ → Addr} (h : Installed c sys)
    {v : NewSysVector} {r : ModuleReg} (hv : c.sysVector = some v)
    (hr : c.mods.lookup v.moduleAddr = some r) {fd : BitVec 32} {buf : Addr} {size : BitVec 64}
    (hbit : v.sv.getLsbD (readmeBit (.write fd buf size)) = true) (w : W) :
    ∃ o, systemCall c (.write fd buf size) w = some o ∧
      Asked c (sys nrWrite) r.sysOp (writeRequest fd buf size) (.write fd buf size) w o := by
  obtain ⟨o, hhook, hasked⟩ := hook_asked hv hr hbit 3 (sys nrWrite) w
  refine ⟨o, ?_, hasked⟩
  rw [← hhook]
  obtain ⟨kernelCode, sysOp, mods, driver, sysVector⟩ := c
  obtain rfl : driver = _ := h.driver
  rfl

theorem write_outcome {W : Type*} {order : EvalOrder} {memory : W → Memory} {c : Context W}
    {sys : ℕ → Addr} {op : Addr} (h : OnProtect order memory c sys op) {fd : BitVec 32}
    {buf : Addr} {size : BitVec 64} {w : W} (hstring : (strlen ((memory w).drop buf)).isSome) :
    ∃ o, systemCall c (.write fd buf size) w = some o ∧
      (Refused o ↔
        systemCallEntry (memory w) order (writeRequest fd buf size) = some eperm) ∧
      (¬ Refused o → PassedOn c (sys nrWrite) (.write fd buf size) w o) := by
  obtain ⟨o, hcall, hrefused, hpassed⟩ :=
    @outcome_named W order memory c sys op h (.write fd buf size) rfl buf w (fun _ => rfl) hstring
  exact ⟨o, hcall, hrefused.trans (refuseProtected_eperm hstring).symm, hpassed⟩

/-- `kept` is the memory up to the end of the bytes being written, `opened` gives the path a
descriptor's file was opened under. -/
structure WriteGuarded (order : EvalOrder) (opened : BitVec 32 → Option (List Byte))
    (kept : Memory) (fd : BitVec 32) (buf : Addr) (size : BitVec 64) : Prop where
  verdict : ∀ after after',
    systemCallEntry (kept ++ after) order (writeRequest fd buf size) =
      systemCallEntry (kept ++ after') order (writeRequest fd buf size)
  record : ∀ after after' pid s,
    traceSystemCallEntry order (kept ++ after) pid (writeRequest fd buf size) s =
      traceSystemCallEntry order (kept ++ after') pid (writeRequest fd buf size) s
  refused : ∀ after,
    systemCallEntry (kept ++ after) order (writeRequest fd buf size) = some eperm ↔
      ∃ path, opened fd = some path ∧ protectedName <:+: path

section
variable {order : EvalOrder} {mem kept : Memory} {fd : BitVec 32} {buf : Addr} {size : BitVec 64}

theorem entry_write : systemCallEntry mem order (writeRequest fd buf size) =
    refuseProtected mem buf := rfl

theorem traceCall_write : traceCall order mem (writeRequest fd buf size) =
    (stringAt mem buf).map fun name => .write fd name ((size.setWidth 32).signExtend 64) := rfl

theorem drop_kept (hbuf : buf ≤ kept.length) (after : Memory) :
    (kept ++ after).drop buf = kept.drop buf ++ after :=
  List.drop_append_of_le_length hbuf

theorem stringAt_kept (hbuf : buf ≤ kept.length) (hzero : 0 ∈ kept.drop buf) (after : Memory) :
    stringAt (kept ++ after) buf = some (text (kept.drop buf)) := by
  have hmem : 0 ∈ kept.drop buf ++ after := List.mem_append_left after hzero
  have hlen := strlen_of_mem hmem
  have htake := (strlen_eq_text hlen).1
  rw [stringAt, drop_kept hbuf, hlen, Option.map_some, htake, text_append_of_mem hzero]

theorem entry_kept (hbuf : buf ≤ kept.length) (hzero : 0 ∈ kept.drop buf) (after : Memory) :
    systemCallEntry (kept ++ after) order (writeRequest fd buf size) =
      refuseProtected kept buf := by
  have hstring : (strlen (kept.drop buf)).isSome := strlen_isSome_iff.mpr (not_not.mpr hzero)
  have hlonger : (strlen ((kept ++ after).drop buf)).isSome := by
    rw [drop_kept hbuf, strlen_of_mem (List.mem_append_left after hzero)]
    rfl
  have hsame : IsProtected (kept ++ after) buf ↔ IsProtected kept buf := by
    rw [IsProtected, IsProtected, drop_kept hbuf, text_append_of_mem hzero]
  rw [entry_write, refuseProtected_eq hlonger, refuseProtected_eq hstring]
  simp only [hsame]

theorem verdict_differs (hbuf : buf ≤ kept.length) (hfree : NulFree (kept.drop buf)) :
    systemCallEntry (kept ++ []) order (writeRequest fd buf size) ≠
      systemCallEntry (kept ++ [0]) order (writeRequest fd buf size) := by
  have hends : (strlen (kept.drop buf ++ [0])).isSome :=
    strlen_isSome_iff.mpr (not_not.mpr (by simp))
  intro heq
  rw [entry_write, entry_write, refuseProtected, drop_kept hbuf, List.append_nil,
    strlen_nulFree hfree] at heq
  have hsome : (refuseProtected (kept ++ [0]) buf).isSome := by
    rw [refuseProtected, drop_kept hbuf, Option.isSome_map]
    exact hends
  rw [← heq] at hsome
  cases hsome

/-- A write is judged by its data and its file alone if and only if the data holds a
terminator and has ".protected" before it just when the file's path has it. -/
theorem write_guarded_iff {opened : BitVec 32 → Option (List Byte)}
    (hkept : kept.length = buf + size.toNat) :
    WriteGuarded order opened kept fd buf size ↔
      0 ∈ kept.drop buf ∧ (protectedName <:+: text (kept.drop buf) ↔
        ∃ path, opened fd = some path ∧ protectedName <:+: path) := by
  have hbuf : buf ≤ kept.length := by
    rw [hkept]
    exact Nat.le_add_right buf size.toNat
  have hrefuse (hzero : 0 ∈ kept.drop buf) :
      refuseProtected kept buf = some eperm ↔ protectedName <:+: text (kept.drop buf) :=
    refuseProtected_eperm (strlen_isSome_iff.mpr (not_not.mpr hzero))
  constructor
  · intro h
    have hzero : 0 ∈ kept.drop buf := by
      by_contra hfree
      exact verdict_differs hbuf hfree (h.verdict [] [0])
    refine ⟨hzero, ?_⟩
    rw [← h.refused [], entry_kept hbuf hzero, hrefuse hzero]
  · intro ⟨hzero, hpath⟩
    constructor
    · intro after after'
      rw [entry_kept hbuf hzero, entry_kept hbuf hzero]
    · intro after after' pid s
      rw [traceSystemCallEntry, traceSystemCallEntry, traceCall_write, traceCall_write,
        stringAt_kept hbuf hzero, stringAt_kept hbuf hzero]
    · intro after
      rw [entry_kept hbuf hzero, hrefuse hzero, hpath]

theorem write_guarded_iff_note :
    WriteGuarded .rightToLeft (fun _ => some (ascii "/tmp/note")) (ascii "hi" ++ [0]) 3 0 3 := by
  apply (write_guarded_iff (by decide)).mpr
  constructor
  · decide
  · constructor
    · intro hp
      exact absurd hp (by decide)
    · rintro ⟨path, hpath, hp⟩
      obtain rfl := Option.some.inj hpath
      exact absurd hp (by decide)

/-- One byte, followed by nothing or by the name of a protected file. -/
theorem following_bytes_decide :
    ¬ WriteGuarded .rightToLeft (fun _ => some (ascii "/tmp/note")) (ascii "a") 3 0 1 := by
  intro h
  have hsame := h.verdict [0] (protectedName ++ [0])
  exact absurd hsame (by decide)

end

end GuardedWrite
