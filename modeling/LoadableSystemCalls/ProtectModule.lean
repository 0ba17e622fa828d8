import LoadableSystemCalls.CStrings
import LoadableSystemCalls.SyscallHooks

/-! # Names under the protect module (protect_module.c)

The module looks for ".protected" in one name of each call. Of the two names of a link,
symlink or rename it is the one whose va_arg is evaluated first. -/
namespace ProtectModule

open CStrings KernelTypes SyscallHooks

abbrev Memory := List Byte

/-- The order in which the two va_arg reads of one argument list are evaluated. -/
inductive EvalOrder where
  | leftToRight
  | rightToLeft
  deriving DecidableEq, Repr

/-- What two va_arg reads give to the parameters, when the call passed `a` and `b`. -/
def vaArgs (order : EvalOrder) (a b : Addr) : Addr × Addr :=
  match order with
  | .leftToRight => (a, b)
  | .rightToLeft => (b, a)

def protectedName : List Byte := ascii ".protected"

def eperm : BitVec 32 := -1

section entry
variable (mem : Memory)

/-- The test the functions share. -/
def refuseProtected (name : Addr) : Option (BitVec 32) :=
  (strlen (mem.drop name)).map fun _ =>
    if strstr (mem.drop name) protectedName then eperm else 0

def protectOpen (path : Addr) (_flags : BitVec 32) (_mode : BitVec 16) : Option (BitVec 32) :=
  refuseProtected mem path

def protectUnlink (pathname : Addr) : Option (BitVec 32) := refuseProtected mem pathname

def protectSymlink (old _new : Addr) : Option (BitVec 32) := refuseProtected mem old

def protectLink (oldname _newname : Addr) : Option (BitVec 32) := refuseProtected mem oldname

def protectWrite (_fd : BitVec 32) (pathName : Addr) (_size : BitVec 64) : Option (BitVec 32) :=
  refuseProtected mem pathName

def protectedRename (oldname _newname : Addr) : Option (BitVec 32) := refuseProtected mem oldname

def protectRmdir (filename : Addr) : Option (BitVec 32) := refuseProtected mem filename

/-- The size of a write is read as an int. Arguments of another shape are never passed. -/
def systemCallEntry (order : EvalOrder) (req : Request) : Option (BitVec 32) :=
  match req.type, req.args with
  | .sysOpen, [.pointer path, .int flags, .int mode] =>
    protectOpen mem path flags (mode.setWidth 16)
  | .sysWrite, [.int fd, .pointer pathName, .size size] =>
    protectWrite mem fd pathName ((size.setWidth 32).signExtend 64)
  | .sysRmdir, [.pointer filename] => protectRmdir mem filename
  | .sysUnlink, [.pointer pathname] => protectUnlink mem pathname
  | .sysSymlink, [.pointer a, .pointer b] =>
    let (old, new) := vaArgs order a b
    protectSymlink mem old new
  | .sysLink, [.pointer a, .pointer b] =>
    let (oldname, newname) := vaArgs order a b
    protectLink mem oldname newname
  | .sysRename, [.pointer a, .pointer b] =>
    let (oldname, newname) := vaArgs order a b
    protectedRename mem oldname newname
  | .sysClose, _ => some 0
  | .sysRead, _ => some 0
  | .sysMkdir, _ => some 0
  | _, _ => none

def IsProtected (name : Addr) : Prop := protectedName <:+: text (mem.drop name)

instance (name : Addr) : Decidable (IsProtected mem name) :=
  inferInstanceAs (Decidable (_ <:+: _))

end entry

def pathArgs : Call → List Addr
  | .openFile path _ _ => [path]
  | .rmdir filename => [filename]
  | .unlink pathname => [pathname]
  | .link oldname newname => [oldname, newname]
  | .symlink old new => [old, new]
  | .rename oldname newname => [oldname, newname]
  | _ => []

def checkedName (order : EvalOrder) (call : Call) : Option Addr :=
  match pathArgs call with
  | [path] => some path
  | [a, b] => some (vaArgs order a b).1
  | _ => none

section
variable {W : Type*}

/-- The task is registered on the protect module with every bit set, the hooks are
installed, and `memory` is what the module sees of the world. -/
structure OnProtect (order : EvalOrder) (memory : W → Memory) (c : Context W) (sys : ℕ → Addr)
    (op : Addr) : Prop where
  installed : Installed c sys
  registered : ∃ v m, c.sysVector = some v ∧ (∀ call, v.sv.getLsbD (readmeBit call) = true) ∧
    c.mods.lookup v.moduleAddr = some ⟨m, protectModule, op⟩
  entry : ∀ req w ret, systemCallEntry (memory w) order req = some ret →
    c.sysOp op req w = (ret, w)

def Refused (o : Outcome W) : Prop :=
  o.result = eperm.signExtend 64 ∧ ∀ a call, Invocation.original a call ∉ o.invoked

def PassedOn (c : Context W) (a : Addr) (call : Call) (w : W) (o : Outcome W) : Prop :=
  (o.result, o.world) = c.kernelCode a call w ∧ Invocation.original a call ∈ o.invoked

/-- Refused if some path argument is protected, passed on otherwise. -/
structure GuardedByName (mem : Memory) (c : Context W) (a : Addr) (call : Call) (w : W)
    (o : Outcome W) : Prop where
  refused : Refused o ↔ ∃ name ∈ pathArgs call, IsProtected mem name
  passed : ¬ Refused o → PassedOn c a call w o

variable {order : EvalOrder} {memory : W → Memory} {c : Context W} {sys : ℕ → Addr} {op : Addr}

theorem refuseProtected_eq {mem : Memory} {name : Addr} (h : (strlen (mem.drop name)).isSome) :
    refuseProtected mem name = some (if IsProtected mem name then eperm else 0) := by
  obtain ⟨n, hn⟩ := Option.isSome_iff_exists.mp h
  have hname : text protectedName = protectedName := by decide
  have hstr : strstr (mem.drop name) protectedName = decide (IsProtected mem name) := by
    rw [strstr, hname]
    rfl
  rw [refuseProtected, hn, Option.map_some, hstr]
  simp only [decide_eq_true_eq]

theorem refuseProtected_eperm {mem : Memory} {name : Addr}
    (h : (strlen (mem.drop name)).isSome) :
    refuseProtected mem name = some eperm ↔ IsProtected mem name := by
  rw [refuseProtected_eq h]
  by_cases hp : IsProtected mem name
  · simp [hp]
  · simp [hp, eperm]

theorem entry_checked {call : Call} {name : Addr} (hname : checkedName order call = some name)
    (mem : Memory) (num : ℕ) :
    systemCallEntry mem order ⟨num, call.type, call.args⟩ = refuseProtected mem name := by
  cases call with
  | close => cases hname
  | read => cases hname
  | write => cases hname
  | mkdir => cases hname
  | _ =>
    obtain rfl := Option.some.inj hname
    rfl

theorem checkedName_mem {call : Call} {name : Addr} (h : checkedName order call = some name) :
    name ∈ pathArgs call ∧ isRead call = false := by
  cases call with
  | close => cases h
  | read => cases h
  | write => cases h
  | mkdir => cases h
  | link | symlink | rename =>
    obtain rfl := Option.some.inj h
    cases order <;> simp [pathArgs, vaArgs, isRead]
  | openFile | rmdir | unlink =>
    obtain rfl := Option.some.inj h
    simp [pathArgs, isRead]

theorem checkedName_isSome {call : Call} (h : pathArgs call ≠ []) (order : EvalOrder) :
    ∃ name, checkedName order call = some name := by
  cases call with
  | close => exact absurd rfl h
  | read => exact absurd rfl h
  | write => exact absurd rfl h
  | mkdir => exact absurd rfl h
  | _ => exact ⟨_, rfl⟩

theorem outcome_named (h : OnProtect order memory c sys op) {call : Call}
    (hread : isRead call = false) {name : Addr} {w : W}
    (hentry : ∀ num, systemCallEntry (memory w) order ⟨num, call.type, call.args⟩ =
      refuseProtected (memory w) name)
    (hstring : (strlen ((memory w).drop name)).isSome) :
    ∃ o, systemCall c call w = some o ∧ (Refused o ↔ IsProtected (memory w) name) ∧
      (¬ Refused o → PassedOn c (sys call.number) call w o) := by
  obtain ⟨v, m, hv, hbits, hr⟩ := h.registered
  obtain ⟨o, num, hcall, hasked⟩ := systemCall_asked h.installed hread hv hr (hbits call) w
  have hret := h.entry ⟨num, call.type, call.args⟩ w _
    ((hentry num).trans (refuseProtected_eq hstring))
  refine ⟨o, hcall, ?_⟩
  simp only [Asked, hret] at hasked
  by_cases hp : IsProtected (memory w) name
  · have hneg : eperm.slt 0 = true := by decide
    rw [if_pos hp, if_pos hneg] at hasked
    have hrefused : Refused o := by
      rw [hasked]
      constructor
      · rfl
      · intro a call hmem
        simp at hmem
    exact ⟨iff_of_true hrefused hp, fun hno => absurd hrefused hno⟩
  · have hzero : ¬ (0 : BitVec 32).slt 0 = true := by decide
    rw [if_neg hp, if_neg hzero] at hasked
    have hpassed : PassedOn c (sys call.number) call w o := by
      rw [hasked]
      exact ⟨rfl, by simp⟩
    have hno : ¬ Refused o := fun hrefused => hrefused.2 _ _ hpassed.2
    exact ⟨iff_of_false hno hp, fun _ => hpassed⟩

theorem outcome_checked (h : OnProtect order memory c sys op) {call : Call} {name : Addr}
    (hname : checkedName order call = some name) {w : W}
    (hstring : (strlen ((memory w).drop name)).isSome) :
    ∃ o, systemCall c call w = some o ∧ (Refused o ↔ IsProtected (memory w) name) ∧
      (¬ Refused o → PassedOn c (sys call.number) call w o) :=
  outcome_named h (checkedName_mem hname).2 (entry_checked hname (memory w)) hstring

/-- A guarded call is decided right if and only if no name but the checked one is the only
protected one. -/
theorem guarded_by_name_iff (h : OnProtect order memory c sys op) {call : Call}
    (hcall : pathArgs call ≠ []) {w : W}
    (hstrings : ∀ name ∈ pathArgs call, (strlen ((memory w).drop name)).isSome) :
    (∃ o, systemCall c call w = some o ∧
        GuardedByName (memory w) c (sys call.number) call w o) ↔
      ∀ name ∈ pathArgs call, IsProtected (memory w) name →
        ∃ checked, checkedName order call = some checked ∧ IsProtected (memory w) checked := by
  obtain ⟨checked, hchecked⟩ := checkedName_isSome hcall order
  have hmem := (checkedName_mem hchecked).1
  obtain ⟨o, hout, hrefused, hpassed⟩ := outcome_checked h hchecked (hstrings checked hmem)
  constructor
  · rintro ⟨o', ho', hguard⟩ name hname hp
    obtain rfl := Option.some.inj (hout.symm.trans ho')
    exact ⟨checked, hchecked, hrefused.mp (hguard.refused.mpr ⟨name, hname, hp⟩)⟩
  · intro hcover
    refine ⟨o, hout, ?_, hpassed⟩
    constructor
    · intro hr
      exact ⟨checked, hmem, hrefused.mp hr⟩
    · rintro ⟨name, hname, hp⟩
      obtain ⟨checked', hchecked', hp'⟩ := hcover name hname hp
      obtain rfl := Option.some.inj (hchecked.symm.trans hchecked')
      exact hrefused.mpr hp'

end

def protectContext (order : EvalOrder) : Context Memory where
  kernelCode := fun _ _ w => (0, w)
  sysOp := fun _ req w => ((systemCallEntry w order req).getD 0, w)
  mods := AList.singleton 10 ⟨100, protectModule, 50⟩
  driver := setSystemsCalls ⟨fun nr => .kernel nr, Originals.unset⟩
  sysVector := some ⟨1023, 10⟩

theorem protectContext_onProtect (order : EvalOrder) :
    OnProtect order id (protectContext order) id 50 where
  installed := {
    driver := rfl
    loaded := by
      intro v hv
      obtain rfl := Option.some.inj hv
      exact ⟨_, rfl⟩ }
  registered := by
    refine ⟨⟨1023, 10⟩, 100, rfl, ?_, rfl⟩
    intro call
    cases call <;> simp [readmeBit]
  entry := by
    intro req w ret hret
    simp only [protectContext, id] at hret ⊢
    rw [hret]
    simp only [Option.getD_some]

def twoNames : Memory := protectedName ++ 0 :: ascii "a" ++ [0]

theorem guarded_by_name_unlink :
    ∃ o, systemCall (protectContext .rightToLeft) (.unlink 0) twoNames = some o ∧
      GuardedByName twoNames (protectContext .rightToLeft) nrUnlink (.unlink 0) twoNames o := by
  apply (guarded_by_name_iff (protectContext_onProtect .rightToLeft) (by simp [pathArgs])
    (by decide)).mpr
  intro name hname hp
  exact ⟨0, rfl, by decide⟩

/-- Whichever read comes first, a link can carry the protected name in the other place. -/
theorem protected_name_passes :
    (∃ o, systemCall (protectContext .rightToLeft) (.link 0 11) twoNames = some o ∧
      ¬ GuardedByName twoNames (protectContext .rightToLeft) nrLink (.link 0 11) twoNames o) ∧
    ∃ o, systemCall (protectContext .leftToRight) (.link 11 0) twoNames = some o ∧
      ¬ GuardedByName twoNames (protectContext .leftToRight) nrLink (.link 11 0) twoNames o := by
  constructor
  · refine ⟨_, rfl, ?_⟩
    intro hguard
    have hrefused := hguard.refused.mpr ⟨0, by simp [pathArgs], by decide⟩
    exact absurd hrefused.1 (by decide)
  · refine ⟨_, rfl, ?_⟩
    intro hguard
    have hrefused := hguard.refused.mpr ⟨0, by simp [pathArgs], by decide⟩
    exact absurd hrefused.1 (by decide)

end ProtectModule
