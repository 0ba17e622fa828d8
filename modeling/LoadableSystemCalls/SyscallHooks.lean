import LoadableSystemCalls.KernelTypes

/-! # Hooked system calls (syscall_new.c)

The hooks, their installation in the system call table, and what mediation asks of a call
made through the table. A call runs against a world that modules and the kernel's own
system calls may change, and records what it invoked. -/
namespace SyscallHooks

open KernelTypes

inductive SystemCallType where
  | sysOpen
  | sysClose
  | sysRead
  | sysWrite
  | sysRename
  | sysRmdir
  | sysMkdir
  | sysLink
  | sysSymlink
  | sysUnlink
  deriving DecidableEq, Repr

def SystemCallType.value (type : SystemCallType) : ℕ := type.ctorIdx

def opAllowed (type : SystemCallType) (sv : BitVec 32) : Bool :=
  sv &&& (1#32 <<< type.value) != 0#32

inductive Call where
  | openFile (path : Addr) (flags : BitVec 32) (mode : BitVec 16)
  | close (fd : BitVec 32)
  | read (fd : BitVec 32) (buf : Addr) (size : BitVec 64)
  | write (fd : BitVec 32) (buf : Addr) (size : BitVec 64)
  | rename (oldname newname : Addr)
  | rmdir (filename : Addr)
  | mkdir (pathname : Addr) (mode : BitVec 16)
  | link (oldname newname : Addr)
  | symlink (old new : Addr)
  | unlink (pathname : Addr)
  deriving DecidableEq, Repr

def nrRead : ℕ := 0
def nrWrite : ℕ := 1
def nrOpen : ℕ := 2
def nrClose : ℕ := 3
def nrRename : ℕ := 82
def nrMkdir : ℕ := 83
def nrRmdir : ℕ := 84
def nrLink : ℕ := 86
def nrUnlink : ℕ := 87
def nrSymlink : ℕ := 88
def nrExitGroup : ℕ := 231

def Call.number : Call → ℕ
  | .openFile .. => nrOpen
  | .close .. => nrClose
  | .read .. => nrRead
  | .write .. => nrWrite
  | .rename .. => nrRename
  | .rmdir .. => nrRmdir
  | .mkdir .. => nrMkdir
  | .link .. => nrLink
  | .symlink .. => nrSymlink
  | .unlink .. => nrUnlink

/-- A variadic argument after the default promotions. -/
inductive Arg where
  | int (x : BitVec 32)
  | pointer (a : Addr)
  | size (n : BitVec 64)
  deriving DecidableEq, Repr

/-- What a module's `sys_op` is called with. -/
structure Request where
  num : ℕ
  type : SystemCallType
  args : List Arg
  deriving DecidableEq, Repr

inductive Code where
  | kernel (a : Addr)
  | newClose
  | newExitGroup
  | newLink
  | newSymlink
  | newUnlink
  | newRename
  | newMkdir
  | newWrite
  | newOpen
  | newRead
  | newRmdir
  deriving DecidableEq, Repr

structure Originals where
  write : Option Code
  read : Option Code
  openFile : Option Code
  rmdir : Option Code
  link : Option Code
  symlink : Option Code
  unlink : Option Code
  rename : Option Code
  mkdir : Option Code
  exitGroup : Option Code
  close : Option Code
  deriving DecidableEq, Repr

def Originals.unset : Originals :=
  ⟨none, none, none, none, none, none, none, none, none, none, none⟩

structure Driver where
  table : ℕ → Code
  originals : Originals

def setSystemsCalls (d : Driver) : Driver where
  originals := { d.originals with
    write := some (d.table nrWrite)
    openFile := some (d.table nrOpen)
    rmdir := some (d.table nrRmdir)
    link := some (d.table nrLink)
    unlink := some (d.table nrUnlink)
    symlink := some (d.table nrSymlink)
    rename := some (d.table nrRename)
    mkdir := some (d.table nrMkdir)
    exitGroup := some (d.table nrExitGroup)
    close := some (d.table nrClose) }
  table := fun nr =>
    if nr = nrOpen then .newOpen
    else if nr = nrWrite then .newWrite
    else if nr = nrRmdir then .newRmdir
    else if nr = nrLink then .newLink
    else if nr = nrUnlink then .newUnlink
    else if nr = nrSymlink then .newSymlink
    else if nr = nrRename then .newRename
    else if nr = nrMkdir then .newMkdir
    else if nr = nrExitGroup then .newExitGroup
    else if nr = nrClose then .newClose
    else d.table nr

inductive Invocation where
  | sysOp (op : Addr) (req : Request)
  | original (code : Addr) (call : Call)
  deriving DecidableEq, Repr

/-- Everything a call reads: the code behind the addresses, the loaded modules, the driver
and `current->sys_vector`. -/
structure Context (W : Type*) where
  kernelCode : Addr → Call → W → BitVec 64 × W
  sysOp : Addr → Request → W → BitVec 32 × W
  mods : AList fun _ : Addr => ModuleReg
  driver : Driver
  sysVector : Option NewSysVector

structure Outcome (W : Type*) where
  result : BitVec 64
  world : W
  invoked : List Invocation
  deriving DecidableEq, Repr

section hooks
variable {W : Type*} (c : Context W)

def eopnotsupp : BitVec 64 := -95

def kernelCall (a : Addr) (call : Call) (w : W) : Outcome W :=
  let (result, w') := c.kernelCode a call w
  ⟨result, w', [.original a call]⟩

/-- A saved pointer that is NULL, or leads back to a hook, never returns. -/
def callOriginal (p : Option Code) (call : Call) (w : W) : Option (Outcome W) :=
  match p with
  | some (.kernel a) => some (kernelCall c a call w)
  | _ => none

/-- The body the checked hooks share; reading `sys_op` of a module that is gone faults. -/
def hook (type : SystemCallType) (num : ℕ) (args : List Arg) (original : Option Code)
    (call : Call) (w : W) : Option (Outcome W) :=
  match c.sysVector with
  | none => callOriginal c original call w
  | some v =>
    if opAllowed type v.sv then
      match c.mods.lookup v.moduleAddr with
      | none => none
      | some newNode =>
        let (ret, w') := c.sysOp newNode.sysOp ⟨num, type, args⟩ w
        let asked := Invocation.sysOp newNode.sysOp ⟨num, type, args⟩
        if ret.slt 0 then some ⟨ret.signExtend 64, w', [asked]⟩
        else (callOriginal c original call w').map fun o =>
          { o with invoked := asked :: o.invoked }
    else some ⟨eopnotsupp, w, []⟩

def newClose (fd : BitVec 32) (w : W) : Option (Outcome W) :=
  hook c .sysClose 2 [.int fd] c.driver.originals.close (.close fd) w

def newLink (oldname newname : Addr) (w : W) : Option (Outcome W) :=
  hook c .sysLink 3 [.pointer oldname, .pointer newname] c.driver.originals.link
    (.link oldname newname) w

def newSymlink (old new : Addr) (w : W) : Option (Outcome W) :=
  hook c .sysSymlink 3 [.pointer old, .pointer new] c.driver.originals.symlink
    (.symlink old new) w

def newUnlink (pathname : Addr) (w : W) : Option (Outcome W) :=
  hook c .sysUnlink 2 [.pointer pathname] c.driver.originals.unlink (.unlink pathname) w

def newRename (oldname newname : Addr) (w : W) : Option (Outcome W) :=
  hook c .sysRename 3 [.pointer oldname, .pointer newname] c.driver.originals.rename
    (.rename oldname newname) w

def newMkdir (pathname : Addr) (mode : BitVec 16) (w : W) : Option (Outcome W) :=
  hook c .sysMkdir 3 [.pointer pathname, .int (mode.setWidth 32)] c.driver.originals.mkdir
    (.mkdir pathname mode) w

def newWrite (x : BitVec 32) (y : Addr) (size : BitVec 64) (w : W) : Option (Outcome W) :=
  hook c .sysWrite 3 [.int x, .pointer y, .size size] c.driver.originals.write
    (.write x y size) w

def newOpen (path : Addr) (flags : BitVec 32) (mode : BitVec 16) (w : W) :
    Option (Outcome W) :=
  hook c .sysOpen 4 [.pointer path, .int flags, .int (mode.setWidth 32)]
    c.driver.originals.openFile (.openFile path flags mode) w

/-- The hook of read looks its module up and asks it nothing. -/
def newRead (fd : BitVec 32) (pathName : Addr) (size : BitVec 64) (w : W) :
    Option (Outcome W) :=
  callOriginal c c.driver.originals.read (.read fd pathName size) w

def newRmdir (filename : Addr) (w : W) : Option (Outcome W) :=
  hook c .sysRmdir 2 [.pointer filename] c.driver.originals.rmdir (.rmdir filename) w

/-- Running what a slot holds; a hook only fits the calls of its own slot. -/
def runCode : Code → Call → W → Option (Outcome W)
  | .kernel a, call, w => callOriginal c (some (.kernel a)) call w
  | .newClose, .close fd, w => newClose c fd w
  | .newLink, .link oldname newname, w => newLink c oldname newname w
  | .newSymlink, .symlink old new, w => newSymlink c old new w
  | .newUnlink, .unlink pathname, w => newUnlink c pathname w
  | .newRename, .rename oldname newname, w => newRename c oldname newname w
  | .newMkdir, .mkdir pathname mode, w => newMkdir c pathname mode w
  | .newWrite, .write fd buf size, w => newWrite c fd buf size w
  | .newOpen, .openFile path flags mode, w => newOpen c path flags mode w
  | .newRead, .read fd buf size, w => newRead c fd buf size w
  | .newRmdir, .rmdir filename, w => newRmdir c filename w
  | _, _, _ => none

def systemCall (call : Call) (w : W) : Option (Outcome W) :=
  runCode c (c.driver.table call.number) call w

end hooks

def readmeBit : Call → ℕ
  | .openFile .. => 0
  | .close .. => 1
  | .read .. => 2
  | .write .. => 3
  | .rename .. => 4
  | .rmdir .. => 5
  | .mkdir .. => 6
  | .link .. => 7
  | .symlink .. => 8
  | .unlink .. => 9

def Call.type : Call → SystemCallType
  | .openFile .. => .sysOpen
  | .close .. => .sysClose
  | .read .. => .sysRead
  | .write .. => .sysWrite
  | .rename .. => .sysRename
  | .rmdir .. => .sysRmdir
  | .mkdir .. => .sysMkdir
  | .link .. => .sysLink
  | .symlink .. => .sysSymlink
  | .unlink .. => .sysUnlink

def Call.args : Call → List Arg
  | .openFile path flags mode => [.pointer path, .int flags, .int (mode.setWidth 32)]
  | .close fd => [.int fd]
  | .read fd buf size => [.int fd, .pointer buf, .size size]
  | .write fd buf size => [.int fd, .pointer buf, .size size]
  | .rename oldname newname => [.pointer oldname, .pointer newname]
  | .rmdir filename => [.pointer filename]
  | .mkdir pathname mode => [.pointer pathname, .int (mode.setWidth 32)]
  | .link oldname newname => [.pointer oldname, .pointer newname]
  | .symlink old new => [.pointer old, .pointer new]
  | .unlink pathname => [.pointer pathname]

section mediation
variable {W : Type*}

/-- The module is asked once; the original runs after it if and only if it agreed. -/
def Asked (c : Context W) (original op : Addr) (req : Request) (call : Call) (w : W)
    (o : Outcome W) : Prop :=
  let (ret, w') := c.sysOp op req w
  if ret.slt 0 then o = ⟨ret.signExtend 64, w', [.sysOp op req]⟩
  else
    let (result, w'') := c.kernelCode original call w'
    o = ⟨result, w'', [.sysOp op req, .original original call]⟩

/-- What a registered or unregistered task's call must do; `original` is the code the slot
held before installation. -/
def Mediated (c : Context W) (original : Addr) (call : Call) (w : W) (o : Outcome W) : Prop :=
  match c.sysVector with
  | none => o = kernelCall c original call w
  | some v =>
    if v.sv.getLsbD (readmeBit call) then
      ∃ r num, c.mods.lookup v.moduleAddr = some r ∧
        Asked c original r.sysOp ⟨num, call.type, call.args⟩ call w o
    else o = ⟨eopnotsupp, w, []⟩

/-- The driver after installation over a table of kernel functions. -/
structure Installed (c : Context W) (sys : ℕ → Addr) : Prop where
  driver : c.driver = setSystemsCalls ⟨fun nr => .kernel (sys nr), Originals.unset⟩
  loaded : ∀ v, c.sysVector = some v → ∃ r, c.mods.lookup v.moduleAddr = some r

def isRead : Call → Bool
  | .read .. => true
  | _ => false

theorem opAllowed_iff (type : SystemCallType) (sv : BitVec 32) :
    opAllowed type sv = sv.getLsbD type.value := by
  have hbit : 1#32 <<< type.value = BitVec.twoPow 32 type.value := rfl
  rw [opAllowed, hbit, BitVec.and_twoPow]
  cases sv.getLsbD type.value with
  | false => rfl
  | true => cases type <;> rfl

theorem opAllowed_eq (call : Call) (sv : BitVec 32) :
    opAllowed call.type sv = sv.getLsbD (readmeBit call) := by
  rw [opAllowed_iff]
  cases call <;> rfl

theorem hook_asked {c : Context W} {call : Call} {v : NewSysVector} {r : ModuleReg}
    (hv : c.sysVector = some v) (hr : c.mods.lookup v.moduleAddr = some r)
    (hbit : v.sv.getLsbD (readmeBit call) = true) (num : ℕ) (a : Addr) (w : W) :
    ∃ o, hook c call.type num call.args (some (.kernel a)) call w = some o ∧
      Asked c a r.sysOp ⟨num, call.type, call.args⟩ call w o := by
  simp only [hook, hv, opAllowed_eq, hbit, hr, if_true]
  by_cases hs : (c.sysOp r.sysOp ⟨num, call.type, call.args⟩ w).1.slt 0
  · refine ⟨_, if_pos hs, ?_⟩
    simp only [Asked, hs, if_true]
  · refine ⟨_, (if_neg hs).trans rfl, ?_⟩
    simp only [Asked, hs]
    rfl

theorem hook_mediated {c : Context W} {sys : ℕ → Addr} (h : Installed c sys) (call : Call)
    (num : ℕ) {a : Addr} (w : W) :
    ∃ o, hook c call.type num call.args (some (.kernel a)) call w = some o ∧
      Mediated c a call w o := by
  cases hv : c.sysVector with
  | none =>
    refine ⟨kernelCall c a call w, ?_, ?_⟩
    · simp only [hook, hv]
      rfl
    · simp only [Mediated, hv]
  | some v =>
    obtain ⟨r, hr⟩ := h.loaded v hv
    cases hb : v.sv.getLsbD (readmeBit call) with
    | false =>
      refine ⟨⟨eopnotsupp, w, []⟩, ?_, ?_⟩
      · simp [hook, hv, opAllowed_eq, hb]
      · simp [Mediated, hv, hb]
    | true =>
      obtain ⟨o, hhook, hasked⟩ := hook_asked hv hr hb num a w
      refine ⟨o, hhook, ?_⟩
      simp only [Mediated, hv, hb, if_true]
      exact ⟨r, num, hr, hasked⟩

theorem systemCall_hook {c : Context W} {sys : ℕ → Addr} (h : Installed c sys) {call : Call}
    (hc : isRead call = false) (w : W) :
    ∃ num, systemCall c call w =
      hook c call.type num call.args (some (.kernel (sys call.number))) call w := by
  obtain ⟨kernelCode, sysOp, mods, driver, sysVector⟩ := c
  obtain rfl : driver = _ := h.driver
  cases call with
  | read => cases hc
  | _ => exact ⟨_, rfl⟩

theorem systemCall_asked {c : Context W} {sys : ℕ → Addr} (h : Installed c sys) {call : Call}
    (hc : isRead call = false) {v : NewSysVector} {r : ModuleReg} (hv : c.sysVector = some v)
    (hr : c.mods.lookup v.moduleAddr = some r) (hbit : v.sv.getLsbD (readmeBit call) = true)
    (w : W) : ∃ o num, systemCall c call w = some o ∧
      Asked c (sys call.number) r.sysOp ⟨num, call.type, call.args⟩ call w o := by
  obtain ⟨num, hcall⟩ := systemCall_hook h hc w
  obtain ⟨o, hhook, hasked⟩ := hook_asked hv hr hbit num (sys call.number) w
  exact ⟨o, num, hcall.trans hhook, hasked⟩

theorem systemCall_read {c : Context W} {sys : ℕ → Addr} (h : Installed c sys) {call : Call}
    (hc : isRead call) (w : W) :
    systemCall c call w = some (kernelCall c (sys call.number) call w) := by
  obtain ⟨kernelCode, sysOp, mods, driver, sysVector⟩ := c
  obtain rfl : driver = _ := h.driver
  cases call with
  | read => rfl
  | _ => cases hc

theorem Asked.invoked {c : Context W} {a op : Addr} {req : Request} {call : Call} {w : W}
    {o : Outcome W}
    (h : Asked c a op req call w o) (op' : Addr) :
    (∃ req', Invocation.sysOp op' req' ∈ o.invoked) ↔ op' = op := by
  simp only [Asked] at h
  split at h
  · subst h
    simp
  · subst h
    simp

theorem systemCall_invokes_iff {c : Context W} {sys : ℕ → Addr} (h : Installed c sys)
    (call : Call) (w : W) (op : Addr) :
    (∃ o req, systemCall c call w = some o ∧ Invocation.sysOp op req ∈ o.invoked) ↔
      ∃ v r, c.sysVector = some v ∧ isRead call = false ∧ opAllowed call.type v.sv = true ∧
        c.mods.lookup v.moduleAddr = some r ∧ r.sysOp = op := by
  constructor
  · rintro ⟨o, req, ho, hinvoked⟩
    cases hread : isRead call with
    | true =>
      obtain rfl := Option.some.inj ((systemCall_read h hread w).symm.trans ho)
      simp [kernelCall] at hinvoked
    | false =>
      obtain ⟨num, hcall⟩ := systemCall_hook h hread w
      obtain ⟨o', hhook, hmediated⟩ := hook_mediated h call num (a := sys call.number) w
      obtain rfl := Option.some.inj ((hcall.trans hhook).symm.trans ho)
      cases hv : c.sysVector with
      | none =>
        simp only [Mediated, hv] at hmediated
        subst hmediated
        simp [kernelCall] at hinvoked
      | some v =>
        simp only [Mediated, hv] at hmediated
        split at hmediated
        · next hbit =>
          obtain ⟨r, num', hr, hasked⟩ := hmediated
          have hop := (hasked.invoked op).mp ⟨req, hinvoked⟩
          exact ⟨v, r, rfl, rfl, (opAllowed_eq call v.sv).trans hbit, hr, hop.symm⟩
        · subst hmediated
          simp at hinvoked
  · rintro ⟨v, r, hv, hread, hallowed, hr, rfl⟩
    rw [opAllowed_eq] at hallowed
    obtain ⟨o, num, ho, hasked⟩ := systemCall_asked h hread hv hr hallowed w
    obtain ⟨req, hinvoked⟩ := (hasked.invoked r.sysOp).mpr rfl
    exact ⟨o, req, ho, hinvoked⟩

theorem unmediated {c : Context W} {a : Addr} {call : Call} {w : W} {v : NewSysVector}
    (hv : c.sysVector = some v) : ¬ Mediated c a call w (kernelCall c a call w) := by
  intro hm
  simp only [Mediated, hv] at hm
  split at hm
  · obtain ⟨r, num, -, hasked⟩ := hm
    simp only [Asked] at hasked
    split at hasked
    · have := congrArg Outcome.invoked hasked
      simp [kernelCall] at this
    · have := congrArg Outcome.invoked hasked
      simp [kernelCall] at this
  · have := congrArg Outcome.invoked hm
    simp [kernelCall] at this

/-- Mediation is complete except for the reads of registered tasks. -/
theorem mediated_iff {c : Context W} {sys : ℕ → Addr} (h : Installed c sys) (call : Call)
    (w : W) :
    (∃ o, systemCall c call w = some o ∧ Mediated c (sys call.number) call w o) ↔
      ¬ (isRead call = true ∧ c.sysVector.isSome = true) := by
  cases hc : isRead call with
  | false =>
    obtain ⟨num, hcall⟩ := systemCall_hook h hc w
    rw [hcall]
    simp [hook_mediated h call num w]
  | true =>
    rw [systemCall_read h hc w]
    cases hv : c.sysVector with
    | none => simp [Mediated, hv]
    | some v => simp [unmediated hv]

/-- The hook of read would not return if it were installed: its original is never saved. -/
theorem newRead_unsaved {c : Context W} {sys : ℕ → Addr} (h : Installed c sys)
    (fd : BitVec 32) (pathName : Addr) (size : BitVec 64) (w : W) :
    newRead c fd pathName size w = none := by
  rw [newRead, h.driver]
  rfl

end mediation

def refusingContext : Context Unit where
  kernelCode := fun _ _ w => (0, w)
  sysOp := fun _ _ w => (-1, w)
  mods := AList.singleton 10 ⟨100, traceModule, 50⟩
  driver := setSystemsCalls ⟨fun nr => .kernel nr, Originals.unset⟩
  sysVector := some ⟨0, 10⟩

theorem read_escapes : ¬ ∃ o, systemCall refusingContext (.read 3 0 1) () = some o ∧
    Mediated refusingContext nrRead (.read 3 0 1) () o := by
  rintro ⟨o, hcall, hm⟩
  obtain rfl : _ = o := Option.some.inj hcall
  exact unmediated rfl hm

theorem refusingContext_installed : Installed refusingContext id where
  driver := rfl
  loaded := by
    intro v hv
    obtain rfl := Option.some.inj hv
    exact ⟨_, rfl⟩

theorem mediated_iff_open : ∃ o, systemCall refusingContext (.openFile 0 0 0) () = some o ∧
    Mediated refusingContext nrOpen (.openFile 0 0 0) () o :=
  (mediated_iff refusingContext_installed (.openFile 0 0 0) ()).mpr (by decide)

end SyscallHooks
