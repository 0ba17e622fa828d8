import LoadableSystemCalls.HexDecoding
import LoadableSystemCalls.SyscallHooks
import LoadableSystemCalls.SystemMap

/-! # Loading and unloading the driver (main.c, syscall_intercept.c, ioctl_device.c)

router_init and router_exit under every outcome of the calls they make of the kernel, with
a log of what is acquired and released. A fault is an access through NULL or an error
pointer, or outside a buffer. -/
namespace DriverSetup

open CStrings KernelTypes SyscallHooks HexDecoding SystemMap

def bootPath : List Byte := ascii "/boot/System.map-"

/-- The kernel's `kstrtoul` at base 16: a plus sign, 0x and a newline at the end may be there;
`none` for anything else that is no number, or none of 64 bits. -/
def kstrtoul (s : List Byte) : Option Addr :=
  let cp := fixupRadix (match s with | 43 :: t => t | t => t)
  let rest := cp.dropWhile isHex
  if cp.takeWhile isHex = [] ∨ (rest ≠ [] ∧ rest ≠ [10]) then none
  else
    let value := (cp.takeWhile isHex).foldl (fun v c => v * 16 + (hexValue c).getD 0) 0
    if value < 2 ^ 64 then some value else none

inductive Pointer where
  | null
  | error
  | object
  deriving DecidableEq, Repr

def isErr (a : Addr) : Prop := 2 ^ 64 - 4095 ≤ a

instance (a : Addr) : Decidable (isErr a) := inferInstanceAs (Decidable (_ ≤ _))

inductive AddrLimit where
  | userDs
  | kernelDs
  deriving DecidableEq, Repr

/-- How the kernel answers. A call that returns an error pointer is given by its error; the
two texts are what the calls of vfs_read deliver, all of them or less. -/
structure Outcomes where
  allocChrdevRegion : ℤ
  classCreate : Option ℤ
  kzallocDevices : Bool
  cdevAdd : ℤ
  deviceCreate : Option ℤ
  kzallocVersion : Bool
  openVersion : Pointer
  version : List Byte
  version_le : version.length ≤ maxVersionLen
  kzallocFilename : Bool
  openMap : List Byte → Pointer
  kzallocEntry : Bool
  systemMap : List Byte
  kzallocString : Bool
  kstrtoul : List Byte → Option Addr

inductive Resource where
  | chrdevRegion
  | ioctlClass
  | ioctlDevices
  | cdev
  | device
  | kernelVersion
  | procVersion
  | filename
  | mapFile
  | mapEntry
  | sysString
  deriving DecidableEq, Repr

inductive Effect where
  | acquire (r : Resource)
  | release (r : Resource)
  deriving DecidableEq, Repr

def Effect.resource : Effect → Resource
  | .acquire r => r
  | .release r => r

structure State where
  fs : AddrLimit
  words : Addr → Code
  syscallTable : Addr
  originals : Originals
  ioctlDevices : Bool
  ioctlClass : Pointer
  log : List Effect

namespace State
variable (s : State)

def acquire (r : Resource) : State := { s with log := s.log ++ [.acquire r] }

def release (r : Resource) : State := { s with log := s.log ++ [.release r] }

def setFs (fs : AddrLimit) : State := { s with fs := fs }

def tableAt (a : Addr) : Driver := ⟨fun nr => s.words (a + 8 * nr), s.originals⟩

def writeTable (a : Addr) (d : Driver) : State :=
  { s with
    originals := d.originals
    words := fun x => if a ≤ x ∧ (x - a) % 8 = 0 then d.table ((x - a) / 8) else s.words x }

/-- Slots of `syscall_table` are read and written; an error pointer faults. -/
def patchTable (f : Driver → Driver) : Option State :=
  if isErr s.syscallTable then none
  else some (s.writeTable s.syscallTable (f (s.tableAt s.syscallTable)))

@[simp] theorem writeTable_words (a : Addr) (d : Driver) (nr : ℕ) :
    (s.writeTable a d).words (a + 8 * nr) = d.table nr := by
  simp [writeTable]

end State

/-- `none` is BUG_ON. -/
def ioctlConstructDevice (o : Outcomes) (dev : Bool) (class_ : Pointer) (s : State) :
    Option (State × ℤ) :=
  if dev = false ∨ class_ = .null then none
  else if o.cdevAdd ≠ 0 then some (s, o.cdevAdd)
  else
    match o.deviceCreate with
    | some err => some ((s.acquire .cdev).release .cdev, err)
    | none => some ((s.acquire .cdev).acquire .device, 0)

def setupIoctlDev (o : Outcomes) (s : State) : Option (State × ℤ) :=
  if o.allocChrdevRegion < 0 then some (s, o.allocChrdevRegion)
  else
    let s := s.acquire .chrdevRegion
    match o.classCreate with
    | some err => some ({ s with ioctlClass := .error }, err)
    | none =>
      let s := { s.acquire .ioctlClass with ioctlClass := .object }
      if o.kzallocDevices then
        let s := { s.acquire .ioctlDevices with ioctlDevices := true }
        ioctlConstructDevice o s.ioctlDevices s.ioctlClass s
      else some (s, -12)

def ioctlDestroyDevice (dev : Bool) (class_ : Pointer) (s : State) : Option State :=
  if dev = false ∨ class_ = .null then none
  else some ((s.release .device).release .cdev)

/-- The kernel's class_destroy passes over an error pointer. -/
def classDestroy (class_ : Pointer) (s : State) : State :=
  match class_ with
  | .object => s.release .ioctlClass
  | _ => s

def ioctlCleanup (s : State) : Option State :=
  (if s.ioctlDevices then
    (ioctlDestroyDevice s.ioctlDevices s.ioctlClass s).map fun s => s.release .ioctlDevices
  else some s).map fun s => (classDestroy s.ioctlClass s).release .chrdevRegion

/-- `strsep(&buf, " ")`: the token, and where the pointer is left; NULL stays NULL. -/
def strsepNext (buf : Option (List Byte)) : Option (Option (List Byte) × Option (List Byte)) :=
  match buf with
  | none => some (none, none)
  | some s => (strsep 32 s).map fun r => (some r.1, r.2)

/-- The third of three calls of strsep. -/
def kernelVersion (buf : List Byte) : Option (Option (List Byte)) :=
  (strsepNext (some buf)).bind fun (_, buf) =>
    (strsepNext buf).bind fun (_, buf) => (strsepNext buf).map Prod.fst

/-- A failed open returns with the address limit still raised. -/
def acquireKernelVersion (o : Outcomes) (s : State) : Option (State × Option (List Byte)) :=
  let oldfs := s.fs
  let s := s.setFs .kernelDs
  match o.openVersion with
  | .object =>
    (kernelVersion (o.version ++ zeroed.drop o.version.length)).map fun version =>
      (((s.acquire .procVersion).release .procVersion).setFs oldfs, version)
  | _ => some (s, none)

/-- The label `out`: whatever is not NULL is closed and freed. -/
def findOut (f : Pointer) (filename entry : Bool) (oldfs : AddrLimit) (ret : ℤ) (s : State) :
    Option (State × ℤ) :=
  match f with
  | .error => none
  | _ =>
    let s := if f = .object then s.release .mapFile else s
    let s := if filename then s.release .filename else s
    let s := if entry then s.release .mapEntry else s
    some (s.setFs oldfs, ret)

/-- The length of the version is taken before it is compared with NULL. -/
def findSysCallTable (o : Outcomes) (kernVer : Option (List Byte)) (s : State) :
    Option (State × ℤ) :=
  match kernVer with
  | none => none
  | some kernVer =>
    let oldfs := s.fs
    let s := s.setFs .kernelDs
    if o.kzallocFilename then
      let s := s.acquire .filename
      match o.openMap (bootPath ++ kernVer) with
      | .object =>
        let s := s.acquire .mapFile
        if o.kzallocEntry then
          let s := s.acquire .mapEntry
          match mapLoop o.systemMap zeroed 0 with
          | none => none
          | some none => findOut .object true true oldfs 0 s
          | some (some entry) =>
            if o.kzallocString then
              match strsep 32 entry with
              | none => none
              | some (sysString, _) =>
                findOut .object true true oldfs 0 { (s.acquire .sysString).release .sysString with
                  syscallTable := (o.kstrtoul sysString).getD 0 }
            else findOut .object true true oldfs (-1) s
        else findOut .object true false oldfs (-1) s
      | f => findOut f true false oldfs (-1) s
    else findOut .null false false oldfs (-1) s

section endings
variable {o : Outcomes} {kernVer : List Byte} (s : State)

def Outcomes.Reads (o : Outcomes) (kernVer : List Byte) : Prop :=
  o.kzallocFilename = true ∧ o.openMap (bootPath ++ kernVer) = .object ∧ o.kzallocEntry = true

theorem findSysCallTable_found (ho : o.Reads kernVer) (hstring : o.kzallocString = true)
    {entry sysString : List Byte} {rest : Option (List Byte)}
    (hloop : mapLoop o.systemMap zeroed 0 = some (some entry))
    (hsep : strsep 32 entry = some (sysString, rest)) :
    findSysCallTable o (some kernVer) s = some ({ s with
      syscallTable := (o.kstrtoul sysString).getD 0
      log := s.log ++ [.acquire .filename, .acquire .mapFile, .acquire .mapEntry,
        .acquire .sysString, .release .sysString, .release .mapFile, .release .filename,
        .release .mapEntry] }, 0) := by
  obtain ⟨hfile, hopen, hentry⟩ := ho
  simp only [findSysCallTable, findOut, State.setFs, State.acquire, State.release, hfile, hopen,
    hentry, hloop, hstring, hsep, if_true, List.append_assoc, List.cons_append, List.nil_append]

theorem findSysCallTable_notFound (ho : o.Reads kernVer)
    (hloop : mapLoop o.systemMap zeroed 0 = some none) :
    findSysCallTable o (some kernVer) s = some ({ s with
      log := s.log ++ [.acquire .filename, .acquire .mapFile, .acquire .mapEntry,
        .release .mapFile, .release .filename, .release .mapEntry] }, 0) := by
  obtain ⟨hfile, hopen, hentry⟩ := ho
  simp [findSysCallTable, findOut, State.setFs, State.acquire, State.release, hfile, hopen, hentry,
    hloop]

end endings

/-- What is installed where the text says; the result of set_systems_calls is not looked at. -/
def setupSystemCall (o : Outcomes) (s : State) : Option (State × ℤ) :=
  if o.kzallocVersion then
    (acquireKernelVersion o (s.acquire .kernelVersion)).bind fun (s, version) =>
      (findSysCallTable o version s).bind fun (s, success) =>
        (if success = -1 then some s
        else if s.syscallTable ≠ 0 then s.patchTable setSystemsCalls
        else some s).map fun s => (s.release .kernelVersion, 0)
  else some (s, -12)

def saved (p : Option Code) : Code := p.getD (.kernel 0)

def destoryNewSystemCalls (d : Driver) : Driver :=
  { d with table := fun nr =>
      if nr = nrOpen then saved d.originals.openFile
      else if nr = nrWrite then saved d.originals.write
      else if nr = nrRmdir then saved d.originals.rmdir
      else if nr = nrLink then saved d.originals.link
      else if nr = nrUnlink then saved d.originals.unlink
      else if nr = nrSymlink then saved d.originals.symlink
      else if nr = nrRename then saved d.originals.rename
      else if nr = nrMkdir then saved d.originals.mkdir
      else if nr = nrExitGroup then saved d.originals.exitGroup
      else if nr = nrClose then saved d.originals.close
      else d.table nr }

def systemCallCleanup (s : State) : Option State :=
  if s.syscallTable ≠ 0 then s.patchTable destoryNewSystemCalls else some s

/-- The result of setup_ioctl_dev is overwritten. -/
def routerInit (o : Outcomes) (s : State) : Option (State × ℤ) :=
  (setupIoctlDev o s).bind fun (s, _) => setupSystemCall o s

def routerExit (s : State) : Option State := (systemCallCleanup s).bind ioctlCleanup

def noFailure (version systemMap : List Byte) (h : version.length ≤ maxVersionLen) : Outcomes where
  allocChrdevRegion := 0
  classCreate := none
  kzallocDevices := true
  cdevAdd := 0
  deviceCreate := none
  kzallocVersion := true
  openVersion := .object
  version := version
  version_le := h
  kzallocFilename := true
  openMap := fun _ => .object
  kzallocEntry := true
  systemMap := systemMap
  kzallocString := true
  kstrtoul := kstrtoul

def unloaded (fs : AddrLimit) (words : Addr → Code) : State where
  fs := fs
  words := words
  syscallTable := 0
  originals := Originals.unset
  ioctlDevices := false
  ioctlClass := .null
  log := []

end DriverSetup
