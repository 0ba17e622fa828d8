import Mathlib.Data.List.AList
import LoadableSystemCalls.LinkedChain
import LoadableSystemCalls.KeyedList

/-! # Shared data types of the driver

The structures of module.h and clone_header.h, the part of task_struct the driver uses,
and the kernel state its functions read and write. C integers are bit vectors of their
width; pointers are addresses, NULL is `none`. -/
namespace KernelTypes

abbrev Addr := ℕ

def pageSize : ℕ := 4096

/-- The value of `module_type`. Its three enumerators are the vector ids of the README. -/
abbrev ModuleType := BitVec 32

def traceModule : ModuleType := 1
def protectModule : ModuleType := 2
def antivirusModule : ModuleType := 3

structure ModuleReg where
  module : Addr
  type : ModuleType
  sysOp : Addr
  deriving DecidableEq, Repr

/-- `struct new_sys_vector`, hung off a task while it is registered. -/
structure NewSysVector where
  sv : BitVec 32
  moduleAddr : Addr
  deriving DecidableEq, Repr

structure TaskStruct where
  pid : BitVec 32
  sysVector : Option NewSysVector
  deriving DecidableEq, Repr

structure IoctlArg where
  vector : BitVec 32
  pid : BitVec 32
  moduleType : ModuleType
  deriving DecidableEq, Repr

/-- Tasks are found by number; find_get_pid and pid_task walk the live ones. -/
abbrev findTask (pid : BitVec 32) (tasks : List TaskStruct) : Option TaskStruct :=
  KeyedList.lookup TaskStruct.pid pid tasks

/-- The registry list, the data of loaded modules, the kernel's module reference counts and
the live tasks. `skippedPuts` is ghost: it counts the calls of decrement_module_rc that
put no reference, because the list walk missed or the count was already zero. -/
@[ext] structure Kernel where
  nodes : LinkedChain.Store Addr Addr
  headNode : Option Addr
  mods : AList fun _ : Addr => ModuleReg
  refcnt : Addr → ℕ
  tasks : List TaskStruct
  skippedPuts : ℕ

/-- The driver before any module is loaded: nobody is registered (INIT_TASK). -/
def boot (tasks : List TaskStruct) : Kernel where
  nodes := ∅
  headNode := none
  mods := ∅
  refcnt := fun _ => 0
  tasks := tasks
  skippedPuts := 0

/-- `module_refcount`. -/
def Kernel.moduleRefcount (k : Kernel) (mod : Addr) : ℕ := k.refcnt mod

/-- `__module_get`, which takes a reference without asking whether unloading has begun. -/
def Kernel.moduleGet (k : Kernel) (mod : Addr) : Kernel :=
  { k with refcnt := Function.update k.refcnt mod (k.refcnt mod + 1) }

/-- `module_put`. -/
def Kernel.modulePut (k : Kernel) (mod : Addr) : Kernel :=
  { k with refcnt := Function.update k.refcnt mod (k.refcnt mod - 1) }

def Kernel.setSysVector (k : Kernel) (pid : BitVec 32) (v : Option NewSysVector) : Kernel :=
  { k with
    tasks := KeyedList.modify TaskStruct.pid pid (fun t => { t with sysVector := v }) k.tasks }

/-- Reading `module_addr->type`; a wild read when no loaded module is there. -/
def Kernel.hasType (k : Kernel) (type : ModuleType) (m : Addr) : Option Bool :=
  (k.mods.lookup m).map fun r => r.type = type

def Kernel.typeIs (k : Kernel) (type : ModuleType) (m : Addr) : Bool :=
  (k.mods.lookup m).any fun r => r.type = type

section
variable (k : Kernel) (mod : Addr) (pid : BitVec 32) (v : Option NewSysVector)

@[simp] theorem moduleGet_nodes : (k.moduleGet mod).nodes = k.nodes := rfl
@[simp] theorem moduleGet_headNode : (k.moduleGet mod).headNode = k.headNode := rfl
@[simp] theorem moduleGet_mods : (k.moduleGet mod).mods = k.mods := rfl
@[simp] theorem moduleGet_tasks : (k.moduleGet mod).tasks = k.tasks := rfl
@[simp] theorem moduleGet_skippedPuts : (k.moduleGet mod).skippedPuts = k.skippedPuts := rfl
@[simp] theorem modulePut_nodes : (k.modulePut mod).nodes = k.nodes := rfl
@[simp] theorem modulePut_headNode : (k.modulePut mod).headNode = k.headNode := rfl
@[simp] theorem modulePut_mods : (k.modulePut mod).mods = k.mods := rfl
@[simp] theorem modulePut_tasks : (k.modulePut mod).tasks = k.tasks := rfl
@[simp] theorem modulePut_skippedPuts : (k.modulePut mod).skippedPuts = k.skippedPuts := rfl
@[simp] theorem setSysVector_nodes : (k.setSysVector pid v).nodes = k.nodes := rfl
@[simp] theorem setSysVector_headNode : (k.setSysVector pid v).headNode = k.headNode := rfl
@[simp] theorem setSysVector_mods : (k.setSysVector pid v).mods = k.mods := rfl
@[simp] theorem setSysVector_refcnt : (k.setSysVector pid v).refcnt = k.refcnt := rfl
@[simp] theorem setSysVector_skippedPuts :
    (k.setSysVector pid v).skippedPuts = k.skippedPuts := rfl

end

theorem hasType_eq {k : Kernel} {m : Addr} {r : ModuleReg} (h : k.mods.lookup m = some r)
    (type : ModuleType) : k.hasType type m = some (k.typeIs type m) := by
  simp [Kernel.hasType, Kernel.typeIs, h]

end KernelTypes
