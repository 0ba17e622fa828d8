import Mathlib.Data.Fintype.Defs
import LoadableSystemCalls.CStrings

/-! # Opening a file

An abstract file system of directory entries and inodes, and `open` on it with O_CREAT,
O_EXCL and O_TRUNC. -/
namespace PosixOpen

open CStrings

abbrev Flags := BitVec 32
abbrev Mode := BitVec 16

abbrev Errno := BitVec 32

inductive FileKind where
  | regular
  | directory
  | charDevice
  | blockDevice
  | fifo
  | socket
  deriving DecidableEq, Repr

structure Inode where
  kind : FileKind
  mode : Mode
  content : List Byte
  deriving DecidableEq, Repr

/-- What paths lead to; an entry never dangles. -/
@[ext] structure FileSystem (Path : Type*) where
  entries : Path → Option ℕ
  nodes : ℕ → Option Inode
  linked : ∀ p i, entries p = some i → (nodes i).isSome = true

variable {Path : Type*}

/-- What POSIX leaves to the system: refusals for other reasons than O_CREAT and O_EXCL
(permissions, missing directories, a directory opened for writing), the inode and mode of a
new file, and O_TRUNC without write access. -/
structure Host (Path : Type*) where
  refuses : FileSystem Path → Path → Flags → Mode → Option Errno
  allocate : FileSystem Path → Option ℕ
  allocate_free : ∀ fs i, allocate fs = some i → fs.nodes i = none
  createMode : Mode → Mode
  truncatesReadOnly : Bool

def oRdonly : Flags := 0
def oWronly : Flags := 1
def oRdwr : Flags := 2
def oAccmode : Flags := 3
def oCreat : Flags := 64
def oExcl : Flags := 128
def oTrunc : Flags := 512

/-- `O_PATH`, and with O_DIRECTORY and O_NOFOLLOW all that an open with it looks at. -/
def oPath : Flags := 2097152
def oPathFlags : Flags := 2293760

def enoent : Errno := -2
def eexist : Errno := -17
def enospc : Errno := -28

def has (flags bit : Flags) : Bool := flags &&& bit != 0

def honoured (flags : Flags) : Flags := if has flags oPath then flags &&& oPathFlags else flags

def readable (flags : Flags) : Bool :=
  !has flags oPath && (flags &&& oAccmode == oRdonly || flags &&& oAccmode == oRdwr)

def Host.truncates (h : Host Path) (flags : Flags) : Bool :=
  has (honoured flags) oTrunc && (flags &&& oAccmode != oRdonly || h.truncatesReadOnly)

def Inode.truncate (n : Inode) : Inode :=
  if n.kind = .regular then { n with content := [] } else n

namespace FileSystem

def truncate (fs : FileSystem Path) (i : ℕ) : FileSystem Path where
  entries := fs.entries
  nodes := Function.update fs.nodes i ((fs.nodes i).map Inode.truncate)
  linked := by
    intro p j hp
    have hj := fs.linked p j hp
    by_cases hij : j = i
    · subst hij
      rw [Function.update_self, Option.isSome_map]
      exact hj
    · rw [Function.update_of_ne hij]
      exact hj

def create [DecidableEq Path] (fs : FileSystem Path) (path : Path) (i : ℕ) (n : Inode) :
    FileSystem Path where
  entries := Function.update fs.entries path (some i)
  nodes := Function.update fs.nodes i (some n)
  linked := by
    intro p j hp
    by_cases hij : j = i
    · subst hij
      rw [Function.update_self]
      rfl
    · rw [Function.update_of_ne hij]
      by_cases hpath : p = path
      · subst hpath
        rw [Function.update_self] at hp
        exact absurd (Option.some.inj hp).symm hij
      · rw [Function.update_of_ne hpath] at hp
        exact fs.linked p j hp

end FileSystem

section
variable [DecidableEq Path] (h : Host Path) (path : Path) (flags : Flags) (mode : Mode)
  (fs : FileSystem Path)

/-- The inode opened, and the file system afterwards. -/
def openFile : Except Errno ℕ × FileSystem Path :=
  match h.refuses fs path flags mode with
  | some e => (.error e, fs)
  | none =>
    match fs.entries path with
    | none =>
      if has (honoured flags) oCreat then
        match h.allocate fs with
        | none => (.error enospc, fs)
        | some i => (.ok i, fs.create path i ⟨.regular, h.createMode mode, []⟩)
      else (.error enoent, fs)
    | some i =>
      if has (honoured flags) oCreat && has (honoured flags) oExcl then (.error eexist, fs)
      else if h.truncates flags then (.ok i, fs.truncate i)
      else (.ok i, fs)

def Creates : Prop :=
  h.refuses fs path flags mode = none ∧ fs.entries path = none ∧
    has (honoured flags) oCreat = true ∧
    (h.allocate fs).isSome = true

def Empties : Prop :=
  h.refuses fs path flags mode = none ∧ ∃ i n, fs.entries path = some i ∧
    (has (honoured flags) oCreat && has (honoured flags) oExcl) = false ∧ h.truncates flags = true ∧
    fs.nodes i = some n ∧ n.kind = .regular ∧ n.content ≠ []

end

theorem truncate_eq_self {n : Inode} :
    n.truncate = n ↔ ¬ (n.kind = .regular ∧ n.content ≠ []) := by
  rcases n with ⟨kind, mode, content⟩
  by_cases hkind : kind = .regular
  · simp [Inode.truncate, hkind, eq_comm]
  · simp [Inode.truncate, hkind]

theorem fs_truncate_eq_self {fs : FileSystem Path} {i : ℕ} {n : Inode}
    (hn : fs.nodes i = some n) :
    fs.truncate i = fs ↔ ¬ (n.kind = .regular ∧ n.content ≠ []) := by
  rw [← truncate_eq_self]
  constructor
  · intro heq
    have hnode := congrArg (fun s => s.nodes i) heq
    simp only [FileSystem.truncate, Function.update_self, hn, Option.map_some] at hnode
    exact Option.some.inj hnode
  · intro heq
    apply FileSystem.ext
    · rfl
    · change Function.update fs.nodes i ((fs.nodes i).map Inode.truncate) = fs.nodes
      rw [hn, Option.map_some, heq, ← hn, Function.update_eq_self]

/-- An open leaves the file system alone if and only if it creates and empties nothing. -/
theorem openFile_unchanged_iff [DecidableEq Path] {h : Host Path} {path : Path} {flags : Flags}
    {mode : Mode} {fs : FileSystem Path} :
    (openFile h path flags mode fs).2 = fs ↔
      ¬ Creates h path flags mode fs ∧ ¬ Empties h path flags mode fs := by
  unfold openFile Creates Empties
  cases hrefuse : h.refuses fs path flags mode with
  | some e => simp
  | none =>
    cases hentry : fs.entries path with
    | none =>
      cases hcreat : has (honoured flags) oCreat with
      | false => simp
      | true =>
        cases halloc : h.allocate fs with
        | none => simp
        | some i =>
          have hne : fs.create path i ⟨.regular, h.createMode mode, []⟩ ≠ fs := by
            intro heq
            have hpath := congrArg (fun s => s.entries path) heq
            simp [FileSystem.create, hentry] at hpath
          simp [hne]
    | some i =>
      rcases Option.isSome_iff_exists.mp (fs.linked path i hentry) with ⟨n, hn⟩
      cases hexcl : has (honoured flags) oCreat && has (honoured flags) oExcl with
      | true => simp
      | false =>
        cases htrunc : h.truncates flags with
        | false => simp
        | true => simp [fs_truncate_eq_self hn, hn]

end PosixOpen
