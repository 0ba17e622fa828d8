import LoadableSystemCalls.PosixOpen
import LoadableSystemCalls.SyscallHooks
import LoadableSystemCalls.VirusCheck

/-! # Opens under the antivirus module (anti_module.c)

check_for_virus and the module's entry point, and what an open by a registered task does to
the file system. -/
namespace AntivirusOpen

open CStrings FueledLoops KernelTypes FileScan BlacklistPaging VirusCheck SyscallHooks
open PosixOpen

abbrev Path := List Byte

def blacklistPath : Path := ascii "/tmp/blacklist"

/-- What surrounds the module: the host, the strings at user addresses, the limit on
descriptors, the pages kmalloc returns and reads of files that are not regular. -/
structure Env where
  host : Host Path
  pathname : Addr → Path
  fdLimit : ℕ
  pages : Pages
  special : Inode → VFile

@[ext] structure World where
  fs : FileSystem Path
  fds : List ℕ

/-- A file opened with these flags: vfs_read fails without read access. -/
def openedFile (env : Env) (fs : FileSystem Path) (flags : Flags) (inode : ℕ) : VFile :=
  match fs.nodes inode with
  | none => regularFile []
  | some n =>
    let file := if n.kind = .regular then regularFile n.content else env.special n
    if readable flags then file
    else
      { file with
        read := fun _ _ _ => none
        read_le := nofun }

/-- `S_ISCHR` or `S_ISBLK`. -/
def isDevice (fs : FileSystem Path) (inode : ℕ) : Bool :=
  (fs.nodes inode).any fun n => n.kind = .charDevice || n.kind = .blockDevice

section
variable (env : Env) (fuel : ℕ)

/-- `filp_close` changes neither entries nor contents. -/
def checkForVirus (filename : Addr) (flags : Flags) (mode : Mode) (w : World) :
    Except Halt (BitVec 32 × World) :=
  match openFile env.host blacklistPath oRdonly 0 w.fs with
  | (.error _, fs) => .ok (0, { w with fs := fs })
  | (.ok blackList, fs) =>
    match openFile env.host (env.pathname filename) flags mode fs with
    | (.error _, fs') => .ok (0, { w with fs := fs' })
    | (.ok inputFile, fs') =>
      if isDevice fs' inputFile then .ok (0, { w with fs := fs' })
      else
        match checkInBlacklist env.pages (openedFile env fs' flags inputFile)
          (openedFile env fs' oRdonly blackList) fuel with
        | .error e => .error e
        | .ok isVirus => .ok (if isVirus then -1 else 0, { w with fs := fs' })

def antiOpen (path : Addr) (flags : Flags) (mode : Mode) (w : World) :
    Except Halt (BitVec 32 × World) :=
  checkForVirus env fuel path flags mode w

def systemCallEntry (req : Request) (w : World) : Except Halt (BitVec 32 × World) :=
  match req.type, req.args with
  | .sysOpen, [.pointer pathName, .int arg1, .int arg2] =>
    antiOpen env fuel pathName arg1 (arg2.setWidth 16) w
  | _, _ => .ok (0, w)

end

def emfile : BitVec 64 := -24

def lowestFd (limit : ℕ) (fds : List ℕ) : Option ℕ := (List.range limit).find? (· ∉ fds)

def originalOpen (env : Env) (path : Addr) (flags : Flags) (mode : Mode) (w : World) :
    BitVec 64 × World :=
  match lowestFd env.fdLimit w.fds with
  | none => (emfile, w)
  | some fd =>
    match openFile env.host (env.pathname path) flags mode w.fs with
    | (.error e, fs) => (e.signExtend 64, { w with fs := fs })
    | (.ok _, fs) => (BitVec.ofNat 64 fd, ⟨fs, fd :: w.fds⟩)

/-- The calling task is registered on the antivirus module with the open bit set. -/
structure OnAntivirus (env : Env) (c : Context World) (sys : ℕ → Addr) (op : Addr) : Prop where
  installed : Installed c sys
  registered : ∃ v m, c.sysVector = some v ∧ opAllowed .sysOpen v.sv = true ∧
    c.mods.lookup v.moduleAddr = some ⟨m, antivirusModule, op⟩
  entry : ∀ req w r, Settles (fun fuel => systemCallEntry env fuel req w) (.ok r) →
    c.sysOp op req w = r
  original : ∀ path flags mode w,
    c.kernelCode (sys nrOpen) (.openFile path flags mode) w = originalOpen env path flags mode w

/-- The check changed nothing, and the open was refused or is the original one. -/
structure PureGuard (env : Env) (path : Addr) (flags : Flags) (mode : Mode)
    (w checked : World) (o : Outcome World) : Prop where
  unchanged : checked.fs = w.fs
  outcome : (o.result.slt 0 = true ∧ o.world.fs = w.fs) ∨
    (o.result, o.world) = originalOpen env path flags mode w

def BlacklistOpens (env : Env) (fs : FileSystem Path) : Prop :=
  env.host.refuses fs blacklistPath oRdonly 0 = none ∧ (fs.entries blacklistPath).isSome = true

section opens
variable {env : Env}

theorem open_blacklist (env : Env) (fs : FileSystem Path) :
    (BlacklistOpens env fs ∧ ∃ i, openFile env.host blacklistPath oRdonly 0 fs = (.ok i, fs)) ∨
    (¬ BlacklistOpens env fs ∧
      ∃ e, openFile env.host blacklistPath oRdonly 0 fs = (.error e, fs)) := by
  have hcreat : has (honoured oRdonly) oCreat = false := rfl
  have htrunc : env.host.truncates oRdonly = false := rfl
  unfold BlacklistOpens openFile
  cases hrefuse : env.host.refuses fs blacklistPath oRdonly 0 with
  | some e => simp
  | none => cases hentry : fs.entries blacklistPath <;> simp [hcreat, htrunc]

theorem check_without_blacklist {w : World} (h : ¬ BlacklistOpens env w.fs) (fuel : ℕ)
    (filename : Addr) (flags : Flags) (mode : Mode) :
    checkForVirus env fuel filename flags mode w = .ok (0, w) := by
  rcases open_blacklist env w.fs with ⟨hopens, -⟩ | ⟨-, e, hopen⟩
  · exact absurd hopens h
  · rw [checkForVirus, hopen]

theorem check_with_blacklist {w checked : World} (h : BlacklistOpens env w.fs) {fuel : ℕ}
    {filename : Addr} {flags : Flags} {mode : Mode} {ret : BitVec 32}
    (hcheck : checkForVirus env fuel filename flags mode w = .ok (ret, checked)) :
    (ret = 0 ∨ ret = -1) ∧
      checked = ⟨(openFile env.host (env.pathname filename) flags mode w.fs).2, w.fds⟩ := by
  rcases open_blacklist env w.fs with ⟨-, i, hopen⟩ | ⟨hopens, -⟩
  · rw [checkForVirus, hopen] at hcheck
    cases hinput : openFile env.host (env.pathname filename) flags mode w.fs with
    | mk result fs =>
      simp only [hinput] at hcheck
      cases result with
      | error e =>
        obtain ⟨rfl, rfl⟩ := Prod.mk.inj (Except.ok.inj hcheck)
        exact ⟨Or.inl rfl, rfl⟩
      | ok inputFile =>
        simp only at hcheck
        split at hcheck
        · obtain ⟨rfl, rfl⟩ := Prod.mk.inj (Except.ok.inj hcheck)
          exact ⟨Or.inl rfl, rfl⟩
        · split at hcheck
          · cases hcheck
          · next isVirus _ =>
            obtain ⟨rfl, rfl⟩ := Prod.mk.inj (Except.ok.inj hcheck)
            cases isVirus
            · exact ⟨Or.inl rfl, rfl⟩
            · exact ⟨Or.inr rfl, rfl⟩
  · exact absurd h hopens

end opens

section guard
variable {env : Env} {c : Context World} {sys : ℕ → Addr} {op : Addr}

theorem open_asked (h : OnAntivirus env c sys op) (path : Addr) (flags : Flags) (mode : Mode)
    (w : World) :
    ∃ o num, systemCall c (.openFile path flags mode) w = some o ∧
      Asked c (sys nrOpen) op
        ⟨num, .sysOpen, [.pointer path, .int flags, .int (mode.setWidth 32)]⟩
        (.openFile path flags mode) w o := by
  rcases h.registered with ⟨v, m, hvector, hallowed, hlookup⟩
  have hbit : v.sv.getLsbD (readmeBit (.openFile path flags mode)) = true := by
    rw [← opAllowed_eq]
    exact hallowed
  exact systemCall_asked h.installed rfl hvector hlookup hbit w

theorem entry_open (env : Env) (fuel num : ℕ) (path : Addr) (flags : Flags) (mode : Mode)
    (w : World) :
    systemCallEntry env fuel ⟨num, .sysOpen, [.pointer path, .int flags, .int (mode.setWidth 32)]⟩ w
      = checkForVirus env fuel path flags mode w := by
  have hmode : (mode.setWidth 32).setWidth 16 = mode := by
    apply BitVec.eq_of_toNat_eq
    simp only [BitVec.toNat_setWidth]
    omega
  simp only [systemCallEntry, antiOpen, hmode]

theorem open_outcome (h : OnAntivirus env c sys op) {path : Addr} {flags : Flags} {mode : Mode}
    {w checked : World} {ret : BitVec 32}
    (hdone : Settles (fun fuel => checkForVirus env fuel path flags mode w) (.ok (ret, checked))) :
    ∃ o, systemCall c (.openFile path flags mode) w = some o ∧
      if ret.slt 0 then o.result = ret.signExtend 64 ∧ o.world = checked
      else (o.result, o.world) = originalOpen env path flags mode checked := by
  rcases open_asked h path flags mode w with ⟨o, num, hcall, hasked⟩
  have hentry := h.entry
    ⟨num, .sysOpen, [.pointer path, .int flags, .int (mode.setWidth 32)]⟩ w (ret, checked)
    (hdone.congr fun fuel => entry_open env fuel num path flags mode w)
  refine ⟨o, hcall, ?_⟩
  simp only [Asked, hentry, h.original] at hasked
  split at hasked
  · next hneg =>
    rw [if_pos hneg, hasked]
    exact ⟨rfl, rfl⟩
  · next hneg => rw [if_neg hneg, hasked]

theorem checked_unchanged_iff {path : Addr} {flags : Flags} {mode : Mode}
    {w checked : World} {ret : BitVec 32}
    (hdone : Settles (fun fuel => checkForVirus env fuel path flags mode w) (.ok (ret, checked))) :
    (ret = 0 ∨ ret = -1) ∧ checked.fds = w.fds ∧
      (checked.fs = w.fs ↔ ¬ BlacklistOpens env w.fs ∨
        (¬ Creates env.host (env.pathname path) flags mode w.fs ∧
          ¬ Empties env.host (env.pathname path) flags mode w.fs)) := by
  rcases hdone with ⟨fuel, hfuel⟩
  have hcheck := hfuel fuel le_rfl
  by_cases hopens : BlacklistOpens env w.fs
  · rcases check_with_blacklist hopens hcheck with ⟨hret, rfl⟩
    refine ⟨hret, rfl, ?_⟩
    rw [← openFile_unchanged_iff, or_iff_right (not_not.mpr hopens)]
  · simp only [check_without_blacklist hopens] at hcheck
    obtain ⟨rfl, rfl⟩ := Prod.mk.inj (Except.ok.inj hcheck)
    exact ⟨Or.inl rfl, rfl, iff_of_true rfl (Or.inl hopens)⟩

/-- A completed open is guarded and nothing more if and only if the check cannot read the
blacklist, or the caller's open by itself neither creates nor empties a file. -/
theorem open_guard_iff (h : OnAntivirus env c sys op) {path : Addr} {flags : Flags}
    {mode : Mode} {w checked : World} {ret : BitVec 32}
    (hdone : Settles (fun fuel => checkForVirus env fuel path flags mode w) (.ok (ret, checked))) :
    (∃ o, systemCall c (.openFile path flags mode) w = some o ∧
        PureGuard env path flags mode w checked o) ↔
      ¬ BlacklistOpens env w.fs ∨
      (¬ Creates env.host (env.pathname path) flags mode w.fs ∧
        ¬ Empties env.host (env.pathname path) flags mode w.fs) := by
  rcases checked_unchanged_iff hdone with ⟨hret, hfds, hunchanged⟩
  rw [← hunchanged]
  constructor
  · rintro ⟨o, -, hguard⟩
    exact hguard.unchanged
  · intro hsame
    have hchecked : checked = w := World.ext hsame hfds
    rcases open_outcome h hdone with ⟨o, hcall, houtcome⟩
    refine ⟨o, hcall, hsame, ?_⟩
    rcases hret with rfl | rfl
    · rw [if_neg (by decide), hchecked] at houtcome
      exact Or.inr houtcome
    · rw [if_pos (by decide)] at houtcome
      rcases houtcome with ⟨hresult, hworld⟩
      refine Or.inl ⟨?_, by rw [hworld, hsame]⟩
      rw [hresult]
      decide

end guard

section
variable (env : Env)

open Classical in
noncomputable def entryResult (req : Request) (w : World) : BitVec 32 × World :=
  if h : ∃ r, Settles (fun fuel => systemCallEntry env fuel req w) (.ok r) then h.choose
  else (0, w)

variable {env}

theorem entryResult_eq {req : Request} {w : World} {r : BitVec 32 × World}
    (h : Settles (fun fuel => systemCallEntry env fuel req w) (.ok r)) :
    entryResult env req w = r := by
  have hex : ∃ r, Settles (fun fuel => systemCallEntry env fuel req w) (.ok r) := ⟨r, h⟩
  rw [entryResult, dif_pos hex]
  exact Except.ok.inj (hex.choose_spec.unique h)

theorem check_completes {w : World} {filename : Addr} {flags : Flags} {mode : Mode} {i j : ℕ}
    {fs : FileSystem Path} {b : Bool}
    (hblack : openFile env.host blacklistPath oRdonly 0 w.fs = (.ok i, w.fs))
    (hinput : openFile env.host (env.pathname filename) flags mode w.fs = (.ok j, fs))
    (hdevice : isDevice fs j = false)
    (hscan : Settles (checkInBlacklist env.pages (openedFile env fs flags j)
      (openedFile env fs oRdonly i)) (.ok b)) :
    Settles (fun fuel => checkForVirus env fuel filename flags mode w)
      (.ok (if b then -1 else 0, { w with fs := fs })) := by
  rcases hscan with ⟨n, hn⟩
  refine ⟨n, fun m hm => ?_⟩
  simp only [checkForVirus, hblack, hinput, hdevice, hn m hm]
  rfl

end

def openHost : Host Path where
  refuses := fun _ _ _ _ => none
  allocate := fun fs => if (fs.nodes 7).isNone then some 7 else none
  allocate_free := by
    intro fs i h
    split at h
    · next hfree =>
      obtain rfl := Option.some.inj h
      exact Option.isNone_iff_eq_none.mp hfree
    · cases h
  createMode := id
  truncatesReadOnly := true

def openEnv : Env where
  host := openHost
  pathname := fun a => if a = 0 then ascii "/tmp/new" else blacklistPath
  fdLimit := 8
  pages := freshPages
  special := fun _ => regularFile []

def emptyBlacklist : World where
  fs := {
    entries := fun p => if p = blacklistPath then some 1 else none
    nodes := fun i => if i = 1 then some ⟨.regular, 420, []⟩ else none
    linked := by
      intro p i h
      split at h
      · obtain rfl := Option.some.inj h
        rfl
      · cases h }
  fds := []

noncomputable def openContext : Context World where
  kernelCode := fun _ call w =>
    match call with
    | .openFile path flags mode => originalOpen openEnv path flags mode w
    | _ => (0, w)
  sysOp := fun _ => entryResult openEnv
  mods := AList.singleton 10 ⟨100, antivirusModule, 50⟩
  driver := setSystemsCalls ⟨fun nr => .kernel nr, Originals.unset⟩
  sysVector := some ⟨1, 10⟩

theorem openContext_onAntivirus : OnAntivirus openEnv openContext id 50 where
  installed := {
    driver := rfl
    loaded := by
      intro v hv
      obtain rfl := Option.some.inj hv
      exact ⟨_, rfl⟩ }
  registered := ⟨_, 100, rfl, rfl, rfl⟩
  entry := fun _ _ _ => entryResult_eq
  original := fun _ _ _ _ => rfl

theorem empty_passes :
    Settles (checkInBlacklist freshPages (regularFile []) (regularFile [])) (.ok false) := by
  have hrun := @check_run [] [] [] (by simp) (by decide) (Or.inr (by simp)) freshPages _ rfl rfl rfl
  rw [paginate, pagesVerdict] at hrun
  exact hrun

theorem empty_open_completes {filename : Addr} {flags : Flags} {mode : Mode} {j : ℕ}
    {fs : FileSystem Path}
    (hinput : openFile openEnv.host (openEnv.pathname filename) flags mode emptyBlacklist.fs =
      (.ok j, fs))
    (hnew : fs.nodes j = some ⟨.regular, 420, []⟩) (hblack : fs.nodes 1 = some ⟨.regular, 420, []⟩)
    (hflags : readable flags = true) :
    Settles (fun fuel => checkForVirus openEnv fuel filename flags mode emptyBlacklist)
      (.ok (0, ⟨fs, []⟩)) := by
  have hdevice : isDevice fs j = false := by simp [isDevice, hnew]
  have hfile : openedFile openEnv fs flags j = regularFile [] := by
    simp only [openedFile, hnew, hflags, if_true]
  have hlist : openedFile openEnv fs oRdonly 1 = regularFile [] := by
    simp only [openedFile, hblack, if_true]
    rfl
  apply @check_completes _ _ _ _ _ 1 _ _ false rfl hinput hdevice
  rw [hfile, hlist]
  exact empty_passes

def exclusive : Flags := 194

/-- The check creates the file, and then the original open finds it there. -/
theorem exclusive_create_refused :
    ∃ checked, Settles (fun fuel => checkForVirus openEnv fuel 0 exclusive 420 emptyBlacklist)
        (.ok (0, checked)) ∧
      ∀ o, systemCall openContext (.openFile 0 exclusive 420) emptyBlacklist = some o →
        o.result = -17 ∧ ¬ PureGuard openEnv 0 exclusive 420 emptyBlacklist checked o := by
  have hdone := @empty_open_completes 0 exclusive 420 _ _ rfl rfl rfl (by decide)
  refine ⟨_, hdone, fun o ho => ?_⟩
  rcases open_outcome openContext_onAntivirus hdone with ⟨o', hcall, houtcome⟩
  obtain rfl : o' = o := Option.some.inj (hcall.symm.trans ho)
  rw [if_neg (by decide)] at houtcome
  refine ⟨(congrArg Prod.fst houtcome).trans rfl, fun hguard => ?_⟩
  have hentry := congrArg (fun fs => fs.entries (ascii "/tmp/new")) hguard.unchanged
  cases hentry

theorem open_guard_readOnly :
    ∃ o, systemCall openContext (.openFile 1 0 0) emptyBlacklist = some o ∧
    PureGuard openEnv 1 0 0 emptyBlacklist emptyBlacklist o :=
  (open_guard_iff openContext_onAntivirus
    (@empty_open_completes 1 0 0 _ _ rfl rfl rfl (by decide))).mpr
    (Or.inr ⟨fun h => Bool.false_ne_true h.2.2.1,
      fun ⟨_, _, _, _, _, h, _⟩ => Bool.false_ne_true h⟩)

end AntivirusOpen
