import LoadableSystemCalls.SymbolLookup

/-! # All or nothing (main.c, syscall_intercept.c, ioctl_device.c)

When loading the driver says that it worked, the device is there and the table is hooked, and
unloading undoes all of it: exactly when no call fails, or the very first allocation of the
table's set-up does. -/
namespace DriverLoad

open CStrings KernelTypes SyscallHooks BlacklistPaging SystemMap DriverSetup SymbolLookup

structure MakesDevice (o : Outcomes) : Prop where
  region : 0 ≤ o.allocChrdevRegion
  class_ : o.classCreate = none
  devices : o.kzallocDevices = true
  cdev : o.cdevAdd = 0
  device : o.deviceCreate = none

def deviceLog : List Effect :=
  [.acquire .chrdevRegion, .acquire .ioctlClass, .acquire .ioctlDevices, .acquire .cdev,
    .acquire .device]

section device
variable {o : Outcomes} (s : State)

theorem setupIoctlDev_made (h : MakesDevice o) : setupIoctlDev o s = some ({ s with
    ioctlDevices := true
    ioctlClass := .object
    log := s.log ++ deviceLog }, 0) := by
  simp [setupIoctlDev, ioctlConstructDevice, State.acquire, deviceLog, h.class_, h.devices, h.cdev,
    h.device, Int.not_lt.mpr h.region]

theorem setupIoctlDev_failed (h : ¬ MakesDevice o) : ∃ dev class_ extra err,
    setupIoctlDev o s = some ({ s with
      ioctlDevices := dev
      ioctlClass := class_
      log := s.log ++ extra }, err) ∧ .acquire .device ∉ extra := by
  by_cases hregion : o.allocChrdevRegion < 0
  · refine ⟨s.ioctlDevices, s.ioctlClass, [], o.allocChrdevRegion, ?_, List.not_mem_nil⟩
    simp [setupIoctlDev, hregion]
  · cases hclass : o.classCreate with
    | some err =>
      refine ⟨s.ioctlDevices, .error, [.acquire .chrdevRegion], err, ?_, by decide⟩
      simp [setupIoctlDev, State.acquire, hregion, hclass]
    | none =>
      by_cases hdevices : o.kzallocDevices = true
      · by_cases hcdev : o.cdevAdd = 0
        · cases hdevice : o.deviceCreate with
          | none => exact absurd ⟨Int.not_lt.mp hregion, hclass, hdevices, hcdev, hdevice⟩ h
          | some err =>
            refine ⟨true, .object, [.acquire .chrdevRegion, .acquire .ioctlClass,
              .acquire .ioctlDevices, .acquire .cdev, .release .cdev], err, ?_, by decide⟩
            simp [setupIoctlDev, ioctlConstructDevice, State.acquire, State.release, hregion,
              hclass, hdevices, hcdev, hdevice]
        · refine ⟨true, .object, [.acquire .chrdevRegion, .acquire .ioctlClass,
            .acquire .ioctlDevices], o.cdevAdd, ?_, by decide⟩
          simp [setupIoctlDev, ioctlConstructDevice, State.acquire, hregion, hclass, hdevices,
            hcdev]
      · refine ⟨s.ioctlDevices, .object, [.acquire .chrdevRegion, .acquire .ioctlClass], -12, ?_,
          by decide⟩
        simp [setupIoctlDev, State.acquire, hregion, hclass, hdevices]

end device

def Word (s : List Byte) : Prop := NulFree s ∧ 32 ∉ s

def ThirdWord (buf v : List Byte) : Prop :=
  ∃ a b d rest, buf = a ++ 32 :: (b ++ 32 :: (v ++ d :: rest)) ∧ (d = 32 ∨ d = 0) ∧
    Word a ∧ Word b ∧ Word v

def versionBuffer (o : Outcomes) : List Byte := o.version ++ zeroed.drop o.version.length

def firstWord (entry : List Byte) : List Byte := entry.takeWhile fun b => b ≠ 32 ∧ b ≠ 0

theorem strsepNext_cases {buf t q : Option (List Byte)} (h : strsepNext buf = some (t, q)) :
    (buf = none ∧ t = none ∧ q = none) ∨
      ∃ s u, buf = some s ∧ t = some u ∧ strsep 32 s = some (u, q) := by
  cases buf with
  | none =>
    cases h
    exact Or.inl ⟨rfl, rfl, rfl⟩
  | some s =>
    obtain ⟨⟨u, q⟩, hu, heq⟩ := Option.map_eq_some_iff.mp h
    cases heq
    exact Or.inr ⟨s, u, rfl, rfl, hu⟩

theorem strsepNext_blank {buf t : Option (List Byte)} {s : List Byte}
    (h : strsepNext buf = some (t, some s)) : ∃ a, Word a ∧ buf = some (a ++ 32 :: s) := by
  rcases strsepNext_cases h with ⟨-, -, hnone⟩ | ⟨s₀, a, rfl, -, hsep⟩
  · cases hnone
  · obtain ⟨hfree, hblank, hrest⟩ := strsep_cases hsep
    rcases hrest with ⟨rest, hp, rfl⟩ | ⟨hp, -⟩
    · obtain rfl := Option.some.inj hp
      exact ⟨a, ⟨hfree, hblank⟩, rfl⟩
    · cases hp

theorem kernelVersion_eq {buf v : List Byte} :
    kernelVersion buf = some (some v) ↔ ThirdWord buf v := by
  constructor
  · intro h
    obtain ⟨⟨first, buf₁⟩, h₁, h⟩ := Option.bind_eq_some_iff.mp h
    obtain ⟨⟨second, buf₂⟩, h₂, h⟩ := Option.bind_eq_some_iff.mp h
    obtain ⟨⟨third, buf₃⟩, h₃, heq⟩ := Option.map_eq_some_iff.mp h
    obtain rfl : third = some v := heq
    rcases strsepNext_cases h₃ with ⟨-, hnone, -⟩ | ⟨s₂, u, rfl, hu, hsep⟩
    · cases hnone
    · obtain rfl := Option.some.inj hu
      obtain ⟨b, hb, rfl⟩ := strsepNext_blank h₂
      obtain ⟨a, ha, hbuf⟩ := strsepNext_blank h₁
      obtain rfl := Option.some.inj hbuf
      obtain ⟨hfree, hblank, hrest⟩ := strsep_cases hsep
      rcases hrest with ⟨rest, -, rfl⟩ | ⟨-, rest, rfl⟩
      · exact ⟨a, b, 32, rest, rfl, Or.inl rfl, ha, hb, hfree, hblank⟩
      · exact ⟨a, b, 0, rest, rfl, Or.inr rfl, ha, hb, hfree, hblank⟩
  · rintro ⟨a, b, d, rest, rfl, hd, ha, hb, hv⟩
    have hthird : ∃ p, strsep 32 (v ++ d :: rest) = some (v, p) := by
      rcases hd with rfl | rfl
      · exact ⟨_, strsep_found hv.1 hv.2 rest⟩
      · exact ⟨_, strsep_absent hv.1 hv.2 (by decide) rest⟩
    obtain ⟨p, hthird⟩ := hthird
    simp only [kernelVersion, strsepNext, strsep_found ha.1 ha.2, strsep_found hb.1 hb.2, hthird,
      Option.map_some, Option.bind_some]

section table
variable {o : Outcomes} {s t : State}

theorem acquireKernelVersion_read (hopen : o.openVersion = .object) {v : List Byte}
    (hv : ThirdWord (versionBuffer o) v) (s : State) :
    acquireKernelVersion o s = some ({ s with
      log := s.log ++ [.acquire .procVersion, .release .procVersion] }, some v) := by
  have hversion : kernelVersion (o.version ++ zeroed.drop o.version.length) = some (some v) :=
    kernelVersion_eq.mpr hv
  simp [acquireKernelVersion, hopen, hversion, State.setFs, State.acquire, State.release]

theorem acquireKernelVersion_some {v : List Byte}
    (h : acquireKernelVersion o s = some (t, some v)) :
    o.openVersion = .object ∧ ThirdWord (versionBuffer o) v := by
  unfold acquireKernelVersion at h
  split at h
  · next hopen =>
    obtain ⟨version, hversion, heq⟩ := Option.map_eq_some_iff.mp h
    cases heq
    exact ⟨hopen, kernelVersion_eq.mp hversion⟩
  · cases h

/-- Everything find_sys_call_table needs to find a line and convert its address. -/
def Finds (o : Outcomes) (kernVer sysString : List Byte) : Prop :=
  o.Reads kernVer ∧ o.kzallocString = true ∧
    ∃ before l, FoundAt (completeLines o.systemMap) before l ∧
      sysString = firstWord (entryAfter (before ++ [l]))

theorem findOut_frame {f : Pointer} {filename entry : Bool} {oldfs : AddrLimit} {ret r : ℤ}
    (h : findOut f filename entry oldfs ret s = some (t, r)) :
    t.syscallTable = s.syscallTable ∧ (.acquire .device ∈ t.log → .acquire .device ∈ s.log) := by
  cases f with
  | error => cases h
  | null =>
    cases filename <;> cases entry <;> cases h <;>
      simp [State.setFs, State.release]
  | object =>
    cases filename <;> cases entry <;> cases h <;>
      simp [State.setFs, State.release]

theorem finds_of_mapLoop {v entry sysString : List Byte} {rest : Option (List Byte)}
    (hreads : o.Reads v) (hstring : o.kzallocString = true)
    (hloop : mapLoop o.systemMap zeroed 0 = some (some entry))
    (hsep : strsep 32 entry = some (sysString, rest)) : Finds o v sysString := by
  have hls : ∀ l ∈ completeLines o.systemMap, 10 ∉ l := fun l hl => completeLines_newline hl
  have htail := partialLine_newline o.systemMap
  have hcases := mapLoop_cases hls htail
  rw [render_completeLines] at hcases
  rcases hcases with ⟨before, l, hat⟩ | hnone | hoops
  · have hfound := mapLoop_found hls (partialLine o.systemMap) hat
    rw [render_completeLines, hloop] at hfound
    obtain rfl := Option.some.inj (Option.some.inj hfound)
    exact ⟨hreads, hstring, before, l, hat, strsep_token hsep⟩
  · have hnotFound := mapLoop_notFound hls htail hnone
    rw [render_completeLines, hloop] at hnotFound
    cases hnotFound
  · rw [hloop] at hoops
    cases hoops

/-- The table is set only by a line that is found; no device is made here. -/
theorem findSysCallTable_cases {v : List Byte} {ret : ℤ}
    (h : findSysCallTable o (some v) s = some (t, ret)) :
    ((∃ sysString, Finds o v sysString ∧ t.syscallTable = (o.kstrtoul sysString).getD 0) ∨
        t.syscallTable = s.syscallTable) ∧
      (.acquire .device ∈ t.log → .acquire .device ∈ s.log) := by
  have hunset {f : Pointer} {filename entry : Bool} {r : ℤ} {s' : State}
      (h : findOut f filename entry s.fs r s' = some (t, ret))
      (hs' : s'.syscallTable = s.syscallTable ∧
        (.acquire .device ∈ s'.log → .acquire .device ∈ s.log)) :
      ((∃ sysString, Finds o v sysString ∧ t.syscallTable = (o.kstrtoul sysString).getD 0) ∨
          t.syscallTable = s.syscallTable) ∧
        (.acquire .device ∈ t.log → .acquire .device ∈ s.log) := by
    obtain ⟨htable, hlog⟩ := findOut_frame h
    exact ⟨Or.inr (htable.trans hs'.1), fun hd => hs'.2 (hlog hd)⟩
  unfold findSysCallTable at h
  by_cases hfile : o.kzallocFilename = true
  · simp only [hfile, if_true] at h
    cases hopen : o.openMap (bootPath ++ v) with
    | object =>
      simp only [hopen] at h
      by_cases hentry : o.kzallocEntry = true
      · simp only [hentry, if_true] at h
        cases hloop : mapLoop o.systemMap zeroed 0 with
        | none =>
          rw [hloop] at h
          cases h
        | some found =>
          rw [hloop] at h
          cases found with
          | none => exact hunset h (by simp [State.acquire, State.setFs])
          | some entry =>
            by_cases hstring : o.kzallocString = true
            · simp only [hstring, if_true] at h
              cases hsep : strsep 32 entry with
              | none =>
                rw [hsep] at h
                cases h
              | some r =>
                obtain ⟨sysString, rest⟩ := r
                rw [hsep] at h
                obtain ⟨htable, hlog⟩ := findOut_frame h
                have hfinds := finds_of_mapLoop ⟨hfile, hopen, hentry⟩ hstring hloop hsep
                refine ⟨Or.inl ⟨sysString, hfinds, htable⟩, ?_⟩
                intro hd
                simpa [State.acquire, State.release, State.setFs] using hlog hd
            · simp only [hstring, Bool.false_eq_true, if_false] at h
              exact hunset h (by simp [State.acquire, State.setFs])
      · simp only [hentry, Bool.false_eq_true, if_false] at h
        exact hunset h (by simp [State.acquire, State.setFs])
    | null =>
      simp only [hopen] at h
      exact hunset h (by simp [State.acquire, State.setFs])
    | error =>
      simp only [hopen] at h
      cases h
  · simp only [hfile, Bool.false_eq_true, if_false] at h
    exact hunset h (by simp [State.setFs])

theorem findSysCallTable_finds {v sysString : List Byte} (h : Finds o v sysString) (s : State) :
    findSysCallTable o (some v) s = some ({ s with
      syscallTable := (o.kstrtoul sysString).getD 0
      log := s.log ++ [.acquire .filename, .acquire .mapFile, .acquire .mapEntry,
        .acquire .sysString, .release .sysString, .release .mapFile, .release .filename,
        .release .mapEntry] }, 0) := by
  obtain ⟨hreads, hstring, before, l, hat, rfl⟩ := h
  have hls : ∀ l ∈ completeLines o.systemMap, 10 ∉ l := fun l hl => completeLines_newline hl
  have hloop := mapLoop_found hls (partialLine o.systemMap) hat
  rw [render_completeLines] at hloop
  have hzero : 0 ∈ entryAfter (before ++ [l]) :=
    zero_mem_entryAfter.mpr (fits_snoc.mp hat.2.1).2.2
  obtain ⟨⟨sysString, rest⟩, hsep⟩ := Option.isSome_iff_exists.mp (strsep_isSome hzero 32)
  have htoken : sysString = firstWord (entryAfter (before ++ [l])) := strsep_token hsep
  rw [findSysCallTable_found s hreads hstring hloop hsep, htoken]

end table

def hooks : List (ℕ × Code) :=
  [(nrOpen, .newOpen), (nrWrite, .newWrite), (nrRmdir, .newRmdir), (nrLink, .newLink),
    (nrUnlink, .newUnlink), (nrSymlink, .newSymlink), (nrRename, .newRename),
    (nrMkdir, .newMkdir), (nrExitGroup, .newExitGroup), (nrClose, .newClose)]

/-- All hooks stand in the table. -/
def Hooked (s : State) : Prop :=
  s.syscallTable ≠ 0 ∧ ∀ p ∈ hooks, s.words (s.syscallTable + 8 * p.1) = p.2

/-- A later state in which nobody else has touched the driver or the table. -/
structure Later (s s' : State) : Prop where
  table : s'.syscallTable = s.syscallTable
  originals : s'.originals = s.originals
  devices : s'.ioctlDevices = s.ioctlDevices
  class_ : s'.ioctlClass = s.ioctlClass
  log : s'.log = s.log
  slots : ∀ nr, s'.words (s.syscallTable + 8 * nr) = s.words (s.syscallTable + 8 * nr)

/-- What is acquired is released, once, and nothing else is. -/
def Balanced (log : List Effect) : Prop :=
  ∀ r, log.filter (·.resource = r) = [] ∨ log.filter (·.resource = r) = [.acquire r, .release r]

/-- Unloading later puts every slot back and gives every resource back. -/
def Undone (words : Addr → Code) (s : State) : Prop :=
  ∀ s', Later s s' → ∃ t, routerExit s' = some t ∧ t.fs = s'.fs ∧
    (∀ nr, t.words (s.syscallTable + 8 * nr) = words (s.syscallTable + 8 * nr)) ∧ Balanced t.log

def AllOrNothing (o : Outcomes) (fs : AddrLimit) (words : Addr → Code) : Prop :=
  ∃ s ret, routerInit o (unloaded fs words) = some (s, ret) ∧ s.fs = fs ∧
    (ret = 0 → .acquire .device ∈ s.log ∧ Hooked s ∧ Undone words s)

/-- Every call succeeds, and the texts lead to an address that is no error pointer. -/
def Loads (o : Outcomes) : Prop :=
  MakesDevice o ∧ o.openVersion = .object ∧
    ∃ v sysString table, ThirdWord (versionBuffer o) v ∧ Finds o v sysString ∧
      o.kstrtoul sysString = some table ∧ table ≠ 0 ∧ ¬ isErr table

section load
variable {o : Outcomes}

theorem setSystemsCalls_hooks (d : Driver) : ∀ p ∈ hooks, (setSystemsCalls d).table p.1 = p.2 := by
  simp only [hooks, List.forall_mem_cons]
  exact ⟨rfl, rfl, rfl, rfl, rfl, rfl, rfl, rfl, rfl, rfl, by simp⟩

theorem slot_restored {f : ℕ → Code} {nr a : ℕ} {x y : Code} (hx : x = f a)
    (hy : nr ≠ a → y = f nr) : (if nr = a then x else y) = f nr := by
  by_cases h : nr = a
  · rw [if_pos h, h]
    exact hx
  · rw [if_neg h]
    exact hy h

theorem destory_setSystemsCalls (d : Driver) (nr : ℕ) :
    (destoryNewSystemCalls (setSystemsCalls d)).table nr = d.table nr := by
  apply slot_restored rfl
  intro hopen
  apply slot_restored rfl
  intro hwrite
  apply slot_restored rfl
  intro hrmdir
  apply slot_restored rfl
  intro hlink
  apply slot_restored rfl
  intro hunlink
  apply slot_restored rfl
  intro hsymlink
  apply slot_restored rfl
  intro hrename
  apply slot_restored rfl
  intro hmkdir
  apply slot_restored rfl
  intro hexit
  apply slot_restored rfl
  intro hclose
  simp only [setSystemsCalls, if_neg hopen, if_neg hwrite, if_neg hrmdir, if_neg hlink,
    if_neg hunlink, if_neg hsymlink, if_neg hrename, if_neg hmkdir, if_neg hexit, if_neg hclose]

def setupLog : List Effect :=
  [.acquire .kernelVersion, .acquire .procVersion, .release .procVersion, .acquire .filename,
    .acquire .mapFile, .acquire .mapEntry, .acquire .sysString, .release .sysString,
    .release .mapFile, .release .filename, .release .mapEntry, .release .kernelVersion]

def hookedAt (table : Addr) (s : State) : State :=
  let d := setSystemsCalls (s.tableAt table)
  { ({ s with syscallTable := table } : State).writeTable table d with
    log := s.log ++ setupLog }

theorem setupSystemCall_loads (hkzalloc : o.kzallocVersion = true)
    (hopen : o.openVersion = .object) {v sysString : List Byte} {table : Addr}
    (hv : ThirdWord (versionBuffer o) v) (hfinds : Finds o v sysString)
    (htable : o.kstrtoul sysString = some table) (hnull : table ≠ 0) (herr : ¬ isErr table)
    (s : State) : setupSystemCall o s = some (hookedAt table s, 0) := by
  rw [setupSystemCall, if_pos hkzalloc, acquireKernelVersion_read hopen hv, Option.bind_some]
  simp only [findSysCallTable_finds hfinds, htable, Option.bind_some]
  simp [hnull, herr, State.patchTable, State.writeTable, State.acquire, State.release, hookedAt,
    setupLog, State.tableAt]

def madeDevice (fs : AddrLimit) (words : Addr → Code) : State :=
  { unloaded fs words with
    ioctlDevices := true
    ioctlClass := .object
    log := deviceLog }

theorem routerInit_loads (hkzalloc : o.kzallocVersion = true) (h : Loads o) (fs : AddrLimit)
    (words : Addr → Code) : ∃ table, table ≠ 0 ∧ ¬ isErr table ∧
      routerInit o (unloaded fs words) = some (hookedAt table (madeDevice fs words), 0) := by
  obtain ⟨hdevice, hopen, v, sysString, table, hv, hfinds, htable, hnull, herr⟩ := h
  refine ⟨table, hnull, herr, ?_⟩
  have hdev : setupIoctlDev o (unloaded fs words) = some (madeDevice fs words, 0) :=
    setupIoctlDev_made (unloaded fs words) hdevice
  rw [routerInit, hdev, Option.bind_some]
  exact setupSystemCall_loads hkzalloc hopen hv hfinds htable hnull herr _

theorem hookedAt_slot (table : Addr) (s : State) (nr : ℕ) :
    (hookedAt table s).words (table + 8 * nr) = (setSystemsCalls (s.tableAt table)).table nr :=
  State.writeTable_words _ table _ nr

theorem hookedAt_undone {table : Addr} (hnull : table ≠ 0) (herr : ¬ isErr table)
    (fs : AddrLimit) (words : Addr → Code) :
    Undone words (hookedAt table (madeDevice fs words)) := by
  intro s' hlater
  have htable : s'.syscallTable = table := hlater.table
  have hslots : s'.tableAt table = setSystemsCalls ((madeDevice fs words).tableAt table) := by
    have htab : (fun nr => s'.words (table + 8 * nr)) =
        (setSystemsCalls ((madeDevice fs words).tableAt table)).table :=
      funext fun nr => (hlater.slots nr).trans (hookedAt_slot table _ nr)
    have horiginals : s'.originals =
        (setSystemsCalls ((madeDevice fs words).tableAt table)).originals := hlater.originals
    rw [State.tableAt, htab, horiginals]
  have hdevices : s'.ioctlDevices = true := hlater.devices
  have hclass : s'.ioctlClass = .object := hlater.class_
  have hlog : s'.log = deviceLog ++ setupLog := hlater.log
  have hcleanup : systemCallCleanup s' = some (s'.writeTable table
      (destoryNewSystemCalls (s'.tableAt table))) := by
    simp only [systemCallCleanup, State.patchTable, htable, if_neg herr, if_pos hnull]
  refine ⟨{ s'.writeTable table (destoryNewSystemCalls (s'.tableAt table)) with
    log := s'.log ++ [.release .device, .release .cdev, .release .ioctlDevices,
      .release .ioctlClass, .release .chrdevRegion] }, ?_, rfl, ?_, ?_⟩
  · rw [routerExit, hcleanup, Option.bind_some]
    simp [ioctlCleanup, ioctlDestroyDevice, classDestroy, State.writeTable, State.release, hdevices,
      hclass]
  · intro nr
    have hslot : (destoryNewSystemCalls (s'.tableAt table)).table nr =
        ((madeDevice fs words).tableAt table).table nr := by
      rw [hslots, destory_setSystemsCalls]
    exact (State.writeTable_words s' table _ nr).trans hslot
  · intro r
    rw [hlog]
    cases r <;> exact Or.inr rfl

theorem patchTable_frame {f : Driver → Driver} {s t : State} (h : s.patchTable f = some t) :
    ¬ isErr s.syscallTable ∧ t.syscallTable = s.syscallTable ∧ t.log = s.log := by
  unfold State.patchTable at h
  split at h
  · cases h
  · next herr =>
    obtain rfl := Option.some.inj h
    exact ⟨herr, rfl, rfl⟩

theorem loads_of_hooked (hkzalloc : o.kzallocVersion = true) {fs : AddrLimit}
    {words : Addr → Code} {s : State} {ret : ℤ}
    (h : routerInit o (unloaded fs words) = some (s, ret)) :
    ret = 0 ∧ (.acquire .device ∈ s.log → Hooked s → Loads o) := by
  obtain ⟨⟨s₁, err⟩, hdev, hsetup⟩ := Option.bind_eq_some_iff.mp h
  have hs₁ : s₁.syscallTable = 0 ∧ (.acquire .device ∈ s₁.log → MakesDevice o) := by
    by_cases hmakes : MakesDevice o
    · rw [setupIoctlDev_made _ hmakes] at hdev
      cases hdev
      exact ⟨rfl, fun _ => hmakes⟩
    · obtain ⟨dev, class_, extra, err, hfailed, hextra⟩ :=
        setupIoctlDev_failed (unloaded fs words) hmakes
      rw [hfailed] at hdev
      cases hdev
      exact ⟨rfl, fun hd => absurd hd hextra⟩
  simp only [setupSystemCall, if_pos hkzalloc] at hsetup
  obtain ⟨⟨s₂, version⟩, hacquire, hsetup⟩ := Option.bind_eq_some_iff.mp hsetup
  obtain ⟨⟨s₃, success⟩, hfind, hsetup⟩ := Option.bind_eq_some_iff.mp hsetup
  obtain ⟨s₄, hpatch, heq⟩ := Option.map_eq_some_iff.mp hsetup
  cases heq
  refine ⟨rfl, ?_⟩
  intro hdevice hhooked
  cases version with
  | none => cases hfind
  | some v =>
    obtain ⟨hopen, hv⟩ := acquireKernelVersion_some hacquire
    rw [acquireKernelVersion_read hopen hv] at hacquire
    cases hacquire
    obtain ⟨htable, hlog⟩ := findSysCallTable_cases hfind
    have hs₄ : s₄.syscallTable = s₃.syscallTable ∧ s₄.log = s₃.log := by
      split at hpatch
      · cases hpatch
        exact ⟨rfl, rfl⟩
      · split at hpatch
        · exact (patchTable_frame hpatch).2
        · cases hpatch
          exact ⟨rfl, rfl⟩
    have hnull : s₃.syscallTable ≠ 0 := hs₄.1 ▸ hhooked.1
    have hmakes : MakesDevice o := by
      apply hs₁.2
      have hd : .acquire .device ∈ s₃.log := by simpa [State.release, hs₄.2] using hdevice
      simpa [State.acquire] using hlog hd
    rcases htable with ⟨sysString, hfinds, htable⟩ | htable
    · rw [findSysCallTable_finds hfinds] at hfind
      cases hfind
      have hsuccess : ¬ (0 : ℤ) = -1 := by decide
      rw [if_neg hsuccess, if_pos hnull] at hpatch
      have herr := (patchTable_frame hpatch).1
      cases hkstrtoul : o.kstrtoul sysString with
      | none =>
        rw [hkstrtoul] at hnull
        exact absurd rfl hnull
      | some table =>
        rw [hkstrtoul] at hnull herr
        exact ⟨hmakes, hopen, v, sysString, table, hv, hfinds, hkstrtoul, hnull, herr⟩
    · exact absurd (htable.trans hs₁.1) hnull

theorem loads_of_allOrNothing (hkzalloc : o.kzallocVersion = true) {fs : AddrLimit}
    {words : Addr → Code} (h : AllOrNothing o fs words) : Loads o := by
  obtain ⟨s, ret, hinit, -, hzero⟩ := h
  obtain ⟨hret, hloads⟩ := loads_of_hooked hkzalloc hinit
  obtain ⟨hdevice, hhooked, -⟩ := hzero hret
  exact hloads hdevice hhooked

/-- Loading and unloading are all or nothing if and only if the buffer for the version cannot be
allocated, or nothing fails. -/
theorem all_or_nothing_iff (o : Outcomes) (fs : AddrLimit) (words : Addr → Code) :
    AllOrNothing o fs words ↔ o.kzallocVersion = false ∨ Loads o := by
  constructor
  · intro h
    cases hkzalloc : o.kzallocVersion with
    | false => exact Or.inl rfl
    | true => exact Or.inr (loads_of_allOrNothing hkzalloc h)
  · intro h
    cases hkzalloc : o.kzallocVersion with
    | false =>
      have hdev : ∃ s err, setupIoctlDev o (unloaded fs words) = some (s, err) ∧ s.fs = fs := by
        by_cases hmakes : MakesDevice o
        · exact ⟨_, _, setupIoctlDev_made _ hmakes, rfl⟩
        · obtain ⟨dev, class_, extra, err, hfailed, -⟩ :=
            setupIoctlDev_failed (unloaded fs words) hmakes
          exact ⟨_, err, hfailed, rfl⟩
      obtain ⟨s, err, hdev, hfs⟩ := hdev
      refine ⟨s, -12, ?_, hfs, fun hzero => absurd hzero (by decide)⟩
      simp only [routerInit, hdev, Option.bind_some, setupSystemCall, hkzalloc, Bool.false_eq_true,
        if_false]
    | true =>
      have hloads : Loads o := by
        rcases h with hfalse | hloads
        · rw [hkzalloc] at hfalse
          cases hfalse
        · exact hloads
      obtain ⟨table, hnull, herr, hinit⟩ := routerInit_loads hkzalloc hloads fs words
      refine ⟨_, 0, hinit, rfl, ?_⟩
      intro _
      refine ⟨by simp [hookedAt, madeDevice, deviceLog], ⟨hnull, ?_⟩,
        hookedAt_undone hnull herr fs words⟩
      intro p hp
      have hslot := hookedAt_slot table (madeDevice fs words) p.1
      rw [setSystemsCalls_hooks _ p hp] at hslot
      exact hslot

def usualTexts : Outcomes :=
  noFailure (ascii "Linux version 4.6.0 (gcc)") (ascii "c15d50a0 R sys_call_table\n") (by decide)

/-- A region or /proc/version that is refused, or a System.map that cannot be opened. -/
theorem failures_pass :
    ¬ AllOrNothing { usualTexts with allocChrdevRegion := -16 } .userDs .kernel ∧
    ¬ AllOrNothing { usualTexts with openVersion := .error } .userDs .kernel ∧
    ¬ AllOrNothing { usualTexts with openMap := fun _ => .error } .userDs .kernel := by
  refine ⟨?_, ?_, ?_⟩
  · intro h
    have hregion := (loads_of_allOrNothing rfl h).1.region
    exact absurd hregion (by decide)
  · intro h
    have hopen := (loads_of_allOrNothing rfl h).2.1
    cases hopen
  · intro h
    obtain ⟨v, sysString, table, -, ⟨⟨-, hopen, -⟩, -⟩, -⟩ := (loads_of_allOrNothing rfl h).2.2
    cases hopen

theorem loads_of_lines {ls : List MapLine} (hls : ∀ l ∈ ls, l.WellFormed) {l : MapLine}
    (hfirst : ls.find? MapLine.contains = some l) (hvalue : l.value ≠ 0 ∧ ¬ isErr l.value)
    (hdevice : MakesDevice o) (hopen : o.openVersion = .object) {v : List Byte}
    (hv : ThirdWord (versionBuffer o) v) : Loads (reading o ls) := by
  have hwf : l.WellFormed := hls l (List.mem_of_find?_eq_some hfirst)
  have hloop := mapLoop_lines hls
  rw [hfirst] at hloop
  obtain ⟨stale, hloop⟩ := hloop
  have hfinds : Finds (reading o ls) v l.address :=
    finds_of_mapLoop ⟨rfl, rfl, rfl⟩ rfl hloop (hwf.strsep_text stale)
  have hmakes : MakesDevice (reading o ls) :=
    ⟨hdevice.region, hdevice.class_, hdevice.devices, hdevice.cdev, hdevice.device⟩
  exact ⟨hmakes, hopen, v, l.address, l.value, hv, hfinds, hwf.kstrtoul, hvalue⟩

end load

end DriverLoad
