import LoadableSystemCalls.LogReading

/-! # The trace file over several loads of the module (trace_module.c)

trace_init opens the file without emptying it, and a session writes from its start: what a
longer session has left behind stays behind a shorter one. -/
namespace TraceSessions

open CStrings KernelTypes TransitionRuns TraceLog LogReading

section overlay
variable {α : Type*}

/-- The new list in front, and of the old one what sticks out behind it. -/
def overlay (old new : List α) : List α := new ++ old.drop new.length

theorem overlay_getElem? (old new : List α) (i : ℕ) :
    (overlay old new)[i]? = (new[i]?).or old[i]? := by
  rw [overlay]
  by_cases hi : i < new.length
  · rw [List.getElem?_append_left hi, List.getElem?_eq_getElem hi, Option.some_or]
  · have hnone : new[i]? = none := List.getElem?_eq_none (by omega)
    rw [List.getElem?_append_right (by omega), List.getElem?_drop,
      Nat.add_sub_cancel' (by omega), hnone, Option.none_or]

theorem overlay_length (old new : List α) :
    (overlay old new).length = max old.length new.length := by
  rw [overlay, List.length_append, List.length_drop]
  omega

theorem overlay_eq_iff {old new : List α} : overlay old new = new ↔ old.length ≤ new.length := by
  rw [overlay, List.append_right_eq_self, List.drop_eq_nil_iff]

theorem foldl_overlay_getElem? (news : List (List α)) (old : List α) (i : ℕ) :
    (news.foldl overlay old)[i]? = (news.reverse ++ [old]).findSome? (·[i]?) := by
  induction news using List.reverseRecOn with
  | nil => simp
  | append_singleton news new ih =>
    rw [List.foldl_append, List.foldl_cons, List.foldl_nil, overlay_getElem?, ih,
      List.reverse_append, List.reverse_singleton, List.singleton_append, List.cons_append,
      List.findSome?_cons]
    cases new[i]? <;> rfl

theorem foldl_overlay_le_iff (news : List (List α)) (old : List α) (n : ℕ) :
    (news.foldl overlay old).length ≤ n ↔ ∀ l ∈ old :: news, l.length ≤ n := by
  induction news generalizing old with
  | nil => simp
  | cons new news ih =>
    rw [List.foldl_cons, ih]
    simp only [List.mem_cons, forall_eq_or_imp, overlay_length, max_le_iff, and_assoc]

end overlay

structure OpenFile where
  bytes : List Byte
  pos : ℕ
  inside : pos ≤ bytes.length

/-- `filp_open` with O_WRONLY and O_CREAT only. -/
def filpOpen (file : Option (List Byte)) : OpenFile := ⟨file.getD [], 0, Nat.zero_le _⟩

/-- `vfs_write` writes all of it at f_pos, and moves f_pos on. -/
def vfsWrite (f : OpenFile) (buf : List Byte) : OpenFile where
  bytes := f.bytes.take f.pos ++ overlay (f.bytes.drop f.pos) buf
  pos := f.pos + buf.length
  inside := by
    have hinside := f.inside
    rw [List.length_append, overlay_length, List.length_take, List.length_drop]
    omega

theorem vfsWrite_bytes (f : OpenFile) (buf : List Byte) :
    (vfsWrite f buf).bytes =
      (f.bytes.take f.pos ++ buf) ++ f.bytes.drop (f.pos + buf.length) := by
  simp only [vfsWrite, overlay, List.drop_drop, List.append_assoc]

theorem vfsWrite_pos (f : OpenFile) (buf : List Byte) :
    (vfsWrite f buf).pos = (f.bytes.take f.pos ++ buf).length := by
  have hinside := f.inside
  rw [List.length_append, List.length_take, Nat.min_eq_left hinside]
  rfl

theorem vfsWrite_front (f : OpenFile) (buf : List Byte) :
    (vfsWrite f buf).bytes.take (vfsWrite f buf).pos = f.bytes.take f.pos ++ buf := by
  rw [vfsWrite_pos, vfsWrite_bytes, List.take_left]

theorem vfsWrite_behind (f : OpenFile) (buf : List Byte) :
    (vfsWrite f buf).bytes.drop (vfsWrite f buf).pos = f.bytes.drop (f.pos + buf.length) := by
  rw [vfsWrite_pos, vfsWrite_bytes, List.drop_left]

theorem writes_bytes (bufs : List (List Byte)) (f : OpenFile) :
    (bufs.foldl vfsWrite f).bytes =
      f.bytes.take f.pos ++ overlay (f.bytes.drop f.pos) bufs.flatten := by
  induction bufs generalizing f with
  | nil => simp [overlay]
  | cons buf bufs ih =>
    rw [List.foldl_cons, ih, vfsWrite_front, vfsWrite_behind, List.flatten_cons, overlay, overlay,
      List.length_append, List.drop_drop, List.drop_drop, Nat.add_assoc]
    simp only [List.append_assoc]

def session (file : Option (List Byte)) (page : List Byte) (cs : List (BitVec 32 × TraceCall)) :
    Option (List Byte) :=
  ((replay perform (traceInit page) cs).bind traceExit).map fun s =>
    (s.written.foldl vfsWrite (filpOpen file)).bytes

theorem session_eq (file : Option (List Byte)) (page : List Byte)
    (cs : List (BitVec 32 × TraceCall)) :
    session file page cs = (logged page cs).map (overlay (file.getD [])) := by
  rw [session, logged, Option.map_map]
  congr 1
  funext s
  rw [writes_bytes]
  rfl

def sessions : Option (List Byte) → List (List Byte × List (BitVec 32 × TraceCall)) →
    Option (Option (List Byte)) :=
  replay fun file load => (session file load.1 load.2).map some

theorem sessions_logs {file after : Option (List Byte)}
    {loads : List (List Byte × List (BitVec 32 × TraceCall))}
    (h : sessions file loads = some after) : ∃ logs : List (List Byte),
      loads.map (fun load => logged load.1 load.2) = logs.map some ∧
      after.getD [] = logs.foldl overlay (file.getD []) := by
  induction loads generalizing file with
  | nil =>
    obtain rfl : file = after := Option.some.inj h
    exact ⟨[], rfl, rfl⟩
  | cons load loads ih =>
    rw [sessions, replay, session_eq] at h
    cases hlog : logged load.1 load.2 with
    | none =>
      rw [hlog] at h
      cases h
    | some log =>
      rw [hlog] at h
      obtain ⟨logs, hlogs, hafter⟩ := ih h
      exact ⟨log :: logs, by rw [List.map_cons, List.map_cons, hlog, hlogs], hafter⟩

/-- Each byte of the file is from the last session that wrote that far, or from before; the
file is the last session's log if and only if nothing before it was longer. -/
theorem sessions_file {file after : Option (List Byte)}
    {loads : List (List Byte × List (BitVec 32 × TraceCall))}
    (h : sessions file loads = some after) : ∃ logs : List (List Byte),
      loads.map (fun load => logged load.1 load.2) = logs.map some ∧
      (∀ i : ℕ, (after.getD [])[i]? =
        (logs.reverse ++ [file.getD []]).findSome? fun l => l[i]?) ∧
      ∀ log ∈ logs.getLast?, after.getD [] = log ↔
        ∀ old ∈ file.getD [] :: logs.dropLast, old.length ≤ log.length := by
  obtain ⟨logs, hlogs, hafter⟩ := sessions_logs h
  refine ⟨logs, hlogs, ?_, ?_⟩
  · intro i
    rw [hafter, foldl_overlay_getElem?]
  · intro log hlast
    have hsplit := List.dropLast_append_getLast? log hlast
    rw [hafter, ← foldl_overlay_le_iff, ← overlay_eq_iff]
    nth_rewrite 1 [← hsplit]
    rw [List.foldl_append, List.foldl_cons, List.foldl_nil]

theorem sessions_file_stale : ∃ after log : List Byte,
    sessions (some (List.replicate pageSize 65)) [(List.replicate pageSize 0, [(1, .close 3)])] =
      some (some after) ∧
    logged (List.replicate pageSize 0) [(1, .close 3)] = some log ∧ after ≠ log := by
  have hlog := exact_logged (exact_zeros (List.cons_ne_nil _ _) (close_fits 3))
  have hrun : sessions (some (List.replicate pageSize 65))
      [(List.replicate pageSize 0, [(1, .close 3)])] =
      some (some (overlay (List.replicate pageSize 65) (records [(1, .close 3)]).flatten)) := by
    rw [sessions, replay, session_eq, hlog]
    rfl
  refine ⟨_, _, hrun, hlog, ?_⟩
  intro hsame
  obtain ⟨logs, hlogs, -, hlast⟩ := sessions_file hrun
  obtain ⟨log, hlogs', rfl⟩ : ∃ log, some log = logged (List.replicate pageSize 0) [(1, .close 3)] ∧
      logs = [log] := by
    cases logs with
    | nil => cases hlogs
    | cons log logs =>
      obtain ⟨hhead, htail⟩ := List.cons.inj hlogs
      exact ⟨log, hhead.symm, by simpa using htail.symm⟩
  obtain rfl : log = _ := Option.some.inj (hlogs'.trans hlog)
  have hle := (hlast _ rfl).mp hsame (List.replicate pageSize 65) List.mem_cons_self
  rw [List.length_replicate] at hle
  exact absurd (close_fits 3) (Nat.not_lt.mpr hle)

end TraceSessions
