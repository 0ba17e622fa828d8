import LoadableSystemCalls.BlacklistPaging
import LoadableSystemCalls.TraceLog

/-! # Reading the trace log back

A record is a line of text, and nothing in it is escaped. Where no name has a newline the
log tells who called what on which names; a name with newlines can say anything. -/
namespace LogReading

open KernelTypes CStrings BlacklistPaging TraceLog TransitionRuns

theorem separator_first {d : Byte} {sep x a b : List Byte} (hd : d ∉ sep) (hx : ¬ d :: sep <:+: x)
    (h : d :: sep ++ a = x ++ (d :: sep ++ b)) : x = [] := by
  rcases List.append_eq_append_iff.mp h with ⟨y, rfl, -⟩ | ⟨y, hsep, hrest⟩
  · exact absurd ⟨[], y, by simp⟩ hx
  · cases x with
    | nil => rfl
    | cons e x =>
      exfalso
      obtain ⟨rfl, rfl⟩ := List.cons.inj hsep
      cases y with
      | nil => exact hx ⟨[], [], by simp⟩
      | cons e y =>
        obtain rfl : d = e := (List.cons.inj hrest).1
        simp at hd

theorem separated_inj {d : Byte} {sep s t a b : List Byte} (hd : d ∉ sep)
    (hs : ¬ d :: sep <:+: s) (ht : ¬ d :: sep <:+: t)
    (h : s ++ (d :: sep ++ a) = t ++ (d :: sep ++ b)) : s = t ∧ a = b := by
  have hst : s = t := by
    rcases List.append_eq_append_iff.mp h with ⟨x, rfl, hx⟩ | ⟨x, rfl, hx⟩
    · rw [separator_first hd (fun hin => ht (hin.trans (List.suffix_append s x).isInfix)) hx,
        List.append_nil]
    · rw [separator_first hd (fun hin => hs (hin.trans (List.suffix_append t x).isInfix)) hx,
        List.append_nil]
  subst hst
  exact ⟨rfl, List.append_cancel_left (List.append_cancel_left h)⟩

def names (c : TraceCall) : List (List Byte) := c.fields.map fun f => text f.2

def fieldText (f : List Byte × List Byte) : List Byte := ascii ", " ++ f.1 ++ ascii ": " ++ text f.2

/-- A record without its newline. -/
def recordLine (pid : BitVec 32) (c : TraceCall) : List Byte :=
  ascii "PID: " ++ decimal pid ++ ascii ", TRACE OPERATION: " ++ c.operation ++
    c.fields.flatMap fieldText

theorem record_eq (pid : BitVec 32) (c : TraceCall) : c.record pid = recordLine pid c ++ [10] := rfl

theorem records_flatten (cs : List (BitVec 32 × TraceCall)) :
    (records cs).flatten = render (cs.map fun c => recordLine c.1 c.2) := by
  rw [records, render, List.flatMap_map, List.flatMap_def]
  rfl

def newLabel : List Byte := ascii ", " ++ newFileDir ++ ascii ": "

/-- No name has a newline, and the first of two names does not look like both. -/
structure Legible (c : TraceCall) : Prop where
  newline : ∀ name ∈ names c, 10 ∉ name
  label : ∀ name ∈ (names c).dropLast, ¬ newLabel <:+: name

theorem fields_cases (c : TraceCall) : c.fields = [] ∨ (∃ l n, c.fields = [(l, n)]) ∨
    ∃ o n, c.fields = [(oldFileDir, o), (newFileDir, n)] := by
  cases c with
  | close => exact Or.inl rfl
  | link | symlink | rename => exact Or.inr (Or.inr ⟨_, _, rfl⟩)
  | _ => exact Or.inr (Or.inl ⟨_, _, rfl⟩)

def labels (operation : List Byte) : List (List Byte) :=
  if operation = ascii "CLOSE" then []
  else if operation = ascii "MKDIR" then [oldFileDir]
  else if operation = ascii "LINK" ∨ operation = ascii "SYMLINK" ∨ operation = ascii "RENAME" then
    [oldFileDir, newFileDir]
  else [fileDir]

theorem fields_labels (c : TraceCall) : c.fields.map Prod.fst = labels c.operation := by
  cases c <;> rfl

theorem operation_plain (c : TraceCall) : 44 ∉ c.operation ∧ 10 ∉ c.operation := by
  cases c <;> (simp only [TraceCall.operation]; decide)

theorem fieldText_comma (fs : List (List Byte × List Byte)) :
    ∃ rest, fs.flatMap fieldText ++ [44] = 44 :: rest := by
  cases fs with
  | nil => exact ⟨[], rfl⟩
  | cons f fs => exact ⟨_, rfl⟩

theorem operation_inj {c c' : TraceCall}
    (h : c.operation ++ c.fields.flatMap fieldText = c'.operation ++ c'.fields.flatMap fieldText) :
    c.operation = c'.operation ∧ c.fields.flatMap fieldText = c'.fields.flatMap fieldText := by
  obtain ⟨rest, hrest⟩ := fieldText_comma c.fields
  obtain ⟨rest', hrest'⟩ := fieldText_comma c'.fields
  have hcommas : c.operation ++ 44 :: rest = c'.operation ++ 44 :: rest' := by
    rw [← hrest, ← hrest', ← List.append_assoc, ← List.append_assoc, h]
  have hop := (delimited_inj (operation_plain c).1 (operation_plain c').1 hcommas).1
  rw [hop] at h
  exact ⟨hop, List.append_cancel_left h⟩

theorem names_inj {c c' : TraceCall} (hop : c.operation = c'.operation) (hc : Legible c)
    (hc' : Legible c') (h : c.fields.flatMap fieldText = c'.fields.flatMap fieldText) :
    names c = names c' := by
  have hlabels : c.fields.map Prod.fst = c'.fields.map Prod.fst := by
    rw [fields_labels, fields_labels, hop]
  have hlegible := hc.label
  have hlegible' := hc'.label
  unfold names at hlegible hlegible' ⊢
  generalize c'.fields = fs at *
  rcases fields_cases c with hf | ⟨l, n, hf⟩ | ⟨o, n, hf⟩
  · rw [hf] at hlabels ⊢
    rw [List.map_eq_nil_iff.mp hlabels.symm]
  · rw [hf] at hlabels h ⊢
    obtain ⟨⟨l', n'⟩, rfl, hl⟩ := List.map_eq_singleton_iff.mp hlabels.symm
    obtain rfl : l' = l := hl
    simp only [List.flatMap_singleton, fieldText] at h
    simp only [List.map_singleton, List.append_cancel_left h]
  · rw [hf] at hlabels h hlegible ⊢
    obtain ⟨⟨lo, o'⟩, fs, rfl, hlo, hfs⟩ := List.map_eq_cons_iff.mp hlabels.symm
    obtain ⟨⟨ln, n'⟩, rfl, hln⟩ := List.map_eq_singleton_iff.mp hfs
    obtain rfl : lo = oldFileDir := hlo
    obtain rfl : ln = newFileDir := hln
    simp only [List.flatMap_cons, List.flatMap_nil, List.append_nil] at h
    have htwo (a b : List Byte) : fieldText (oldFileDir, a) ++ fieldText (newFileDir, b) =
        ascii ", " ++ oldFileDir ++ ascii ": " ++ (text a ++ (newLabel ++ text b)) := by
      simp only [fieldText, newLabel, List.append_assoc]
    rw [htwo, htwo] at h
    obtain ⟨sep, hsep, hcomma⟩ : ∃ sep, newLabel = 44 :: sep ∧ 44 ∉ sep :=
      ⟨newLabel.tail, by decide, by decide⟩
    rw [hsep] at h hlegible hlegible'
    obtain ⟨hold, hnew⟩ := separated_inj hcomma (hlegible (text o) (by simp))
      (hlegible' (text o') (by simp)) (List.append_cancel_left h)
    simp only [List.map_cons, List.map_nil, hold, hnew]

theorem recordLine_inj {pid pid' : BitVec 32} {c c' : TraceCall} (hc : Legible c)
    (hc' : Legible c') (h : recordLine pid c = recordLine pid' c') :
    pid = pid' ∧ c.operation = c'.operation ∧ names c = names c' := by
  obtain ⟨sep, hsep⟩ : ∃ sep, ascii ", TRACE OPERATION: " = 44 :: sep := ⟨_, rfl⟩
  simp only [recordLine, hsep, List.append_assoc, List.cons_append] at h
  have hplain (x : BitVec 32) : 44 ∉ decimal x := notMem_decimal (by decide) (by decide) x
  obtain ⟨hpid, hrest⟩ := delimited_inj (hplain pid) (hplain pid') (List.append_cancel_left h)
  obtain ⟨hop, hfields⟩ := operation_inj (List.append_cancel_left hrest)
  exact ⟨decimal_injective hpid, hop, names_inj hop hc hc' hfields⟩

theorem labels_newline (operation : List Byte) : ∀ l ∈ labels operation, 10 ∉ l := by
  unfold labels
  split_ifs <;> decide

theorem recordLine_newline {pid : BitVec 32} {c : TraceCall} (hc : Legible c) :
    10 ∉ recordLine pid c := by
  have happend {s t : List Byte} (hs : 10 ∉ s) (ht : 10 ∉ t) : 10 ∉ s ++ t :=
    fun hmem => (List.mem_append.mp hmem).elim hs ht
  have hfields : 10 ∉ c.fields.flatMap fieldText := by
    intro hmem
    obtain ⟨f, hf, hmem⟩ := List.mem_flatMap.mp hmem
    have hlabel : f.1 ∈ labels c.operation := fields_labels c ▸ List.mem_map_of_mem hf
    have hname : 10 ∉ text f.2 := hc.newline _ (List.mem_map_of_mem hf)
    exact happend (happend (happend (by decide) (labels_newline _ _ hlabel)) (by decide)) hname hmem
  have hpid : 10 ∉ decimal pid := notMem_decimal (by decide) (by decide) pid
  exact happend (happend (happend (happend (by decide) hpid) (by decide))
    (operation_plain c).2) hfields

/-- What a record tells. -/
def told (c : BitVec 32 × TraceCall) : BitVec 32 × List Byte × List (List Byte) :=
  (c.1, c.2.operation, names c.2)

theorem told_inj {cs cs' : List (BitVec 32 × TraceCall)} (hcs : ∀ c ∈ cs, Legible c.2)
    (hcs' : ∀ c ∈ cs', Legible c.2)
    (h : (cs.map fun c => recordLine c.1 c.2) = cs'.map fun c => recordLine c.1 c.2) :
    cs.map told = cs'.map told := by
  induction cs generalizing cs' with
  | nil =>
    obtain rfl : cs' = [] := List.map_eq_nil_iff.mp h.symm
    rfl
  | cons c cs ih =>
    obtain ⟨c', cs', rfl, hline, hlines⟩ := List.map_eq_cons_iff.mp h.symm
    obtain ⟨hpid, hop, hnames⟩ := recordLine_inj (hcs c List.mem_cons_self)
      (hcs' c' List.mem_cons_self) hline.symm
    have hrest := ih (fun x hx => hcs x (List.mem_cons_of_mem c hx))
      (fun x hx => hcs' x (List.mem_cons_of_mem c' hx)) hlines.symm
    rw [List.map_cons, List.map_cons, hrest, told, told, hpid, hop, hnames]

theorem records_determine_calls {cs cs' : List (BitVec 32 × TraceCall)}
    (hcs : ∀ c ∈ cs, Legible c.2) (hcs' : ∀ c ∈ cs', Legible c.2)
    (h : (records cs).flatten = (records cs').flatten) : cs.map told = cs'.map told := by
  rw [records_flatten, records_flatten] at h
  have hnewline {ds : List (BitVec 32 × TraceCall)} (hds : ∀ c ∈ ds, Legible c.2) :
      ∀ l ∈ ds.map fun c => recordLine c.1 c.2, 10 ∉ l := by
    intro l hl
    obtain ⟨c, hc, rfl⟩ := List.mem_map.mp hl
    exact recordLine_newline (hds c hc)
  exact told_inj hcs hcs' (render_injective (hnewline hcs) (hnewline hcs') h)

/-- Each record fits in the page, and each batch ends at a zero of the page. -/
structure Exact (page : List Byte) (cs : List (BitVec 32 × TraceCall)) : Prop where
  size : page.length = pageSize
  fits : ∀ c ∈ cs, (c.2.record c.1).length < pageSize
  clean : Clean (zeroAt page) (batches 0 ((records cs).map List.length))

theorem exact_logged {page : List Byte} {cs : List (BitVec 32 × TraceCall)} (h : Exact page cs) :
    logged page cs = some (records cs).flatten := by
  rw [logged_eq_finish]
  exact (finish_exact_iff (holds_init h.size) (records_loggable h.fits)).mpr h.clean

/-- Files of legible calls are equal only if the calls are, in all that a record tells. -/
theorem log_determines_calls {page page' : List Byte} {cs cs' : List (BitVec 32 × TraceCall)}
    (hcs : ∀ c ∈ cs, Legible c.2) (hcs' : ∀ c ∈ cs', Legible c.2) (hpage : Exact page cs)
    (hpage' : Exact page' cs') (h : logged page cs = logged page' cs') :
    cs.map told = cs'.map told := by
  rw [exact_logged hpage, exact_logged hpage', Option.some.injEq] at h
  exact records_determine_calls hcs hcs' h

theorem batches_page {used : ℕ} {ns : List ℕ} (hpos : 0 < used + ns.sum)
    (hfit : used + ns.sum < pageSize) : batches used ns = [used + ns.sum] := by
  induction ns generalizing used with
  | nil =>
    rw [List.sum_nil, Nat.add_zero] at *
    rw [batches, if_neg (by omega)]
  | cons n ns ih =>
    rw [List.sum_cons, ← Nat.add_assoc] at *
    rw [batches, if_neg (by omega), ih hpos hfit]

theorem exact_page {page : List Byte} (hpage : page.length = pageSize)
    {cs : List (BitVec 32 × TraceCall)} (hcs : cs ≠ [])
    (hfit : (records cs).flatten.length < pageSize)
    (hzero : zeroAt page (records cs).flatten.length) : Exact page cs := by
  have hle : ∀ c ∈ cs, (c.2.record c.1).length ≤ (records cs).flatten.length := by
    intro c hc
    have hmem : c.2.record c.1 ∈ records cs := List.mem_map_of_mem hc
    exact (List.sublist_flatten_of_mem hmem).length_le
  have hfits : ∀ c ∈ cs, (c.2.record c.1).length < pageSize :=
    fun c hc => (hle c hc).trans_lt hfit
  have hpos : 0 < (records cs).flatten.length := by
    obtain ⟨c, hc⟩ := List.exists_mem_of_ne_nil cs hcs
    have hrecord := List.length_pos_iff.mpr (record_loggable (hfits c hc)).nonempty
    exact hrecord.trans_le (hle c hc)
  refine ⟨hpage, hfits, ?_⟩
  rw [List.length_flatten] at hfit hpos hzero
  rw [batches_page (by omega) (by omega), Nat.zero_add]
  exact ⟨hzero, trivial⟩

theorem exact_zeros {cs : List (BitVec 32 × TraceCall)} (hcs : cs ≠ [])
    (hfit : (records cs).flatten.length < pageSize) : Exact (List.replicate pageSize 0) cs :=
  exact_page (List.length_replicate ..) hcs hfit
    (by rw [zeroAt, List.getElem?_replicate, if_pos hfit])

theorem close_fits (fd : BitVec 32) : (records [(1, .close fd)]).flatten.length < pageSize := by
  rw [records, List.map_singleton, List.flatten_singleton]
  simp [TraceCall.record, formatRecord, TraceCall.operation, TraceCall.fields, decimal, digits,
    ascii, pageSize]

instance (c : TraceCall) : Decidable (Legible c) :=
  decidable_of_iff ((∀ name ∈ names c, 10 ∉ name) ∧
    ∀ name ∈ (names c).dropLast, ¬ newLabel <:+: name) ⟨fun h => ⟨h.1, h.2⟩, fun h => ⟨h.1, h.2⟩⟩

/-- A session of two tasks. A record tells neither the descriptor nor the mode. -/
def session (fd : BitVec 32) (mode : BitVec 16) : List (BitVec 32 × TraceCall) :=
  [(1, .rename (ascii "a, NEW") (ascii "b, OLD")), (2, .symlink (ascii "b") (ascii "c")),
    (1, .close fd), (2, .mkdir (ascii "d") mode)]

theorem session_exact (fd : BitVec 32) (mode : BitVec 16) :
    Exact (List.replicate pageSize 0) (session fd mode) := by
  have hone : decimal 1 = ascii "1" := by simp [decimal, digits, ascii]
  have htwo : decimal 2 = ascii "2" := by simp [decimal, digits, ascii]
  refine exact_zeros (List.cons_ne_nil _ _) ?_
  simp only [session, records, List.map_cons, List.map_nil, TraceCall.record, formatRecord,
    TraceCall.operation, TraceCall.fields, hone, htwo]
  decide +kernel

theorem log_determines_calls_session : (session 3 0).map told = (session 4 1).map told :=
  log_determines_calls (by decide) (by decide) (session_exact 3 0) (session_exact 4 1)
    (by rw [exact_logged (session_exact 3 0), exact_logged (session_exact 4 1)]; rfl)

theorem records_nulFree (cs : List (BitVec 32 × TraceCall)) : NulFree (records cs).flatten := by
  intro hmem
  obtain ⟨r, hr, hmem⟩ := List.mem_flatten.mp hmem
  obtain ⟨c, -, rfl⟩ := List.mem_map.mp hr
  exact formatRecord_nulFree (operation_nulFree c.2) (labels_nulFree c.2) hmem

theorem openFile_record (pid : BitVec 32) (flags : BitVec 32) (mode : BitVec 16)
    {path : List Byte} (hpath : NulFree path) :
    (TraceCall.openFile path flags mode).record pid =
      ascii "PID: " ++ decimal pid ++
        ascii ", TRACE OPERATION: OPEN, FILE/DIR: " ++ path ++ [10] := by
  have hfront : ascii ", TRACE OPERATION: OPEN, FILE/DIR: " =
      ascii ", TRACE OPERATION: " ++ ascii "OPEN" ++ (ascii ", " ++ fileDir ++ ascii ": ") := by
    decide
  have htext := text_of_nulFree hpath
  rw [record_eq, recordLine, hfront]
  simp only [TraceCall.operation, TraceCall.fields, List.flatMap_singleton, fieldText, htext,
    List.append_assoc]

theorem forged_record (pid : BitVec 32) {path : List Byte} (hpath : NulFree path)
    (flags : BitVec 32) (mode : BitVec 16) (cs : List (BitVec 32 × TraceCall)) :
    ∃ forged, NulFree forged ∧ (TraceCall.openFile forged flags mode).record pid =
      (TraceCall.openFile path flags mode).record pid ++ (records cs).flatten := by
  rcases List.eq_nil_or_concat cs with rfl | ⟨cs, last, rfl⟩
  · exact ⟨path, hpath, (List.append_nil _).symm⟩
  rw [List.concat_eq_append]
  have hlines : (records (cs ++ [last])).flatten =
      (records cs).flatten ++ recordLine last.1 last.2 ++ [10] := by
    rw [records, List.map_append, List.flatten_append, List.map_singleton, List.flatten_singleton,
      record_eq, ← List.append_assoc, records]
  have hnul := records_nulFree (cs ++ [last])
  rw [hlines] at hnul ⊢
  have hfree : NulFree (path ++ [10] ++ ((records cs).flatten ++ recordLine last.1 last.2)) :=
    .append (.append hpath (by decide)) fun hmem => hnul (List.mem_append_left _ hmem)
  refine ⟨_, hfree, (openFile_record pid flags mode hfree).trans ?_⟩
  rw [openFile_record pid flags mode hpath]
  simp only [List.append_assoc]

theorem addRecord_room {s : TraceState} (hcursor : s.vacant ≤ pageSize) {r : List Byte}
    (hfit : r.length < s.vacant) : addRecord true r s =
      (blit s.writeFileBuff (pageSize - s.vacant) r).map fun buff =>
        { s with writeFileBuff := buff, vacant := s.vacant - r.length } := by
  rw [addRecord, if_pos rfl, if_pos (by omega), if_neg (by omega), Option.bind_some]

/-- Records that fit leave what one record of all their bytes leaves. -/
theorem addRecords_joined {s : TraceState} (hcursor : s.vacant ≤ pageSize)
    (hsize : s.writeFileBuff.length = pageSize) {rs : List (List Byte)}
    (hfit : rs.flatten.length < s.vacant) :
    replay (fun s r => addRecord true r s) s rs = addRecord true rs.flatten s := by
  induction rs generalizing s with
  | nil =>
    have hroom : pageSize - s.vacant + 0 ≤ s.writeFileBuff.length := by omega
    have hnone : ([] : List Byte).length < s.vacant := hfit
    rw [replay, List.flatten_nil, addRecord_room hcursor hnone, blit, List.length_nil,
      if_pos hroom]
    simp
  | cons r rs ih =>
    rw [List.flatten_cons, List.length_append] at hfit
    have hjoined : (r ++ rs.flatten).length < s.vacant := by
      rw [List.length_append]
      exact hfit
    rw [replay, List.flatten_cons, addRecord_room hcursor hjoined, ← blit_append,
      addRecord_room hcursor (by omega), Option.bind_map, Option.map_bind]
    refine Option.bind_congr fun buff hbuff => ?_
    have hlater : rs.flatten.length < s.vacant - r.length := by omega
    refine (ih (by simp only; omega) ((blit_length hbuff).trans hsize) hlater).trans ?_
    rw [addRecord_room (by simp only; omega) hlater]
    have hat : pageSize - (s.vacant - r.length) = pageSize - s.vacant + r.length := by omega
    simp only [hat, List.length_append, Nat.sub_add_eq]
    rfl

/-- One open by one task can leave the very file that its open and any further calls, by
anyone, would have left. -/
theorem log_forged {page path : List Byte} {pid flags : BitVec 32} {mode : BitVec 16}
    {cs : List (BitVec 32 × TraceCall)} (hpage : page.length = pageSize) (hpath : NulFree path)
    (hfit : (records ((pid, .openFile path flags mode) :: cs)).flatten.length < pageSize) :
    ∃ forged, NulFree forged ∧ logged page [(pid, .openFile forged flags mode)] =
      logged page ((pid, .openFile path flags mode) :: cs) := by
  obtain ⟨forged, hforged, hrecord⟩ := forged_record pid hpath flags mode cs
  have hsame : (records [(pid, .openFile forged flags mode)]).flatten =
      (records ((pid, .openFile path flags mode) :: cs)).flatten := by
    rw [records, List.map_singleton, List.flatten_singleton, hrecord, records, records,
      List.map_cons, List.flatten_cons]
  have hone := addRecords_joined (s := traceInit page) le_rfl hpage (hsame ▸ hfit)
  have hall := addRecords_joined (s := traceInit page) le_rfl hpage hfit
  refine ⟨forged, hforged, ?_⟩
  rw [logged_eq_finish, logged_eq_finish, finish, finish, hone, hall, hsame]

theorem open_close_fits :
    (records [(2, .openFile (ascii "a") 0 0), (1, .close 3)]).flatten.length < pageSize := by
  simp [records, TraceCall.record, formatRecord, TraceCall.operation, TraceCall.fields, decimal,
    digits, fileDir, ascii, text, pageSize]

/-- A page that kmalloc returned with a terminator in its last byte only. -/
def oldPage : List Byte := List.replicate (pageSize - 1) 65 ++ [0]

theorem log_forged_close : ∃ forged, NulFree forged ∧
    logged oldPage [(2, .openFile forged 0 0)] =
      logged oldPage [(2, .openFile (ascii "a") 0 0), (1, .close 3)] :=
  log_forged (by rw [oldPage, List.length_append, List.length_replicate]; rfl) (by decide)
    open_close_fits

end LogReading
