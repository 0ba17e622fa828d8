import Mathlib.Data.Nat.Digits.Lemmas
import LoadableSystemCalls.CStrings
import LoadableSystemCalls.KernelTypes
import LoadableSystemCalls.TransitionRuns

/-! # The trace module's log (trace_module.c)

Records are appended to a page with strncpy, which adds no terminator, and the page is
flushed by its strlen. What a flush emits depends on what the allocator and earlier records
left behind the cursor. -/
namespace TraceLog

open CStrings KernelTypes TransitionRuns

/-- The page, the cursor and the byte ranges handed to vfs_write, which writes them whole. -/
structure TraceState where
  writeFileBuff : List Byte
  vacant : ℕ
  written : List (List Byte)
  deriving DecidableEq, Repr

def traceInit (page : List Byte) : TraceState := ⟨page, pageSize, []⟩

/-- `write_to_file(filp_out, write_file_buff, strlen(write_file_buff))`. -/
def writeToFile (s : TraceState) : Option TraceState :=
  (strlen s.writeFileBuff).map fun size =>
    { s with written := s.written ++ [s.writeFileBuff.take size] }

def flush (s : TraceState) : Option TraceState :=
  (writeToFile s).map fun s =>
    { s with vacant := pageSize, writeFileBuff := s.writeFileBuff.set 0 0 }

/-- The body the trace functions share; sprintf writes the record and its terminator to a
page of its own. -/
def addRecord (kmallocOk : Bool) (record : List Byte) (s : TraceState) : Option TraceState :=
  if kmallocOk then
    if record.length < pageSize then
      (if s.vacant ≤ record.length then flush s else some s).bind fun s =>
        (blit s.writeFileBuff (pageSize - s.vacant) record).map fun buff =>
          { s with writeFileBuff := buff, vacant := s.vacant - record.length }
    else none
  else some s

def traceExit (s : TraceState) : Option TraceState :=
  if s.vacant < pageSize then writeToFile s else some s

def digits (n : ℕ) : List Byte :=
  if n = 0 then [48] else (Nat.digits 10 n).reverse.map fun d => BitVec.ofNat 8 (48 + d)

def decimal (x : BitVec 32) : List Byte :=
  if x.toInt < 0 then 45 :: digits x.toInt.natAbs else digits x.toInt.natAbs

/-- The format the ten functions write: the PID, the operation, and each labelled string up
to its terminator. -/
def formatRecord (operation : List Byte) (pid : BitVec 32)
    (fields : List (List Byte × List Byte)) : List Byte :=
  ascii "PID: " ++ decimal pid ++ ascii ", TRACE OPERATION: " ++ operation ++
    fields.flatMap (fun f => ascii ", " ++ f.1 ++ ascii ": " ++ text f.2) ++ ascii "\n"

inductive TraceCall where
  | openFile (path : List Byte) (flags : BitVec 32) (mode : BitVec 16)
  | read (fd : BitVec 32) (pathName : List Byte) (size : BitVec 64)
  | close (fd : BitVec 32)
  | write (fd : BitVec 32) (pathName : List Byte) (size : BitVec 64)
  | rmdir (filename : List Byte)
  | link (oldname newname : List Byte)
  | symlink (old new : List Byte)
  | unlink (pathname : List Byte)
  | rename (oldname newname : List Byte)
  | mkdir (pathname : List Byte) (mode : BitVec 16)
  deriving DecidableEq, Repr

def fileDir : List Byte := ascii "FILE/DIR"
def oldFileDir : List Byte := ascii "OLD FILE/DIR"
def newFileDir : List Byte := ascii "NEW FILE/DIR"

def TraceCall.operation : TraceCall → List Byte
  | .openFile .. => ascii "OPEN"
  | .read .. => ascii "READ"
  | .close .. => ascii "CLOSE"
  | .write .. => ascii "WRITE"
  | .rmdir .. => ascii "RMDIR"
  | .link .. => ascii "LINK"
  | .symlink .. => ascii "SYMLINK"
  | .unlink .. => ascii "UNLINK"
  | .rename .. => ascii "RENAME"
  | .mkdir .. => ascii "MKDIR"

def TraceCall.fields : TraceCall → List (List Byte × List Byte)
  | .openFile path _ _ => [(fileDir, path)]
  | .read _ pathName _ => [(fileDir, pathName)]
  | .close _ => []
  | .write _ pathName _ => [(fileDir, pathName)]
  | .rmdir filename => [(fileDir, filename)]
  | .link oldname newname => [(oldFileDir, oldname), (newFileDir, newname)]
  | .symlink old new => [(oldFileDir, old), (newFileDir, new)]
  | .unlink pathname => [(fileDir, pathname)]
  | .rename oldname newname => [(oldFileDir, oldname), (newFileDir, newname)]
  | .mkdir pathname _ => [(oldFileDir, pathname)]

def TraceCall.record (pid : BitVec 32) (c : TraceCall) : List Byte :=
  formatRecord c.operation pid c.fields

section functions
variable (kmallocOk : Bool) (pid : BitVec 32)

def traceOpen (path : List Byte) (flags : BitVec 32) (mode : BitVec 16) :
    TraceState → Option TraceState :=
  addRecord kmallocOk ((TraceCall.openFile path flags mode).record pid)

def traceRead (fd : BitVec 32) (pathName : List Byte) (size : BitVec 64) :
    TraceState → Option TraceState :=
  addRecord kmallocOk ((TraceCall.read fd pathName size).record pid)

def traceClose (fd : BitVec 32) : TraceState → Option TraceState :=
  addRecord kmallocOk ((TraceCall.close fd).record pid)

def traceWrite (fd : BitVec 32) (pathName : List Byte) (size : BitVec 64) :
    TraceState → Option TraceState :=
  addRecord kmallocOk ((TraceCall.write fd pathName size).record pid)

def traceRmdir (filename : List Byte) : TraceState → Option TraceState :=
  addRecord kmallocOk ((TraceCall.rmdir filename).record pid)

def traceLink (oldname newname : List Byte) : TraceState → Option TraceState :=
  addRecord kmallocOk ((TraceCall.link oldname newname).record pid)

def traceSymlink (old new : List Byte) : TraceState → Option TraceState :=
  addRecord kmallocOk ((TraceCall.symlink old new).record pid)

def traceUnlink (pathname : List Byte) : TraceState → Option TraceState :=
  addRecord kmallocOk ((TraceCall.unlink pathname).record pid)

def traceRename (oldname newname : List Byte) : TraceState → Option TraceState :=
  addRecord kmallocOk ((TraceCall.rename oldname newname).record pid)

def traceMkdir (pathname : List Byte) (mode : BitVec 16) : TraceState → Option TraceState :=
  addRecord kmallocOk ((TraceCall.mkdir pathname mode).record pid)

end functions

/-- One call by the task numbered `pid`, its allocation succeeding. -/
def perform (s : TraceState) : BitVec 32 × TraceCall → Option TraceState
  | (pid, .openFile path flags mode) => traceOpen true pid path flags mode s
  | (pid, .read fd pathName size) => traceRead true pid fd pathName size s
  | (pid, .close fd) => traceClose true pid fd s
  | (pid, .write fd pathName size) => traceWrite true pid fd pathName size s
  | (pid, .rmdir filename) => traceRmdir true pid filename s
  | (pid, .link oldname newname) => traceLink true pid oldname newname s
  | (pid, .symlink old new) => traceSymlink true pid old new s
  | (pid, .unlink pathname) => traceUnlink true pid pathname s
  | (pid, .rename oldname newname) => traceRename true pid oldname newname s
  | (pid, .mkdir pathname mode) => traceMkdir true pid pathname mode s

def logged (page : List Byte) (cs : List (BitVec 32 × TraceCall)) : Option (List Byte) :=
  ((replay perform (traceInit page) cs).bind traceExit).map fun s => s.written.flatten

def records (cs : List (BitVec 32 × TraceCall)) : List (List Byte) :=
  cs.map fun c => c.2.record c.1

/-- The sizes of the batches the flushes make of records of these lengths, when `used` bytes
are in the page already. -/
def batches (used : ℕ) : List ℕ → List ℕ
  | [] => if used = 0 then [] else [used]
  | n :: ns =>
    if pageSize ≤ used + n then used :: batches n ns else batches (used + n) ns

/-- Each batch ends where `zero` holds; behind a batch only later positions stay so. -/
def Clean (zero : ℕ → Prop) : List ℕ → Prop
  | [] => True
  | u :: us => zero u ∧ Clean (fun i => zero i ∧ u ≤ i) us

theorem clean_iff {zero : ℕ → Prop} {us : List ℕ} :
    Clean zero us ↔ (∀ u ∈ us, zero u) ∧ us.Pairwise (· ≤ ·) := by
  induction us generalizing zero with
  | nil => simp [Clean]
  | cons u us ih =>
    rw [Clean, ih, List.pairwise_cons]
    constructor
    · rintro ⟨hu, hall, hp⟩
      refine ⟨?_, fun x hx => (hall x hx).2, hp⟩
      intro x hx
      rcases List.mem_cons.mp hx with rfl | hx
      · exact hu
      · exact (hall x hx).1
    · rintro ⟨hall, hle, hp⟩
      exact ⟨hall u List.mem_cons_self,
        fun x hx => ⟨hall x (List.mem_cons_of_mem u hx), hle x hx⟩, hp⟩

theorem clean_congr {zero zero' : ℕ → Prop} {used : ℕ} {ns : List ℕ}
    (hns : ∀ n ∈ ns, n < pageSize) (h : ∀ i, used ≤ i → 0 < i → (zero i ↔ zero' i)) :
    Clean zero (batches used ns) ↔ Clean zero' (batches used ns) := by
  induction ns generalizing used with
  | nil =>
    rw [batches]
    split
    · exact Iff.rfl
    · next hne => simpa [Clean] using h used le_rfl (by omega)
  | cons n ns ih =>
    have hn := hns n List.mem_cons_self
    have hns' : ∀ x ∈ ns, x < pageSize := fun x hx => hns x (List.mem_cons_of_mem n hx)
    rw [batches]
    split
    · next hflush =>
      have hpos : 0 < used := by omega
      have heq : (fun i => zero i ∧ used ≤ i) = fun i => zero' i ∧ used ≤ i := by
        funext i
        apply propext
        apply and_congr_left
        intro hi
        exact h i hi (by omega)
      rw [Clean, Clean, heq, h used le_rfl hpos]
    · exact ih hns' fun i hi hpos => h i (by omega) hpos

/-- The page starts with the batch `chunk`, and the cursor is behind it. -/
structure Holds (chunk : List Byte) (s : TraceState) : Prop where
  vacant : s.vacant + chunk.length = pageSize
  fits : chunk.length < pageSize
  size : s.writeFileBuff.length = pageSize
  nulFree : NulFree chunk
  front : ∃ rest, s.writeFileBuff = chunk ++ rest

def zeroAt (b : List Byte) (i : ℕ) : Prop := b[i]? = some 0

structure Loggable (r : List Byte) : Prop where
  nulFree : NulFree r
  nonempty : r ≠ []
  fits : r.length < pageSize

theorem holds_init {page : List Byte} (h : page.length = pageSize) : Holds [] (traceInit page) :=
  ⟨rfl, by simp [pageSize], h, by simp [NulFree], page, rfl⟩

/-- A write by strlen emits the batch and whatever follows it up to a terminator. -/
theorem writeToFile_emits {chunk : List Byte} {s t : TraceState} (h : Holds chunk s)
    (hw : writeToFile s = some t) :
    ∃ stray, t = { s with written := s.written ++ [chunk ++ stray] } ∧
      (stray = [] ↔ zeroAt s.writeFileBuff chunk.length) := by
  rcases h.front with ⟨rest, hrest⟩
  rcases Option.map_eq_some_iff.mp hw with ⟨n, hn, rfl⟩
  rcases strlen_eq_text hn with ⟨htake, -⟩
  rw [hrest, text_append h.nulFree] at htake
  refine ⟨text rest, by rw [hrest, htake], ?_⟩
  rw [hrest, zeroAt, List.getElem?_append_right le_rfl, Nat.sub_self]
  rw [hrest, strlen_append h.nulFree] at hn
  cases rest with
  | nil => cases hn
  | cons x rest =>
    by_cases hx : x = 0
    · subst hx
      simp
    · simpa [text_cons hx] using hx

theorem writeToFile_of_zeroAt {chunk : List Byte} {s : TraceState} (h : Holds chunk s)
    (hz : zeroAt s.writeFileBuff chunk.length) :
    writeToFile s = some { s with written := s.written ++ [chunk] } := by
  rcases h.front with ⟨rest, hrest⟩
  rw [hrest, zeroAt, List.getElem?_append_right le_rfl, Nat.sub_self] at hz
  cases rest with
  | nil => cases hz
  | cons x rest =>
    obtain rfl : x = 0 := by simpa using hz
    rw [writeToFile, hrest, strlen_append h.nulFree, strlen_zero]
    simp

theorem append_record {chunk r : List Byte} {s : TraceState} (h : Holds chunk s)
    (hr : NulFree r) (hfit : chunk.length + r.length < pageSize) :
    ∃ buff, blit s.writeFileBuff (pageSize - s.vacant) r = some buff ∧
      Holds (chunk ++ r) { s with writeFileBuff := buff, vacant := s.vacant - r.length } ∧
      ∀ i, (chunk ++ r).length ≤ i → (zeroAt buff i ↔ zeroAt s.writeFileBuff i) := by
  rcases h.front with ⟨rest, hrest⟩
  have hvacant := h.vacant
  have hsize := h.size
  have hat : pageSize - s.vacant = chunk.length := by omega
  have hle : chunk.length + r.length ≤ s.writeFileBuff.length := by omega
  have hbuff : blit s.writeFileBuff (pageSize - s.vacant) r =
      some (chunk ++ r ++ s.writeFileBuff.drop (chunk.length + r.length)) := by
    rw [hat, blit, if_pos hle, hrest, List.take_left]
  refine ⟨_, hbuff, ⟨?_, ?_, ?_, h.nulFree.append hr, _, rfl⟩, ?_⟩
  · simp only [List.length_append]
    omega
  · simpa using hfit
  · rw [blit_length hbuff, hsize]
  · intro i hi
    have hlen : (chunk ++ r).length = chunk.length + r.length := List.length_append
    rw [zeroAt, zeroAt, List.getElem?_append_right hi, List.getElem?_drop, hlen]
    congr! 2
    omega

theorem holds_emptied {chunk : List Byte} {s : TraceState} (h : Holds chunk s) :
    Holds [] { s with vacant := pageSize, writeFileBuff := s.writeFileBuff.set 0 0 } :=
  ⟨rfl, by simp [pageSize], by simpa using h.size, by simp [NulFree], _, rfl⟩

theorem zeroAt_emptied (b : List Byte) {i : ℕ} (hi : 0 < i) :
    zeroAt (b.set 0 0) i ↔ zeroAt b i := by
  rw [zeroAt, zeroAt, List.getElem?_set_ne (by omega)]

/-- A record either joins the batch or starts the next one, after a write by strlen. -/
theorem addRecord_effect {chunk r : List Byte} {s : TraceState} (h : Holds chunk s)
    (hr : Loggable r) :
    (chunk.length + r.length < pageSize ∧ ∃ t, addRecord true r s = some t ∧
      Holds (chunk ++ r) t ∧ t.written = s.written ∧
      ∀ i, (chunk ++ r).length ≤ i → (zeroAt t.writeFileBuff i ↔ zeroAt s.writeFileBuff i)) ∨
    pageSize ≤ chunk.length + r.length ∧ (addRecord true r s = none ∧ writeToFile s = none ∨
      ∃ t u, writeToFile s = some u ∧ addRecord true r s = some t ∧ Holds r t ∧
        t.written = u.written ∧ ∀ i, r.length ≤ i → 0 < i →
          (zeroAt t.writeFileBuff i ↔ zeroAt s.writeFileBuff i)) := by
  have hvacant := h.vacant
  have hfits := hr.fits
  by_cases hfit : chunk.length + r.length < pageSize
  · have hno : ¬ s.vacant ≤ r.length := by omega
    rcases append_record h hr.nulFree hfit with ⟨buff, hbuff, hholds, hzero⟩
    refine Or.inl ⟨hfit, { s with writeFileBuff := buff, vacant := s.vacant - r.length }, ?_,
      hholds, rfl, hzero⟩
    rw [addRecord, if_pos rfl, if_pos hfits, if_neg hno, Option.bind_some, hbuff]
    rfl
  · have hyes : s.vacant ≤ r.length := by omega
    refine Or.inr ⟨by omega, ?_⟩
    rw [addRecord, if_pos rfl, if_pos hfits, if_pos hyes, flush]
    cases hw : writeToFile s with
    | none => exact Or.inl ⟨rfl, rfl⟩
    | some u =>
      rcases writeToFile_emits h hw with ⟨stray, rfl, -⟩
      have hu : Holds chunk { s with written := s.written ++ [chunk ++ stray] } :=
        ⟨h.vacant, h.fits, h.size, h.nulFree, h.front⟩
      have hempty := holds_emptied hu
      rcases append_record hempty hr.nulFree (by simpa using hfits) with
        ⟨buff, hbuff, hholds, hzero⟩
      refine Or.inr ⟨_, _, rfl, ?_, hholds, rfl, ?_⟩
      · rw [Option.map_some, Option.bind_some]
        change (blit (s.writeFileBuff.set 0 0) (pageSize - pageSize) r).map _ = _
        rw [hbuff]
        rfl
      · intro i hi hpos
        exact (hzero i hi).trans (zeroAt_emptied _ hpos)

/-- The bytes handed over in all, from a state with a log behind it. -/
def finish (s : TraceState) (rs : List (List Byte)) : Option (List Byte) :=
  ((replay (fun s r => addRecord true r s) s rs).bind traceExit).map fun s => s.written.flatten

theorem finish_nil (s : TraceState) :
    finish s [] = (traceExit s).map fun s => s.written.flatten := rfl

theorem finish_cons (s : TraceState) (r : List Byte) (rs : List (List Byte)) :
    finish s (r :: rs) = (addRecord true r s).bind fun t => finish t rs := by
  rw [finish, replay]
  cases addRecord true r s <;> rfl

theorem traceExit_emits {chunk : List Byte} {s t : TraceState} (h : Holds chunk s)
    (ht : traceExit s = some t) :
    ∃ stray, t.written.flatten = s.written.flatten ++ chunk ++ stray ∧
      (stray = [] ↔ Clean (zeroAt s.writeFileBuff) (batches chunk.length [])) := by
  have hvacant := h.vacant
  rw [traceExit] at ht
  split at ht
  · next hlt =>
    rcases writeToFile_emits h ht with ⟨stray, rfl, hzero⟩
    have hne : chunk.length ≠ 0 := by omega
    refine ⟨stray, by simp, ?_⟩
    rw [hzero, batches, if_neg hne]
    simp [Clean]
  · next hge =>
    obtain rfl := Option.some.inj ht
    have hz : chunk.length = 0 := by omega
    obtain rfl := List.length_eq_zero_iff.mp hz
    exact ⟨[], by simp, by simp [batches, Clean]⟩

theorem finish_length {chunk : List Byte} {s : TraceState} {rs : List (List Byte)}
    {out : List Byte} (h : Holds chunk s) (hrs : ∀ r ∈ rs, Loggable r)
    (hout : finish s rs = some out) :
    s.written.flatten.length + chunk.length + rs.flatten.length ≤ out.length := by
  induction rs generalizing s chunk with
  | nil =>
    rw [finish_nil] at hout
    rcases Option.map_eq_some_iff.mp hout with ⟨t, ht, rfl⟩
    rcases traceExit_emits h ht with ⟨stray, hflat, -⟩
    rw [hflat]
    simp only [List.length_append, List.flatten_nil, List.length_nil]
    omega
  | cons r rs ih =>
    have hr := hrs r List.mem_cons_self
    have hrs' : ∀ x ∈ rs, Loggable x := fun x hx => hrs x (List.mem_cons_of_mem r hx)
    rw [finish_cons] at hout
    rcases Option.bind_eq_some_iff.mp hout with ⟨t, ht, hrest⟩
    rcases addRecord_effect h hr with ⟨-, t', ht', hholds, hw, -⟩ |
      ⟨-, ⟨hnone, -⟩ | ⟨t', u, hu, ht', hholds, hw, -⟩⟩
    · obtain rfl := Option.some.inj (ht'.symm.trans ht)
      have hle := ih hholds hrs' hrest
      rw [hw] at hle
      simp only [List.length_append, List.flatten_cons] at hle ⊢
      omega
    · rw [hnone] at ht
      cases ht
    · obtain rfl := Option.some.inj (ht'.symm.trans ht)
      have hle := ih hholds hrs' hrest
      rcases writeToFile_emits h hu with ⟨stray, rfl, -⟩
      rw [hw] at hle
      simp only [List.length_append, List.flatten_cons, List.flatten_append, List.flatten_nil,
        List.length_nil] at hle ⊢
      omega

theorem zeroAt_behind {chunk : List Byte} {s : TraceState} (h : Holds chunk s) {i : ℕ}
    (hz : zeroAt s.writeFileBuff i) : chunk.length ≤ i := by
  rcases h.front with ⟨rest, hrest⟩
  by_contra hlt
  rw [zeroAt, hrest, List.getElem?_append_left (by omega)] at hz
  exact h.nulFree (List.mem_of_getElem? hz)

theorem finish_nil_iff {chunk : List Byte} {s : TraceState} (h : Holds chunk s) :
    finish s [] = some (s.written.flatten ++ chunk) ↔
      Clean (zeroAt s.writeFileBuff) (batches chunk.length []) := by
  rw [finish_nil]
  constructor
  · intro hout
    rcases Option.map_eq_some_iff.mp hout with ⟨t, ht, hflat⟩
    rcases traceExit_emits h ht with ⟨stray, hstray, hclean⟩
    rw [hstray] at hflat
    exact hclean.mp (by simpa using hflat)
  · intro hclean
    obtain ⟨t, ht⟩ : ∃ t, traceExit s = some t := by
      rw [traceExit]
      split
      · next hlt =>
        have hvacant := h.vacant
        have hne : chunk.length ≠ 0 := by omega
        rw [batches, if_neg hne] at hclean
        exact ⟨_, writeToFile_of_zeroAt h hclean.1⟩
      · exact ⟨s, rfl⟩
    rcases traceExit_emits h ht with ⟨stray, hstray, hiff⟩
    rw [hiff.mpr hclean, List.append_nil] at hstray
    rw [ht, Option.map_some, hstray]

theorem finish_exact_iff {chunk : List Byte} {s : TraceState} {rs : List (List Byte)}
    (h : Holds chunk s) (hrs : ∀ r ∈ rs, Loggable r) :
    finish s rs = some (s.written.flatten ++ chunk ++ rs.flatten) ↔
      Clean (zeroAt s.writeFileBuff) (batches chunk.length (rs.map List.length)) := by
  induction rs generalizing s chunk with
  | nil => simpa using finish_nil_iff h
  | cons r rs ih =>
    have hr := hrs r List.mem_cons_self
    have hrs' : ∀ x ∈ rs, Loggable x := fun x hx => hrs x (List.mem_cons_of_mem r hx)
    have hns : ∀ n ∈ rs.map List.length, n < pageSize := by
      intro n hn
      rcases List.mem_map.mp hn with ⟨x, hx, rfl⟩
      exact (hrs' x hx).fits
    rw [finish_cons, List.map_cons, batches]
    rcases addRecord_effect h hr with ⟨hfit, t, ht, hholds, hw, hzero⟩ | ⟨hflush, hstep⟩
    · rw [ht, Option.bind_some, if_neg (by omega), ← List.length_append, List.flatten_cons]
      have hih := ih hholds hrs'
      rw [hw] at hih
      rw [← List.append_assoc, List.append_assoc _ chunk r, hih]
      exact clean_congr hns fun i hi _ => hzero i hi
    · rw [if_pos hflush, Clean]
      by_cases hz : zeroAt s.writeFileBuff chunk.length
      · have hexact := writeToFile_of_zeroAt h hz
        rcases hstep with ⟨-, hnone⟩ | ⟨t, u, hu, ht, hholds, hw, hzero⟩
        · rw [hexact] at hnone
          cases hnone
        · obtain rfl := Option.some.inj (hexact.symm.trans hu)
          have hih := ih hholds hrs'
          have hflat : t.written.flatten = s.written.flatten ++ chunk := by
            rw [hw]
            simp
          rw [hflat] at hih
          rw [ht, Option.bind_some, List.flatten_cons, ← List.append_assoc, hih,
            and_iff_right hz]
          refine clean_congr hns fun i hi hpos => (hzero i hi hpos).trans ?_
          exact ⟨fun hi => ⟨hi, zeroAt_behind h hi⟩, And.left⟩
      · refine ⟨fun hout => ?_, fun hclean => absurd hclean.1 hz⟩
        exfalso
        rcases hstep with ⟨hnone, -⟩ | ⟨t, u, hu, ht, hholds, hw, -⟩
        · rw [hnone] at hout
          cases hout
        · rcases writeToFile_emits h hu with ⟨stray, rfl, hstray⟩
          rw [ht, Option.bind_some] at hout
          have hle := finish_length hholds hrs' hout
          have hpos := List.length_pos_iff.mpr fun he => hz (hstray.mp he)
          rw [hw] at hle
          simp only [List.length_append, List.flatten_cons, List.flatten_append,
            List.flatten_nil, List.length_nil] at hle
          omega

theorem digits_range {n : ℕ} {c : Byte} (h : c ∈ digits n) : 48 ≤ c.toNat ∧ c.toNat ≤ 57 := by
  unfold digits at h
  split at h
  · obtain rfl := List.mem_singleton.mp h
    decide
  · obtain ⟨d, hd, rfl⟩ := List.mem_map.mp h
    have hlt : d < 10 := Nat.digits_lt_base (by omega) (List.mem_reverse.mp hd)
    simp only [BitVec.toNat_ofNat]
    omega

theorem decimal_range {x : BitVec 32} {c : Byte} (h : c ∈ decimal x) :
    c = 45 ∨ 48 ≤ c.toNat ∧ c.toNat ≤ 57 := by
  unfold decimal at h
  split at h
  · rcases List.mem_cons.mp h with hminus | h
    · exact Or.inl hminus
    · exact Or.inr (digits_range h)
  · exact Or.inr (digits_range h)

theorem notMem_decimal {c : Byte} (hsign : c ≠ 45) (hlow : c.toNat < 48) (x : BitVec 32) :
    c ∉ decimal x := by
  intro hmem
  rcases decimal_range hmem with hminus | ⟨hdigit, -⟩
  · exact hsign hminus
  · exact absurd hdigit (Nat.not_le.mpr hlow)

theorem decimal_nulFree (x : BitVec 32) : NulFree (decimal x) :=
  notMem_decimal (by decide) (by decide) x

theorem ofDigits_digits (n : ℕ) :
    Nat.ofDigits 10 ((digits n).reverse.map fun c => c.toNat - 48) = n := by
  unfold digits
  split
  · next hz => simp [hz]
  · have hdigit : ∀ d ∈ Nat.digits 10 n,
        ((fun c : Byte => c.toNat - 48) ∘ fun d => BitVec.ofNat 8 (48 + d)) d = d := by
      intro d hd
      have hlt : d < 10 := Nat.digits_lt_base (by omega) hd
      simp only [Function.comp_apply, BitVec.toNat_ofNat]
      omega
    rw [← List.map_reverse, List.reverse_reverse, List.map_map, List.map_congr_left hdigit,
      List.map_id', Nat.ofDigits_digits]

theorem digits_injective : Function.Injective digits := by
  intro m n h
  have hback := ofDigits_digits m
  rw [h, ofDigits_digits n] at hback
  exact hback.symm

theorem minus_notMem_digits (n : ℕ) : 45 ∉ digits n := by
  intro hmem
  exact absurd (digits_range hmem).1 (by decide)

theorem decimal_injective : Function.Injective decimal := by
  intro x y h
  apply BitVec.eq_of_toInt_eq
  unfold decimal at h
  split at h
  · split at h
    · have hdigits := digits_injective (List.cons.inj h).2
      omega
    · exact absurd (h ▸ List.mem_cons_self) (minus_notMem_digits y.toInt.natAbs)
  · split at h
    · exact absurd (h ▸ List.mem_cons_self) (minus_notMem_digits x.toInt.natAbs)
    · have hdigits := digits_injective h
      omega

theorem decimal_length (x : BitVec 32) : (decimal x).length ≤ 11 := by
  have hlow := x.le_toInt
  have hhigh := x.toInt_lt
  have hdigits : (digits x.toInt.natAbs).length ≤ 10 := by
    unfold digits
    split
    · decide
    · rw [List.length_map, List.length_reverse, Nat.digits_length_le_iff (by omega)]
      omega
  unfold decimal
  split
  · rw [List.length_cons]
    omega
  · omega

theorem formatRecord_nulFree {operation : List Byte} {pid : BitVec 32}
    {fields : List (List Byte × List Byte)} (ho : NulFree operation)
    (hf : ∀ f ∈ fields, NulFree f.1) : NulFree (formatRecord operation pid fields) := by
  have hfields : NulFree (fields.flatMap fun f => ascii ", " ++ f.1 ++ ascii ": " ++ text f.2) := by
    intro hmem
    rcases List.mem_flatMap.mp hmem with ⟨f, hf', hmem⟩
    exact NulFree.append (.append (.append (by decide) (hf f hf')) (by decide))
      (text_nulFree f.2) hmem
  exact .append (.append (.append (.append (.append (by decide) (decimal_nulFree pid))
    (by decide)) ho) hfields) (by decide)

theorem operation_nulFree (c : TraceCall) : NulFree c.operation := by
  cases c <;> (simp only [TraceCall.operation]; decide)

theorem labels_nulFree (c : TraceCall) : ∀ f ∈ c.fields, NulFree f.1 := by
  have hlabels : NulFree fileDir ∧ NulFree oldFileDir ∧ NulFree newFileDir := by decide
  rcases hlabels with ⟨hfile, hold, hnew⟩
  cases c <;> simp [TraceCall.fields, hfile, hold, hnew]

theorem record_loggable {pid : BitVec 32} {c : TraceCall}
    (h : (c.record pid).length < pageSize) : Loggable (c.record pid) := by
  refine ⟨formatRecord_nulFree (operation_nulFree c) (labels_nulFree c), ?_, h⟩
  intro he
  have hlen := congrArg List.length he
  simp [TraceCall.record, formatRecord, ascii] at hlen

theorem perform_eq (s : TraceState) (c : BitVec 32 × TraceCall) :
    perform s c = addRecord true (c.2.record c.1) s := by
  rcases c with ⟨pid, c⟩
  cases c <;> rfl

theorem logged_eq_finish (page : List Byte) (cs : List (BitVec 32 × TraceCall)) :
    logged page cs = finish (traceInit page) (records cs) := by
  have hreplay : ∀ s, replay perform s cs =
      replay (fun s r => addRecord true r s) s (records cs) := by
    induction cs with
    | nil => exact fun s => rfl
    | cons c cs ih =>
      intro s
      rw [records, List.map_cons, replay, replay, perform_eq]
      congr 1
      funext t
      exact ih t
  rw [logged, finish, hreplay]

theorem records_loggable {cs : List (BitVec 32 × TraceCall)}
    (hcs : ∀ c ∈ cs, (c.2.record c.1).length < pageSize) : ∀ r ∈ records cs, Loggable r := by
  intro r hr
  rcases List.mem_map.mp hr with ⟨c, hc, rfl⟩
  exact record_loggable (hcs c hc)

theorem batches_single {n : ℕ} (hpos : 0 < n) (hn : n < pageSize) : batches 0 [n] = [n] := by
  rw [batches, if_neg (by omega), batches, if_neg (by omega), Nat.zero_add]

/-- The bytes written are the records if and only if the batches never get shorter and the
page was zero at each batch's size from the start. -/
theorem log_exact_iff {page : List Byte} (hpage : page.length = pageSize)
    {cs : List (BitVec 32 × TraceCall)} (hcs : ∀ c ∈ cs, (c.2.record c.1).length < pageSize) :
    logged page cs = some (records cs).flatten ↔
      (∀ n ∈ batches 0 ((records cs).map List.length), page[n]? = some 0) ∧
      (batches 0 ((records cs).map List.length)).Pairwise (· ≤ ·) := by
  have hiff := finish_exact_iff (holds_init hpage) (records_loggable hcs)
  rw [clean_iff] at hiff
  rw [logged_eq_finish]
  exact hiff

def oneClose : List (BitVec 32 × TraceCall) := [(1, .close 3)]

theorem oneClose_fits : ∀ c ∈ oneClose, (c.2.record c.1).length < pageSize := by
  intro c hc
  obtain rfl := List.mem_singleton.mp hc
  simp [TraceCall.record, formatRecord, TraceCall.operation, TraceCall.fields, decimal, digits,
    ascii, pageSize]

theorem oneClose_batches : ∃ n, n < pageSize ∧
    batches 0 ((records oneClose).map List.length) = [n] := by
  have hfit := oneClose_fits (1, .close 3) (List.mem_singleton_self _)
  have hpos := List.length_pos_iff.mpr (record_loggable hfit).nonempty
  exact ⟨_, hfit, batches_single hpos hfit⟩

theorem log_exact_iff_oneClose :
    logged (List.replicate pageSize 0) oneClose = some (records oneClose).flatten := by
  apply (log_exact_iff (List.length_replicate ..) oneClose_fits).mpr
  rcases oneClose_batches with ⟨n, hn, hb⟩
  rw [hb]
  simpa [List.getElem?_replicate] using hn

/-- On a page without a zero byte the write of the same record runs off the page. -/
theorem stale_bytes_logged :
    logged (List.replicate pageSize 65) oneClose ≠ some (records oneClose).flatten := by
  intro hlog
  rcases oneClose_batches with ⟨n, hn, hb⟩
  rw [logged_eq_finish] at hlog
  have hclean := (finish_exact_iff (holds_init (List.length_replicate ..))
    (records_loggable oneClose_fits)).mp hlog
  rw [List.length_nil, hb] at hclean
  have hzero := hclean.1
  simp [zeroAt, traceInit, hn] at hzero

end TraceLog
