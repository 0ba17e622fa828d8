import Mathlib.Algebra.Order.BigOperators.Group.Finset
import LoadableSystemCalls.ProofOutlines
import LoadableSystemCalls.TraceLog

/-! # Trace functions running at once (trace_module.c)

The page and its cursor are globals that every traced call changes, and no lock is around
the trace functions. -/
namespace RacedTraces

open CStrings KernelTypes TraceLog StatementBodies ProofOutlines TransitionRuns

/-- What the trace functions share. `vacant` is an int that they may bring below 0. -/
@[ext] structure SharedPage where
  writeFileBuff : List Byte
  vacant : ℤ
  written : List (List Byte)
  deriving DecidableEq, Repr

/-- `vacant` as `vacant <= strlen(record)` has it: converted to size_t. -/
def asSize (vacant : ℤ) : ℕ := (BitVec.ofInt 64 vacant).toNat

def storeByte (dst : ℤ) (b : Byte) (s : SharedPage) : Option SharedPage :=
  if 0 ≤ dst ∧ dst < s.writeFileBuff.length then
    some { s with writeFileBuff := s.writeFileBuff.set dst.toNat b }
  else none

def copyBody (dst : ℤ) : List Byte → Body SharedPage Unit
  | [] => pure ()
  | b :: bs => do
    Body.write (storeByte dst b)
    copyBody (dst + 1) bs

def sprintfBody (record : List Byte) : Body SharedPage Unit :=
  Body.read fun _ => if record.length < pageSize then some () else none

def flushBody : Body SharedPage Unit := do
  let size ← Body.read fun s => strlen s.writeFileBuff
  Body.write fun s => some { s with written := s.written ++ [s.writeFileBuff.take size] }
  Body.write fun s => some { s with vacant := pageSize }
  Body.write fun s => some { s with writeFileBuff := s.writeFileBuff.set 0 0 }

def makeRoomBody (record : List Byte) : Body SharedPage Unit := do
  let vacant ← Body.read fun s => some s.vacant
  if asSize vacant ≤ record.length then flushBody else pure ()

def copyRecordBody (record : List Byte) : Body SharedPage Unit := do
  let vacant ← Body.read fun s => some s.vacant
  copyBody (pageSize - vacant) record

def advanceBody (record : List Byte) : Body SharedPage Unit := do
  let vacant ← Body.read fun s => some s.vacant
  Body.write fun s => some { s with vacant := vacant - record.length }

def placeBody (record : List Byte) : Body SharedPage Unit := do
  copyRecordBody record
  advanceBody record

/-- The body the trace functions share, its allocation succeeding. -/
def addRecordBody (record : List Byte) : Body SharedPage Unit := do
  sprintfBody record
  makeRoomBody record
  placeBody record

def sharedOf (s : TraceState) : SharedPage := ⟨s.writeFileBuff, s.vacant, s.written⟩

theorem asSize_of_nonneg {v : ℤ} (h : 0 ≤ v) (hpage : v ≤ pageSize) : (asSize v : ℤ) = v := by
  rw [asSize, BitVec.toNat_ofInt]
  simp only [pageSize] at hpage
  omega

theorem storeByte_inside {s : SharedPage} {i : ℕ} (hi : i < s.writeFileBuff.length) (b : Byte) :
    storeByte i b s = some { s with writeFileBuff := s.writeFileBuff.set i b } := by
  rw [storeByte, if_pos ⟨by omega, by omega⟩, Int.toNat_natCast]

theorem storeByte_outside {s : SharedPage} {i : ℤ} (h : s.writeFileBuff.length ≤ i) (b : Byte) :
    storeByte i b s = none := by
  rw [storeByte, if_neg (by omega)]

theorem blit_cons (buff : List Byte) (i : ℕ) (b : Byte) (bs : List Byte) :
    blit buff i (b :: bs) = if i < buff.length then blit (buff.set i b) (i + 1) bs else none := by
  have hlen : i + 1 + bs.length = i + (b :: bs).length := by
    rw [List.length_cons]
    omega
  rw [blit, blit, List.length_set, hlen]
  split
  · next hfit =>
    rw [List.length_cons] at hfit
    have htake : (buff.set i b).take (i + 1) = buff.take i ++ [b] := by
      rw [List.set_eq_take_append_cons_drop, if_pos (by omega)]
      simp [List.take_append, List.length_take, Nat.min_eq_left (by omega : i ≤ buff.length)]
    have hdrop : (buff.set i b).drop (i + (b :: bs).length) = buff.drop (i + (b :: bs).length) := by
      rw [List.drop_set_of_lt (by rw [List.length_cons]; omega)]
    rw [if_pos (by omega), htake, hdrop]
    simp
  · next hfit =>
    split <;> rfl

theorem run_copyBody {s : SharedPage} {i : ℕ} (hi : i ≤ s.writeFileBuff.length) (bs : List Byte) :
    (copyBody i bs).run s =
      (blit s.writeFileBuff i bs).map fun buff => ({ s with writeFileBuff := buff }, ()) := by
  induction bs generalizing s i with
  | nil =>
    simp [copyBody, blit, hi]
  | cons b bs ih =>
    rw [copyBody, Body.run_bind, Body.run_write, blit_cons]
    by_cases hin : i < s.writeFileBuff.length
    · have hnext : i + 1 ≤ (s.writeFileBuff.set i b).length := by
        rw [List.length_set]
        exact hin
      have hgo := ih (s := { s with writeFileBuff := s.writeFileBuff.set i b }) hnext
      rw [storeByte_inside hin, if_pos hin]
      exact hgo
    · rw [storeByte_outside (by omega), if_neg hin]
      rfl

theorem run_flushBody (s : TraceState) :
    flushBody.run (sharedOf s) = (flush s).map fun s => (sharedOf s, ()) := by
  simp only [flushBody, Body.run_bind, Body.run_read, Body.run_write, sharedOf, flush, writeToFile]
  cases strlen s.writeFileBuff <;> rfl

theorem run_makeRoomBody {s : TraceState} (hv : s.vacant ≤ pageSize) (record : List Byte) :
    (makeRoomBody record).run (sharedOf s) =
      (if s.vacant ≤ record.length then flush s else some s).map fun s => (sharedOf s, ()) := by
  have hsize : asSize (sharedOf s).vacant = s.vacant := by
    have hcast := asSize_of_nonneg (v := s.vacant) (by omega) (by omega)
    exact_mod_cast hcast
  rw [makeRoomBody, Body.run_bind, Body.run_read, Option.map_some, Option.bind_some, hsize]
  split
  · exact run_flushBody s
  · rfl

theorem run_copyRecordBody {s : SharedPage} {v : ℕ} (hs : s.vacant = v) (hv : v ≤ pageSize)
    (hsize : s.writeFileBuff.length = pageSize) (record : List Byte) :
    (copyRecordBody record).run s = (blit s.writeFileBuff (pageSize - v) record).map fun buff =>
      ({ s with writeFileBuff := buff }, ()) := by
  have hdst : (pageSize : ℤ) - s.vacant = ((pageSize - v : ℕ) : ℤ) := by omega
  rw [copyRecordBody, Body.run_bind, Body.run_read, Option.map_some, Option.bind_some, hdst]
  exact run_copyBody (s := s) (by omega) record

@[simp] theorem run_advanceBody (s : SharedPage) (record : List Byte) :
    (advanceBody record).run s = some ({ s with vacant := s.vacant - record.length }, ()) := by
  simp [advanceBody]

/-- A call that no other one interrupts is the call of the other models. -/
theorem run_addRecordBody {s : TraceState} (hv : s.vacant ≤ pageSize)
    (hsize : s.writeFileBuff.length = pageSize) (record : List Byte) :
    (addRecordBody record).run (sharedOf s) =
      (addRecord true record s).map fun s => (sharedOf s, ()) := by
  have hroom : ∀ t, (if s.vacant ≤ record.length then flush s else some s) = some t →
      record.length < pageSize → record.length < t.vacant ∧ t.vacant ≤ pageSize ∧
        t.writeFileBuff.length = pageSize := by
    intro t ht hfits
    split at ht
    · obtain ⟨u, hu, rfl⟩ := Option.map_eq_some_iff.mp ht
      obtain ⟨n, -, rfl⟩ := Option.map_eq_some_iff.mp hu
      exact ⟨hfits, le_rfl, (List.length_set ..).trans hsize⟩
    · obtain rfl := Option.some.inj ht
      exact ⟨by omega, hv, hsize⟩
  rw [addRecordBody, addRecord, if_pos rfl, Body.run_bind, sprintfBody, Body.run_read]
  split
  · next hfits =>
    rw [Option.map_some, Option.bind_some, Body.run_bind, run_makeRoomBody hv]
    cases hmade : (if s.vacant ≤ record.length then flush s else some s) with
    | none => rfl
    | some t =>
      obtain ⟨hlt, hle, hlen⟩ := hroom t hmade hfits
      rw [Option.map_some, Option.bind_some, Option.bind_some, placeBody, Body.run_bind,
        run_copyRecordBody (s := sharedOf t) rfl hle hlen]
      have hcursor : ((t.vacant - record.length : ℕ) : ℤ) = t.vacant - record.length := by omega
      change ((blit t.writeFileBuff (pageSize - t.vacant) record).map _).bind _ = _
      cases blit t.writeFileBuff (pageSize - t.vacant) record with
      | none => rfl
      | some buff => simp [sharedOf, hcursor]
  · rfl

section turns
variable {T : Type} {record : T → List Byte} {s : SharedPage} {t : T}

def raced (s : SharedPage) (record : T → List Byte) : Threads T SharedPage Unit :=
  ⟨s, fun t => addRecordBody (record t)⟩

def lengths (record : T → List Byte) (us : Finset T) : ℕ := ∑ t ∈ us, (record t).length

structure Page (s : SharedPage) : Prop where
  size : s.writeFileBuff.length = pageSize
  vacant : s.vacant ≤ pageSize

theorem run_checks (hpage : Page s) (hlen : ((record t).length : ℤ) < s.vacant) :
    (sprintfBody (record t) >>= fun _ => makeRoomBody (record t)).run s = some (s, ()) := by
  have hvacant := hpage.vacant
  have hsize := asSize_of_nonneg (v := s.vacant) (by omega) (by omega)
  have hno : ¬ asSize s.vacant ≤ (record t).length := by omega
  rw [Body.run_bind, sprintfBody, Body.run_read, if_pos (by omega), Option.map_some,
    Option.bind_some, makeRoomBody, Body.run_bind, Body.run_read, Option.map_some,
    Option.bind_some, if_neg hno]
  rfl

theorem run_copy_room {r : List Byte} (hpage : Page s) (hlen : (r.length : ℤ) ≤ s.vacant) :
    ∃ s', (copyRecordBody r).run s = some (s', ()) ∧ Page s' ∧ s'.vacant = s.vacant := by
  have hsize := hpage.size
  have hvacant := hpage.vacant
  obtain ⟨n, hn⟩ : ∃ n : ℕ, s.vacant = n := ⟨s.vacant.toNat, by omega⟩
  have hinside : pageSize - n + r.length ≤ s.writeFileBuff.length := by omega
  obtain ⟨buff, hbuff⟩ : ∃ buff, blit s.writeFileBuff (pageSize - n) r = some buff :=
    ⟨_, if_pos hinside⟩
  have hrun := run_copyRecordBody hn (by omega) hsize r
  rw [hbuff] at hrun
  exact ⟨_, hrun, ⟨(blit_length hbuff).trans hsize, hvacant⟩, rfl⟩

theorem run_place {r : List Byte} (hpage : Page s) (hlen : (r.length : ℤ) ≤ s.vacant) :
    ∃ s', (placeBody r).run s = some (s', ()) ∧ Page s' ∧ s'.vacant = s.vacant - r.length := by
  obtain ⟨s', hrun, hpage', hvacant⟩ := run_copy_room hpage hlen
  have hle := hpage'.vacant
  refine ⟨{ s' with vacant := s'.vacant - r.length }, ?_, ⟨hpage'.size, ?_⟩, ?_⟩
  · rw [placeBody, Body.run_bind, hrun, Option.bind_some, run_advanceBody]
  · simp only
    omega
  · rw [hvacant]

theorem lengths_toList (us : Finset T) :
    (us.toList.map fun t => (record t).length).sum = lengths record us :=
  Finset.sum_map_toList us _

variable [DecidableEq T]

theorem lengths_insert (record : T → List Byte) {us : Finset T} (ht : t ∉ us) :
    lengths record (insert t us) = (record t).length + lengths record us :=
  Finset.sum_insert ht

/-- Calls that have found room copy and count their records one after the other. -/
theorem all_placed {c : Threads T SharedPage Unit} (us : Finset T)
    (hbody : ∀ t ∈ us, c.body t = placeBody (record t)) (hpage : Page c.shared)
    (hroom : (lengths record us : ℤ) ≤ c.shared.vacant) :
    ∃ ts c', Run Threads.Step c ts c' ∧ Page c'.shared ∧
      c'.shared.vacant = c.shared.vacant - lengths record us ∧
      (∀ t ∈ us, c'.body t = .done ()) ∧ ∀ t, t ∉ us → c'.body t = c.body t := by
  rw [← lengths_toList] at hroom ⊢
  obtain ⟨ts, c', hr, ⟨hpage', hvacant⟩, hdone, hleft⟩ := runs_in_turn (c := c)
    (b := fun t => placeBody (record t)) (k := fun _ => Body.done)
    (R := fun vs s => Page s ∧
      s.vacant = c.shared.vacant - (vs.map fun t => (record t).length).sum)
    us.nodup_toList
    (fun t ht => (hbody t (Finset.mem_toList.mp ht)).trans (bind_pure _).symm)
    ⟨hpage, by simp⟩
    (by
      rintro vs t s ⟨ws, hws⟩ ⟨hs, hv⟩
      rw [← hws] at hroom
      simp only [List.map_append, List.sum_append, List.map_singleton, List.sum_singleton]
        at hroom ⊢
      obtain ⟨s', hrun, hpage', hv'⟩ := run_place (r := record t) hs (by omega)
      exact ⟨(s', ()), hrun, hpage', by rw [hv', hv]; push_cast; omega⟩)
  refine ⟨ts, c', hr, hpage', hvacant, fun t ht => ?_, fun t ht => ?_⟩
  · obtain ⟨⟨⟩, hd⟩ := hdone t (Finset.mem_toList.mpr ht)
    exact hd
  · exact hleft t fun hmem => ht (Finset.mem_toList.mp hmem)

theorem all_checked [Fintype T] (hpage : Page s) (hlen : ∀ t, ((record t).length : ℤ) < s.vacant) :
    ∃ ts, Run Threads.Step (raced s record) ts ⟨s, fun t => placeBody (record t)⟩ := by
  obtain ⟨ts, ⟨s', body⟩, hr, rfl, hbody, -⟩ := runs_in_turn (c := raced s record)
    (k := fun t _ => placeBody (record t)) (R := fun _ s' => s' = s)
    (Finset.nodup_toList Finset.univ) (fun t _ => (bind_assoc ..).symm) rfl
    (fun _ t s' _ hs' => ⟨(s, ()), by rw [hs']; exact run_checks hpage (hlen t), rfl⟩)
  have hplace : body = fun t => placeBody (record t) := by
    funext t
    obtain ⟨-, ht⟩ := hbody t (Finset.mem_toList.mpr (Finset.mem_univ t))
    exact ht
  rw [hplace] at hr
  exact ⟨ts, hr⟩

end turns

def twoCloses (t : Bool) : List Byte := (TraceCall.close 3).record (if t then 1 else 2)

theorem twoCloses_length (t : Bool) : (twoCloses t).length = 31 := by
  cases t <;>
    simp [twoCloses, TraceCall.record, formatRecord, TraceCall.operation, TraceCall.fields,
      decimal, digits, ascii]

theorem lengths_twoCloses : lengths twoCloses Finset.univ = 62 := by
  simp [lengths, twoCloses_length]

def pageLeaving (vacant : ℤ) : SharedPage := ⟨List.replicate pageSize 0, vacant, []⟩

theorem pageLeaving_page {v : ℤ} (hv : v ≤ pageSize) : Page (pageLeaving v) :=
  ⟨List.length_replicate .., hv⟩

section fit
variable {T : Type} [Fintype T]

/-- How far a call has got: it has read `vacant` last, or it has counted its record. -/
inductive Progress where
  | pending (known : ℤ)
  | counted
  deriving DecidableEq, Repr

/-- Beside the region the records are copied to, the page is as it was; `vacant` counts some
of the calls that have ended, and so does every value of it that a call goes by. -/
structure Tracks (s₀ : SharedPage) (record : T → List Byte) (s : SharedPage)
    (gs : T → Progress) : Prop where
  size : s.writeFileBuff.length = pageSize
  written : s.written = s₀.written
  outside : ∀ i : ℕ, (i : ℤ) < pageSize - s₀.vacant ∨
      pageSize - s₀.vacant + lengths record Finset.univ ≤ i →
    s.writeFileBuff[i]? = s₀.writeFileBuff[i]?
  cursor : ∃ us, (∀ t ∈ us, gs t = .counted) ∧ (∀ t, gs t = .counted → us.Nonempty) ∧
    s.vacant = s₀.vacant - lengths record us
  known : ∀ t v, gs t = .pending v →
    ∃ us, (∀ u ∈ us, gs u = .counted) ∧ v = s₀.vacant - lengths record us

variable {record : T → List Byte} {s₀ s : SharedPage} {gs : T → Progress} {t : T} {v : ℤ}

theorem lengths_room (record : T → List Byte) {us : Finset T} (ht : t ∉ us) :
    (record t).length + lengths record us ≤ lengths record Finset.univ := by
  classical
  rw [← lengths_insert record ht]
  exact Finset.sum_le_sum_of_subset (Finset.subset_univ _)

theorem lengths_le (record : T → List Byte) (us : Finset T) :
    lengths record us ≤ lengths record Finset.univ :=
  Finset.sum_le_sum_of_subset (Finset.subset_univ us)

structure Fits (s₀ : SharedPage) (record : T → List Byte) : Prop where
  page : Page s₀
  room : (lengths record Finset.univ : ℤ) < s₀.vacant

theorem Fits.each (h : Fits s₀ record) (t : T) : ((record t).length : ℤ) < s₀.vacant := by
  have hroom := lengths_room record (Finset.notMem_empty t)
  have hfit := h.room
  omega

theorem Tracks.cursor_bounds (h : Tracks s₀ record s gs) (ht : gs t = .pending v) :
    s₀.vacant - lengths record Finset.univ + (record t).length ≤ s.vacant ∧
      s.vacant ≤ s₀.vacant := by
  obtain ⟨us, hus, -, hvacant⟩ := h.cursor
  have hnot : t ∉ us := fun hmem => by simp [hus t hmem] at ht
  have hroom := lengths_room record hnot
  omega

theorem Tracks.known_bounds (h : Tracks s₀ record s gs) (ht : gs t = .pending v) :
    s₀.vacant - lengths record Finset.univ + (record t).length ≤ v ∧ v ≤ s₀.vacant := by
  obtain ⟨us, hus, hv⟩ := h.known t v ht
  have hnot : t ∉ us := fun hmem => by simp [hus t hmem] at ht
  have hroom := lengths_room record hnot
  omega

theorem Tracks.store (h : Tracks s₀ record s gs) (hpage : s₀.vacant ≤ pageSize)
    (hfit : (lengths record Finset.univ : ℤ) < s₀.vacant) (ht : gs t = .pending v) {i : ℕ}
    (hi : i < (record t).length) (b : Byte) : ∃ s', storeByte (pageSize - v + i) b s = some s' ∧
      Tracks s₀ record s' gs := by
  obtain ⟨hlow, hhigh⟩ := h.known_bounds ht
  have hsize := h.size
  obtain ⟨n, hn⟩ : ∃ n : ℕ, (pageSize : ℤ) - v + i = n := ⟨(pageSize - v + i).toNat, by omega⟩
  rw [hn, storeByte_inside (by omega)]
  refine ⟨_, rfl, by simpa using hsize, h.written, ?_, h.cursor, h.known⟩
  intro j hj
  have hne : n ≠ j := by omega
  rw [← h.outside j hj]
  exact List.getElem?_set_ne hne

variable [DecidableEq T]

omit [Fintype T] in
theorem counted_pending (ht : gs t = .pending v) (w : ℤ) (u : T) :
    Function.update gs t (.pending w) u = .counted ↔ gs u = .counted := by
  by_cases hu : u = t
  · subst hu
    simp [ht]
  · rw [Function.update_of_ne hu]

theorem Tracks.look (h : Tracks s₀ record s gs) (ht : gs t = .pending v) :
    Tracks s₀ record s (Function.update gs t (.pending s.vacant)) := by
  have hsame := counted_pending ht s.vacant
  refine ⟨h.size, h.written, h.outside, ?_, ?_⟩
  · simpa only [hsame] using h.cursor
  · intro u w hu
    simp only [hsame]
    by_cases hut : u = t
    · subst hut
      rw [Function.update_self] at hu
      obtain rfl := Progress.pending.inj hu
      obtain ⟨us, hus, -, hvacant⟩ := h.cursor
      exact ⟨us, hus, hvacant⟩
    · rw [Function.update_of_ne hut] at hu
      exact h.known u w hu

theorem Tracks.advance (h : Tracks s₀ record s gs) (ht : gs t = .pending v) :
    Tracks s₀ record { s with vacant := v - (record t).length }
      (Function.update gs t .counted) := by
  have hmono : ∀ {us : Finset T}, (∀ u ∈ us, gs u = .counted) →
      ∀ u ∈ us, Function.update gs t .counted u = .counted := by
    intro us hus u hu
    by_cases hut : u = t
    · rw [hut, Function.update_self]
    · rw [Function.update_of_ne hut]
      exact hus u hu
  obtain ⟨us, hus, hv⟩ := h.known t v ht
  have hnot : t ∉ us := fun hmem => by simp [hus t hmem] at ht
  refine ⟨h.size, h.written, h.outside, ⟨insert t us, ?_, ?_, ?_⟩, ?_⟩
  · intro u hu
    rcases Finset.mem_insert.mp hu with rfl | hu
    · exact Function.update_self ..
    · exact hmono hus u hu
  · exact fun _ _ => Finset.insert_nonempty t us
  · rw [lengths_insert record hnot, hv]
    push_cast
    omega
  · intro u w hu
    have hut : u ≠ t := by
      rintro rfl
      rw [Function.update_self] at hu
      cases hu
    rw [Function.update_of_ne hut] at hu
    obtain ⟨vs, hvs, hw⟩ := h.known u w hu
    exact ⟨vs, hmono hvs, hw⟩

def Uncounted (g : Progress) : Prop := ∃ v, g = .pending v

variable (h : Fits s₀ record)
include h

theorem outlined_sprintf : Outlined (Tracks s₀ record) Uncounted t (sprintfBody (record t))
    (.pending v) := by
  have hroom := lengths_room record (Finset.notMem_empty t)
  have hvacant := h.page.vacant
  have hfit := h.room
  intro s gs hs hg
  refine ⟨(s, ()), .pending v, ?_, ?_, v, rfl⟩
  · rw [if_pos (by omega)]
    rfl
  · rwa [← hg, Function.update_eq_self]

theorem outlined_makeRoom : Outlined (Tracks s₀ record) Uncounted t (makeRoomBody (record t))
    (.pending v) := by
  refine outlined_read_bind fun s gs hs hg => ⟨s.vacant, .pending s.vacant, rfl, hs.look hg, ?_⟩
  obtain ⟨hlow, hhigh⟩ := hs.cursor_bounds hg
  have hvacant := h.page.vacant
  have hfit := h.room
  have hsize := asSize_of_nonneg (v := s.vacant) (by omega) (by omega)
  rw [if_neg (by omega)]
  exact outlined_pure ⟨_, rfl⟩

theorem outlined_copy (bs : List Byte) {i : ℕ} (hi : i + bs.length ≤ (record t).length) :
    Outlined (Tracks s₀ record) Uncounted t (copyBody (pageSize - v + i) bs) (.pending v) := by
  induction bs generalizing i with
  | nil => exact outlined_pure ⟨v, rfl⟩
  | cons b bs ih =>
    rw [List.length_cons] at hi
    refine Outlined.bind (R := (· = .pending v)) (outlined_write fun s gs hs hg => ?_) ?_
    · obtain ⟨s', hs', htracks⟩ := hs.store h.page.vacant h.room hg (i := i) (by omega) b
      refine ⟨s', .pending v, hs', ?_, rfl⟩
      rwa [← hg, Function.update_eq_self]
    · rintro _ _ rfl
      have hnext : (pageSize : ℤ) - v + i + 1 = pageSize - v + (i + 1 : ℕ) := by
        push_cast
        omega
      rw [hnext]
      exact ih (by omega)

theorem outlined_copyRecord : Outlined (Tracks s₀ record) Uncounted t (copyRecordBody (record t))
    (.pending v) := by
  refine outlined_read_bind fun s gs hs hg => ⟨s.vacant, .pending s.vacant, rfl, hs.look hg, ?_⟩
  have hcopy := outlined_copy h (t := t) (v := s.vacant) (record t) (i := 0) (by omega)
  rwa [Nat.cast_zero, add_zero] at hcopy

omit h in
theorem outlined_advance : Outlined (Tracks s₀ record) (· = .counted) t (advanceBody (record t))
    (.pending v) := by
  refine outlined_read_bind fun s gs hs hg => ⟨s.vacant, .pending s.vacant, rfl, hs.look hg, ?_⟩
  exact outlined_write fun s' gs' hs' hg' => ⟨_, .counted, rfl, hs'.advance hg', rfl⟩

theorem outlined_addRecord : Outlined (Tracks s₀ record) (· = .counted) t
    (addRecordBody (record t)) (.pending v) := by
  refine Outlined.bind (outlined_sprintf h) ?_
  rintro _ _ ⟨v₁, rfl⟩
  refine Outlined.bind (outlined_makeRoom h) ?_
  rintro _ _ ⟨v₂, rfl⟩
  refine Outlined.bind (outlined_copyRecord h) ?_
  rintro _ _ ⟨v₃, rfl⟩
  exact outlined_advance

theorem raced_holds {ts : List T} {c : Threads T SharedPage Unit}
    (hr : Run Threads.Step (raced s₀ record) ts c) :
    Holds (Tracks s₀ record) (fun _ g => g = .counted) c := by
  refine run_holds ⟨fun _ => .pending s₀.vacant, ?_, fun t => outlined_addRecord h⟩ hr
  refine ⟨h.page.size, rfl, fun _ _ => rfl, ⟨∅, by simp, by simp, by simp [raced, lengths]⟩, ?_⟩
  rintro t v hv
  obtain rfl := Progress.pending.inj hv
  exact ⟨∅, by simp, by simp [lengths]⟩

/-- In no interleaving does a statement fault, a call get stuck, a flush happen or a byte
change outside the region that the records take up one behind the other. -/
theorem raced_fit {ts : List T} {c : Threads T SharedPage Unit}
    (hr : Run Threads.Step (raced s₀ record) ts c) :
    (∀ t, (∃ r, c.body t = .done r) ∨ ∃ c', Threads.Step c t c') ∧
    c.shared.written = s₀.written ∧
    ∀ i : ℕ, (i : ℤ) < pageSize - s₀.vacant ∨
      pageSize - s₀.vacant + lengths record Finset.univ ≤ i →
      c.shared.writeFileBuff[i]? = s₀.writeFileBuff[i]? := by
  have hholds := raced_holds h hr
  refine ⟨hholds.goes_on, ?_⟩
  obtain ⟨gs, htracks, -⟩ := hholds
  exact ⟨htracks.written, htracks.outside⟩

omit h

theorem twoCloses_fit : Fits (pageLeaving pageSize) twoCloses := by
  refine ⟨pageLeaving_page le_rfl, ?_⟩
  rw [lengths_twoCloses]
  decide

theorem raced_fit_twoCloses : ∃ c, (∃ ts, Run Threads.Step (raced (pageLeaving pageSize) twoCloses)
    ts c) ∧ (∀ t, c.body t = placeBody (twoCloses t)) ∧
    ∀ t, (∃ r, c.body t = .done r) ∨ ∃ c', Threads.Step c t c' := by
  obtain ⟨ts, hr⟩ := all_checked twoCloses_fit.page twoCloses_fit.each
  exact ⟨_, ⟨ts, hr⟩, fun _ => rfl, (raced_fit twoCloses_fit hr).1⟩

/-- A call reads `vacant`, the calls outside `us` come and go, and it writes over what they
have counted. -/
theorem overwritten (h : Fits s₀ record) {us : Finset T} {last : T} (hlast : last ∈ us) :
    ∃ ts c, Run Threads.Step (raced s₀ record) ts c ∧ Page c.shared ∧
      c.shared.vacant = s₀.vacant - (record last).length ∧ c.body last = .done () ∧
      (∀ t ∉ us, c.body t = .done ()) ∧ ∀ t ∈ us, t ≠ last → c.body t = placeBody (record t) := by
  have hroom := h.room
  have hvacant := h.page.vacant
  have hle := lengths_le record usᶜ
  have hothers : ∀ t ∈ usᶜ, t ≠ last := by
    rintro t ht rfl
    exact Finset.mem_compl.mp ht hlast
  obtain ⟨ts₁, hr₁⟩ := all_checked h.page h.each
  obtain ⟨s₂, hcopy, hpage₂, hv₂⟩ := run_copy_room h.page (h.each last).le
  have hread : (copyRecordBody (record last) >>= fun _ => Body.read fun s => some s.vacant).run s₀ =
      some (s₂, s₂.vacant) := by
    rw [Body.run_bind, hcopy, Option.bind_some, Body.run_read, Option.map_some]
  obtain ⟨ts₂, c₂, hr₂, hshared₂, hlast₂, hbody₂⟩ := runs_alone
    (c := ⟨s₀, fun t => placeBody (record t)⟩) (t := last) (bind_assoc ..).symm hread
  obtain ⟨ts₃, c₃, hr₃, hpage₃, -, hdone₃, hbody₃⟩ := all_placed (c := c₂) usᶜ
    (fun t ht => hbody₂ t (hothers t ht)) (by rwa [hshared₂])
    (by rw [hshared₂, hv₂]; omega)
  have hlast₃ := (hbody₃ last fun hmem => hothers last hmem rfl).trans hlast₂
  obtain ⟨ts₄, c₄, hr₄, hshared₄, hlast₄, hbody₄⟩ := runs_whole hlast₃ (Body.run_write ..)
  refine ⟨_, c₄, ((hr₁.append hr₂).append hr₃).append hr₄, ?_, ?_, hlast₄, fun t ht => ?_,
    fun t ht hne => ?_⟩
  · rw [hshared₄]
    refine ⟨hpage₃.size, ?_⟩
    simp only
    omega
  · rw [hshared₄, ← hv₂]
  · have hmem := Finset.mem_compl.mpr ht
    exact (hbody₄ t (hothers t hmem)).trans (hdone₃ t hmem)
  · have hnot : t ∉ usᶜ := fun hmem => Finset.mem_compl.mp hmem ht
    exact (hbody₄ t hne).trans ((hbody₃ t hnot).trans (hbody₂ t hne))

theorem cursor_reached (h : Fits s₀ record) {us : Finset T} (hus : us.Nonempty) :
    ∃ ts c, Run Threads.Step (raced s₀ record) ts c ∧ (∀ t, c.body t = .done ()) ∧
      c.shared.vacant = s₀.vacant - lengths record us := by
  obtain ⟨last, hlast⟩ := hus
  obtain ⟨ts, c, hr, hpage, hv, hdone, hout, hin⟩ := overwritten h hlast
  have hsplit := lengths_insert record (Finset.notMem_erase last us)
  rw [Finset.insert_erase hlast] at hsplit
  have hle := lengths_le record us
  have hroom := h.room
  obtain ⟨ts', c', hr', -, hv', hdone', hleft⟩ := all_placed (us.erase last)
    (fun t ht => hin t (Finset.mem_of_mem_erase ht) (Finset.ne_of_mem_erase ht)) hpage (by omega)
  refine ⟨_, c', hr.append hr', fun t => ?_, by omega⟩
  by_cases ht : t ∈ us.erase last
  · exact hdone' t ht
  · rw [hleft t ht]
    by_cases htl : t = last
    · rwa [htl]
    · exact hout t fun hmem => ht (Finset.mem_erase.mpr ⟨htl, hmem⟩)

/-- When all calls are done, `vacant` can count any of them but not none. -/
theorem raced_cursor [Nonempty T] (h : Fits s₀ record) (v : ℤ) :
    (∃ ts c, Run Threads.Step (raced s₀ record) ts c ∧ (∀ t, c.body t = .done ()) ∧
      c.shared.vacant = v) ↔ ∃ us : Finset T, us.Nonempty ∧ v = s₀.vacant - lengths record us := by
  constructor
  · rintro ⟨ts, c, hr, hdone, rfl⟩
    obtain ⟨gs, htracks, hcounted⟩ := (raced_holds h hr).ended fun t => ⟨(), hdone t⟩
    obtain ⟨us, -, hne, hvacant⟩ := htracks.cursor
    obtain ⟨t⟩ := ‹Nonempty T›
    exact ⟨us, hne t (hcounted t), hvacant⟩
  · rintro ⟨us, hus, rfl⟩
    exact cursor_reached h hus

theorem raced_cursor_lost : ∃ ts c,
    Run Threads.Step (raced (pageLeaving pageSize) twoCloses) ts c ∧
    (∀ t, c.body t = .done ()) ∧ c.shared.vacant = pageSize - 31 := by
  refine (raced_cursor twoCloses_fit _).mpr ⟨{true}, Finset.singleton_nonempty true, ?_⟩
  rw [lengths, Finset.sum_singleton, twoCloses_length]
  rfl

end fit

section overrun
variable {T : Type} [Fintype T] [DecidableEq T] {record : T → List Byte} {s : SharedPage}

theorem copyBody_append (dst : ℤ) (xs ys : List Byte) :
    copyBody dst (xs ++ ys) = copyBody dst xs >>= fun _ => copyBody (dst + xs.length) ys := by
  induction xs generalizing dst with
  | nil => simp [copyBody]
  | cons x xs ih =>
    have hnext : dst + 1 + (xs.length : ℤ) = dst + (x :: xs).length := by
      rw [List.length_cons]
      push_cast
      ring
    simp only [List.cons_append, copyBody, ih, hnext, bind_assoc]

omit [Fintype T] in
theorem exists_overrunning (record : T → List Byte) (us : Finset T) (v : ℤ) (hv : 0 ≤ v) :
    (lengths record us : ℤ) ≤ v ∨ ∃ vs t, t ∉ vs ∧ (lengths record vs : ℤ) ≤ v ∧
      v < lengths record vs + (record t).length := by
  induction us using Finset.induction_on with
  | empty => exact Or.inl hv
  | insert t us ht ih =>
    rcases ih with hle | hfound
    · by_cases hover : (lengths record (insert t us) : ℤ) ≤ v
      · exact Or.inl hover
      · rw [lengths_insert record ht] at hover
        exact Or.inr ⟨us, t, ht, hle, by push_cast at hover; omega⟩
    · exact Or.inr hfound

omit [Fintype T] in
theorem copies_to_end {c : Threads T SharedPage Unit} {t : T}
    (hbody : c.body t = placeBody (record t)) (hpage : Page c.shared) (h0 : 0 ≤ c.shared.vacant)
    (hover : c.shared.vacant < (record t).length) :
    ∃ ts c' b rest, Run Threads.Step c ts c' ∧ c'.shared.writeFileBuff.length = pageSize ∧
      c'.body t = Body.write (storeByte pageSize b) >>= rest := by
  have hsize := hpage.size
  have hvacant := hpage.vacant
  obtain ⟨n, hn⟩ : ∃ n : ℕ, c.shared.vacant = n := ⟨c.shared.vacant.toNat, by omega⟩
  have htake : ((record t).take n).length = n := by
    rw [List.length_take]
    omega
  obtain ⟨b, bs, hdrop⟩ : ∃ b bs, (record t).drop n = b :: bs :=
    List.exists_cons_of_length_pos (by rw [List.length_drop]; omega)
  have hdst : (pageSize : ℤ) - n = (pageSize - n : ℕ) := by omega
  have hend : ((pageSize - n : ℕ) : ℤ) + (((record t).take n).length : ℕ) = pageSize := by omega
  have hcopy := copyBody_append (pageSize - n : ℕ) ((record t).take n) ((record t).drop n)
  rw [List.take_append_drop, hend, hdrop] at hcopy
  have hread : (Body.read fun s => some s.vacant).run c.shared = some (c.shared, (n : ℤ)) := by
    rw [Body.run_read, Option.map_some, hn]
  obtain ⟨ts₁, c₁, hr₁, hshared₁, hbody₁, -⟩ := runs_alone (hbody.trans (bind_assoc ..)) hread
  have hbody₁' : c₁.body t = copyBody (pageSize - n : ℕ) ((record t).take n) >>= fun _ =>
      (Body.write (storeByte pageSize b) >>= fun _ => copyBody (pageSize + 1) bs >>= fun _ =>
        advanceBody (record t)) := by
    rw [hbody₁]
    simp only [hdst, hcopy, copyBody, bind_assoc]
  have hinside : pageSize - n + ((record t).take n).length ≤ c.shared.writeFileBuff.length := by
    omega
  obtain ⟨buff, hbuff⟩ : ∃ buff, blit c.shared.writeFileBuff (pageSize - n) ((record t).take n) =
      some buff := ⟨_, if_pos hinside⟩
  have hrun := run_copyBody (s := c.shared) (i := pageSize - n) (by omega) ((record t).take n)
  rw [hbuff] at hrun
  obtain ⟨ts₂, c₂, hr₂, hshared₂, hbody₂, -⟩ :=
    runs_alone hbody₁' ((congrArg _ hshared₁).trans hrun)
  refine ⟨_, c₂, b, _, hr₁.append hr₂, ?_, hbody₂⟩
  rw [hshared₂]
  exact (blit_length hbuff).trans hsize

/-- If the records do not all fit, though each alone would, some interleaving of the calls
comes to store a byte behind the page. -/
theorem raced_overrun (hpage : Page s) (h0 : 0 ≤ s.vacant)
    (hlen : ∀ t, ((record t).length : ℤ) < s.vacant)
    (hover : s.vacant < lengths record Finset.univ) :
    ∃ ts c t b rest, Run Threads.Step (raced s record) ts c ∧
      c.shared.writeFileBuff.length = pageSize ∧
      c.body t = Body.write (storeByte pageSize b) >>= rest := by
  rcases exists_overrunning record Finset.univ s.vacant h0 with
    hle | ⟨us, t, ht, hfit, hnofit⟩
  · omega
  obtain ⟨ts₁, hr₁⟩ := all_checked hpage hlen
  obtain ⟨ts₂, c₂, hr₂, hpage₂, hv₂, -, hbody₂⟩ := all_placed
    (c := ⟨s, fun t => placeBody (record t)⟩) us (fun _ _ => rfl) hpage hfit
  have hv : c₂.shared.vacant = s.vacant - lengths record us := hv₂
  obtain ⟨ts₃, c₃, b, rest, hr₃, hsize, hbody₃⟩ := copies_to_end (hbody₂ t ht) hpage₂
    (by omega) (by omega)
  exact ⟨_, c₃, t, b, rest, (hr₁.append hr₂).append hr₃, hsize, hbody₃⟩

theorem twoCloses_each (t : Bool) : ((twoCloses t).length : ℤ) < (pageLeaving 40).vacant := by
  rw [twoCloses_length]
  decide

theorem twoCloses_overrun : (pageLeaving 40).vacant < lengths twoCloses Finset.univ := by
  rw [lengths_twoCloses]
  decide

theorem raced_overrun_twoCloses : ∃ ts c t b rest,
    Run Threads.Step (raced (pageLeaving 40) twoCloses) ts c ∧
    c.shared.writeFileBuff.length = pageSize ∧
    c.body t = Body.write (storeByte pageSize b) >>= rest :=
  raced_overrun (pageLeaving_page (by decide)) (by decide) twoCloses_each twoCloses_overrun

/-- A call with this record finds room without a flush, and the first byte it stores is
behind the page. -/
structure CopiesBehind (s : SharedPage) (r : List Byte) : Prop where
  unflushed : (makeRoomBody r).run s = some (s, ())
  behind : ∃ b bs, r = b :: bs ∧ (s.writeFileBuff.length : ℤ) ≤ pageSize - s.vacant ∧
    storeByte (pageSize - s.vacant) b s = none

theorem copies_behind (hsize : s.writeFileBuff.length = pageSize) (hneg : s.vacant < 0)
    (hint : -2 ^ 31 ≤ s.vacant) {r : List Byte} (hr : r ≠ []) (hfits : r.length < pageSize) :
    CopiesBehind s r := by
  have hlarge : ¬ asSize s.vacant ≤ r.length := by
    rw [asSize, BitVec.toNat_ofInt]
    simp only [pageSize] at hfits
    omega
  obtain ⟨b, bs, rfl⟩ := List.exists_cons_of_ne_nil hr
  refine ⟨?_, b, bs, rfl, by omega, storeByte_outside (by omega) b⟩
  rw [makeRoomBody, Body.run_bind, Body.run_read, Option.map_some, Option.bind_some,
    if_neg hlarge]
  rfl

theorem CopiesBehind.faults {r : List Byte} (h : CopiesBehind s r) (hfits : r.length < pageSize) :
    (addRecordBody r).run s = none := by
  obtain ⟨b, bs, rfl, -, hout⟩ := h.behind
  have hcopy : (copyRecordBody (b :: bs)).run s = none := by
    rw [copyRecordBody, Body.run_bind, Body.run_read, Option.map_some, Option.bind_some,
      copyBody, Body.run_bind, Body.run_write, hout]
    rfl
  rw [addRecordBody, Body.run_bind, sprintfBody, Body.run_read, if_pos hfits, Option.map_some,
    Option.bind_some, Body.run_bind, h.unflushed, Option.bind_some, placeBody, Body.run_bind, hcopy]
  rfl

theorem long_record_faults {r : List Byte} (hlong : ¬ r.length < pageSize) :
    (addRecordBody r).run s = none := by
  rw [addRecordBody, Body.run_bind, sprintfBody, Body.run_read, if_neg hlong]
  rfl

/-- Or all of them end, and every trace function that is called then stores behind the page. -/
theorem raced_below_zero (hpage : Page s) (hlen : ∀ t, ((record t).length : ℤ) < s.vacant)
    (hover : s.vacant < lengths record Finset.univ)
    (hint : (lengths record Finset.univ : ℤ) ≤ s.vacant + 2 ^ 31) :
    ∃ ts c, Run Threads.Step (raced s record) ts c ∧ (∀ t, c.body t = .done ()) ∧
      c.shared.vacant < 0 ∧ ∀ r ≠ [], (addRecordBody r).run c.shared = none ∧
        (r.length < pageSize → CopiesBehind c.shared r) := by
  obtain ⟨ts₁, hr₁⟩ := all_checked hpage hlen
  obtain ⟨ts₂, c₂, hr₂, ⟨hpage₂, hv₂⟩, hbody₂, -⟩ := runs_in_turn
    (c := ⟨s, fun t => placeBody (record t)⟩) (b := fun t => copyRecordBody (record t))
    (k := fun t _ => advanceBody (record t)) (R := fun _ s' => Page s' ∧ s'.vacant = s.vacant)
    (Finset.nodup_toList Finset.univ) (fun _ _ => rfl) ⟨hpage, rfl⟩
    (by
      rintro - t s' - ⟨hpage', hv'⟩
      obtain ⟨s'', hrun, hpage'', hv''⟩ := run_copy_room (r := record t) hpage'
        (by rw [hv']; exact (hlen t).le)
      exact ⟨(s'', ()), hrun, hpage'', hv''.trans hv'⟩)
  obtain ⟨ts₃, c₃, hr₃, ⟨hsize₃, hv₃⟩, hdone₃, -⟩ := runs_in_turn (c := c₂)
    (b := fun t => advanceBody (record t)) (k := fun _ => Body.done)
    (R := fun vs s' => s'.writeFileBuff.length = pageSize ∧
      s'.vacant = s.vacant - (vs.map fun t => (record t).length).sum)
    (Finset.nodup_toList Finset.univ)
    (by
      intro t ht
      obtain ⟨-, hbody⟩ := hbody₂ t ht
      exact hbody.trans (bind_pure _).symm)
    ⟨hpage₂.size, by simp [hv₂]⟩
    (by
      rintro vs t s' - ⟨hsize', hv'⟩
      refine ⟨_, run_advanceBody s' (record t), hsize', ?_⟩
      simp only [hv', List.map_append, List.sum_append, List.map_singleton, List.sum_singleton]
      push_cast
      omega)
  rw [lengths_toList] at hv₃
  refine ⟨_, c₃, (hr₁.append hr₂).append hr₃, fun t => ?_, by omega, fun r hr => ?_⟩
  · obtain ⟨⟨⟩, hd⟩ := hdone₃ t (Finset.mem_toList.mpr (Finset.mem_univ t))
    exact hd
  · by_cases hfits : r.length < pageSize
    · have hbehind := copies_behind hsize₃ (by omega) (by omega) hr hfits
      exact ⟨hbehind.faults hfits, fun _ => hbehind⟩
    · exact ⟨long_record_faults hfits, fun h => absurd h hfits⟩

theorem raced_below_zero_twoCloses : ∃ ts c,
    Run Threads.Step (raced (pageLeaving 40) twoCloses) ts c ∧ (∀ t, c.body t = .done ()) ∧
    c.shared.vacant < 0 ∧ ∀ r ≠ [], (addRecordBody r).run c.shared = none ∧
      (r.length < pageSize → CopiesBehind c.shared r) :=
  raced_below_zero (pageLeaving_page (by decide)) twoCloses_each twoCloses_overrun
    (by rw [lengths_twoCloses]; decide)

end overrun

end RacedTraces
