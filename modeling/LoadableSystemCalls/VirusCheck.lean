import LoadableSystemCalls.BlacklistPaging
import LoadableSystemCalls.HexDecoding

/-! # check_in_blacklist (anti_module.c)

The outer loop over the blacklist, and what it settles on for a file of lines. -/
namespace VirusCheck

open CStrings FueledLoops KernelTypes HexDecoding FileScan BlacklistPaging

/-- `strsep` on a pointer into a page: a delimiter that is found is overwritten, and the
pointer moves behind it or becomes NULL. -/
def strsepAt (d : Byte) (page : List Byte) (p : ℕ) : Option (List Byte × Option ℕ) :=
  (strsep d (page.drop p)).map fun r =>
    match r.2 with
    | some _ => (page.set (p + r.1.length) 0, some (p + r.1.length + 1))
    | none => (page, none)

/-- The line at `parseVirus` split at its comma, and the bytes behind it decoded; no bytes
when there is no comma. -/
def lineHex (page : List Byte) (parseVirus : ℕ) : Option (List Byte × Option (List Byte)) :=
  match strsepAt 44 page parseVirus with
  | none => none
  | some (page', none) => some (page', none)
  | some (page', some p) =>
    match convert pageSize (text (page'.drop p)) with
    | none => none
    | some hexInChar =>
      if hexInChar.length < pageSize then some (page', some hexInChar) else none

/-- The variables the outer loop keeps; `workBuff` is an index into the page. -/
structure LoopState where
  blacklistSize : ℤ
  blacklistFp : ℤ
  initBuff : List Byte
  workBuff : Option ℕ
  blacklistCalls : ℕ
  inputCalls : ℕ

/-- `black_list_work_buff != NULL && strlen(black_list_work_buff) > 0`. -/
def LoopState.pending (s : LoopState) : Option Bool :=
  match s.workBuff with
  | none => some false
  | some p => (strlen (s.initBuff.drop p)).map (0 < ·)

def LoopState.goesOn (s : LoopState) : Option Bool :=
  if 0 < s.blacklistSize then some true else s.pending

/-- The next page is read when no line is pending. -/
def LoopState.refill (blacklistFile : VFile) (s : LoopState) : Option LoopState :=
  match s.pending with
  | none => none
  | some true => some s
  | some false =>
    match blacklistFile.read s.blacklistCalls s.blacklistFp pageSize with
    | none => none
    | some b =>
      match removeGarbageValue (b ++ s.initBuff.drop b.length) b.length with
      | none => none
      | some (page, n) => some {
          blacklistSize := toInt (s.blacklistSize - n)
          blacklistFp := toInt (s.blacklistFp + n)
          initBuff := page
          workBuff := some 0
          blacklistCalls := s.blacklistCalls + 1
          inputCalls := s.inputCalls }

/-- One line taken off the page. -/
def LoopState.nextLine (s : LoopState) : Option (LoopState × Option (List Byte)) :=
  match s.workBuff with
  | none => some (s, none)
  | some p =>
    match strsepAt 10 s.initBuff p with
    | none => none
    | some (page, work) =>
      (lineHex page p).map fun r => ({ s with initBuff := r.1, workBuff := work }, r.2)

def checkLoop (inputFile blacklistFile : VFile) (originalFileSize : ℤ) :
    ℕ → LoopState → Except Halt Bool
  | fuel, s =>
    match s.goesOn with
    | none => .error .oops
    | some false => .ok false
    | some true =>
      match fuel with
      | 0 => .error .hang
      | fuel + 1 =>
        match (s.refill blacklistFile).bind LoopState.nextLine with
        | none => .error .oops
        | some (_, none) => .ok false
        | some (s', some hexInChar) =>
          scan inputFile originalFileSize hexInChar fuel originalFileSize 0 s'.inputCalls >>=
            fun r =>
              if r.1 then .ok true
              else checkLoop inputFile blacklistFile originalFileSize fuel
                { s' with inputCalls := r.2 }

/-- What kmalloc returns for the three pages: whether there is one, and the old bytes of
the page the blacklist is read into. -/
structure Pages where
  inputFileBuff : Bool
  initBuff : Option (List Byte)
  hexInChar : Bool
  initBuff_length : ∀ b, initBuff = some b → b.length = pageSize

def freshPages : Pages where
  inputFileBuff := true
  initBuff := some (List.replicate pageSize 0)
  hexInChar := true
  initBuff_length := by
    intro b hb
    obtain rfl := Option.some.inj hb
    exact List.length_replicate

/-- Only the page of the input file is tested for NULL. -/
def checkInBlacklist (pages : Pages) (inputFile blacklistFile : VFile) (fuel : ℕ) :
    Except Halt Bool :=
  if pages.inputFileBuff then
    match pages.initBuff with
    | none => .error .oops
    | some page =>
      if pages.hexInChar then
        checkLoop inputFile blacklistFile (toInt inputFile.iSize) fuel
          ⟨toInt blacklistFile.iSize, 0, page.set 0 0, none, 0, 0⟩
      else .error .oops
  else .ok false

/-- What stands behind the first comma. -/
def field (l : Line) : Option (List Byte) :=
  match l.dropWhile (· ≠ 44) with
  | [] => none
  | _ :: f => some f

/-- The bytes of a line: `none` if convert runs off its buffer, `some none` if there is no
comma. -/
def decode (l : Line) : Option (Option (List Byte)) :=
  match field l with
  | none => some none
  | some f => (convert pageSize f).map some

theorem field_behind {name : List Byte} (h : 44 ∉ name) (f : List Byte) :
    field (name ++ 44 :: f) = some f := by
  have hdrop : (name ++ 44 :: f).dropWhile (· ≠ 44) = 44 :: f := by
    rw [List.dropWhile_append_of_pos, List.dropWhile_cons_of_neg (by simp)]
    intro x hx
    have hne : x ≠ 44 := by
      rintro rfl
      exact h hx
    simpa using hne
  rw [field, hdrop]

theorem field_cases (l : Line) : (44 ∉ l ∧ field l = none) ∨
    ∃ name f, l = name ++ 44 :: f ∧ 44 ∉ name ∧ field l = some f := by
  by_cases h : 44 ∈ l
  · rcases List.eq_append_cons_of_mem h with ⟨name, f, rfl, hname⟩
    exact Or.inr ⟨name, f, rfl, hname, field_behind hname f⟩
  · refine Or.inl ⟨h, ?_⟩
    have hdrop : l.dropWhile (· ≠ 44) = [] := by
      rw [List.dropWhile_eq_nil_iff]
      intro x hx
      have hne : x ≠ 44 := by
        rintro rfl
        exact h hx
      simpa using hne
    rw [field, hdrop]

theorem decode_of_field {l : Line} {f : List Byte} (h : field l = some f) :
    decode l = (convert pageSize f).map some := by
  rw [decode, h]

theorem decode_of_no_field {l : Line} (h : field l = none) : decode l = some none := by
  rw [decode, h]

theorem decode_length {l : Line} {hex : List Byte} (h : decode l = some (some hex)) :
    hex.length < l.length := by
  rcases field_cases l with ⟨-, hf⟩ | ⟨name, f, rfl, -, hf⟩
  · rw [decode_of_no_field hf] at h
    cases h
  · rw [decode_of_field hf] at h
    have hconvert : convert pageSize f = some hex := by simpa using h
    have hle := convert_length hconvert
    simp only [List.length_append, List.length_cons]
    omega

theorem strsepAt_found {d : Byte} {t : List Byte} (ht : NulFree t) (hd : d ∉ t)
    (pre rest : List Byte) :
    strsepAt d (pre ++ t ++ d :: rest) pre.length =
      some (pre ++ t ++ 0 :: rest, some (pre ++ t ++ [0]).length) := by
  have hset : (pre ++ t ++ d :: rest).set (pre.length + t.length) 0 = pre ++ t ++ 0 :: rest := by
    rw [← List.length_append, List.set_append_right _ _ le_rfl, Nat.sub_self, List.set_cons_zero]
  rw [strsepAt, List.append_assoc, List.drop_left, strsep_found ht hd, Option.map_some,
    ← List.append_assoc]
  simp only [hset, List.length_append, List.length_singleton]

theorem strsepAt_absent {d : Byte} {t : List Byte} (ht : NulFree t) (hd : d ∉ t) (hd0 : d ≠ 0)
    (pre rest : List Byte) :
    strsepAt d (pre ++ t ++ 0 :: rest) pre.length = some (pre ++ t ++ 0 :: rest, none) := by
  rw [strsepAt, List.append_assoc, List.drop_left, strsep_absent ht hd hd0]
  rfl

theorem lineHex_at {l : Line} (hl : NulFree l) (hshort : l.length < pageSize)
    (pre rest : List Byte) :
    ∃ pre', pre'.length = (pre ++ l).length ∧
      lineHex (pre ++ l ++ 0 :: rest) pre.length =
        (decode l).map fun h => (pre' ++ 0 :: rest, h) := by
  rcases field_cases l with ⟨hcomma, hf⟩ | ⟨name, f, rfl, hcomma, hf⟩
  · refine ⟨pre ++ l, rfl, ?_⟩
    rw [lineHex, strsepAt_absent hl hcomma (by decide), decode_of_no_field hf]
    rfl
  · have hname : NulFree name := fun h => hl (List.mem_append_left _ h)
    have hfield : NulFree f := fun h => hl (List.mem_append_right _ (List.mem_cons_of_mem _ h))
    refine ⟨pre ++ name ++ 0 :: f, by simp, ?_⟩
    have hpage : pre ++ (name ++ 44 :: f) ++ 0 :: rest = pre ++ name ++ 44 :: (f ++ 0 :: rest) := by
      simp
    have hbehind : text ((pre ++ name ++ 0 :: (f ++ 0 :: rest)).drop
        (pre ++ name ++ [0]).length) = f := by
      have happ : pre ++ name ++ 0 :: (f ++ 0 :: rest) =
          pre ++ name ++ [0] ++ (f ++ 0 :: rest) := by
        simp
      rw [happ, List.drop_left, text_append hfield]
      exact List.append_nil f
    rw [lineHex, hpage, strsepAt_found hname hcomma]
    simp only [hbehind]
    cases hconvert : convert pageSize f with
    | none => simp only [decode_of_field hf, hconvert, Option.map_none]
    | some hex =>
      have hdecode : decode (name ++ 44 :: f) = some (some hex) := by
        rw [decode_of_field hf, hconvert, Option.map_some]
      have hlt := decode_length hdecode
      simp only [hdecode, if_pos (hlt.trans hshort), Option.map_some]
      simp

def LoopState.Holds (s : LoopState) (w : List Byte) : Prop :=
  s.initBuff.length = pageSize ∧
  ∃ pre rest, s.initBuff = pre ++ w ++ 0 :: rest ∧ s.workBuff = some pre.length

theorem LoopState.Holds.pending {s : LoopState} {w : List Byte} (h : s.Holds w) (hw : NulFree w) :
    s.pending = some (decide (0 < w.length)) := by
  rcases h with ⟨-, pre, rest, hbuff, hwork⟩
  rw [LoopState.pending, hwork, hbuff, List.append_assoc]
  simp only [List.drop_left, strlen_append hw, strlen_zero, Option.map_some, Nat.add_zero]

theorem goesOn_of_pending {s : LoopState} (h : s.pending = some true) : s.goesOn = some true := by
  rw [LoopState.goesOn, h, ite_self]

theorem refill_of_pending {s : LoopState} (h : s.pending = some true) (blacklistFile : VFile) :
    s.refill blacklistFile = some s := by
  rw [LoopState.refill, h]

theorem nextLine_terminated {s : LoopState} {l : Line} {w : List Byte}
    (h : s.Holds (l ++ 10 :: w)) (hl : Plain l) (hshort : l.length < pageSize) :
    ∃ page p, ({ s with initBuff := page, workBuff := some p } : LoopState).Holds w ∧
      s.nextLine = (decode l).map
        fun r => ({ s with initBuff := page, workBuff := some p }, r) := by
  rcases h with ⟨hlen, pre, rest, hbuff, hwork⟩
  rcases lineHex_at hl.1 hshort pre (w ++ 0 :: rest) with ⟨pre', hpre, hhex⟩
  have hpage : pre ++ (l ++ 10 :: w) ++ 0 :: rest = pre ++ l ++ 10 :: (w ++ 0 :: rest) := by simp
  refine ⟨pre' ++ 0 :: (w ++ 0 :: rest), (pre' ++ [0]).length, ⟨?_, pre' ++ [0], rest, ?_, rfl⟩, ?_⟩
  · rw [hbuff, hpage] at hlen
    simp only [List.length_append, List.length_cons] at hlen hpre ⊢
    omega
  · simp
  · have hend : (pre ++ l ++ [0]).length = (pre' ++ [0]).length := by
      simp only [List.length_append] at hpre ⊢
      omega
    rw [LoopState.nextLine, hwork, hbuff, hpage]
    simp only [strsepAt_found hl.1 hl.2, hhex, hend, Option.map_map]
    rfl

theorem nextLine_last {s : LoopState} {l : Line} (h : s.Holds l) (hl : Plain l)
    (hshort : l.length < pageSize) :
    ∃ page, page.length = pageSize ∧
      s.nextLine = (decode l).map fun r => ({ s with initBuff := page, workBuff := none }, r) := by
  rcases h with ⟨hlen, pre, rest, hbuff, hwork⟩
  rcases lineHex_at hl.1 hshort pre rest with ⟨pre', hpre, hhex⟩
  refine ⟨pre' ++ 0 :: rest, ?_, ?_⟩
  · rw [hbuff] at hlen
    simp only [List.length_append] at hlen hpre ⊢
    omega
  · rw [LoopState.nextLine, hwork, hbuff]
    simp only [strsepAt_absent hl.1 hl.2 (by decide), hhex, Option.map_map]
    rfl

open Classical in
/-- What a line does to the check: the result it ends with, `none` if the check goes on. Of
a line that fits no page only the first byte is kept. -/
noncomputable def lineVerdict (content : List Byte) (l : Line) : Option (Except Halt Bool) :=
  if l.length < pageSize then
    match decode l with
    | none => some (.error .oops)
    | some none => some (.ok false)
    | some (some hex) => if Visible content hex then some (.ok true) else none
  else some (.ok (decide (l.head? = some 44)))

section loop
variable {inputFile blacklistFile : VFile} {size : ℤ} {s s' : LoopState} {hex : List Byte}

theorem checkLoop_ended (h : s.goesOn = some false) :
    Settles (fun fuel => checkLoop inputFile blacklistFile size fuel s) (.ok false) := by
  apply (Settles.const _).congr
  intro fuel
  cases fuel <;> rw [checkLoop, h]

theorem checkLoop_oops (h : s.goesOn = some true)
    (hnext : (s.refill blacklistFile).bind LoopState.nextLine = none) :
    Settles (fun fuel => checkLoop inputFile blacklistFile size fuel s) (.error .oops) := by
  apply (Settles.const _).round
  intro fuel
  rw [checkLoop, h]
  simp only [hnext]

theorem checkLoop_scan (h : s.goesOn = some true)
    (hnext : (s.refill blacklistFile).bind LoopState.nextLine = some (s', some hex)) (fuel : ℕ) :
    checkLoop inputFile blacklistFile size (fuel + 1) s =
      (scan inputFile size hex fuel size 0 s'.inputCalls >>= fun r =>
        if r.1 then .ok true
        else checkLoop inputFile blacklistFile size fuel { s' with inputCalls := r.2 }) := by
  rw [checkLoop, h]
  simp only [hnext]

theorem checkLoop_unmatched {calls : ℕ} (h : s.goesOn = some true)
    (hnext : (s.refill blacklistFile).bind LoopState.nextLine = some (s', some hex))
    (hscan : Settles (fun fuel => scan inputFile size hex fuel size 0 s'.inputCalls)
      (.ok (false, calls))) {r : Except Halt Bool}
    (hr : Settles (fun fuel => checkLoop inputFile blacklistFile size fuel
      { s' with inputCalls := calls }) r) :
    Settles (fun fuel => checkLoop inputFile blacklistFile size fuel s) r :=
  (hscan.bind hr).round (checkLoop_scan h hnext)

end loop

section rounds
variable (content : List Byte) (blacklistFile : VFile)

def loopFrom (s : LoopState) (fuel : ℕ) : Except Halt Bool :=
  checkLoop (regularFile content) blacklistFile (toInt content.length) fuel s

variable {content blacklistFile} {s : LoopState}

theorem loop_ended (h : s.goesOn = some false) :
    Settles (loopFrom content blacklistFile s) (.ok false) := checkLoop_ended h

theorem loop_oops (h : s.goesOn = some true)
    (hnext : (s.refill blacklistFile).bind LoopState.nextLine = none) :
    Settles (loopFrom content blacklistFile s) (.error .oops) := checkLoop_oops h hnext

theorem loop_refilled {s' : LoopState} (h : s.goesOn = some true)
    (hfill : s.refill blacklistFile = some s') (hs' : s'.pending = some true) :
    loopFrom content blacklistFile s = loopFrom content blacklistFile s' := by
  funext fuel
  cases fuel with
  | zero =>
    rw [loopFrom, loopFrom, checkLoop, checkLoop, h, goesOn_of_pending hs']
  | succ fuel =>
    rw [loopFrom, loopFrom, checkLoop, checkLoop, h, goesOn_of_pending hs', hfill,
      refill_of_pending hs']

theorem loop_line {s' : LoopState} {l : Line} (hpend : s.pending = some true)
    (hnext : s.nextLine = (decode l).map fun r => (s', r)) (hshort : l.length < pageSize) :
    (∀ r, lineVerdict content l = some r → Settles (loopFrom content blacklistFile s) r) ∧
    (lineVerdict content l = none → ∃ calls, ∀ r,
      Settles (loopFrom content blacklistFile { s' with inputCalls := calls }) r →
      Settles (loopFrom content blacklistFile s) r) := by
  have hgo := goesOn_of_pending hpend
  have hfill : (s.refill blacklistFile).bind LoopState.nextLine =
      (decode l).map fun r => (s', r) := by
    rw [refill_of_pending hpend, Option.bind_some, hnext]
  rw [lineVerdict, if_pos hshort]
  cases hdecode : decode l with
  | none =>
    rw [hdecode] at hfill
    refine ⟨fun r hr => ?_, nofun⟩
    obtain rfl := Option.some.inj hr
    exact loop_oops hgo hfill
  | some decoded =>
    rw [hdecode, Option.map_some] at hfill
    cases decoded with
    | none =>
      refine ⟨fun r hr => ?_, nofun⟩
      obtain rfl := Option.some.inj hr
      apply (Settles.const _).round
      intro fuel
      rw [loopFrom, checkLoop, hgo]
      simp only [hfill]
    | some hex =>
      have hlt := decode_length hdecode
      have hlen : hex.length < pageSize - 1 := Nat.lt_sub_of_add_lt (by omega)
      rcases @scan_visible content hex hlen s'.inputCalls with
        ⟨found, calls, hscan, hvisible⟩
      cases found with
      | true =>
        have hv : Visible content hex := hvisible.mp rfl
        simp only [if_pos hv]
        refine ⟨fun r hr => ?_, nofun⟩
        obtain rfl := Option.some.inj hr
        exact (hscan.bind (Settles.const _)).round (checkLoop_scan hgo hfill)
      | false =>
        have hv : ¬ Visible content hex := fun hv => Bool.false_ne_true (hvisible.mpr hv)
        simp only [if_neg hv]
        exact ⟨nofun, fun _ => ⟨calls, fun r hr => checkLoop_unmatched hgo hfill hscan hr⟩⟩

theorem lines_run {ls : List Line} (hls : ∀ l ∈ ls, Plain l ∧ l.length < pageSize)
    (hs : s.Holds (render ls)) :
    (∀ r, ls.findSome? (lineVerdict content) = some r →
      Settles (loopFrom content blacklistFile s) r) ∧
    (ls.findSome? (lineVerdict content) = none → ∃ s', s'.Holds [] ∧
      s'.blacklistSize = s.blacklistSize ∧ s'.blacklistFp = s.blacklistFp ∧
      ∀ r, Settles (loopFrom content blacklistFile s') r →
        Settles (loopFrom content blacklistFile s) r) := by
  induction ls generalizing s with
  | nil => exact ⟨nofun, fun _ => ⟨s, hs, rfl, rfl, fun _ hr => hr⟩⟩
  | cons l ls ih =>
    rcases hls l List.mem_cons_self with ⟨hl, hshort⟩
    have hnul : NulFree (render (l :: ls)) := render_nulFree fun x hx => (hls x hx).1
    have hpend : s.pending = some true := by
      rw [hs.pending hnul]
      simp
    rw [render_cons] at hs
    rcases nextLine_terminated hs hl hshort with ⟨page, p, hholds, hnext⟩
    rcases @loop_line content blacklistFile s _ l hpend hnext hshort with ⟨hends, hgoes⟩
    rw [List.findSome?_cons]
    cases hverdict : lineVerdict content l with
    | some r =>
      refine ⟨fun r' hr => ?_, nofun⟩
      obtain rfl := Option.some.inj hr
      exact hends _ hverdict
    | none =>
      rcases hgoes hverdict with ⟨calls, hcalls⟩
      rcases ih (fun x hx => hls x (List.mem_cons_of_mem l hx))
        (s := { s with initBuff := page, workBuff := some p, inputCalls := calls }) hholds with
        ⟨hrest, hdone⟩
      refine ⟨fun r hr => hcalls r (hrest r hr), fun hr => ?_⟩
      rcases hdone hr with ⟨s', hs', hsize, hfp, hback⟩
      exact ⟨s', hs', hsize, hfp, fun r hr => hcalls r (hback r hr)⟩

end rounds

/-- `n` bytes of the blacklist are behind the loop, and no line is pending. The file
position counts only while the size, an int, says there is more. -/
structure LoopState.At (s : LoopState) (blacklist : List Byte) (n : ℕ) : Prop where
  length : s.initBuff.length = pageSize
  idle : s.pending = some false
  size : s.blacklistSize = toInt blacklist.length - n
  position : 0 < s.blacklistSize → s.blacklistFp = n

def pageAt (blacklist : List Byte) (n : ℕ) : List Byte := (blacklist.drop n).take pageSize

section paging
variable {content blacklist : List Byte} {s : LoopState} {n : ℕ}

theorem LoopState.At.read (h : s.At blacklist n) (hmore : 0 < s.blacklistSize) :
    (regularFile blacklist).read s.blacklistCalls s.blacklistFp pageSize =
      some (pageAt blacklist n) := by
  simp only [regularFile, h.position hmore]
  rw [if_neg (Int.not_lt.mpr (Int.natCast_nonneg _)), Int.toNat_natCast]
  rfl

theorem LoopState.At.refill_oops (h : s.At blacklist n) (hmore : 0 < s.blacklistSize)
    (hcut : removeGarbageValue (pageAt blacklist n ++ s.initBuff.drop (pageAt blacklist n).length)
      (pageAt blacklist n).length = none) :
    s.refill (regularFile blacklist) = none := by
  rw [LoopState.refill, h.idle]
  simp only [h.read hmore, hcut]

/-- After the cut the int and the position count the text kept. -/
theorem LoopState.At.refill (h : s.At blacklist n) (hmore : 0 < s.blacklistSize)
    {page : List Byte} {m : ℕ}
    (hcut : removeGarbageValue (pageAt blacklist n ++ s.initBuff.drop (pageAt blacklist n).length)
      (pageAt blacklist n).length = some (page, m)) (hm : m ≤ pageSize) :
    ∃ s', s.refill (regularFile blacklist) = some s' ∧ s'.initBuff = page ∧
      s'.workBuff = some 0 ∧ s'.blacklistSize = toInt blacklist.length - (n + m : ℕ) ∧
      (0 < s'.blacklistSize → s'.blacklistFp = (n + m : ℕ)) := by
  have hsize := h.size
  have hposition := h.position hmore
  rcases toInt_size blacklist.length with ⟨hlo, hhi, -⟩
  have hm' : m ≤ 4096 := hm
  have hsize' : toInt (s.blacklistSize - m) = toInt blacklist.length - (n + m : ℕ) := by
    rw [toInt_of_lt (by omega) (by omega)]
    omega
  refine ⟨⟨toInt (s.blacklistSize - m), toInt (s.blacklistFp + m), page, some 0,
    s.blacklistCalls + 1, s.inputCalls⟩, ?_, rfl, rfl, hsize', fun hpos => ?_⟩
  · rw [LoopState.refill, h.idle]
    simp only [h.read hmore, hcut]
  · have hpos' : (0 : ℤ) < toInt blacklist.length - (n + m : ℕ) := hsize' ▸ hpos
    have hfp : toInt (s.blacklistFp + m) = (n + m : ℕ) := by
      rw [toInt_of_lt (by omega) (by omega)]
      omega
    exact hfp

theorem LoopState.At.ended (h : s.At blacklist n) (hdone : ¬ 0 < s.blacklistSize) :
    Settles (loopFrom content (regularFile blacklist) s) (.ok false) := by
  apply loop_ended
  rw [LoopState.goesOn, if_neg hdone, h.idle]

theorem goesOn_of_size (hmore : 0 < s.blacklistSize) : s.goesOn = some true := by
  rw [LoopState.goesOn, if_pos hmore]

theorem LoopState.At.refreshed_length (h : s.At blacklist n) :
    (pageAt blacklist n ++ s.initBuff.drop (pageAt blacklist n).length).length = pageSize := by
  have hle : (pageAt blacklist n).length ≤ pageSize := List.length_take_le _ _
  rw [List.length_append, List.length_drop, h.length]
  omega

theorem single_short (c : Byte) : [c].length < pageSize := by
  rw [List.length_singleton]
  decide

theorem lineVerdict_single (c : Byte) : lineVerdict content [c] =
    if c = 44 then if 0 < toInt content.length then some (.ok true) else none
    else some (.ok false) := by
  rw [lineVerdict, if_pos (single_short c)]
  by_cases hc : c = 44
  · subst hc
    have hdecode : decode [44] = some (some []) := rfl
    rw [hdecode, if_pos rfl]
    by_cases hk : 0 < toInt content.length
    · simp only [if_pos hk, if_pos (visible_nil hk)]
    · simp only [if_neg hk, if_neg (@not_visible_of_nonpos content [] (Int.not_lt.mp hk))]
  · have hfield : field [c] = none := by
      rw [field, List.dropWhile_cons_of_pos (by simpa using hc)]
      rfl
    rw [decode_of_no_field hfield, if_neg hc]

theorem one_byte (h : s.At blacklist n) (hmore : 0 < s.blacklistSize) {c : Byte}
    {part : List Byte} (hpage : pageAt blacklist n = c :: part) (hplain : Plain (c :: part)) :
    (∀ r, lineVerdict content [c] = some r →
      Settles (loopFrom content (regularFile blacklist) s) r) ∧
    (lineVerdict content [c] = none → ∃ s', s'.At blacklist (n + 1) ∧
      ∀ r, Settles (loopFrom content (regularFile blacklist) s') r →
        Settles (loopFrom content (regularFile blacklist) s) r) := by
  have hlen := h.refreshed_length
  have hcut := removeGarbageValue_part hplain (hpage ▸ hlen)
  rw [← hpage] at hcut
  rcases h.refill hmore hcut (by decide) with ⟨s', hfill, hbuff, hwork, hsize, hposition⟩
  have hone : s'.Holds [c] :=
    ⟨by rw [hbuff, removeGarbageValue_length hcut, hlen], [], _, hbuff, hwork⟩
  have hc : Plain [c] := hplain.subset (List.cons_subset_cons c (List.nil_subset part))
  have hpend : s'.pending = some true := by
    rw [hone.pending hc.1]
    rfl
  rcases nextLine_last hone hc (single_short c) with ⟨page, hpagelen, hnext⟩
  rcases @loop_line content (regularFile blacklist) _ _ _ hpend hnext (single_short c) with
    ⟨hends, hgoes⟩
  rw [loop_refilled (goesOn_of_size hmore) hfill hpend]
  refine ⟨hends, fun hverdict => ?_⟩
  rcases hgoes hverdict with ⟨calls, hcalls⟩
  exact ⟨{ s' with initBuff := page, workBuff := none, inputCalls := calls },
    ⟨hpagelen, rfl, hsize, hposition⟩, hcalls⟩

theorem tail_run {tail : List Byte} (htail : Plain tail) (h : s.At blacklist n)
    (hrest : blacklist.drop n = tail) :
    Settles (loopFrom content (regularFile blacklist) s)
      (.ok (decide (0 < s.blacklistSize ∧ tail.head? = some 44 ∧ 0 < toInt content.length))) := by
  induction tail generalizing s n with
  | nil =>
    have hdone : ¬ 0 < s.blacklistSize := by
      have hlen : blacklist.length ≤ n := List.drop_eq_nil_iff.mp hrest
      have hsize := h.size
      rcases toInt_size blacklist.length with ⟨-, -, hint⟩
      omega
    simp only [hdone, false_and, decide_false]
    exact h.ended hdone
  | cons c tail ih =>
    by_cases hmore : 0 < s.blacklistSize
    · have hpage : pageAt blacklist n = c :: tail.take (pageSize - 1) := by
        rw [pageAt, hrest]
        rfl
      have hplain : Plain (c :: tail.take (pageSize - 1)) :=
        htail.subset (List.take_subset pageSize (c :: tail))
      rcases @one_byte content _ _ _ h hmore _ _ hpage hplain with ⟨hends, hgoes⟩
      rw [lineVerdict_single] at hends hgoes
      by_cases hc : c = 44
      · subst hc
        by_cases hk : 0 < toInt content.length
        · simp only [hmore, hk, List.head?_cons, and_self, decide_true]
          exact hends _ (by simp only [if_pos hk, if_true])
        · rcases hgoes (by simp only [if_neg hk, if_true]) with ⟨s', hs', hback⟩
          have htail' : Plain tail := htail.subset (List.subset_cons_self 44 tail)
          have hdrop : blacklist.drop (n + 1) = tail := by
            rw [← List.drop_drop, hrest]
            rfl
          have := ih htail' hs' hdrop
          simp only [hk, and_false, decide_false] at this ⊢
          exact hback _ this
      · have hhead : ¬ (c :: tail).head? = some 44 := by simpa using hc
        simp only [hhead, false_and, and_false, decide_false]
        exact hends _ (if_neg hc)
    · simp only [hmore, false_and, decide_false]
      exact h.ended hmore

section filled
variable {l : Line} {ls : List Line} {tail : List Byte}

theorem fill_split (room : ℕ) (ls : List Line) :
    render (fill room ls).1 ++ render (fill room ls).2 = render ls := by
  rw [← render_append, fill_append]

theorem drop_page (hrest : blacklist.drop n = render ls ++ tail) (room : ℕ) :
    blacklist.drop (n + (render (fill room ls).1).length) = render (fill room ls).2 ++ tail := by
  rw [← List.drop_drop, hrest, ← fill_split room ls, List.append_assoc, List.drop_left]

theorem filled_page (h : s.At blacklist n) (hls : ∀ x ∈ l :: ls, Plain x) (htail : Plain tail)
    (hrest : blacklist.drop n = render (l :: ls) ++ tail) (hl : l.length + 1 ≤ pageSize) :
    ∃ rest, removeGarbageValue
        (pageAt blacklist n ++ s.initBuff.drop (pageAt blacklist n).length)
        (pageAt blacklist n).length =
      if (render (fill pageSize (l :: ls)).1).length = pageSize then none
      else some (render (fill pageSize (l :: ls)).1 ++ 0 :: rest,
        (render (fill pageSize (l :: ls)).1).length) := by
  have hlen := h.refreshed_length
  have happ := fill_append pageSize (l :: ls)
  have hsplit := fill_split pageSize (l :: ls)
  have hfits := fill_fits pageSize (l :: ls)
  have hnext := @fill_next pageSize (l :: ls)
  rcases @fill_cons l ls pageSize hl with ⟨p, hfill, -⟩
  rw [hfill] at happ hsplit hfits hnext ⊢
  have hp : ∀ x ∈ l :: p, Plain x := by
    intro x hx
    exact hls x (happ ▸ List.mem_append_left _ hx)
  have hothers : ∀ x ∈ (fill pageSize (l :: ls)).2, Plain x :=
    fun x hx => hls x (happ ▸ List.mem_append_right _ hx)
  have hpart := @part_plain (fill pageSize (l :: ls)).2 tail
    (pageSize - (render (l :: p)).length) hothers htail (by
      intro m ms hm
      have := hnext hm
      omega)
  have hpage : pageAt blacklist n = render (l :: p) ++
      (render (fill pageSize (l :: ls)).2 ++ tail).take (pageSize - (render (l :: p)).length) := by
    rw [pageAt, hrest, ← hsplit, List.append_assoc, List.take_append,
      List.take_of_length_le hfits]
  rw [hpage] at hlen ⊢
  exact ⟨_, removeGarbageValue_lines hp hpart hlen⟩

theorem LoopState.At.refill_full (h : s.At blacklist n) (hmore : 0 < s.blacklistSize)
    (hls : ∀ x ∈ l :: ls, Plain x) (htail : Plain tail)
    (hrest : blacklist.drop n = render (l :: ls) ++ tail) (hl : l.length + 1 ≤ pageSize)
    (hfull : (render (fill pageSize (l :: ls)).1).length = pageSize) :
    s.refill (regularFile blacklist) = none := by
  obtain ⟨rest, hcut⟩ := filled_page h hls htail hrest hl
  rw [if_pos hfull] at hcut
  exact h.refill_oops hmore hcut

theorem LoopState.At.refill_page (h : s.At blacklist n) (hmore : 0 < s.blacklistSize)
    (hls : ∀ x ∈ l :: ls, Plain x) (htail : Plain tail)
    (hrest : blacklist.drop n = render (l :: ls) ++ tail) (hl : l.length + 1 ≤ pageSize)
    (hroom : (render (fill pageSize (l :: ls)).1).length ≠ pageSize) :
    ∃ s', s.refill (regularFile blacklist) = some s' ∧
      s'.Holds (render (fill pageSize (l :: ls)).1) ∧ s'.pending = some true ∧
      s'.blacklistSize = toInt blacklist.length -
        (n + (render (fill pageSize (l :: ls)).1).length : ℕ) ∧
      (0 < s'.blacklistSize →
        s'.blacklistFp = (n + (render (fill pageSize (l :: ls)).1).length : ℕ)) := by
  have happ := fill_append pageSize (l :: ls)
  obtain ⟨p, hpage, -⟩ := @fill_cons l ls pageSize hl
  obtain ⟨rest, hcut⟩ := filled_page h hls htail hrest hl
  rw [if_neg hroom] at hcut
  obtain ⟨s', hfill, hbuff, hwork, hsize, hposition⟩ :=
    h.refill hmore hcut (fill_fits pageSize (l :: ls))
  have hplain : ∀ x ∈ (fill pageSize (l :: ls)).1, Plain x :=
    fun x hx => hls x (happ ▸ List.mem_append_left _ hx)
  have hholds : s'.Holds (render (fill pageSize (l :: ls)).1) :=
    ⟨by rw [hbuff, removeGarbageValue_length hcut, h.refreshed_length], [], rest, hbuff, hwork⟩
  have hpend : s'.pending = some true := by
    rw [hholds.pending (render_nulFree hplain), hpage]
    simp
  exact ⟨s', hfill, hholds, hpend, hsize, hposition⟩

theorem page_run (h : s.At blacklist n) (hmore : 0 < s.blacklistSize)
    (hls : ∀ x ∈ l :: ls, Plain x) (htail : Plain tail)
    (hrest : blacklist.drop n = render (l :: ls) ++ tail) (hl : l.length + 1 ≤ pageSize)
    (hroom : (render (fill pageSize (l :: ls)).1).length ≠ pageSize) :
    (∀ r, (fill pageSize (l :: ls)).1.findSome? (lineVerdict content) = some r →
      Settles (loopFrom content (regularFile blacklist) s) r) ∧
    ((fill pageSize (l :: ls)).1.findSome? (lineVerdict content) = none →
      ∃ s', s'.At blacklist (n + (render (fill pageSize (l :: ls)).1).length) ∧
        ∀ r, Settles (loopFrom content (regularFile blacklist) s') r →
          Settles (loopFrom content (regularFile blacklist) s) r) := by
  have happ := fill_append pageSize (l :: ls)
  have hfits := fill_fits pageSize (l :: ls)
  obtain ⟨s', hfill, hholds, hpend, hsize, hposition⟩ :=
    h.refill_page hmore hls htail hrest hl hroom
  have hlines : ∀ x ∈ (fill pageSize (l :: ls)).1, Plain x ∧ x.length < pageSize :=
    fun x hx => ⟨hls x (happ ▸ List.mem_append_left _ hx), (length_lt_render hx).trans_le hfits⟩
  rw [loop_refilled (goesOn_of_size hmore) hfill hpend]
  rcases @lines_run content (regularFile blacklist) s' _ hlines hholds with ⟨hends, hgoes⟩
  refine ⟨hends, fun hverdict => ?_⟩
  rcases hgoes hverdict with ⟨s₂, hdone, hsize₂, hposition₂, hback⟩
  refine ⟨s₂, ⟨hdone.1, hdone.pending (by simp [NulFree]), hsize₂.trans hsize, ?_⟩, hback⟩
  intro hpos
  exact hposition₂.trans (hposition (hsize₂ ▸ hpos))

theorem long_line_run (h : s.At blacklist n) (hmore : 0 < s.blacklistSize) (hl : Plain l)
    (hrest : blacklist.drop n = render (l :: ls) ++ tail) (hlen : pageSize ≤ l.length)
    (hk : 0 < toInt content.length) :
    Settles (loopFrom content (regularFile blacklist) s)
      (.ok (decide (l.head? = some 44))) := by
  obtain ⟨c, rest, rfl⟩ : ∃ c rest, l = c :: rest :=
    List.exists_cons_of_length_pos (Nat.lt_of_lt_of_le (by decide) hlen)
  have hpage : pageAt blacklist n = c :: rest.take (pageSize - 1) := by
    rw [pageAt, hrest, render_cons, List.append_assoc, List.take_append_of_le_length hlen]
    rfl
  have hplain : Plain (c :: rest.take (pageSize - 1)) :=
    hl.subset (List.take_subset pageSize (c :: rest))
  apply (@one_byte content _ _ _ h hmore _ _ hpage hplain).1
  rw [lineVerdict_single, if_pos hk]
  by_cases hc : c = 44
  · subst hc
    rfl
  · have hhead : ¬ (c :: rest).head? = some 44 := by simpa using hc
    simp only [if_neg hc, hhead, decide_false]

end filled

end paging

/-- The result of the check on a blacklist of `size` bytes in these pages and a part of a
line behind them. -/
noncomputable def pagesVerdict (content tail : List Byte) :
    ℤ → List (List Line) → Except Halt Bool
  | size, [] =>
    .ok (decide (0 < size ∧ tail.head? = some 44 ∧ 0 < toInt content.length))
  | size, page :: pages =>
    if 0 < size then
      if (render page).length = pageSize then .error .oops
      else
        match page.findSome? (lineVerdict content) with
        | some r => r
        | none => pagesVerdict content tail (size - (render page).length) pages
    else .ok false

theorem pagesVerdict_long {content tail : List Byte} {size : ℤ} {l : Line} (hmore : 0 < size)
    (hl : pageSize ≤ l.length) (pages : List (List Line)) :
    pagesVerdict content tail size ([l] :: pages) = .ok (decide (l.head? = some 44)) := by
  have hfull : ¬ (render [l]).length = pageSize := by
    simp only [render_cons, render_nil, List.length_append, List.length_singleton]
    omega
  have hsingle : ¬ l.length < pageSize := by omega
  rw [pagesVerdict, if_pos hmore, if_neg hfull, List.findSome?_cons, lineVerdict, if_neg hsingle]

theorem pages_run {content blacklist tail : List Byte} {ls : List Line}
    (hls : ∀ l ∈ ls, Plain l) (htail : Plain tail)
    (hlong : 0 < toInt content.length ∨ ∀ l ∈ ls, l.length < pageSize)
    {s : LoopState} {n : ℕ} (h : s.At blacklist n)
    (hrest : blacklist.drop n = render ls ++ tail) :
    Settles (loopFrom content (regularFile blacklist) s)
      (pagesVerdict content tail s.blacklistSize (paginate ls)) := by
  generalize hcount : ls.length = count
  induction count using Nat.strong_induction_on generalizing ls s n with
  | _ count ih =>
    cases ls with
    | nil =>
      rw [paginate, pagesVerdict]
      exact tail_run htail h hrest
    | cons l ls =>
      by_cases hl : l.length + 1 ≤ pageSize
      · rw [paginate_short hl, pagesVerdict]
        by_cases hmore : 0 < s.blacklistSize
        · rw [if_pos hmore]
          by_cases hfull : (render (fill pageSize (l :: ls)).1).length = pageSize
          · rw [if_pos hfull]
            apply loop_oops (goesOn_of_size hmore)
            rw [h.refill_full hmore hls htail hrest hl hfull, Option.bind_none]
          · rw [if_neg hfull]
            rcases @page_run content _ _ _ _ _ _ h hmore hls htail hrest hl hfull with
              ⟨hends, hgoes⟩
            cases hverdict : (fill pageSize (l :: ls)).1.findSome? (lineVerdict content) with
            | some r => exact hends r hverdict
            | none =>
              rcases hgoes hverdict with ⟨s', hat, hback⟩
              have happ := fill_append pageSize (l :: ls)
              rcases @fill_cons l ls pageSize hl with ⟨-, -, hfewer⟩
              have hleft : s.blacklistSize - (render (fill pageSize (l :: ls)).1).length =
                  s'.blacklistSize := by
                rw [hat.size, h.size]
                omega
              simp only [hleft]
              exact hback _ (ih _ (by rw [List.length_cons] at hcount; omega)
                (fun x hx => hls x (happ ▸ List.mem_append_right _ hx))
                (hlong.imp_right fun hall x hx => hall x (happ ▸ List.mem_append_right _ hx))
                hat (drop_page hrest pageSize) rfl)
        · rw [if_neg hmore]
          exact h.ended hmore
      · rw [paginate_long hl]
        have hl' : pageSize ≤ l.length := by omega
        by_cases hmore : 0 < s.blacklistSize
        · have hk : 0 < toInt content.length :=
            hlong.resolve_right fun hall => absurd (hall l List.mem_cons_self) (by omega)
          rw [pagesVerdict_long hmore hl']
          exact long_line_run h hmore (hls l List.mem_cons_self) hrest hl' hk
        · rw [pagesVerdict, if_neg hmore]
          exact h.ended hmore

/-- The check of a regular file against a blacklist of lines, once the pages are there. -/
theorem check_run {content tail : List Byte} {ls : List Line} (hls : ∀ l ∈ ls, Plain l)
    (htail : Plain tail) (hlong : 0 < toInt content.length ∨ ∀ l ∈ ls, l.length < pageSize)
    {pages : Pages} {page : List Byte} (hinput : pages.inputFileBuff = true)
    (hinit : pages.initBuff = some page) (hhex : pages.hexInChar = true) :
    Settles (checkInBlacklist pages (regularFile content) (regularFile (render ls ++ tail)))
      (pagesVerdict content tail (toInt (render ls ++ tail).length) (paginate ls)) := by
  have hlen := pages.initBuff_length page hinit
  have hat : LoopState.At ⟨toInt (render ls ++ tail).length, 0, page.set 0 0, none, 0, 0⟩
      (render ls ++ tail) 0 :=
    ⟨by rw [List.length_set, hlen], rfl, by simp, fun _ => rfl⟩
  have hrun := @pages_run content _ tail ls hls htail hlong _ _ hat List.drop_zero
  dsimp only at hrun
  apply hrun.congr
  intro fuel
  rw [checkInBlacklist, if_pos hinput, hinit]
  simp only [if_pos hhex]
  rfl

theorem check_unallocated {pages : Pages} (hinput : pages.inputFileBuff = false)
    (inputFile blacklistFile : VFile) :
    Settles (checkInBlacklist pages inputFile blacklistFile) (.ok false) := by
  apply (Settles.const _).congr
  intro fuel
  rw [checkInBlacklist, hinput]
  rfl

/-- The other two pages are used unseen. -/
theorem check_oops {pages : Pages} (hinput : pages.inputFileBuff = true)
    (hother : pages.initBuff = none ∨ pages.hexInChar = false)
    (inputFile blacklistFile : VFile) :
    Settles (checkInBlacklist pages inputFile blacklistFile) (.error .oops) := by
  apply (Settles.const _).congr
  intro fuel
  rw [checkInBlacklist, if_pos hinput]
  rcases hother with hnone | hhex
  · rw [hnone]
  · rw [hhex]
    split <;> rfl

theorem checkLoop_empty {size : ℤ} (h : ¬ 0 < size) (inputFile blacklistFile : VFile)
    (fuel : ℕ) (s : LoopState) :
    checkLoop inputFile blacklistFile size fuel s ≠ .ok true := by
  induction fuel generalizing s with
  | zero =>
    rw [checkLoop]
    cases s.goesOn with
    | none => nofun
    | some more => cases more <;> nofun
  | succ fuel ih =>
    rw [checkLoop]
    cases s.goesOn with
    | none => nofun
    | some more =>
      cases more with
      | false => nofun
      | true =>
        cases (s.refill blacklistFile).bind LoopState.nextLine with
        | none => nofun
        | some next =>
          rcases next with ⟨s', _ | hexInChar⟩
          · nofun
          · simp only [scan_nonpos h]
            exact ih _

theorem check_empty {content : List Byte} {pages : Pages} {blacklistFile : VFile}
    (h : Settles (checkInBlacklist pages (regularFile content) blacklistFile) (.ok true)) :
    0 < toInt content.length := by
  rcases h with ⟨fuel, hfuel⟩
  have htrue := hfuel fuel le_rfl
  by_contra hk
  rw [checkInBlacklist] at htrue
  split at htrue
  · split at htrue
    · cases htrue
    · split at htrue
      · exact checkLoop_empty hk _ _ _ _ htrue
      · cases htrue
  · cases htrue

end VirusCheck
