import LoadableSystemCalls.BlacklistLines
import LoadableSystemCalls.BlacklistVerdict
import LoadableSystemCalls.ScanRounds

/-! # Sizes kept in ints (anti_module.c)

check_in_blacklist keeps two sizes and a position of 64 bits in ints. As long as both files
are below 2^31 bytes none of its variables wraps, and then every byte of both is gone over. -/
namespace SizeCoverage

open CStrings FueledLoops KernelTypes TransitionRuns FileScan BlacklistPaging VirusCheck
open BlacklistLines (Unmatched TakesLines start loopOn)
open ScanRounds (Head Reaches FitsInt)
open BlacklistVerdict (Alarm NoneFull letterA letterA_wellFormed)

structure PatternLine (l : Line) : Prop where
  plain : Plain l
  short : l.length < pageSize
  decodes : ∃ hex, decode l = some (some hex) ∧ hex ≠ [] ∧ NulFree hex

section loop
variable (inputFile blacklistFile : VFile) (page : List Byte)

/-- The heads of the outer loop before a match. -/
def AtHead (t : LoopState) : Prop :=
  ∃ ls, Run (BlacklistLines.Round inputFile blacklistFile) (start blacklistFile page) ls t

def Takes (t s : LoopState) (hex : List Byte) : Prop :=
  t.goesOn = some true ∧
    (t.refill blacklistFile).bind LoopState.nextLine = some (s, some hex)

def ReadAt (s : LoopState) (hex : List Byte) (h : Head) (buff : List Byte) : Prop :=
  Reaches inputFile (toInt inputFile.iSize) hex s.inputCalls h ∧
    ∃ h', ScanRounds.Round inputFile (toInt inputFile.iSize) hex h buff h'

/-- No value is changed by being kept in an int: the sizes on entry, what is left of the
blacklist and the position after a page, and what is left of the file after a read. -/
structure NeverWraps : Prop where
  original : FitsInt inputFile.iSize
  blacklist : FitsInt blacklistFile.iSize
  refills : ∀ t b cut n, AtHead inputFile blacklistFile page t → t.goesOn = some true →
    t.pending = some false → blacklistFile.read t.blacklistCalls t.blacklistFp pageSize = some b →
    removeGarbageValue (b ++ t.initBuff.drop b.length) b.length = some (cut, n) →
    FitsInt (t.blacklistSize - n) ∧ FitsInt (t.blacklistFp + n)
  scans : ∀ t s hex h buff, AtHead inputFile blacklistFile page t → Takes blacklistFile t s hex →
    ReadAt inputFile s hex h buff → FitsInt (h.fileSize - buff.length) ∧
      (h.fPos + buff.length ≠ toInt inputFile.iSize →
        FitsInt (h.fileSize - buff.length + hex.length))

end loop

/-- Nothing wraps; the scan for a line's bytes has read every byte of the file unless it finds
them, and the outer loop has taken every line of the blacklist unless it ends with a match. -/
structure Covers (content : List Byte) (ls : List Line) (page : List Byte) : Prop where
  wraps : NeverWraps (regularFile content) (regularFile (render ls)) page
  file : ∀ t s hex calls, AtHead (regularFile content) (regularFile (render ls)) page t →
    Takes (regularFile (render ls)) t s hex →
    Unmatched (regularFile content) hex s.inputCalls calls →
    ∀ j < content.length, ∃ h buff, ReadAt (regularFile content) s hex h buff ∧
      h.fPos ≤ j ∧ j < h.fPos + buff.length
  blacklist : Settles (loopOn (regularFile content) (regularFile (render ls))
      (start (regularFile (render ls)) page)) (.ok true) ∨
    TakesLines (regularFile content) (regularFile (render ls)) page ls

section heads
variable {ls : List Line} {t s : LoopState} {hex : List Byte}

def Behind (ls : List Line) (t : LoopState) : Prop :=
  (∃ before rest, ls = before ++ rest ∧ t.At (render ls) (render before).length) ∨
  ∃ before l p rest, ls = before ++ l :: p ++ rest ∧ t.Holds (render (l :: p)) ∧
    t.blacklistSize = toInt (render ls).length - (render (before ++ l :: p)).length ∧
    (0 < t.blacklistSize → t.blacklistFp = (render (before ++ l :: p)).length)

theorem behind_start {page : List Byte} (hpage : page.length = pageSize) :
    Behind ls (start (regularFile (render ls)) page) :=
  Or.inl ⟨[], ls, rfl, BlacklistLines.start_at hpage (render ls)⟩

theorem line_taken (hls : ∀ l ∈ ls, Plain l ∧ l.length < pageSize) {before p rest : List Line}
    {l : Line} (hsplit : ls = before ++ l :: p ++ rest) (hholds : t.Holds (render (l :: p)))
    (hsize : t.blacklistSize = toInt (render ls).length - (render (before ++ l :: p)).length)
    (hfp : 0 < t.blacklistSize → t.blacklistFp = (render (before ++ l :: p)).length)
    (hnext : t.nextLine = some (s, some hex)) :
    decode l = some (some hex) ∧ ∀ calls, Behind ls { s with inputCalls := calls } := by
  obtain ⟨hplain, hshort⟩ := hls l (by simp [hsplit])
  rw [render_cons] at hholds
  obtain ⟨buff, work, hs, hline⟩ := nextLine_terminated hholds hplain hshort
  rw [hnext] at hline
  obtain ⟨decoded, hdecode, heq⟩ := Option.map_eq_some_iff.mp hline.symm
  obtain ⟨rfl, rfl⟩ := Prod.mk.inj heq
  refine ⟨hdecode, ?_⟩
  intro calls
  cases p with
  | nil =>
    refine Or.inl ⟨before ++ [l], rest, hsplit, ?_⟩
    exact ⟨hs.1, hs.pending (by simp [NulFree]), hsize, hfp⟩
  | cons m p =>
    have happ : before ++ l :: m :: p = before ++ [l] ++ m :: p := by simp
    rw [happ] at hsplit hsize hfp
    exact Or.inr ⟨before ++ [l], m, p, rest, hsplit, hs, hsize, hfp⟩

theorem takes_line (hls : ∀ l ∈ ls, Plain l ∧ l.length < pageSize)
    (hsize : (render ls).length < 2147483648) (h : Behind ls t)
    (ht : Takes (regularFile (render ls)) t s hex) :
    (∃ l ∈ ls, decode l = some (some hex)) ∧ ∀ calls, Behind ls { s with inputCalls := calls } := by
  obtain ⟨hgo, hnext⟩ := ht
  have hint : toInt (render ls).length = (render ls).length := toInt_natCast hsize
  rcases h with ⟨before, rest, hsplit, hat⟩ | ⟨before, l, p, rest, hsplit, hholds, hleft, hfp⟩
  · cases rest with
    | nil =>
      have hdone : ¬ 0 < t.blacklistSize := by
        have hzero := hat.size
        rw [hsplit, List.append_nil] at hzero hint
        omega
      rw [LoopState.goesOn, if_neg hdone, hat.idle] at hgo
      cases hgo
    | cons l rest =>
      have hmore : 0 < t.blacklistSize := by
        have hlen := congrArg (fun ls => (render ls).length) hsplit
        simp only [render_append, render_cons, List.length_append, List.length_cons] at hlen
        have hzero := hat.size
        omega
      have hrest : (render ls).drop (render before).length = render (l :: rest) ++ [] := by
        rw [hsplit, render_append, List.drop_left, List.append_nil]
      have hplain : ∀ x ∈ l :: rest, Plain x := fun x hx => (hls x (by
        rw [hsplit]
        exact List.mem_append_right _ hx)).1
      have hl : l.length + 1 ≤ pageSize := (hls l (by simp [hsplit])).2
      by_cases hfull : (render (fill pageSize (l :: rest)).1).length = pageSize
      · rw [hat.refill_full hmore hplain (by simp [Plain, NulFree]) hrest hl hfull] at hnext
        cases hnext
      · obtain ⟨s₁, hfill, hholds, -, hleft, hfp⟩ :=
          hat.refill_page hmore hplain (by simp [Plain, NulFree]) hrest hl hfull
        have happ := fill_append pageSize (l :: rest)
        obtain ⟨p, hpage, -⟩ := @fill_cons l rest pageSize hl
        rw [hfill, Option.bind_some] at hnext
        rw [hpage] at hholds hleft hfp happ
        have hsplit' : ls = before ++ l :: p ++ (fill pageSize (l :: rest)).2 := by
          rw [List.append_assoc, happ]
          exact hsplit
        rw [← List.length_append, ← render_append] at hleft hfp
        obtain ⟨hdecode, hbehind⟩ := line_taken hls hsplit' hholds hleft hfp hnext
        exact ⟨⟨l, by simp [hsplit], hdecode⟩, hbehind⟩
  · have hpend : t.pending = some true := by
      rw [hholds.pending (render_nulFree fun x hx => (hls x (by
        rw [hsplit]
        exact List.mem_append_left _ (List.mem_append_right _ hx))).1)]
      simp
    rw [refill_of_pending hpend, Option.bind_some] at hnext
    obtain ⟨hdecode, hbehind⟩ := line_taken hls hsplit hholds hleft hfp hnext
    exact ⟨⟨l, by simp [hsplit], hdecode⟩, hbehind⟩

theorem behind_of_atHead {inputFile : VFile} {page : List Byte}
    (hls : ∀ l ∈ ls, Plain l ∧ l.length < pageSize) (hsize : (render ls).length < 2147483648)
    (hpage : page.length = pageSize) (h : AtHead inputFile (regularFile (render ls)) page t) :
    Behind ls t := by
  obtain ⟨taken, hrun⟩ := h
  apply hrun.invariant
  · intro x l y hx hround
    obtain ⟨hgo, s₁, p, behind, s₂, hex, calls, hfill, -, -, hnext, -, rfl⟩ := hround
    have htakes : Takes (regularFile (render ls)) x s₂ hex := by
      refine ⟨hgo, ?_⟩
      rw [hfill, Option.bind_some]
      exact hnext
    exact (takes_line hls hsize hx htakes).2 calls
  · exact behind_start hpage

theorem refill_fits (hls : ∀ l ∈ ls, Plain l ∧ l.length < pageSize)
    (hsize : (render ls).length < 2147483648) (h : Behind ls t) (hgo : t.goesOn = some true)
    (hidle : t.pending = some false) {b cut : List Byte} {n : ℕ}
    (hread : (regularFile (render ls)).read t.blacklistCalls t.blacklistFp pageSize = some b)
    (hcut : removeGarbageValue (b ++ t.initBuff.drop b.length) b.length = some (cut, n)) :
    FitsInt (t.blacklistSize - n) ∧ FitsInt (t.blacklistFp + n) := by
  have hint : toInt (render ls).length = (render ls).length := toInt_natCast hsize
  rcases h with ⟨before, rest, hsplit, hat⟩ | ⟨before, l, p, rest, hsplit, hholds, -⟩
  · have hmore : 0 < t.blacklistSize := by
      by_contra hdone
      rw [LoopState.goesOn, if_neg hdone, hidle] at hgo
      cases hgo
    have hleft := hat.size
    have hfp := hat.position hmore
    cases rest with
    | nil =>
      rw [hsplit, List.append_nil] at hleft hint
      omega
    | cons l rest =>
      have hrest : (render ls).drop (render before).length = render (l :: rest) ++ [] := by
        rw [hsplit, render_append, List.drop_left, List.append_nil]
      have hplain : ∀ x ∈ l :: rest, Plain x := by
        intro x hx
        apply (hls x _).1
        rw [hsplit]
        exact List.mem_append_right _ hx
      have hl : l.length + 1 ≤ pageSize := (hls l (by simp [hsplit])).2
      obtain ⟨behind, hpage⟩ := filled_page hat hplain (by simp [Plain, NulFree]) hrest hl
      rw [hat.read hmore] at hread
      obtain rfl := Option.some.inj hread
      rw [hcut] at hpage
      split at hpage
      · cases hpage
      · obtain ⟨-, rfl⟩ := Prod.mk.inj (Option.some.inj hpage)
        have hlen := congrArg List.length (fill_split pageSize (l :: rest))
        have hall := congrArg (fun ls => (render ls).length) hsplit
        simp only [render_append, List.length_append] at hlen hall
        unfold FitsInt
        omega
  · have hpend : t.pending = some true := by
      rw [hholds.pending (render_nulFree fun x hx => (hls x (by
        rw [hsplit]
        exact List.mem_append_left _ (List.mem_append_right _ hx))).1)]
      simp
    rw [hidle] at hpend
    cases hpend

end heads

section scans
variable {content hex : List Byte} {s : LoopState} {h : Head} {buff : List Byte}

theorem read_length (hsize : content.length < 2147483648) (hlen : hex.length < pageSize - 1)
    (hat : ReadAt (regularFile content) s hex h buff) : 0 ≤ h.fPos ∧
      h.fileSize = content.length - h.fPos ∧ 0 < h.fileSize ∧
      buff.length = min 4095 (content.length - h.fPos.toNat) := by
  obtain ⟨hreach, h', hgo, hread, -⟩ := hat
  obtain ⟨hleft, hpos, -⟩ := ScanRounds.regular_head hsize hlen hreach
  refine ⟨hpos, hleft, hgo, ?_⟩
  simp only [regularFile, if_neg (Int.not_lt.mpr hpos)] at hread
  rw [← Option.some.inj hread, List.length_take, List.length_drop]
  rfl

theorem scan_fits (hsize : content.length < 2147483648) (hlen : hex.length < pageSize - 1)
    (hread : ReadAt (regularFile content) s hex h buff) :
    FitsInt (h.fileSize - buff.length) ∧
      (h.fPos + buff.length ≠ toInt content.length →
        FitsInt (h.fileSize - buff.length + hex.length)) := by
  have hint : toInt content.length = content.length := toInt_natCast hsize
  have hlen' : hex.length < 4095 := hlen
  obtain ⟨hpos, hleft, hgo, hbuff⟩ := read_length hsize hlen hread
  unfold FitsInt
  omega

theorem scan_covers (hsize : content.length < 2147483648) (hlen : hex.length < pageSize - 1)
    (hreach : Reaches (regularFile content) (toInt content.length) hex s.inputCalls h)
    {calls : ℕ} (hscan : Settles
      (ScanRounds.scanFrom (regularFile content) (toInt content.length) hex h) (.ok (false, calls)))
    {j : ℕ} (hj : j < content.length) (hfrom : h.fPos ≤ j) :
    ∃ h buff, ReadAt (regularFile content) s hex h buff ∧ h.fPos ≤ j ∧
      j < h.fPos + buff.length := by
  have hint : toInt content.length = content.length := toInt_natCast hsize
  have hlen' : hex.length < 4095 := hlen
  generalize hn : (content.length - h.fPos).toNat = n
  induction n using Nat.strong_induction_on generalizing h with
  | _ n ih =>
    obtain ⟨hleft, hpos, -⟩ := ScanRounds.regular_head hsize hlen hreach
    have hgo : 0 < h.fileSize := by omega
    obtain ⟨buff, hread⟩ : ∃ buff, (regularFile content).read h.call h.fPos (pageSize - 1) =
        some buff := ⟨_, if_neg (Int.not_lt.mpr hpos)⟩
    cases hseen : strstr (buff ++ [0]) (hex ++ [0]) with
    | true =>
      have hfound : Settles (ScanRounds.scanFrom (regularFile content) (toInt content.length) hex h)
          (.ok (true, h.call + 1)) :=
        (Settles.const _).round (ScanRounds.scan_found hgo hread hseen)
      cases hfound.unique hscan
    | false =>
      have hround : ScanRounds.Round (regularFile content) (toInt content.length) hex h buff
          (h.after (toInt content.length) hex buff) := ⟨hgo, hread, hseen, rfl⟩
      have hat : ReadAt (regularFile content) s hex h buff := ⟨hreach, _, hround⟩
      obtain ⟨-, -, -, hbuff⟩ := read_length hsize hlen hat
      by_cases hin : (j : ℤ) < h.fPos + buff.length
      · exact ⟨h, buff, hat, hfrom, hin⟩
      · have hmore : h.fPos + buff.length ≠ toInt content.length := by omega
        have hnext : (h.after (toInt content.length) hex buff).fPos =
            h.fPos + buff.length - hex.length := by
          rw [Head.after, if_pos hmore]
        exact ih _ (by omega) (hreach.round hround) (hscan.behind (ScanRounds.scan_round hround))
          (by omega) rfl

end scans

section files
variable {content : List Byte} {ls : List Line} {page : List Byte}

theorem plain_short (hls : ∀ l ∈ ls, PatternLine l) : ∀ l ∈ ls, Plain l ∧ l.length < pageSize :=
  fun l hl => ⟨(hls l hl).plain, (hls l hl).short⟩

theorem short_of_takes (hls : ∀ l ∈ ls, PatternLine l) (hpage : page.length = pageSize)
    (hsize : (render ls).length < 2147483648) {inputFile : VFile} {t s : LoopState}
    {hex : List Byte} (hat : AtHead inputFile (regularFile (render ls)) page t)
    (htakes : Takes (regularFile (render ls)) t s hex) : hex.length < pageSize - 1 := by
  have hlines := plain_short hls
  obtain ⟨⟨l, hl, hdecode⟩, -⟩ :=
    takes_line hlines hsize (behind_of_atHead hlines hsize hpage hat) htakes
  have hlen := decode_length hdecode
  have hshort := (hls l hl).short
  omega

theorem never_wraps (hls : ∀ l ∈ ls, PatternLine l) (hpage : page.length = pageSize)
    (hcontent : content.length < 2147483648) (hsize : (render ls).length < 2147483648) :
    NeverWraps (regularFile content) (regularFile (render ls)) page := by
  have hlines := plain_short hls
  constructor
  · exact ⟨by simp only [regularFile]; omega, by simp only [regularFile]; omega⟩
  · exact ⟨by simp only [regularFile]; omega, by simp only [regularFile]; omega⟩
  · intro t b cut n hat hgo hidle hread hcut
    exact refill_fits hlines hsize (behind_of_atHead hlines hsize hpage hat) hgo hidle hread hcut
  · intro t s hex h buff hat htakes hread
    exact scan_fits hcontent (short_of_takes hls hpage hsize hat htakes) hread

theorem entry_of_silent {l : Line} (hl : PatternLine l) (hsilent : ¬ Alarm content l) :
    BlacklistLines.Entry (regularFile content) l := by
  obtain ⟨hex, hdecode, -⟩ := hl.decodes
  have hunseen : ¬ Visible content hex := by
    intro hv
    exact hsilent ((BlacklistVerdict.alarm_short hl.short).mpr ⟨hex, hdecode, hv⟩)
  exact ⟨hl.plain, hl.short, BlacklistLines.passes_regular hdecode hl.short hunseen⟩

theorem decodes_all (hls : ∀ l ∈ ls, PatternLine l) : ∀ l ∈ (paginate ls).flatten,
    lineVerdict content l = none ∨ lineVerdict content l = some (.ok true) := by
  intro l hl
  rw [paginate_flatten] at hl
  obtain ⟨hex, hdecode, -⟩ := (hls l hl).decodes
  exact (BlacklistVerdict.decodes_iff (hls l hl).short).mpr ⟨hex, hdecode⟩

theorem loop_verdict (hls : ∀ l ∈ ls, PatternLine l) (hpage : page.length = pageSize)
    (hsize : (render ls).length < 2147483648) :
    Settles (loopOn (regularFile content) (regularFile (render ls))
        (start (regularFile (render ls)) page))
      (pagesVerdict content [] (render ls).length (paginate ls)) := by
  have hint : toInt (render ls).length = (render ls).length := toInt_natCast hsize
  have hrest : (render ls).drop 0 = render ls ++ [] := (List.append_nil (render ls)).symm
  have hrun := @pages_run content (render ls) [] ls (fun l hl => (hls l hl).plain)
    (by simp [Plain, NulFree]) (Or.inr fun l hl => (hls l hl).short) _ 0
    (BlacklistLines.start_at hpage (render ls)) hrest
  have hleft : (start (regularFile (render ls)) page).blacklistSize = (render ls).length := by
    simp only [start, regularFile, hint]
  rw [hleft] at hrun
  exact hrun

theorem loop_covers (hls : ∀ l ∈ ls, PatternLine l) (hpage : page.length = pageSize)
    (hsize : (render ls).length < 2147483648)
    (hnone : NoneFull content (render ls).length (paginate ls)) :
    Settles (loopOn (regularFile content) (regularFile (render ls))
        (start (regularFile (render ls)) page)) (.ok true) ∨
      TakesLines (regularFile content) (regularFile (render ls)) page ls := by
  have hverdict := @loop_verdict content ls page hls hpage hsize
  obtain ⟨found, hfound, hiff⟩ :=
    @BlacklistVerdict.verdict_decodes content [] _ _ (decodes_all hls) hnone
  rw [hfound] at hverdict
  cases found with
  | true => exact Or.inl hverdict
  | false =>
    have hflat : (paginate ls).flatten = ls := paginate_flatten ls
    have hsilent : ∀ l ∈ ls, ¬ Alarm content l := by
      intro l hl halarm
      have hshown := @BlacklistVerdict.shown_of_alarm content (render ls).length (paginate ls) l
        (by rw [hflat]) (by rw [hflat]; exact hl) halarm
      exact absurd (hiff.mpr (Or.inl hshown)) Bool.false_ne_true
    have hentries : ∀ l ∈ ls, BlacklistLines.Entry (regularFile content) l :=
      fun l hl => entry_of_silent (hls l hl) (hsilent l hl)
    have hroom : ∀ p ∈ paginate ls, (render p).length ≠ pageSize := by
      intro p hp hfull
      obtain ⟨done, rest, hpages⟩ := List.append_of_mem hp
      have hlen := congrArg (fun pages => (render pages.flatten).length) hpages
      simp only [hflat, List.flatten_append, List.flatten_cons, render_append,
        List.length_append] at hlen
      have hread : BlacklistVerdict.ReadAfter content (paginate ls) done p := by
        refine ⟨⟨rest, hpages⟩, ?_⟩
        intro l hl
        apply hsilent l
        rw [← hflat, hpages, List.flatten_append]
        exact List.mem_append_left _ hl
      have hbefore : ((render done.flatten).length : ℤ) < (render ls).length := by
        have hpos : 0 < pageSize := by decide
        omega
      exact hnone p ⟨done, hread, hbefore⟩ hfull
    have hpages := BlacklistLines.pages_rounds hsize hentries
      (BlacklistLines.start_at hpage (render ls)) List.drop_zero
    rw [if_pos hroom] at hpages
    obtain ⟨t, hrun, hend⟩ := hpages
    exact Or.inr (BlacklistLines.takesLines_of_run hrun hend)

theorem noneFull_of_covers (hls : ∀ l ∈ ls, PatternLine l) (hpage : page.length = pageSize)
    (hsize : (render ls).length < 2147483648) (h : Covers content ls page) :
    NoneFull content (render ls).length (paginate ls) := by
  by_contra hfull
  have hverdict := @loop_verdict content ls page hls hpage hsize
  rw [BlacklistVerdict.verdict_full (decodes_all hls) hfull] at hverdict
  rcases h.blacklist with htrue | htakes
  · cases hverdict.unique htrue
  · cases hverdict.unique htakes.ends

/-- Every byte is gone over if and only if both files are below 2^31 bytes and no page of the
blacklist before a match is full of whole lines. -/
theorem covers_iff (hls : ∀ l ∈ ls, PatternLine l) (hpage : page.length = pageSize) :
    Covers content ls page ↔ content.length < 2147483648 ∧ (render ls).length < 2147483648 ∧
      NoneFull content (render ls).length (paginate ls) := by
  constructor
  · intro h
    obtain ⟨-, hcontent⟩ := h.wraps.original
    obtain ⟨-, hsize⟩ := h.wraps.blacklist
    simp only [regularFile] at hcontent hsize
    exact ⟨by omega, by omega, noneFull_of_covers hls hpage (by omega) h⟩
  · rintro ⟨hcontent, hsize, hnone⟩
    refine ⟨never_wraps hls hpage hcontent hsize, ?_, loop_covers hls hpage hsize hnone⟩
    intro t s hex calls hat htakes hscan j hj
    have hlen := short_of_takes hls hpage hsize hat htakes
    have hreach : Reaches (regularFile content) (toInt content.length) hex s.inputCalls
        ⟨toInt content.length, 0, s.inputCalls⟩ := Reaches.start s.inputCalls
    have hunmatched : Settles (ScanRounds.scanFrom (regularFile content) (toInt content.length) hex
        ⟨toInt content.length, 0, s.inputCalls⟩) (.ok (false, calls)) := by
      have hlength : (regularFile content).iSize = content.length := rfl
      rw [Unmatched, hlength] at hscan
      apply hscan.congr
      intro fuel
      rw [ScanRounds.scanFrom]
    have hfrom : (0 : ℤ) ≤ j := Int.natCast_nonneg j
    exact scan_covers hcontent hlen hreach hunmatched hj hfrom

theorem patternLine_letterA : ∀ l ∈ [letterA.line], PatternLine l := by
  intro l hl
  rw [List.mem_singleton.mp hl]
  have hwf := letterA_wellFormed letterA (by simp)
  exact ⟨hwf.line_plain, hwf.short, letterA.bytes, hwf.decodes, by decide, by decide⟩

theorem covers_small : Covers (ascii "BC") [letterA.line] (List.replicate 4096 0) := by
  apply (covers_iff patternLine_letterA List.length_replicate).mpr
  exact ⟨by decide, by decide, BlacklistVerdict.noneFull_small (by decide)⟩

/-- A file of 4 GiB has size 0 in an int: the loop ends without reading it. -/
theorem unread_of_length (h : content.length = 4294967296) (hpage : page.length = pageSize) :
    ¬ Covers content [letterA.line] page ∧
      Settles (loopOn (regularFile content) (regularFile (render [letterA.line]))
        (start (regularFile (render [letterA.line])) page)) (.ok false) := by
  constructor
  · intro hcovers
    obtain ⟨-, hfits⟩ := hcovers.wraps.original
    have hsize : (regularFile content).iSize = content.length := rfl
    omega
  · have hverdict := @loop_verdict content [letterA.line] page patternLine_letterA hpage (by decide)
    have hzero : ¬ 0 < toInt content.length := by
      rw [h]
      decide
    have hline : [letterA.line].findSome? (lineVerdict content) = none := by
      have hwf := letterA_wellFormed letterA (by simp)
      have hdecode : decode letterA.line = some (some letterA.bytes) := hwf.decodes
      rw [List.findSome?_cons, lineVerdict, if_pos hwf.short, hdecode]
      simp only [if_neg (@not_visible_of_nonpos content letterA.bytes (Int.not_lt.mp hzero))]
      rfl
    rw [paginate_one (by decide), pagesVerdict, if_pos (by decide), if_neg (by decide), hline]
      at hverdict
    exact hverdict

theorem four_gibibytes_unread :
    ¬ Covers (List.replicate 4294967296 65) [letterA.line] (List.replicate 4096 0) ∧
      Settles (loopOn (regularFile (List.replicate 4294967296 65))
        (regularFile (render [letterA.line]))
        (start (regularFile (render [letterA.line])) (List.replicate 4096 0))) (.ok false) :=
  unread_of_length List.length_replicate List.length_replicate

end files

end SizeCoverage
