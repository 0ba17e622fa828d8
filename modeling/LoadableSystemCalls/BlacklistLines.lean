import LoadableSystemCalls.TransitionRuns
import LoadableSystemCalls.VirusCheck

/-! # The lines the outer loop takes (anti_module.c)

A round of the outer loop of check_in_blacklist takes one line off the page, reading the
next page when none is pending. Over a file of lines the rounds take each of them once, as
long as no page is full of whole lines. -/
namespace BlacklistLines

open CStrings FueledLoops KernelTypes TransitionRuns FileScan BlacklistPaging VirusCheck

section rounds
variable (inputFile blacklistFile : VFile)

def Unmatched (hex : List Byte) (calls calls' : ℕ) : Prop :=
  Settles
    (fun fuel => scan inputFile (toInt inputFile.iSize) hex fuel (toInt inputFile.iSize) 0 calls)
    (.ok (false, calls'))

/-- The round in which strsep gives `parse_virus` the line `l`, and no match ends the loop.
Every read and write up to there is inside the page. -/
def Round (s : LoopState) (l : Line) (s' : LoopState) : Prop :=
  s.goesOn = some true ∧ ∃ s₁ p behind s₂ hex calls,
    s.refill blacklistFile = some s₁ ∧ s₁.workBuff = some p ∧
    strsep 10 (s₁.initBuff.drop p) = some (l, behind) ∧
    s₁.nextLine = some (s₂, some hex) ∧
    Unmatched inputFile hex s₂.inputCalls calls ∧ s' = { s₂ with inputCalls := calls }

def loopOn (s : LoopState) (fuel : ℕ) : Except Halt Bool :=
  checkLoop inputFile blacklistFile (toInt inputFile.iSize) fuel s

def start (page : List Byte) : LoopState :=
  ⟨toInt blacklistFile.iSize, 0, page.set 0 0, none, 0, 0⟩

/-- The loop takes the lines `ls`, then ends with no match; it can take no others. -/
structure TakesLines (page : List Byte) (ls : List Line) : Prop where
  taken : ∃ t, Run (Round inputFile blacklistFile) (start blacklistFile page) ls t ∧
    t.goesOn = some false
  others : ∀ ls' t,
    Run (Round inputFile blacklistFile) (start blacklistFile page) ls' t → ls' <+: ls
  ends : Settles (loopOn inputFile blacklistFile (start blacklistFile page)) (.ok false)

def Passes (l : Line) : Prop :=
  ∃ hex, decode l = some (some hex) ∧ ∀ calls, ∃ calls', Unmatched inputFile hex calls calls'

variable {inputFile blacklistFile}

theorem round_deterministic (s : LoopState) (l l' : Line) (t u : LoopState)
    (ht : Round inputFile blacklistFile s l t) (hu : Round inputFile blacklistFile s l' u) :
    l = l' ∧ t = u := by
  obtain ⟨-, s₁, p, behind, s₂, hex, calls, hfill, hwork, hline, hnext, hscan, rfl⟩ := ht
  obtain ⟨-, s₁', p', behind', s₂', hex', calls', hfill', hwork', hline', hnext', hscan', rfl⟩ := hu
  obtain rfl := Option.some.inj (hfill.symm.trans hfill')
  obtain rfl := Option.some.inj (hwork.symm.trans hwork')
  have hl := Option.some.inj (hline.symm.trans hline')
  have hs := Option.some.inj (hnext.symm.trans hnext')
  obtain ⟨rfl, hhex⟩ := Prod.mk.inj hs
  obtain rfl := Option.some.inj hhex
  have hcalls := hscan.unique hscan'
  simp only [Except.ok.injEq, Prod.mk.injEq, true_and] at hcalls
  exact ⟨(Prod.mk.inj hl).1, by rw [hcalls]⟩

theorem round_loop {s s' : LoopState} {l : Line} (h : Round inputFile blacklistFile s l s')
    {r : Except Halt Bool} (hr : Settles (loopOn inputFile blacklistFile s') r) :
    Settles (loopOn inputFile blacklistFile s) r := by
  obtain ⟨hgo, s₁, p, behind, s₂, hex, calls, hfill, -, -, hnext, hscan, rfl⟩ := h
  exact checkLoop_unmatched hgo (by rw [hfill, Option.bind_some, hnext]) hscan hr

theorem run_loop {s t : LoopState} {ls : List Line}
    (h : Run (Round inputFile blacklistFile) s ls t) {r : Except Halt Bool}
    (hr : Settles (loopOn inputFile blacklistFile t) r) :
    Settles (loopOn inputFile blacklistFile s) r := by
  induction h with
  | nil => exact hr
  | snoc _ hs ih => exact ih (round_loop hs hr)

theorem takesLines_of_run {page : List Byte} {ls : List Line} {t : LoopState}
    (h : Run (Round inputFile blacklistFile) (start blacklistFile page) ls t)
    (hend : t.goesOn = some false) : TakesLines inputFile blacklistFile page ls := by
  have hstuck : ∀ l u, ¬ Round inputFile blacklistFile t l u := by
    intro l u hround
    rw [hround.1] at hend
    cases hend
  exact ⟨⟨t, h, hend⟩, fun ls' u hu => h.prefix_of_ended round_deterministic hstuck hu,
    run_loop h (checkLoop_ended hend)⟩

end rounds

/-- A line as the file may hold it, which does not end the loop. -/
structure Entry (inputFile : VFile) (l : Line) : Prop where
  plain : Plain l
  short : l.length < pageSize
  passes : Passes inputFile l

section page
variable {inputFile blacklistFile : VFile} {s s₁ : LoopState} {l : Line} {ls : List Line}

theorem round_line (hgo : s.goesOn = some true) (hfill : s.refill blacklistFile = some s₁)
    {w : List Byte} (hs : s₁.Holds (l ++ 10 :: w)) (hl : Entry inputFile l) :
    ∃ s', Round inputFile blacklistFile s l s' ∧ s'.Holds w ∧
      s'.blacklistSize = s₁.blacklistSize ∧ s'.blacklistFp = s₁.blacklistFp := by
  obtain ⟨page, p, hholds, hnext⟩ := nextLine_terminated hs hl.plain hl.short
  obtain ⟨hex, hdecode, hscan⟩ := hl.passes
  obtain ⟨calls, hcalls⟩ := hscan s₁.inputCalls
  rw [hdecode, Option.map_some] at hnext
  obtain ⟨-, pre, rest, hbuff, hwork⟩ := hs
  have hline : strsep 10 (s₁.initBuff.drop pre.length) = some (l, some (w ++ 0 :: rest)) := by
    rw [hbuff, List.append_assoc, List.drop_left, List.append_assoc, List.cons_append]
    exact strsep_found hl.plain.1 hl.plain.2 (w ++ 0 :: rest)
  refine ⟨{ s₁ with initBuff := page, workBuff := some p, inputCalls := calls }, ?_, hholds,
    rfl, rfl⟩
  exact ⟨hgo, s₁, pre.length, _, _, hex, calls, hfill, hwork, hline, hnext, hcalls, rfl⟩

theorem lines_rounds (hgo : s.goesOn = some true) (hfill : s.refill blacklistFile = some s₁)
    (hs : s₁.Holds (render (l :: ls))) (hls : ∀ x ∈ l :: ls, Entry inputFile x) :
    ∃ t, Run (Round inputFile blacklistFile) s (l :: ls) t ∧ t.Holds [] ∧
      t.blacklistSize = s₁.blacklistSize ∧ t.blacklistFp = s₁.blacklistFp := by
  induction ls generalizing s s₁ l with
  | nil =>
    rw [render_cons, render_nil] at hs
    obtain ⟨t, hround, hholds, hsize, hfp⟩ :=
      round_line hgo hfill hs (hls l List.mem_cons_self)
    exact ⟨t, .cons hround (.nil t), hholds, hsize, hfp⟩
  | cons m ls ih =>
    rw [render_cons] at hs
    obtain ⟨s', hround, hholds, hsize, hfp⟩ :=
      round_line hgo hfill hs (hls l List.mem_cons_self)
    have hrest : ∀ x ∈ m :: ls, Entry inputFile x := fun x hx => hls x (List.mem_cons_of_mem l hx)
    have hpend : s'.pending = some true := by
      rw [hholds.pending (render_nulFree fun x hx => (hrest x hx).plain)]
      simp
    obtain ⟨t, hrun, hdone, hsize', hfp'⟩ := ih (goesOn_of_pending hpend)
      (refill_of_pending hpend blacklistFile) hholds hrest
    exact ⟨t, .cons hround hrun, hdone, hsize'.trans hsize, hfp'.trans hfp⟩

theorem page_rounds {blacklist : List Byte} {n : ℕ} (h : s.At blacklist n)
    (hmore : 0 < s.blacklistSize) (hls : ∀ x ∈ l :: ls, Entry inputFile x)
    (hrest : blacklist.drop n = render (l :: ls))
    (hroom : (render (fill pageSize (l :: ls)).1).length ≠ pageSize) :
    ∃ t, Run (Round inputFile (regularFile blacklist)) s (fill pageSize (l :: ls)).1 t ∧
      t.At blacklist (n + (render (fill pageSize (l :: ls)).1).length) := by
  have hl : l.length + 1 ≤ pageSize := (hls l List.mem_cons_self).short
  have happ := fill_append pageSize (l :: ls)
  obtain ⟨p, hpage, -⟩ := @fill_cons l ls pageSize hl
  obtain ⟨s₁, hfill, hholds, -, hsize, hposition⟩ :=
    h.refill_page hmore (fun x hx => (hls x hx).plain) (by simp [Plain, NulFree])
      (hrest.trans (List.append_nil _).symm) hl hroom
  have hlines : ∀ x ∈ l :: p, Entry inputFile x := by
    intro x hx
    exact hls x (happ ▸ List.mem_append_left _ (hpage ▸ hx))
  rw [hpage] at hholds
  obtain ⟨t, hrun, hdone, hsize', hfp⟩ := lines_rounds (goesOn_of_size hmore) hfill hholds hlines
  refine ⟨t, ?_, hdone.1, hdone.pending (by simp [NulFree]), hsize'.trans hsize, ?_⟩
  · rw [hpage]
    exact hrun
  · intro hpos
    exact hfp.trans (hposition (hsize' ▸ hpos))

theorem pages_rounds {blacklist : List Byte} {n : ℕ} (hsize : blacklist.length < 2147483648)
    (hls : ∀ x ∈ ls, Entry inputFile x) (h : s.At blacklist n)
    (hrest : blacklist.drop n = render ls) :
    if ∀ p ∈ paginate ls, (render p).length ≠ pageSize then
      ∃ t, Run (Round inputFile (regularFile blacklist)) s ls t ∧ t.goesOn = some false
    else Settles (loopOn inputFile (regularFile blacklist) s) (.error .oops) := by
  have hint : toInt blacklist.length = blacklist.length := toInt_natCast hsize
  have hleft := h.size
  generalize hcount : ls.length = count
  induction count using Nat.strong_induction_on generalizing ls s n with
  | _ count ih =>
    cases ls with
    | nil =>
      have hlen : blacklist.length ≤ n := List.drop_eq_nil_iff.mp hrest
      have hdone : ¬ 0 < s.blacklistSize := by omega
      rw [paginate, if_pos (by simp)]
      refine ⟨s, .nil s, ?_⟩
      rw [LoopState.goesOn, if_neg hdone, h.idle]
    | cons l ls =>
      have hl : l.length + 1 ≤ pageSize := (hls l List.mem_cons_self).short
      have hmore : 0 < s.blacklistSize := by
        have hlen := congrArg List.length hrest
        simp only [List.length_drop, render_cons, List.length_append, List.length_cons] at hlen
        omega
      have hrest' : blacklist.drop n = render (l :: ls) ++ [] :=
        hrest.trans (List.append_nil _).symm
      have happ := fill_append pageSize (l :: ls)
      rw [paginate_short hl]
      by_cases hfull : (render (fill pageSize (l :: ls)).1).length = pageSize
      · have hoops := h.refill_full hmore (fun x hx => (hls x hx).plain)
          (by simp [Plain, NulFree]) hrest' hl hfull
        rw [if_neg (by simp [hfull])]
        apply checkLoop_oops (goesOn_of_size hmore)
        rw [hoops, Option.bind_none]
      · obtain ⟨t, hrun, hat⟩ := page_rounds h hmore hls hrest hfull
        obtain ⟨-, -, hfewer⟩ := @fill_cons l ls pageSize hl
        have hdrop := (drop_page hrest' pageSize).trans (List.append_nil _)
        have hothers := ih _ (by rw [List.length_cons] at hcount; omega)
          (fun x hx => hls x (happ ▸ List.mem_append_right _ hx)) hat hdrop hat.size rfl
        have hpages : (∀ p ∈ (fill pageSize (l :: ls)).1 :: paginate (fill pageSize (l :: ls)).2,
            (render p).length ≠ pageSize) ↔
            ∀ p ∈ paginate (fill pageSize (l :: ls)).2, (render p).length ≠ pageSize := by
          simp [hfull]
        simp only [hpages]
        split at hothers
        · next hroom =>
          obtain ⟨u, hrun', hend⟩ := hothers
          rw [if_pos hroom]
          exact ⟨u, happ ▸ hrun.append hrun', hend⟩
        · next hno =>
          rw [if_neg hno]
          exact run_loop hrun hothers

end page

section file
variable {inputFile : VFile} {ls : List Line} {page : List Byte}

theorem start_at (hpage : page.length = pageSize) (blacklist : List Byte) :
    (start (regularFile blacklist) page).At blacklist 0 :=
  ⟨(List.length_set).trans hpage, rfl, by simp [start, regularFile], fun _ => rfl⟩

theorem not_takesLines_of_full (hls : ∀ l ∈ ls, Entry inputFile l)
    (hsize : (render ls).length < 2147483648) (hpage : page.length = pageSize)
    (hfull : ¬ ∀ p ∈ paginate ls, (render p).length ≠ pageSize) :
    ¬ TakesLines inputFile (regularFile (render ls)) page ls := by
  have hpages := pages_rounds hsize hls (start_at hpage (render ls)) List.drop_zero
  rw [if_neg hfull] at hpages
  intro htakes
  cases hpages.unique htakes.ends

/-- The loop takes exactly the lines of the file, inside its page, if and only if no page it
reads is full of whole lines. -/
theorem takes_lines_iff (hls : ∀ l ∈ ls, Plain l ∧ l.length < pageSize)
    (hpass : ∀ l ∈ ls, Passes inputFile l) (hsize : (render ls).length < 2147483648)
    (hpage : page.length = pageSize) :
    TakesLines inputFile (regularFile (render ls)) page ls ↔
      ∀ p ∈ paginate ls, (render p).length ≠ pageSize := by
  have hentries : ∀ l ∈ ls, Entry inputFile l := by
    intro l hl
    exact ⟨(hls l hl).1, (hls l hl).2, hpass l hl⟩
  constructor
  · intro htakes
    by_contra hfull
    exact not_takesLines_of_full hentries hsize hpage hfull htakes
  · intro hroom
    have hpages := pages_rounds hsize hentries (start_at hpage (render ls)) List.drop_zero
    rw [if_pos hroom] at hpages
    obtain ⟨t, hrun, hend⟩ := hpages
    exact takesLines_of_run hrun hend

end file

theorem passes_regular {content : List Byte} {l : Line} {hex : List Byte}
    (hdecode : decode l = some (some hex)) (hshort : l.length < pageSize)
    (hunseen : ¬ Visible content hex) : Passes (regularFile content) l := by
  have hlen := decode_length hdecode
  refine ⟨hex, hdecode, ?_⟩
  intro calls
  obtain ⟨found, calls', hscan, hvisible⟩ :=
    @scan_visible content hex (Nat.lt_sub_of_add_lt (by omega)) calls
  cases found with
  | false => exact ⟨calls', hscan⟩
  | true => exact absurd (hvisible.mp rfl) hunseen

def entryA (name : List Byte) : Line := name ++ ascii ",41"

theorem entryA_length (name : List Byte) : (entryA name).length = name.length + 3 :=
  List.length_append

theorem entryA_entry {name : List Byte} (hname : Plain name) (hcomma : 44 ∉ name)
    (hshort : name.length + 3 < pageSize) : Entry (regularFile [66]) (entryA name) := by
  have hlen := entryA_length name
  have hfield : field (entryA name) = some (ascii "41") := field_behind hcomma (ascii "41")
  have hdecode : decode (entryA name) = some (some [65]) := by
    rw [decode_of_field hfield]
    rfl
  refine ⟨hname.append (by decide), by omega, passes_regular hdecode (by omega) ?_⟩
  rw [visible_small (by decide)]
  decide

theorem takes_lines_two :
    TakesLines (regularFile [66]) (regularFile (render [entryA (ascii "a"), entryA (ascii "b")]))
      (List.replicate 4096 0) [entryA (ascii "a"), entryA (ascii "b")] := by
  have hentries : ∀ l ∈ [entryA (ascii "a"), entryA (ascii "b")], Entry (regularFile [66]) l := by
    intro l hl
    rcases List.mem_pair.mp hl with rfl | rfl
    · exact entryA_entry (by decide) (by decide) (by decide)
    · exact entryA_entry (by decide) (by decide) (by decide)
  apply (takes_lines_iff (fun l hl => ⟨(hentries l hl).plain, (hentries l hl).short⟩)
    (fun l hl => (hentries l hl).passes) (by decide) List.length_replicate).mpr
  rw [paginate_one (by decide)]
  decide

/-- One line of 4095 bytes and its newline. -/
theorem full_page_not_taken :
    ¬ TakesLines (regularFile [66]) (regularFile (render [entryA (List.replicate 4092 118)]))
      (List.replicate 4096 0) [entryA (List.replicate 4092 118)] := by
  have hname : ∀ b ∈ List.replicate 4092 (118 : Byte), b = 118 :=
    fun b hb => List.eq_of_mem_replicate hb
  have hlen : (render [entryA (List.replicate 4092 118)]).length = pageSize := by
    rw [render_cons, render_nil, List.length_append, entryA_length, List.length_replicate]
    rfl
  have hentry : Entry (regularFile [66]) (entryA (List.replicate 4092 118)) := by
    apply entryA_entry
    · constructor
      · intro h0
        exact absurd (hname 0 h0) (by decide)
      · intro h10
        exact absurd (hname 10 h10) (by decide)
    · intro h44
      exact absurd (hname 44 h44) (by decide)
    · rw [List.length_replicate]
      decide
  apply not_takesLines_of_full _ _ List.length_replicate
  · rw [paginate_one hlen.le]
    intro hroom
    exact hroom _ (List.mem_singleton.mpr rfl) hlen
  · intro l hl
    rw [List.mem_singleton.mp hl]
    exact hentry
  · rw [hlen]
    decide

end BlacklistLines
