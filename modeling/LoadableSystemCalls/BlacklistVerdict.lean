import LoadableSystemCalls.VirusCheck

/-! # Verdicts of the antivirus check (anti_module.c)

When the verdict of check_in_blacklist is the right one, and when it survives one more line. -/
namespace BlacklistVerdict

open CStrings FueledLoops KernelTypes HexDecoding FileScan BlacklistPaging VirusCheck

def Decodes (l : Line) (hex : List Byte) : Prop := decode l = some (some hex)

/-- The line raises the alarm; what is kept of one that fits no page does by a comma. -/
def Alarm (content : List Byte) (l : Line) : Prop :=
  if l.length < pageSize then ∃ hex, Decodes l hex ∧ Visible content hex else l.head? = some 44

theorem alarm_iff {content : List Byte} {l : Line} :
    lineVerdict content l = some (.ok true) ↔ Alarm content l := by
  by_cases hshort : l.length < pageSize
  · rw [lineVerdict, Alarm, if_pos hshort, if_pos hshort]
    simp only [Decodes]
    cases hdecode : decode l with
    | none => simp
    | some decoded =>
      cases decoded with
      | none => simp
      | some hex => by_cases hv : Visible content hex <;> simp [hv]
  · rw [lineVerdict, Alarm, if_neg hshort, if_neg hshort]
    simp

theorem decodes_iff {content : List Byte} {l : Line} (hshort : l.length < pageSize) :
    (lineVerdict content l = none ∨ lineVerdict content l = some (.ok true)) ↔
      ∃ hex, Decodes l hex := by
  rw [lineVerdict, if_pos hshort]
  simp only [Decodes]
  cases hdecode : decode l with
  | none => simp
  | some decoded =>
    cases decoded with
    | none => simp
    | some hex => by_cases hv : Visible content hex <;> simp [hv]

def ReadAfter (content : List Byte) (pages done : List (List Line)) (page : List Line) : Prop :=
  (∃ rest, pages = done ++ page :: rest) ∧ ∀ l ∈ done.flatten, ¬ Alarm content l

theorem readAfter_cons {content : List Byte} {page next : List Line}
    {pages done : List (List Line)} :
    ReadAfter content (page :: pages) done next ↔
      (done = [] ∧ next = page) ∨ ∃ done', done = page :: done' ∧
        (∀ l ∈ page, ¬ Alarm content l) ∧ ReadAfter content pages done' next := by
  constructor
  · rintro ⟨⟨rest, hsplit⟩, hsilent⟩
    cases done with
    | nil =>
      rw [List.nil_append, List.cons_eq_cons] at hsplit
      exact Or.inl ⟨rfl, hsplit.1.symm⟩
    | cons p done =>
      rw [List.cons_append, List.cons_eq_cons] at hsplit
      rcases hsplit with ⟨rfl, hsplit⟩
      rw [List.flatten_cons] at hsilent
      exact Or.inr ⟨done, rfl, fun l hl => hsilent l (List.mem_append_left _ hl), ⟨rest, hsplit⟩,
        fun l hl => hsilent l (List.mem_append_right _ hl)⟩
  · rintro (⟨rfl, rfl⟩ | ⟨done', rfl, hpage, ⟨rest, rfl⟩, hsilent⟩)
    · exact ⟨⟨pages, rfl⟩, by simp⟩
    · refine ⟨⟨rest, rfl⟩, fun l hl => ?_⟩
      rw [List.flatten_cons, List.mem_append] at hl
      rcases hl with hl | hl
      · exact hpage l hl
      · exact hsilent l hl

/-- A page the check reads, if no page before it stops the check: it begins before the size
of the blacklist, kept in an int, runs out. -/
def PageRead (content : List Byte) (size : ℤ) (pages : List (List Line)) (page : List Line) :
    Prop :=
  ∃ done, ReadAfter content pages done page ∧ ((render done.flatten).length : ℤ) < size

theorem pageRead_cons {content : List Byte} {size : ℤ} {page next : List Line}
    {pages : List (List Line)} :
    PageRead content size (page :: pages) next ↔ (next = page ∧ 0 < size) ∨
      ((∀ l ∈ page, ¬ Alarm content l) ∧
        PageRead content (size - (render page).length) pages next) := by
  constructor
  · rintro ⟨done, hread, hstart⟩
    rcases readAfter_cons.mp hread with ⟨rfl, rfl⟩ | ⟨done', rfl, hpage, hread'⟩
    · exact Or.inl ⟨rfl, hstart⟩
    · rw [List.flatten_cons, render_append, List.length_append] at hstart
      exact Or.inr ⟨hpage, done', hread', by omega⟩
  · rintro (⟨rfl, hpos⟩ | ⟨hpage, done', hread, hstart⟩)
    · exact ⟨[], readAfter_cons.mpr (Or.inl ⟨rfl, rfl⟩), hpos⟩
    · refine ⟨page :: done', readAfter_cons.mpr (Or.inr ⟨done', rfl, hpage, hread⟩), ?_⟩
      rw [List.flatten_cons, render_append, List.length_append]
      omega

theorem not_pageRead_nil {content : List Byte} {size : ℤ} {page : List Line} :
    ¬ PageRead content size [] page := by
  rintro ⟨done, ⟨⟨rest, hsplit⟩, -⟩, -⟩
  simp at hsplit

theorem not_pageRead_of_nonpos {content : List Byte} {size : ℤ} {page : List Line}
    {pages : List (List Line)} (h : ¬ 0 < size) : ¬ PageRead content size pages page := by
  rintro ⟨done, -, hstart⟩
  omega

def NoneFull (content : List Byte) (size : ℤ) (pages : List (List Line)) : Prop :=
  ∀ page, PageRead content size pages page → (render page).length ≠ pageSize

/-- A line that is read raises the alarm. -/
def Shown (content : List Byte) (size : ℤ) (pages : List (List Line)) : Prop :=
  ∃ page, PageRead content size pages page ∧ ∃ l ∈ page, Alarm content l

/-- What is left behind the last newline begins with a comma and is read. -/
def CommaTail (content tail : List Byte) (size : ℤ) (pages : List (List Line)) : Prop :=
  ((render pages.flatten).length : ℤ) < size ∧ tail.head? = some 44 ∧ 0 < toInt content.length

theorem silent_of_goes_on {content : List Byte} {page : List Line}
    (h : page.findSome? (lineVerdict content) = none) : ∀ l ∈ page, ¬ Alarm content l := by
  intro l hl halarm
  have hnone := List.findSome?_eq_none_iff.mp h l hl
  rw [alarm_iff.mpr halarm] at hnone
  cases hnone

section decoding
variable {content : List Byte}

theorem page_alarm {page : List Line}
    (hdec : ∀ l ∈ page, lineVerdict content l = none ∨ lineVerdict content l = some (.ok true))
    {r : Except Halt Bool} (h : page.findSome? (lineVerdict content) = some r) :
    r = .ok true ∧ ∃ l ∈ page, Alarm content l := by
  rcases List.exists_of_findSome?_eq_some h with ⟨l, hl, hr⟩
  rcases hdec l hl with hnone | halarm
  · rw [hnone] at hr
    cases hr
  · rw [halarm] at hr
    exact ⟨(Option.some.inj hr).symm, l, hl, alarm_iff.mp halarm⟩

theorem verdict_full {tail : List Byte} {size : ℤ} {pages : List (List Line)}
    (hdec : ∀ l ∈ pages.flatten,
      lineVerdict content l = none ∨ lineVerdict content l = some (.ok true))
    (hfull : ¬ NoneFull content size pages) :
    pagesVerdict content tail size pages = .error .oops := by
  induction pages generalizing size with
  | nil => exact absurd (fun page hread => absurd hread not_pageRead_nil) hfull
  | cons page pages ih =>
    simp only [NoneFull, not_forall, not_not] at hfull
    rcases hfull with ⟨next, hread, hlen⟩
    by_cases hpos : 0 < size
    · rw [pagesVerdict, if_pos hpos]
      by_cases hthis : (render page).length = pageSize
      · rw [if_pos hthis]
      · rw [if_neg hthis]
        rcases pageRead_cons.mp hread with ⟨rfl, -⟩ | ⟨hsilent, hrest⟩
        · exact absurd hlen hthis
        cases hverdict : page.findSome? (lineVerdict content) with
        | some r =>
          rcases page_alarm (fun l hl => hdec l (List.mem_append_left _ hl)) hverdict with
            ⟨-, l, hl, halarm⟩
          exact absurd halarm (hsilent l hl)
        | none =>
          apply ih fun l hl => hdec l (List.mem_append_right _ hl)
          intro hnone
          exact hnone next hrest hlen
    · exact absurd hread (not_pageRead_of_nonpos hpos)

theorem verdict_decodes {tail : List Byte} {size : ℤ} {pages : List (List Line)}
    (hdec : ∀ l ∈ pages.flatten,
      lineVerdict content l = none ∨ lineVerdict content l = some (.ok true))
    (hnone : NoneFull content size pages) :
    ∃ b, pagesVerdict content tail size pages = .ok b ∧
      (b = true ↔ Shown content size pages ∨ CommaTail content tail size pages) := by
  induction pages generalizing size with
  | nil =>
    have hshown : ¬ Shown content size [] := by
      rintro ⟨page, hread, -⟩
      exact not_pageRead_nil hread
    refine ⟨_, rfl, ?_⟩
    simp [hshown, CommaTail]
  | cons page pages ih =>
    rw [pagesVerdict]
    by_cases hpos : 0 < size
    · have hroom := hnone page (pageRead_cons.mpr (Or.inl ⟨rfl, hpos⟩))
      rw [if_pos hpos, if_neg hroom]
      cases hverdict : page.findSome? (lineVerdict content) with
      | some r =>
        rcases page_alarm (fun l hl => hdec l (List.mem_append_left _ hl)) hverdict with
          ⟨rfl, l, hl, halarm⟩
        have hshown : Shown content size (page :: pages) :=
          ⟨page, pageRead_cons.mpr (Or.inl ⟨rfl, hpos⟩), l, hl, halarm⟩
        exact ⟨true, rfl, iff_of_true rfl (Or.inl hshown)⟩
      | none =>
        have hsilent := silent_of_goes_on hverdict
        have hshown : Shown content size (page :: pages) ↔
            Shown content (size - (render page).length) pages := by
          constructor
          · rintro ⟨next, hread, l, hl, halarm⟩
            rcases pageRead_cons.mp hread with ⟨rfl, -⟩ | ⟨-, hrest⟩
            · exact absurd halarm (hsilent l hl)
            · exact ⟨next, hrest, l, hl, halarm⟩
          · rintro ⟨next, hrest, hnext⟩
            exact ⟨next, pageRead_cons.mpr (Or.inr ⟨hsilent, hrest⟩), hnext⟩
        have htail : CommaTail content tail size (page :: pages) ↔
            CommaTail content tail (size - (render page).length) pages := by
          simp only [CommaTail, List.flatten_cons, render_append, List.length_append]
          constructor <;> rintro ⟨hstart, hcomma⟩ <;> exact ⟨by omega, hcomma⟩
        rw [hshown, htail]
        exact ih (fun l hl => hdec l (List.mem_append_right _ hl))
          fun next hread => hnone next (pageRead_cons.mpr (Or.inr ⟨hsilent, hread⟩))
    · have hshown : ¬ Shown content size (page :: pages) := by
        rintro ⟨next, hread, -⟩
        exact not_pageRead_of_nonpos hpos hread
      have htail : ¬ CommaTail content tail size (page :: pages) := by
        rintro ⟨hstart, -⟩
        omega
      rw [if_neg hpos]
      exact ⟨false, rfl, iff_of_false Bool.false_ne_true (not_or.mpr ⟨hshown, htail⟩)⟩

end decoding

structure Entry where
  name : List Byte
  first : Digits
  others : List Digits
  deriving DecidableEq, Repr

def Entry.line (e : Entry) : Line :=
  e.name ++ 44 :: e.first.1 :: e.first.2 :: printed e.others

def Entry.bytes (e : Entry) : List Byte := tokenByte e.first :: e.others.map tokenByte

structure Entry.WellFormed (e : Entry) : Prop where
  name : Plain e.name
  comma : 44 ∉ e.name
  hex : AllHex (e.first :: e.others)
  short : e.line.length < pageSize

/-- The blacklist file: terminated lines, and perhaps one that only the end of file ends. -/
def blacklistFile (es : List Entry) (last : Option Entry) : List Byte :=
  render (es.map Entry.line) ++ (last.map Entry.line).getD []

/-- The bytes of some line occur in the file. -/
def Occurs (content : List Byte) (es : List Entry) (last : Option Entry) : Prop :=
  ∃ e ∈ es ++ last.toList, e.bytes <:+: content

theorem printed_length (ts : List Digits) : (printed ts).length = 3 * ts.length := by
  induction ts with
  | nil => rfl
  | cons t ts ih =>
    have hcons : printed (t :: ts) = 32 :: t.1 :: t.2 :: printed ts := rfl
    rw [hcons]
    simp only [List.length_cons, ih]
    omega

theorem printed_plain {ts : List Digits} (h : AllHex ts) : Plain (printed ts) := by
  induction ts with
  | nil => exact ⟨List.not_mem_nil, List.not_mem_nil⟩
  | cons t ts ih =>
    rcases h t List.mem_cons_self with ⟨h1, h2⟩
    have hrest := ih fun x hx => h x (List.mem_cons_of_mem t hx)
    have hcons : printed (t :: ts) = 32 :: t.1 :: t.2 :: printed ts := rfl
    rw [hcons]
    exact Plain.cons (by decide) (Plain.cons (isHex_plain _ h1).2.2
      (Plain.cons (isHex_plain _ h2).2.2 hrest))

namespace Entry.WellFormed
variable {e : Entry}

theorem line_plain (h : e.WellFormed) : Plain e.line := by
  rcases h.hex e.first List.mem_cons_self with ⟨h1, h2⟩
  have hothers := printed_plain fun t ht => h.hex t (List.mem_cons_of_mem _ ht)
  apply h.name.append
  exact Plain.cons (by decide) (Plain.cons (isHex_plain _ h1).2.2
    (Plain.cons (isHex_plain _ h2).2.2 hothers))

theorem decodes (h : e.WellFormed) : Decodes e.line e.bytes := by
  have hroom : e.others.length < pageSize := by
    have hlen := h.short
    simp only [Entry.line, List.length_append, List.length_cons, printed_length] at hlen
    omega
  have hfield : field e.line = some (e.first.1 :: e.first.2 :: printed e.others) :=
    field_behind h.comma _
  rw [Decodes, decode_of_field hfield, convert_field h.hex hroom]
  rfl

end Entry.WellFormed

section entries
variable {content : List Byte} {es : List Entry} {last : Option Entry} {pages : Pages}

def Allocated (pages : Pages) : Prop :=
  pages.inputFileBuff = true ∧ pages.initBuff.isSome = true ∧ pages.hexInChar = true

/-- The check compares the line with the file: no line before it raises the alarm, and it
stands on a page that is read. -/
def Compared (content : List Byte) (size : ℤ) (pages : List (List Line)) (l : Line) : Prop :=
  ∃ page before after, PageRead content size pages page ∧ page = before ++ l :: after ∧
    ∀ x ∈ before, ¬ Alarm content x

/-- No slip is met: no page that is read is full, no zero byte cuts a comparison, and if the
check comes to the end of the blacklist, the file is empty or the last line is terminated and
an int holds the blacklist's size. -/
structure Undisturbed (content : List Byte) (es : List Entry) (last : Option Entry) : Prop where
  noneFull : NoneFull content (toInt (blacklistFile es last).length)
    (paginate (es.map Entry.line))
  seenWhole : ∀ e ∈ es, Compared content (toInt (blacklistFile es last).length)
    (paginate (es.map Entry.line)) e.line →
    ∀ i, Searched content e.bytes i → SeenWhole e.bytes (window content e.bytes i)
  ended : (∀ l, Compared content (toInt (blacklistFile es last).length)
      (paginate (es.map Entry.line)) l → ¬ Alarm content l) →
    content = [] ∨ (last = none ∧ (blacklistFile es last).length < 2147483648)

theorem alarm_short {l : Line} (hshort : l.length < pageSize) :
    Alarm content l ↔ ∃ hex, Decodes l hex ∧ Visible content hex := by
  rw [Alarm, if_pos hshort]

theorem allocation_cases (pages : Pages) : pages.inputFileBuff = false ∨
    (pages.inputFileBuff = true ∧ (pages.initBuff = none ∨ pages.hexInChar = false)) ∨
    Allocated pages := by
  rcases pages with ⟨_ | _, _ | page, _ | _, hlen⟩ <;> simp [Allocated]

/-- The first alarm is that of a line compared. -/
theorem shown_iff_compared {size : ℤ} {pages : List (List Line)} :
    Shown content size pages ↔ ∃ l, Compared content size pages l ∧ Alarm content l := by
  classical
  constructor
  · rintro ⟨page, hread, l, hl, halarm⟩
    have hfirst : (page.find? fun x => decide (Alarm content x)).isSome := by
      rw [List.find?_isSome]
      exact ⟨l, hl, decide_eq_true halarm⟩
    obtain ⟨x, hx⟩ := Option.isSome_iff_exists.mp hfirst
    obtain ⟨hxalarm, before, after, hsplit, hsilent⟩ := List.find?_eq_some_iff_append.mp hx
    refine ⟨x, ⟨page, before, after, hread, hsplit, fun y hy => ?_⟩, of_decide_eq_true hxalarm⟩
    simpa using hsilent y hy
  · rintro ⟨l, ⟨page, before, after, hread, rfl, -⟩, halarm⟩
    exact ⟨_, hread, l, by simp, halarm⟩

theorem compared_of_silent {size : ℤ} {pages : List (List Line)}
    (hsize : ((render pages.flatten).length : ℤ) ≤ size)
    (hsilent : ∀ x ∈ pages.flatten, ¬ Alarm content x) {l : Line} (hl : l ∈ pages.flatten) :
    Compared content size pages l := by
  obtain ⟨page, hpage, hmem⟩ := List.mem_flatten.mp hl
  obtain ⟨done, rest, rfl⟩ := List.append_of_mem hpage
  have hlt := length_lt_render hmem
  obtain ⟨before, after, rfl⟩ := List.append_of_mem hmem
  refine ⟨_, before, after, ⟨done, ⟨⟨rest, rfl⟩, fun x hx => ?_⟩, ?_⟩, rfl, fun x hx => ?_⟩
  · exact hsilent x (by rw [List.flatten_append]; exact List.mem_append_left _ hx)
  · rw [List.flatten_append, List.flatten_cons, render_append, render_append, List.length_append,
      List.length_append] at hsize
    omega
  · exact hsilent x (by simp [hx])

end entries

theorem shown_of_alarm {content : List Byte} {size : ℤ} {pages : List (List Line)} {l : Line}
    (hsize : ((render pages.flatten).length : ℤ) ≤ size) (hl : l ∈ pages.flatten)
    (halarm : Alarm content l) : Shown content size pages := by
  induction pages generalizing size with
  | nil => cases hl
  | cons page pages ih =>
    rw [List.flatten_cons, render_append, List.length_append] at hsize
    by_cases hpage : ∃ x ∈ page, Alarm content x
    · rcases hpage with ⟨x, hx, hxalarm⟩
      have hlt := length_lt_render hx
      exact ⟨page, pageRead_cons.mpr (Or.inl ⟨rfl, by omega⟩), x, hx, hxalarm⟩
    · have hsilent : ∀ x ∈ page, ¬ Alarm content x := by
        intro x hx hxalarm
        exact hpage ⟨x, hx, hxalarm⟩
      have hrest : l ∈ pages.flatten := by
        rw [List.flatten_cons, List.mem_append] at hl
        exact hl.resolve_left fun hmem => hsilent l hmem halarm
      rcases @ih (size - (render page).length) (by omega) hrest with
        ⟨next, hread, hnext⟩
      exact ⟨next, pageRead_cons.mpr (Or.inr ⟨hsilent, hread⟩), hnext⟩

theorem bytes_length {e : Entry} (h : e.WellFormed) : e.bytes.length < pageSize - 1 := by
  have hdecoded := decode_length h.decodes
  have hshort := h.short
  omega

section undisturbed
variable {content : List Byte} {es : List Entry} {last : Option Entry}

theorem Undisturbed.shown (h : Undisturbed content es last)
    (hes : ∀ e ∈ es ++ last.toList, e.WellFormed) (hsize : content.length < 2147483648)
    (hoccurs : Occurs content es last) :
    Shown content (toInt (blacklistFile es last).length) (paginate (es.map Entry.line)) := by
  by_contra hnone
  obtain ⟨e, he, hpart⟩ := hoccurs
  have hlen := hpart.length_le
  simp only [Entry.bytes, List.length_cons] at hlen
  obtain rfl | ⟨rfl, hblack⟩ := h.ended fun l hl halarm =>
    hnone (shown_iff_compared.mpr ⟨l, hl, halarm⟩)
  · simp at hlen
  have hrender : ((render (paginate (es.map Entry.line)).flatten).length : ℤ) ≤
      toInt (blacklistFile es none).length := by
    rw [paginate_flatten, toInt_natCast hblack]
    simp [blacklistFile]
  have hsilent : ∀ l ∈ (paginate (es.map Entry.line)).flatten, ¬ Alarm content l :=
    fun l hl halarm => hnone (shown_of_alarm hrender hl halarm)
  rw [Option.toList_none, List.append_nil] at he
  have hwf := hes e (List.mem_append_left _ he)
  have hline : e.line ∈ (paginate (es.map Entry.line)).flatten := by
    rw [paginate_flatten]
    exact List.mem_map_of_mem he
  have hinvisible : ¬ Visible content e.bytes := fun hv =>
    hsilent _ hline ((alarm_short hwf.short).mpr ⟨_, hwf.decodes, hv⟩)
  -- the window with the pattern in it was searched, and nothing hid the pattern there
  have hpos : 0 < toInt content.length := by
    rw [toInt_natCast hsize]
    omega
  obtain ⟨i, hreached, hcover⟩ := exists_reached (bytes_length hwf) hpos hsize hpart
  have hwhole := h.seenWhole e he (compared_of_silent hrender hsilent hline) i
    (searched_of_unseen hreached hinvisible)
  exact hinvisible ⟨i, hreached, hwhole.infix hcover⟩

end undisturbed

theorem noneFull_small {content : List Byte} {size : ℤ} {ls : List Line}
    (h : (render ls).length < pageSize) : NoneFull content size (paginate ls) := by
  rintro page ⟨done, ⟨⟨rest, hsplit⟩, -⟩, -⟩
  have hflat := congrArg (fun ps => (render ps.flatten).length) hsplit
  simp only [paginate_flatten, List.flatten_append, List.flatten_cons, render_append,
    List.length_append] at hflat
  omega

def letterA : Entry := ⟨[118], (52, 49), []⟩

theorem letterA_wellFormed : ∀ e ∈ [letterA] ++ (none : Option Entry).toList, e.WellFormed := by
  intro e he
  obtain rfl : e = letterA := by simpa using he
  exact ⟨by decide, by decide, by decide, by decide⟩

theorem letterA_alarm : Alarm [65] letterA.line := by
  have hwf := letterA_wellFormed letterA (by simp)
  refine (alarm_short hwf.short).mpr ⟨_, hwf.decodes, (visible_small (by decide)).mpr ?_⟩
  exact ⟨by decide, by decide⟩

def letterB : Entry := ⟨[119], (52, 50), []⟩

/-- Every page up to the alarm begins before the size runs out, and does not fill its buffer. -/
def Uncut (content : List Byte) (size : ℤ) (pages : List (List Line)) : Prop :=
  ∀ done page, ReadAfter content pages done page →
    ((render done.flatten).length : ℤ) < size ∧ (render page).length ≠ pageSize

theorem uncut_cons {content : List Byte} {size : ℤ} {page : List Line}
    {pages : List (List Line)} :
    Uncut content size (page :: pages) ↔ 0 < size ∧ (render page).length ≠ pageSize ∧
      ((∀ l ∈ page, ¬ Alarm content l) → Uncut content (size - (render page).length) pages) := by
  constructor
  · intro h
    rcases h [] page (readAfter_cons.mpr (Or.inl ⟨rfl, rfl⟩)) with ⟨hpos, hroom⟩
    refine ⟨hpos, hroom, fun hsilent done next hread => ?_⟩
    rcases h (page :: done) next (readAfter_cons.mpr (Or.inr ⟨done, rfl, hsilent, hread⟩)) with
      ⟨hstart, hnext⟩
    rw [List.flatten_cons, render_append, List.length_append] at hstart
    exact ⟨by omega, hnext⟩
  · rintro ⟨hpos, hroom, hrest⟩ done next hread
    rcases readAfter_cons.mp hread with ⟨rfl, rfl⟩ | ⟨done', rfl, hsilent, hread'⟩
    · exact ⟨hpos, hroom⟩
    · rcases hrest hsilent done' next hread' with ⟨hstart, hnext⟩
      rw [List.flatten_cons, render_append, List.length_append]
      exact ⟨by omega, hnext⟩

theorem pagesVerdict_true {content : List Byte} {size : ℤ} {pages : List (List Line)} :
    pagesVerdict content [] size pages = .ok true ↔
      pages.flatten.findSome? (lineVerdict content) = some (.ok true) ∧
      Uncut content size pages := by
  induction pages generalizing size with
  | nil => simp [pagesVerdict]
  | cons page pages ih =>
    rw [uncut_cons, List.flatten_cons, List.findSome?_append, pagesVerdict]
    by_cases hpos : 0 < size
    · by_cases hfull : (render page).length = pageSize
      · simp [hpos, hfull]
      · rw [if_pos hpos, if_neg hfull]
        cases hverdict : page.findSome? (lineVerdict content) with
        | some r =>
          simp only [Option.some_or, Option.some.injEq, hpos, ne_eq, hfull, not_false_eq_true,
            true_and]
          constructor
          · rintro rfl
            rcases List.exists_of_findSome?_eq_some hverdict with ⟨l, hl, halarm⟩
            exact ⟨rfl, fun hsilent => absurd (alarm_iff.mp halarm) (hsilent l hl)⟩
          · exact And.left
        | none =>
          have hsilent := silent_of_goes_on hverdict
          simp only [Option.none_or, hpos, ne_eq, hfull, not_false_eq_true, true_and, ih]
          constructor
          · rintro ⟨hfirst, huncut⟩
            exact ⟨hfirst, fun _ => huncut⟩
          · rintro ⟨hfirst, huncut⟩
            exact ⟨hfirst, huncut hsilent⟩
    · simp [hpos]

section insertion
variable {content : List Byte} {pages : Pages}

theorem allocated_of_found {blacklist : VFile}
    (h : Settles (checkInBlacklist pages (regularFile content) blacklist) (.ok true)) :
    Allocated pages := by
  rcases allocation_cases pages with hinput | ⟨hinput, hother⟩ | hall
  · cases h.unique (check_unallocated hinput _ _)
  · cases h.unique (check_oops hinput hother _ _)
  · exact hall

theorem check_lines_true {ls : List Line} (hls : ∀ x ∈ ls, Plain x) (hpages : Allocated pages)
    (hk : 0 < toInt content.length) :
    Settles (checkInBlacklist pages (regularFile content) (regularFile (render ls))) (.ok true) ↔
      ls.findSome? (lineVerdict content) = some (.ok true) ∧
      Uncut content (toInt (render ls).length) (paginate ls) := by
  rcases hpages with ⟨hinput, hinit, hhex⟩
  rcases Option.isSome_iff_exists.mp hinit with ⟨page, hpage⟩
  have hnil : Plain [] := ⟨List.not_mem_nil, List.not_mem_nil⟩
  have hrun := check_run hls hnil (Or.inl hk) hinput hpage hhex
  rw [List.append_nil] at hrun
  have htrue := @pagesVerdict_true content (toInt (render ls).length) (paginate ls)
  rw [paginate_flatten] at htrue
  rw [← htrue]
  constructor
  · intro h
    exact hrun.unique h
  · intro h
    exact h ▸ hrun

theorem first_alarm_insert {before after : List Line} {l : Line} (hshort : l.length < pageSize)
    (hfound : (before ++ after).findSome? (lineVerdict content) = some (.ok true)) :
    (before ++ l :: after).findSome? (lineVerdict content) = some (.ok true) ↔
      (∃ x ∈ before, Alarm content x) ∨ ∃ hex, Decodes l hex := by
  rw [List.findSome?_append] at hfound ⊢
  cases hbefore : before.findSome? (lineVerdict content) with
  | some r =>
    rw [hbefore, Option.some_or] at hfound
    rcases List.exists_of_findSome?_eq_some (hbefore.trans hfound) with ⟨x, hx, halarm⟩
    exact iff_of_true hfound (Or.inl ⟨x, hx, alarm_iff.mp halarm⟩)
  | none =>
    rw [hbefore, Option.none_or] at hfound
    have hsilent : ¬ ∃ x ∈ before, Alarm content x := by
      rintro ⟨x, hx, halarm⟩
      exact silent_of_goes_on hbefore x hx halarm
    rw [Option.none_or, List.findSome?_cons, or_iff_right hsilent,
      ← @decodes_iff content l hshort]
    cases lineVerdict content l with
    | none => simpa using hfound
    | some r => simp

/-- Given that the check finds a pattern, it still does so with one more line if and only if
the line decodes or stands behind the alarm, and no page is cut short. -/
theorem longer_blacklist_iff {before after : List Line} {l : Line}
    (hlines : ∀ x ∈ before ++ l :: after, Plain x) (hshort : l.length < pageSize)
    (hfound : Settles (checkInBlacklist pages (regularFile content)
      (regularFile (render (before ++ after)))) (.ok true)) :
    Settles (checkInBlacklist pages (regularFile content)
        (regularFile (render (before ++ l :: after)))) (.ok true) ↔
      ((∃ x ∈ before, Alarm content x) ∨ ∃ hex, Decodes l hex) ∧
      Uncut content (toInt (render (before ++ l :: after)).length)
        (paginate (before ++ l :: after)) := by
  have hpages := allocated_of_found hfound
  have hk := check_empty hfound
  have hothers : ∀ x ∈ before ++ after, Plain x := by
    intro x hx
    rcases List.mem_append.mp hx with hx | hx
    · exact hlines x (List.mem_append_left _ hx)
    · exact hlines x (List.mem_append_right _ (List.mem_cons_of_mem l hx))
  have hfirst := ((check_lines_true hothers hpages hk).mp hfound).1
  rw [check_lines_true hlines hpages hk, first_alarm_insert hshort hfirst]

end insertion

theorem uncut_one {content : List Byte} {size : ℤ} {page : List Line} (hpos : 0 < size)
    (hroom : (render page).length ≠ pageSize) : Uncut content size [page] := by
  refine uncut_cons.mpr ⟨hpos, hroom, fun _ done next hread => ?_⟩
  rcases hread with ⟨⟨rest, hsplit⟩, -⟩
  simp at hsplit

theorem letterA_found : Settles (checkInBlacklist freshPages (regularFile [65])
    (regularFile (render ([] ++ [letterA.line])))) (.ok true) := by
  have hone : paginate [letterA.line] = [[letterA.line]] := paginate_one (by decide)
  refine (check_lines_true (by decide) ⟨rfl, rfl, rfl⟩ (by decide)).mpr ⟨?_, ?_⟩
  · rw [List.nil_append, List.findSome?_cons, alarm_iff.mpr letterA_alarm]
  · rw [List.nil_append, hone]
    exact uncut_one (by decide) (by decide)

/-- A blank line before the pattern, and the file passes. -/
theorem blank_line_hides : Settles (checkInBlacklist freshPages (regularFile [65])
      (regularFile (render ([] ++ [letterA.line])))) (.ok true) ∧
    ¬ Settles (checkInBlacklist freshPages (regularFile [65])
      (regularFile (render ([] ++ [] :: [letterA.line])))) (.ok true) := by
  refine ⟨letterA_found, fun hfound => ?_⟩
  have hfirst := ((check_lines_true (by decide) ⟨rfl, rfl, rfl⟩ (by decide)).mp hfound).1
  have hstop : lineVerdict [65] [] = some (.ok false) := rfl
  rw [List.nil_append, List.findSome?_cons, hstop] at hfirst
  cases hfirst

theorem longer_blacklist_letterB : Settles (checkInBlacklist freshPages (regularFile [65])
    (regularFile (render ([] ++ letterB.line :: [letterA.line])))) (.ok true) := by
  have hone : paginate [letterB.line, letterA.line] = [[letterB.line, letterA.line]] :=
    paginate_one (by decide)
  refine (longer_blacklist_iff (by decide) (by decide) letterA_found).mpr ⟨Or.inr ⟨[66], rfl⟩, ?_⟩
  rw [List.nil_append, hone]
  exact uncut_one (by decide) (by decide)

end BlacklistVerdict
