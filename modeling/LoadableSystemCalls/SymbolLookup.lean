import LoadableSystemCalls.DriverSetup

/-! # Looking up sys_call_table in System.map (syscall_intercept.c)

Over lines of an address, a type and a name the reader takes the first line whose name
contains sys_call_table, whatever longer lines have left in its buffer. -/
namespace SymbolLookup

open CStrings KernelTypes HexDecoding BlacklistPaging SystemMap DriverSetup

structure MapLine where
  address : List Byte
  type : Byte
  name : List Byte
  deriving DecidableEq, Repr

namespace MapLine
variable (l : MapLine)

def text : Line := l.address ++ 32 :: l.type :: 32 :: l.name

def value : Addr := l.address.foldl (fun v c => v * 16 + (hexValue c).getD 0) 0

/-- The address has 64 bits, and the line with its newline leaves room in the buffer. -/
structure WellFormed : Prop where
  digits : l.address ≠ [] ∧ ∀ c ∈ l.address, isHex c = true
  bits : l.value < 2 ^ 64
  type : l.type ≠ 0 ∧ l.type ≠ 10
  name : Plain l.name
  short : l.text.length < 255

def contains : Bool := decide (tableName <:+: l.name)

end MapLine

def Held (l : Line) : Prop := Plain l ∧ l.length < 255

theorem text_zeros {s : List Byte} (hs : NulFree s) (n : ℕ) :
    text (s ++ List.replicate n 0) = s := by
  rw [text_append hs]
  cases n with
  | zero => exact List.append_nil s
  | succ n => exact List.append_nil s

section buffer
variable {ls : List Line} {l : Line}

theorem entryAfter_text (hls : ∀ l ∈ ls, Held l) : (∃ n, 0 < n ∧
      entryAfter ls = text (entryAfter ls) ++ List.replicate n 0) ∧
    ∀ l, Held l → text (entryAfter (ls ++ [l])) =
      l ++ 10 :: (text (entryAfter ls)).drop (l.length + 1) := by
  have hsnoc {ls : List Line} {n : ℕ} (hn : 0 < n)
      (hbuff : entryAfter ls = text (entryAfter ls) ++ List.replicate n 0) (l : Line)
      (hl : Held l) : ∃ m, 0 < m ∧ entryAfter (ls ++ [l]) =
        l ++ 10 :: (text (entryAfter ls)).drop (l.length + 1) ++ List.replicate m 0 := by
    obtain ⟨-, hshort⟩ := hl
    have hlen := entryAfter_length ls
    rw [hbuff, List.length_append, List.length_replicate, maxVersionLen] at hlen
    refine ⟨n - (l.length + 1 - (text (entryAfter ls)).length), by omega, ?_⟩
    rw [entryAfter_snoc ls (Nat.lt_trans hshort (by decide)), List.append_assoc,
      List.cons_append, ← List.drop_replicate, ← List.drop_append, ← hbuff]
  have hfree {ls : List Line} (l : Line) (hl : Held l) :
      NulFree (l ++ 10 :: (text (entryAfter ls)).drop (l.length + 1)) := by
    apply hl.1.1.append
    intro hmem
    rcases List.mem_cons.mp hmem with heq | hmem
    · exact absurd heq (by decide)
    · exact text_nulFree _ (List.mem_of_mem_drop hmem)
  have hzeros : ∃ n, 0 < n ∧ entryAfter ls = text (entryAfter ls) ++ List.replicate n 0 := by
    induction ls using List.reverseRecOn with
    | nil => exact ⟨maxVersionLen, by decide, entryAfter_nil⟩
    | append_singleton ls l ih =>
      obtain ⟨n, hn, hbuff⟩ := ih fun x hx => hls x (List.mem_append_left [l] hx)
      obtain ⟨m, hm, hnext⟩ := hsnoc hn hbuff l (hls l (by simp))
      refine ⟨m, hm, ?_⟩
      rw [hnext, text_zeros (hfree l (hls l (by simp)))]
  refine ⟨hzeros, ?_⟩
  intro l hl
  obtain ⟨n, hn, hbuff⟩ := hzeros
  obtain ⟨m, -, hnext⟩ := hsnoc hn hbuff l hl
  rw [hnext, text_zeros (hfree l hl)]

theorem fits_of_held (hls : ∀ l ∈ ls, Held l) : Fits ls := by
  intro before l hpre
  have hbefore : ∀ x ∈ before ++ [l], Held x := fun x hx => hls x (hpre.subset hx)
  obtain ⟨n, hn, hbuff⟩ := (entryAfter_text hbefore).1
  have hzero : 0 ∈ entryAfter (before ++ [l]) := by
    rw [hbuff]
    exact List.mem_append_right _ (List.mem_replicate.mpr ⟨hn.ne', rfl⟩)
  exact ⟨Nat.lt_trans (hbefore l (by simp)).2 (by decide), zero_mem_entryAfter.mp hzero⟩

/-- What a longer line left behind the newline shows nothing new. -/
theorem shows_snoc (hls : ∀ l ∈ ls, Held l) (hl : Held l) (hno : ¬ Shows ls) :
    Shows (ls ++ [l]) ↔ tableName <:+: l := by
  rw [Shows, (entryAfter_text hls).2 l hl]
  constructor
  · intro h
    rcases infix_of_delimited (by decide) h with hline | hstale
    · exact hline
    · exact absurd (hstale.trans (List.drop_suffix _ _).isInfix) hno
  · intro h
    exact h.trans (List.prefix_append _ _).isInfix

theorem unseen_of_held (hls : ∀ l ∈ ls, Held l) (hno : ∀ l ∈ ls, ¬ tableName <:+: l) :
    Unseen ls := by
  induction ls using List.reverseRecOn with
  | nil =>
    intro before hpre
    rw [List.prefix_nil.mp hpre]
    exact not_shows_nil
  | append_singleton ls l ih =>
    have hheld : ∀ x ∈ ls, Held x := fun x hx => hls x (List.mem_append_left [l] hx)
    have hunseen := ih hheld fun x hx => hno x (List.mem_append_left [l] hx)
    have hlast := shows_snoc hheld (hls l (by simp)) (hunseen ls (List.prefix_refl ls))
    exact unseen_snoc.mpr ⟨hunseen, fun h => hno l (by simp) (hlast.mp h)⟩

end buffer

section lookup
variable {ls : List MapLine} {l : MapLine}

theorem MapLine.WellFormed.held (h : l.WellFormed) : Held l.text := by
  have haddress : Plain l.address := by
    refine ⟨fun hmem => ?_, fun hmem => ?_⟩
    · exact absurd (h.digits.2 _ hmem) (by decide)
    · exact absurd (h.digits.2 _ hmem) (by decide)
  have hname : Plain (32 :: l.name) := Plain.cons (by decide) h.name
  exact ⟨haddress.append (Plain.cons (by decide) (Plain.cons h.type hname)), h.short⟩

theorem MapLine.WellFormed.infix_text (h : l.WellFormed) :
    tableName <:+: l.text ↔ l.contains = true := by
  rw [MapLine.contains, decide_eq_true_eq, MapLine.text]
  constructor
  · intro hin
    rcases infix_of_delimited (by decide) hin with haddress | hrest
    · have hs : (115 : Byte) ∈ l.address := haddress.subset (by decide)
      exact absurd (h.digits.2 115 hs) (by decide)
    · rcases infix_of_delimited (a := [l.type]) (by decide) hrest with htype | hname
      · have hlen : tableName.length ≤ 1 := htype.length_le
        exact absurd hlen (by decide)
      · exact hname
  · intro hin
    apply hin.trans
    exact ⟨l.address ++ [32, l.type, 32], [], by simp⟩

theorem MapLine.WellFormed.kstrtoul (h : l.WellFormed) :
    DriverSetup.kstrtoul l.address = some l.value := by
  obtain ⟨c, rest, haddress⟩ := List.exists_cons_of_ne_nil h.digits.1
  have hdigits := h.digits.2
  have hsign : c ≠ 43 := by
    rintro rfl
    exact absurd (hdigits 43 (haddress ▸ List.mem_cons_self)) (by decide)
  have hradix : fixupRadix l.address = l.address := by
    cases rest with
    | nil => rw [haddress, fixupRadix.eq_def]
    | cons x rest =>
      have hx : isHex x = true := hdigits x (by simp [haddress])
      rw [haddress, fixupRadix_digits hx]
  have htake : l.address.takeWhile isHex = l.address := List.takeWhile_eq_self_iff.mpr hdigits
  have hdrop : l.address.dropWhile isHex = [] := List.dropWhile_eq_nil_iff.mpr hdigits
  unfold DriverSetup.kstrtoul
  split
  · next heq => exact absurd (List.cons.inj (haddress.symm.trans heq)).1 hsign
  · simp only [hradix, htake, hdrop]
    rw [if_neg (by simpa using h.digits.1)]
    exact if_pos h.bits

theorem MapLine.WellFormed.strsep_text (h : l.WellFormed) (stale : List Byte) :
    strsep 32 (l.text ++ stale) = some (l.address, some (l.type :: 32 :: l.name ++ stale)) := by
  have hfree : NulFree l.address := fun hmem => absurd (h.digits.2 0 hmem) (by decide)
  have hblank : 32 ∉ l.address := fun hmem => absurd (h.digits.2 32 hmem) (by decide)
  rw [MapLine.text, List.append_assoc, List.cons_append]
  exact strsep_found hfree hblank _

theorem mapLoop_lines (hls : ∀ l ∈ ls, l.WellFormed) :
    match ls.find? MapLine.contains with
    | none => mapLoop (render (ls.map MapLine.text)) zeroed 0 = some none
    | some l => ∃ stale, mapLoop (render (ls.map MapLine.text)) zeroed 0 =
        some (some (l.text ++ stale)) := by
  have hheld {ms : List MapLine} (hms : ∀ l ∈ ms, l.WellFormed) :
      ∀ x ∈ ms.map MapLine.text, Held x := by
    intro x hx
    obtain ⟨l, hl, rfl⟩ := List.mem_map.mp hx
    exact (hms l hl).held
  have hno {ms : List MapLine} (hms : ∀ l ∈ ms, l.WellFormed)
      (hname : ∀ l ∈ ms, ¬ l.contains = true) : Unseen (ms.map MapLine.text) := by
    apply unseen_of_held (hheld hms)
    intro x hx
    obtain ⟨l, hl, rfl⟩ := List.mem_map.mp hx
    exact fun hin => hname l hl ((hms l hl).infix_text.mp hin)
  have hnewline : ∀ x ∈ ls.map MapLine.text, 10 ∉ x := fun x hx => (hheld hls x hx).1.2
  cases hfind : ls.find? MapLine.contains with
  | none =>
    have hunseen := hno hls (List.find?_eq_none.mp hfind)
    have hat : NotFound (ls.map MapLine.text) [] :=
      ⟨fits_of_held (hheld hls), hunseen, Nat.zero_le _⟩
    have hnone := mapLoop_notFound hnewline List.not_mem_nil hat
    rwa [List.append_nil] at hnone
  | some l =>
    obtain ⟨hl, before, rest, rfl, hbefore⟩ := List.find?_eq_some_iff_append.mp hfind
    have hpre : ∀ m ∈ before ++ [l], m.WellFormed := by
      intro m hm
      apply hls m
      rcases List.mem_append.mp hm with hm | hm
      · exact List.mem_append_left _ hm
      · exact List.mem_append_right _ (List.mem_singleton.mp hm ▸ List.mem_cons_self)
    have hb : ∀ m ∈ before, m.WellFormed := fun m hm => hpre m (List.mem_append_left [l] hm)
    have hwf : l.WellFormed := hpre l (by simp)
    have hunseen := hno hb (by simpa using hbefore)
    have hshows := (shows_snoc (hheld hb) hwf.held (hunseen _ (List.prefix_refl _))).mpr
      (hwf.infix_text.mpr hl)
    have hfits : Fits ((before ++ [l]).map MapLine.text) := fits_of_held (hheld hpre)
    rw [List.map_append, List.map_singleton] at hfits
    have hfound := mapLoop_found hnewline []
      ⟨⟨rest.map MapLine.text, by simp⟩, hfits, hunseen, hshows⟩
    rw [List.append_nil] at hfound
    refine ⟨10 :: (entryAfter (before.map MapLine.text)).drop (l.text.length + 1), ?_⟩
    rw [hfound, entryAfter_snoc _ (Nat.lt_trans hwf.held.2 (by decide))]

def reading (o : Outcomes) (ls : List MapLine) : Outcomes :=
  { o with
    kzallocFilename := true
    openMap := fun _ => .object
    kzallocEntry := true
    kzallocString := true
    systemMap := render (ls.map MapLine.text)
    kstrtoul := DriverSetup.kstrtoul }

theorem findSysCallTable_lines (hls : ∀ l ∈ ls, l.WellFormed) (o : Outcomes)
    (kernVer : List Byte) (s : State) :
    ∃ t, findSysCallTable (reading o ls) (some kernVer) s = some (t, 0) ∧
      t.syscallTable = ((ls.find? MapLine.contains).map MapLine.value).getD s.syscallTable := by
  have hreads : (reading o ls).Reads kernVer := ⟨rfl, rfl, rfl⟩
  have hloop := mapLoop_lines hls
  cases hfind : ls.find? MapLine.contains with
  | none =>
    rw [hfind] at hloop
    exact ⟨_, findSysCallTable_notFound s hreads hloop, rfl⟩
  | some l =>
    rw [hfind] at hloop
    obtain ⟨stale, hloop⟩ := hloop
    have hwf : l.WellFormed := hls l (List.mem_of_find?_eq_some hfind)
    refine ⟨_, findSysCallTable_found s hreads rfl hloop (hwf.strsep_text stale), ?_⟩
    have hvalue : (reading o ls).kstrtoul l.address = some l.value := hwf.kstrtoul
    simp only [hvalue, Option.getD_some, Option.map_some]

def named (ls : List MapLine) : List MapLine := ls.filter (·.name = tableName)

/-- The only line of the symbol gives the table, and without one there is a failure. -/
def LookupCorrect (o : Outcomes) (kernVer : List Byte) (s : State) (ls : List MapLine) : Prop :=
  ∃ t ret, findSysCallTable (reading o ls) (some kernVer) s = some (t, ret) ∧
    (∀ l, named ls = [l] → t.syscallTable = l.value ∧ ret = 0) ∧
    (named ls = [] → t.syscallTable = 0 ∧ ret < 0)

theorem needs_of_correct (hls : ∀ l ∈ ls, l.WellFormed) {o : Outcomes} {kernVer : List Byte}
    {s : State} (h : LookupCorrect o kernVer s ls) : (∃ l ∈ ls, l.name = tableName) ∧
      ∀ l, named ls = [l] → ∀ m, ls.find? MapLine.contains = some m → m.value = l.value := by
  obtain ⟨t, hlookup, htable⟩ := findSysCallTable_lines hls o kernVer s
  obtain ⟨t', ret, hlookup', hone, hnone⟩ := h
  rw [hlookup] at hlookup'
  obtain ⟨rfl, rfl⟩ := Prod.mk.inj (Option.some.inj hlookup')
  refine ⟨?_, ?_⟩
  · by_contra hno
    have hempty : named ls = [] := by simpa [named, List.filter_eq_nil_iff] using hno
    exact absurd (hnone hempty).2 (lt_irrefl 0)
  · intro l hl m hm
    rw [← (hone l hl).1, htable, hm]
    rfl

/-- The lookup is right if and only if there is a line of the symbol and, when it is the only
one, the first line whose name contains the symbol has the same address. -/
theorem lookup_correct_iff (hls : ∀ l ∈ ls, l.WellFormed) (o : Outcomes) (kernVer : List Byte)
    (s : State) :
    LookupCorrect o kernVer s ls ↔ (∃ l ∈ ls, l.name = tableName) ∧
      ∀ l, named ls = [l] → ∀ m, ls.find? MapLine.contains = some m → m.value = l.value := by
  constructor
  · exact needs_of_correct hls
  · rintro ⟨⟨l₀, hin₀, hname₀⟩, hfirst⟩
    obtain ⟨t, hlookup, htable⟩ := findSysCallTable_lines hls o kernVer s
    have hcontains : l₀.contains = true := by
      rw [MapLine.contains, hname₀]
      exact decide_eq_true (List.infix_refl tableName)
    obtain ⟨m, hm⟩ := Option.isSome_iff_exists.mp (List.find?_isSome.mpr ⟨l₀, hin₀, hcontains⟩)
    refine ⟨t, 0, hlookup, ?_, ?_⟩
    · intro l hl
      rw [htable, hm]
      exact ⟨hfirst l hl m hm, rfl⟩
    · intro hnone
      have hmem : l₀ ∈ named ls := List.mem_filter.mpr ⟨hin₀, decide_eq_true hname₀⟩
      rw [hnone] at hmem
      cases hmem

theorem lookup_correct_one :
    LookupCorrect (noFailure [] [] (Nat.zero_le _)) (ascii "4.6.0")
      (unloaded .userDs fun _ => .kernel 0)
      [⟨ascii "c1", 84, ascii "sys_call"⟩, ⟨ascii "c15d50A0", 82, tableName⟩] := by
  apply (lookup_correct_iff _ _ _ _).mpr
  · refine ⟨by decide, ?_⟩
    intro l hl m hm
    have hnamed : named [⟨ascii "c1", 84, ascii "sys_call"⟩, ⟨ascii "c15d50A0", 82, tableName⟩] =
        [⟨ascii "c15d50A0", 82, tableName⟩] := by decide
    have hfirst : List.find? MapLine.contains [⟨ascii "c1", 84, ascii "sys_call"⟩,
        ⟨ascii "c15d50A0", 82, tableName⟩] = some ⟨ascii "c15d50A0", 82, tableName⟩ := by decide
    obtain rfl := List.singleton_inj.mp (hnamed.symm.trans hl)
    obtain rfl := Option.some.inj (hfirst.symm.trans hm)
    rfl
  · intro l hl
    rcases List.mem_pair.mp hl with rfl | rfl
    · exact ⟨by decide, by decide, by decide, by decide, by decide⟩
    · exact ⟨by decide, by decide, by decide, by decide, by decide⟩

/-- The table of another name that comes first is taken, and no table is no failure. -/
theorem lookup_wrong :
    ¬ LookupCorrect (noFailure [] [] (Nat.zero_le _)) (ascii "4.6.0")
      (unloaded .userDs fun _ => .kernel 0)
      [⟨ascii "c15d6000", 82, ascii "ia32_sys_call_table"⟩, ⟨ascii "c15d50a0", 82, tableName⟩] ∧
    ¬ LookupCorrect (noFailure [] [] (Nat.zero_le _)) (ascii "4.6.0")
      (unloaded .userDs fun _ => .kernel 0) [] := by
  constructor
  · intro h
    have hls : ∀ l ∈ [⟨ascii "c15d6000", 82, ascii "ia32_sys_call_table"⟩,
        ⟨ascii "c15d50a0", 82, tableName⟩], MapLine.WellFormed l := by
      intro l hl
      rcases List.mem_pair.mp hl with rfl | rfl
      · exact ⟨by decide, by decide, by decide, by decide, by decide⟩
      · exact ⟨by decide, by decide, by decide, by decide, by decide⟩
    have hvalue := (needs_of_correct hls h).2 ⟨ascii "c15d50a0", 82, tableName⟩ (by decide)
      ⟨ascii "c15d6000", 82, ascii "ia32_sys_call_table"⟩ (by decide)
    exact absurd hvalue (by decide)
  · intro h
    obtain ⟨l, hl, -⟩ := (needs_of_correct (fun l hl => absurd hl List.not_mem_nil) h).1
    cases hl

end lookup

end SymbolLookup
