import LoadableSystemCalls.BlacklistPaging

/-! # The line buffer of the System.map reader (syscall_intercept.c)

find_sys_call_table reads the file byte by byte into one buffer. At a newline it looks for
the name in all of the buffer, which behind the newline still holds what longer lines left. -/
namespace SystemMap

open CStrings BlacklistPaging

def maxVersionLen : ℕ := 256

def tableName : List Byte := ascii "sys_call_table"

/-- The loop, on the bytes that the calls of vfs_read give one by one. The result is the
buffer the name is found in; a fault is an access outside the buffer or a strstr that meets
no terminator. -/
def mapLoop : List Byte → List Byte → ℕ → Option (Option (List Byte))
  | [], _, _ => some none
  | b :: bytes, entry, i =>
    if i < entry.length then
      if b = 10 ∨ i = maxVersionLen then
        match strlen (entry.set i b) with
        | none => none
        | some _ =>
          if strstr (entry.set i b) tableName then some (some (entry.set i b))
          else mapLoop bytes ((entry.set i b).set 0 0) 0
      else mapLoop bytes (entry.set i b) (i + 1)
    else none

def zeroed : List Byte := List.replicate maxVersionLen 0

/-- The loop stays inside its buffer, and so does strsep on the buffer it leaves. -/
def InsideBuffer (content : List Byte) : Prop :=
  ∃ found, mapLoop content zeroed 0 = some found ∧
    ∀ entry, found = some entry → (strsep 32 entry).isSome

/-- What the lines leave at a position: the byte of the last line that reaches it. -/
def kept (ls : List Line) (j : ℕ) : Byte :=
  (ls.reverse.findSome? fun l => (l ++ [10])[j]?).getD 0

def entryAfter (ls : List Line) : List Byte := (List.range maxVersionLen).map (kept ls)

/-- The name is seen at the end of these lines. -/
def Shows (ls : List Line) : Prop := tableName <:+: text (entryAfter ls)

instance (ls : List Line) : Decidable (Shows ls) := inferInstanceAs (Decidable (_ <:+: _))

/-- No line of these ends the loop. -/
def Unseen (ls : List Line) : Prop := ∀ before, before <+: ls → ¬ Shows before

theorem kept_snoc (ls : List Line) (l : Line) (j : ℕ) :
    kept (ls ++ [l]) j = ((l ++ [10])[j]?).getD (kept ls j) := by
  rw [kept, List.reverse_append, List.reverse_singleton, List.singleton_append,
    List.findSome?_cons]
  cases (l ++ [10])[j]? <;> rfl

@[simp] theorem entryAfter_length (ls : List Line) : (entryAfter ls).length = maxVersionLen := by
  simp [entryAfter]

theorem entryAfter_nil : entryAfter [] = zeroed := by
  rw [zeroed, List.eq_replicate_iff]
  refine ⟨entryAfter_length [], ?_⟩
  intro b hb
  obtain ⟨j, -, rfl⟩ := List.mem_map.mp hb
  rfl

theorem entryAfter_getElem? {ls : List Line} {j : ℕ} (h : j < maxVersionLen) :
    (entryAfter ls)[j]? = some (kept ls j) := by
  simp [entryAfter, h]

/-- A line overwrites the front of what the lines before it left. -/
theorem entryAfter_snoc (ls : List Line) {l : Line} (hl : l.length < maxVersionLen) :
    entryAfter (ls ++ [l]) = l ++ 10 :: (entryAfter ls).drop (l.length + 1) := by
  have hlen : (l ++ [10]).length = l.length + 1 := List.length_append
  have happ : l ++ 10 :: (entryAfter ls).drop (l.length + 1) =
      (l ++ [10]) ++ (entryAfter ls).drop (l.length + 1) := by simp
  rw [happ]
  apply List.ext_getElem?
  intro j
  by_cases hj : j < maxVersionLen
  · rw [entryAfter_getElem? hj, kept_snoc]
    by_cases hfront : j < (l ++ [10]).length
    · rw [List.getElem?_append_left hfront, List.getElem?_eq_getElem hfront, Option.getD_some]
    · have hbehind : (l ++ [10])[j]? = none := List.getElem?_eq_none (Nat.le_of_not_lt hfront)
      have hj' : l.length + 1 ≤ j := hlen ▸ Nat.le_of_not_lt hfront
      rw [hbehind, Option.getD_none, List.getElem?_append_right (by omega), List.getElem?_drop,
        hlen, Nat.add_sub_cancel' hj', entryAfter_getElem? hj]
  · rw [List.getElem?_eq_none (by simp; omega), List.getElem?_eq_none]
    simp only [List.length_append, hlen, List.length_drop, entryAfter_length]
    omega

theorem not_shows_nil : ¬ Shows [] := by
  rw [Shows, entryAfter_nil]
  decide

def headAfter (ls : List Line) : List Byte := (entryAfter ls).set 0 0

def FitsLine (before : List Line) (l : Line) : Prop :=
  l.length < maxVersionLen ∧ ∃ j < maxVersionLen, kept (before ++ [l]) j = 0

def Fits (ls : List Line) : Prop := ∀ before l, before ++ [l] <+: ls → FitsLine before l

theorem fits_snoc {ls : List Line} {l : Line} : Fits (ls ++ [l]) ↔ Fits ls ∧ FitsLine ls l := by
  constructor
  · intro h
    exact ⟨fun before m hm => h before m (hm.trans (List.prefix_append ls [l])),
      h ls l (List.prefix_refl _)⟩
  · rintro ⟨hls, hl⟩ before m hm
    rcases List.prefix_concat_iff.mp hm with heq | hpre
    · obtain ⟨rfl, hlast⟩ := List.append_inj' heq rfl
      obtain rfl := List.singleton_inj.mp hlast
      exact hl
    · exact hls before m hpre

theorem unseen_snoc {ls : List Line} {l : Line} :
    Unseen (ls ++ [l]) ↔ Unseen ls ∧ ¬ Shows (ls ++ [l]) := by
  constructor
  · intro h
    exact ⟨fun before hbefore => h before (hbefore.trans (List.prefix_append ls [l])),
      h _ (List.prefix_refl _)⟩
  · rintro ⟨hls, hl⟩ before hbefore
    rcases List.prefix_concat_iff.mp hbefore with rfl | hpre
    · exact hl
    · exact hls before hpre

theorem zero_mem_entryAfter {ls : List Line} :
    0 ∈ entryAfter ls ↔ ∃ j < maxVersionLen, kept ls j = 0 := by
  simp [entryAfter]

section loop
variable {entry p q : List Byte}

theorem set_front (hp : p.length < entry.length) (b : Byte) :
    (p ++ entry.drop p.length).set p.length b = p ++ b :: entry.drop (p.length + 1) := by
  rw [List.set_append_right _ _ le_rfl, Nat.sub_self, List.drop_eq_getElem_cons hp,
    List.set_cons_zero]

theorem mapLoop_run (hlen : entry.length = maxVersionLen) (hq : 10 ∉ q)
    (hroom : p.length + q.length ≤ maxVersionLen) (bytes : List Byte) :
    mapLoop (q ++ bytes) (p ++ entry.drop p.length) p.length =
      mapLoop bytes (p ++ q ++ entry.drop (p ++ q).length) (p ++ q).length := by
  induction q generalizing p with
  | nil => simp
  | cons b q ih =>
    rw [List.length_cons] at hroom
    have hb : b ≠ 10 := by
      rintro rfl
      exact hq List.mem_cons_self
    have hp : p.length < entry.length := by omega
    have hi : ¬ (b = 10 ∨ p.length = maxVersionLen) := not_or.mpr ⟨hb, by omega⟩
    have hinside : p.length < (p ++ entry.drop p.length).length := by
      rw [List.length_append, List.length_drop]
      omega
    have hnext := ih (p := p ++ [b]) (fun h => hq (List.mem_cons_of_mem b h))
      (by rw [List.length_append, List.length_singleton]; omega)
    have happ : p ++ [b] ++ entry.drop (p ++ [b]).length = p ++ b :: entry.drop (p.length + 1) := by
      simp
    rw [happ, List.append_assoc p [b] q, List.singleton_append] at hnext
    rw [List.cons_append, mapLoop, if_pos hinside, if_neg hi, set_front hp, ← hnext,
      List.length_append, List.length_singleton]

theorem mapLoop_full (hlen : entry.length = maxVersionLen) (b : Byte) (bytes : List Byte) :
    mapLoop (b :: bytes) entry maxVersionLen = none := by
  rw [mapLoop, if_neg (by omega)]

theorem mapLoop_overrun (hlen : entry.length = maxVersionLen) (hq : 10 ∉ q)
    (hlong : maxVersionLen ≤ q.length) (bytes : List Byte)
    (hmore : maxVersionLen < (q ++ bytes).length) : mapLoop (q ++ bytes) entry 0 = none := by
  have hsplit := List.take_append_drop maxVersionLen (q ++ bytes)
  have htake : (q ++ bytes).take maxVersionLen = q.take maxVersionLen :=
    List.take_append_of_le_length hlong
  have hcut : (q.take maxVersionLen).length = maxVersionLen := List.length_take_of_le hlong
  obtain ⟨b, rest, hrest⟩ : ∃ b rest, (q ++ bytes).drop maxVersionLen = b :: rest := by
    apply List.exists_cons_of_length_pos
    rw [List.length_drop]
    omega
  have hrun := mapLoop_run (p := []) (q := q.take maxVersionLen) hlen
    (fun h => hq (List.mem_of_mem_take h)) (by simp [hcut]) (b :: rest)
  rw [List.nil_append, List.nil_append, List.length_nil, List.drop_zero, hcut,
    mapLoop_full (by rw [List.length_append, List.length_drop, hcut, hlen]; omega)] at hrun
  rw [← hsplit, htake, hrest]
  exact hrun

end loop

theorem headAfter_nil : headAfter [] = zeroed := by
  rw [headAfter, entryAfter_nil]
  rfl

theorem headAfter_length (ls : List Line) : (headAfter ls).length = maxVersionLen := by
  rw [headAfter, List.length_set, entryAfter_length]

theorem mapLoop_line {before : List Line} {l : Line} (hl : 10 ∉ l)
    (hshort : l.length < maxVersionLen) (bytes : List Byte) :
    mapLoop (l ++ 10 :: bytes) (headAfter before) 0 =
      match strlen (entryAfter (before ++ [l])) with
      | none => none
      | some _ =>
        if Shows (before ++ [l]) then some (some (entryAfter (before ++ [l])))
        else mapLoop bytes (headAfter (before ++ [l])) 0 := by
  have hlen := headAfter_length before
  have hrun := mapLoop_run (p := []) hlen hl (by simp; omega) (10 :: bytes)
  have hend : (l ++ (headAfter before).drop l.length).set l.length 10 =
      entryAfter (before ++ [l]) := by
    rw [set_front (by omega), entryAfter_snoc before hshort, headAfter,
      List.drop_set_of_lt (Nat.succ_pos _)]
  have hinside : l.length < (l ++ (headAfter before).drop l.length).length := by
    rw [List.length_append, List.length_drop]
    omega
  have hname : text tableName = tableName := by decide
  rw [List.nil_append, List.nil_append, List.length_nil, List.drop_zero] at hrun
  rw [hrun, mapLoop, if_pos hinside, if_pos (Or.inl rfl), hend]
  simp only [strstr, hname, decide_eq_true_eq]
  rfl

theorem mapLoop_fits {before : List Line} {l : Line} (hl : 10 ∉ l) (h : FitsLine before l)
    (bytes : List Byte) :
    mapLoop (l ++ 10 :: bytes) (headAfter before) 0 =
      if Shows (before ++ [l]) then some (some (entryAfter (before ++ [l])))
      else mapLoop bytes (headAfter (before ++ [l])) 0 := by
  rw [mapLoop_line hl h.1, strlen_of_mem (zero_mem_entryAfter.mpr h.2)]

theorem mapLoop_oops {before : List Line} {l : Line} (hl : 10 ∉ l) (h : ¬ FitsLine before l)
    (bytes : List Byte) : mapLoop (l ++ 10 :: bytes) (headAfter before) 0 = none := by
  by_cases hshort : l.length < maxVersionLen
  · have hfree : NulFree (entryAfter (before ++ [l])) :=
      fun hzero => h ⟨hshort, zero_mem_entryAfter.mp hzero⟩
    rw [mapLoop_line hl hshort, strlen_nulFree hfree]
  · apply mapLoop_overrun (headAfter_length before) hl (Nat.le_of_not_lt hshort) (10 :: bytes)
    rw [List.length_append, List.length_cons]
    omega

theorem mapLoop_after {ls : List Line} (hls : ∀ l ∈ ls, 10 ∉ l) (hfits : Fits ls)
    (hunseen : Unseen ls) (bytes : List Byte) :
    mapLoop (render ls ++ bytes) zeroed 0 = mapLoop bytes (headAfter ls) 0 := by
  induction ls using List.reverseRecOn generalizing bytes with
  | nil => rw [headAfter_nil, render_nil, List.nil_append]
  | append_singleton ls l ih =>
    obtain ⟨hfits, hl⟩ := fits_snoc.mp hfits
    obtain ⟨hunseen, hno⟩ := unseen_snoc.mp hunseen
    have hrest := ih (fun x hx => hls x (List.mem_append_left [l] hx)) hfits hunseen
    have hbytes : render (ls ++ [l]) ++ bytes = render ls ++ (l ++ 10 :: bytes) := by
      simp [render_append]
    rw [hbytes, hrest, mapLoop_fits (hls l (by simp)) hl, if_neg hno]

theorem lines_cases (ls : List Line) : (Fits ls ∧ Unseen ls) ∨
    ∃ before l rest, ls = before ++ l :: rest ∧ Fits before ∧ Unseen before ∧
      (¬ FitsLine before l ∨ FitsLine before l ∧ Shows (before ++ [l])) := by
  induction ls using List.reverseRecOn with
  | nil =>
    refine Or.inl ⟨?_, ?_⟩
    · intro before l hpre
      simp at hpre
    · intro before hpre
      obtain rfl := List.prefix_nil.mp hpre
      exact not_shows_nil
  | append_singleton ls l ih =>
    rcases ih with ⟨hfits, hunseen⟩ | ⟨before, m, rest, rfl, hrest⟩
    · by_cases hl : FitsLine ls l
      · by_cases hshows : Shows (ls ++ [l])
        · exact Or.inr ⟨ls, l, [], rfl, hfits, hunseen, Or.inr ⟨hl, hshows⟩⟩
        · exact Or.inl ⟨fits_snoc.mpr ⟨hfits, hl⟩, unseen_snoc.mpr ⟨hunseen, hshows⟩⟩
      · exact Or.inr ⟨ls, l, [], rfl, hfits, hunseen, Or.inl hl⟩
    · exact Or.inr ⟨before, m, rest ++ [l], by simp, hrest⟩

section content
variable {ls : List Line} {tail : List Byte}

/-- The first line that shows the name, if the lines up to it fit. -/
def FoundAt (ls before : List Line) (l : Line) : Prop :=
  before ++ [l] <+: ls ∧ Fits (before ++ [l]) ∧ Unseen before ∧ Shows (before ++ [l])

/-- No line shows the name, and all of the text fits. -/
def NotFound (ls : List Line) (tail : List Byte) : Prop :=
  Fits ls ∧ Unseen ls ∧ tail.length ≤ maxVersionLen

theorem mapLoop_found (hls : ∀ l ∈ ls, 10 ∉ l) (tail : List Byte) {before : List Line}
    {l : Line} (h : FoundAt ls before l) :
    mapLoop (render ls ++ tail) zeroed 0 = some (some (entryAfter (before ++ [l]))) := by
  obtain ⟨⟨rest, rfl⟩, hfits, hunseen, hshows⟩ := h
  obtain ⟨hfits, hl⟩ := fits_snoc.mp hfits
  have hbytes : render (before ++ [l] ++ rest) ++ tail =
      render before ++ (l ++ 10 :: (render rest ++ tail)) := by
    simp [render_append]
  have hbefore : ∀ x ∈ before, 10 ∉ x := by
    intro x hx
    exact hls x (List.mem_append_left _ (List.mem_append_left _ hx))
  rw [hbytes, mapLoop_after hbefore hfits hunseen, mapLoop_fits (hls l (by simp)) hl,
    if_pos hshows]

theorem mapLoop_notFound (hls : ∀ l ∈ ls, 10 ∉ l) (htail : 10 ∉ tail) (h : NotFound ls tail) :
    mapLoop (render ls ++ tail) zeroed 0 = some none := by
  obtain ⟨hfits, hunseen, hshort⟩ := h
  have hrun := mapLoop_run (p := []) (headAfter_length ls) htail (by simpa using hshort) []
  rw [List.append_nil, List.nil_append, List.nil_append, List.length_nil, List.drop_zero] at hrun
  rw [mapLoop_after hls hfits hunseen, hrun, mapLoop]

/-- Every text is one of these, or the loop leaves its buffer. -/
theorem mapLoop_cases (hls : ∀ l ∈ ls, 10 ∉ l) (htail : 10 ∉ tail) :
    (∃ before l, FoundAt ls before l) ∨ NotFound ls tail ∨
      mapLoop (render ls ++ tail) zeroed 0 = none := by
  rcases lines_cases ls with ⟨hfits, hunseen⟩ | ⟨before, l, rest, rfl, hfits, hunseen, hl⟩
  · by_cases hshort : tail.length ≤ maxVersionLen
    · exact Or.inr (Or.inl ⟨hfits, hunseen, hshort⟩)
    · right
      right
      have hover := mapLoop_overrun (headAfter_length ls) htail (by omega) []
        (by rw [List.append_nil]; omega)
      rw [mapLoop_after hls hfits hunseen, ← List.append_nil tail, hover]
  · rcases hl with hbad | ⟨hl, hshows⟩
    · right
      right
      have hbytes : render (before ++ l :: rest) ++ tail =
          render before ++ (l ++ 10 :: (render rest ++ tail)) := by
        simp [render_append]
      have hbefore : ∀ x ∈ before, 10 ∉ x := fun x hx => hls x (List.mem_append_left _ hx)
      rw [hbytes, mapLoop_after hbefore hfits hunseen, mapLoop_oops (hls l (by simp)) hbad]
    · refine Or.inl ⟨before, l, ⟨rest, by simp⟩, fits_snoc.mpr ⟨hfits, hl⟩, hunseen, hshows⟩

end content

def completeLines (content : List Byte) : List Line := (content.splitOn 10).dropLast

def partialLine (content : List Byte) : List Byte :=
  (content.splitOn 10).getLast (List.splitOn_ne_nil 10 content)

theorem newline_notMem {content l : List Byte} (hl : l ∈ content.splitOn 10) : 10 ∉ l := by
  induction content generalizing l with
  | nil =>
    rw [List.splitOn_nil, List.mem_singleton] at hl
    rw [hl]
    exact List.not_mem_nil
  | cons c content ih =>
    rw [List.splitOn_cons_eq_if_modifyHead] at hl
    obtain ⟨first, rest, hsplit⟩ := List.exists_cons_of_ne_nil (List.splitOn_ne_nil 10 content)
    rw [hsplit] at ih hl
    split at hl
    · rcases List.mem_cons.mp hl with rfl | hl
      · exact List.not_mem_nil
      · exact ih hl
    · next hc =>
      rw [List.modifyHead_cons] at hl
      rcases List.mem_cons.mp hl with rfl | hl
      · intro hmem
        rcases List.mem_cons.mp hmem with heq | hmem
        · exact hc (by simp [heq])
        · exact ih List.mem_cons_self hmem
      · exact ih (List.mem_cons_of_mem first hl)

theorem intercalate_newline {ls : List Line} (h : ls ≠ []) :
    [10].intercalate ls = render ls.dropLast ++ ls.getLast h := by
  induction ls with
  | nil => exact absurd rfl h
  | cons l ls ih =>
    cases ls with
    | nil => simp
    | cons m ls =>
      rw [List.intercalate_cons_cons, ih (List.cons_ne_nil m ls)]
      simp

theorem render_completeLines (content : List Byte) :
    render (completeLines content) ++ partialLine content = content := by
  rw [completeLines, partialLine, ← intercalate_newline, List.intercalate_splitOn]

theorem completeLines_newline {content l : List Byte} (hl : l ∈ completeLines content) :
    10 ∉ l := newline_notMem (List.mem_of_mem_dropLast hl)

theorem partialLine_newline (content : List Byte) : 10 ∉ partialLine content :=
  newline_notMem (List.getLast_mem _)

theorem strsep_isSome {s : List Byte} (h : 0 ∈ s) (d : Byte) : (strsep d s).isSome := by
  induction s with
  | nil => cases h
  | cons x s ih =>
    rw [strsep]
    by_cases hx : x = d
    · rw [if_pos hx]
      rfl
    · by_cases hx0 : x = 0
      · rw [if_neg hx, if_pos hx0]
        rfl
      · have hs := ih (List.mem_of_ne_of_mem (Ne.symm hx0) h)
        rw [if_neg hx, if_neg hx0, Option.isSome_map]
        exact hs

/-- The reader stays inside its buffer if and only if the lines fit up to the first that shows
the name, or all do and so does what is left behind the last newline. -/
theorem inside_buffer_iff (content : List Byte) :
    InsideBuffer content ↔ (∃ before l, FoundAt (completeLines content) before l) ∨
      NotFound (completeLines content) (partialLine content) := by
  have hls : ∀ l ∈ completeLines content, 10 ∉ l := fun l hl => completeLines_newline hl
  have htail := partialLine_newline content
  have hcases := mapLoop_cases hls htail
  have hfound := @mapLoop_found _ hls (partialLine content)
  have hnone := mapLoop_notFound hls htail
  rw [render_completeLines] at hcases hfound hnone
  constructor
  · rintro ⟨found, hloop, -⟩
    rcases hcases with hat | hat | hoops
    · exact Or.inl hat
    · exact Or.inr hat
    · rw [hoops] at hloop
      cases hloop
  · rintro (⟨before, l, hat⟩ | hat)
    · refine ⟨_, hfound hat, ?_⟩
      intro entry hentry
      obtain rfl := Option.some.inj hentry
      have hfits := (fits_snoc.mp hat.2.1).2
      exact strsep_isSome (zero_mem_entryAfter.mpr hfits.2) 32
    · refine ⟨none, hnone hat, ?_⟩
      intro entry hentry
      cases hentry

/-- The 257th byte of a line is written behind the buffer, and a line that fills it with its
newline leaves no terminator. -/
theorem long_lines_leave :
    ¬ InsideBuffer (List.replicate 257 97) ∧ ¬ InsideBuffer (List.replicate 255 97 ++ [10]) := by
  have hfree (n : ℕ) : (10 : Byte) ∉ List.replicate n 97 := by
    intro h
    exact absurd (List.eq_of_mem_replicate h) (by decide)
  constructor
  · rintro ⟨found, hloop, -⟩
    have hover := mapLoop_overrun (headAfter_length []) (hfree 257)
      (by rw [List.length_replicate]; decide) []
      (by rw [List.append_nil, List.length_replicate]; decide)
    rw [headAfter_nil, List.append_nil, hloop] at hover
    cases hover
  · rintro ⟨found, hloop, -⟩
    have hbad : ¬ FitsLine [] (List.replicate 255 97) := by
      rintro ⟨-, j, hj, hzero⟩
      have hlen : (List.replicate 255 (97 : Byte) ++ [10]).length = maxVersionLen := by
        rw [List.length_append, List.length_replicate]
        rfl
      have hmem := List.getElem_mem (hlen ▸ hj)
      rw [kept_snoc, List.getElem?_eq_getElem (hlen ▸ hj), Option.getD_some] at hzero
      rw [hzero] at hmem
      rcases List.mem_append.mp hmem with h | h
      · exact absurd (List.eq_of_mem_replicate h) (by decide)
      · exact absurd (List.mem_singleton.mp h) (by decide)
    have hoops := mapLoop_oops (hfree 255) hbad []
    rw [headAfter_nil, hloop] at hoops
    cases hoops

end SystemMap
