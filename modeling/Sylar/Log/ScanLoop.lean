/-
  Sylar.Log.ScanLoop — the scan loop of LogFormatter::init with its index (sylar/log.cpp
  lines 208-266): which positions of m_pattern it reads, and which it passes.

  The pattern has one `Char` for each char of the std::string. A position past the end is
  read as '\0' at size, and as `past` beyond it. Every m_pattern[i] is recorded in `reads`
  and every ++i in `passed`.

  Proved:
  - `lt_turn`: every turn moves the index up, from any locals.
  - `scan_scanLoop`: the loop computes what `scan` of Sylar.Log.Formatter does.
  - `sound_iff`: it stays inside the pattern and passes every character once, or reports an
    open brace, exactly when the pattern does not end in a bare %d.
-/

import Sylar.Log.Acceptance

namespace Sylar.Log

/-- The locals of `init`, and what was read and passed so far. -/
structure Loop where
  i : Nat := 0
  parsing_string : Bool := true
  error : Bool := false
  scan : Scan := {}
  reads : List Nat := []
  passed : List Nat := []

namespace Loop

/-- `m_pattern[i]`. -/
def charAt (m_pattern : List Char) (past : Char) (i : Nat) : Char :=
  if i = m_pattern.length then '\x00' else m_pattern.getD i past

def read (l : Loop) : Loop := { l with reads := l.reads ++ [l.i] }

/-- `++i`. -/
def next (l : Loop) : Loop := { l with i := l.i + 1, passed := l.passed ++ [l.i] }

/-- The right side of `i < m_pattern.size() && ...` is read inside the pattern only. -/
def look (m_pattern : List Char) (l : Loop) : Loop := if l.i < m_pattern.length then l.read else l

/-- Leaves the literal text, which `patterns` gets. -/
def leaveText (l : Loop) : Loop :=
  { l with parsing_string := false, scan := { l.scan with patterns := l.scan.flush, tmp := "" } }

def addText (c : Char) (l : Loop) : Loop := { l with scan := { l.scan with tmp := l.scan.tmp.push c } }

def addLetter (c : Char) (l : Loop) : Loop :=
  { l with parsing_string := true, scan := { l.scan with patterns := l.scan.patterns ++ [(1, c.toString)] } }

def addFormat (c : Char) (l : Loop) : Loop :=
  { l with scan := { l.scan with dateFormat := l.scan.dateFormat.push c } }

/-- The loop up to the closing brace. -/
def takeFormat (m_pattern : List Char) (past : Char) (l : Loop) : Loop :=
  if l.i < m_pattern.length then
    if charAt m_pattern past l.i ≠ '}' then
      takeFormat m_pattern past (l.read.read.addFormat (charAt m_pattern past l.i)).next
    else l.read
  else l
termination_by m_pattern.length - l.i
decreasing_by
  simp only [next, read, addFormat]
  omega

/-- What is done at the closing brace, or where it should be. -/
def close (m_pattern : List Char) (past : Char) (l : Loop) : Loop :=
  if charAt m_pattern past l.i ≠ '}' then { l.read with error := true } else l.read.next

/-- What follows the letter `d`. -/
def date (m_pattern : List Char) (past : Char) (l : Loop) : Loop :=
  if l.i < m_pattern.length ∧ charAt m_pattern past l.i ≠ '{' then l.look m_pattern
  else close m_pattern past (takeFormat m_pattern past (l.look m_pattern).next)

/-- One turn of the while loop. -/
def turn (m_pattern : List Char) (past : Char) (l : Loop) : Loop :=
  let c := charAt m_pattern past l.i
  if c = '%' then
    if l.parsing_string then l.read.leaveText.next else (l.read.addLetter c).next
  else if l.parsing_string then (l.read.addText c).next
  else if c ≠ 'd' then (l.read.addLetter c).next
  else date m_pattern past (l.read.addLetter c).next

section

variable {m_pattern : List Char} {past : Char} {l : Loop}

theorem i_look : (l.look m_pattern).i = l.i := by
  unfold look
  split
  · rfl
  · rfl

theorem le_takeFormat : l.i ≤ (takeFormat m_pattern past l).i := by
  fun_induction takeFormat m_pattern past l with
  | case1 l _ _ ih => exact (Nat.le_succ l.i).trans ih
  | case2 => exact le_rfl
  | case3 => exact le_rfl

theorem le_close : l.i ≤ (close m_pattern past l).i := by
  unfold close
  split
  · exact le_rfl
  · exact Nat.le_succ l.i

theorem le_date : l.i ≤ (date m_pattern past l).i := by
  unfold date
  split
  · exact i_look.ge
  · calc
      l.i = (l.look m_pattern).i := i_look.symm
      _ ≤ (l.look m_pattern).next.i := Nat.le_succ _
      _ ≤ _ := le_takeFormat
      _ ≤ _ := le_close

/-- Every turn moves the index up. -/
theorem lt_turn : l.i < (turn m_pattern past l).i := by
  have hnext := Nat.lt_succ_self l.i
  unfold turn
  dsimp only
  split
  · split
    · exact hnext
    · exact hnext
  · split
    · exact hnext
    · split
      · exact hnext
      · exact hnext.trans_le (le_date (l := (l.read.addLetter _).next))

end

/-- `while (i < m_pattern.size())`, left by a break when the brace is not closed. -/
def run (m_pattern : List Char) (past : Char) (l : Loop) : Loop :=
  if l.i < m_pattern.length then
    if (turn m_pattern past l).error then turn m_pattern past l
    else run m_pattern past (turn m_pattern past l)
  else l
termination_by m_pattern.length - l.i
decreasing_by
  have := @lt_turn m_pattern past l
  omega

/-! ## What is left of the pattern -/

section

variable {m_pattern : List Char} {past : Char} {l : Loop} {c : Char} {rest : List Char}

/-- Inside, the rest begins with the character at the index. -/
theorem drop_of_lt (past : Char) {i : Nat} (h : i < m_pattern.length) :
    m_pattern.drop i = charAt m_pattern past i :: m_pattern.drop (i + 1) := by
  rw [charAt, if_neg h.ne, List.getD, List.getElem?_eq_getElem h, Option.getD_some]
  exact List.drop_eq_getElem_cons h

theorem lt_of_drop {i : Nat} (h : m_pattern.drop i = c :: rest) : i < m_pattern.length := by
  by_contra hle
  rw [List.drop_eq_nil_of_le (not_lt.mp hle)] at h
  cases h

theorem charAt_of_drop (past : Char) {i : Nat} (h : m_pattern.drop i = c :: rest) :
    charAt m_pattern past i = c ∧ m_pattern.drop (i + 1) = rest := by
  rw [drop_of_lt past (lt_of_drop h)] at h
  exact List.cons.inj h

/-- The loop up to the closing brace takes the rest as `takeWhile` does. -/
theorem takeFormat_drop (m_pattern : List Char) (past : Char) (l : Loop) :
    m_pattern.drop (takeFormat m_pattern past l).i = (m_pattern.drop l.i).dropWhile (· ≠ '}') ∧
    (takeFormat m_pattern past l).error = l.error ∧
    (takeFormat m_pattern past l).parsing_string = l.parsing_string ∧
    (takeFormat m_pattern past l).scan =
      { l.scan with
        dateFormat := l.scan.dateFormat ++ String.ofList ((m_pattern.drop l.i).takeWhile (· ≠ '}')) } := by
  fun_induction takeFormat m_pattern past l with
  | case1 l hlt hc ih =>
    obtain ⟨hdrop, herror, hstring, hscan⟩ := ih
    rw [drop_of_lt past hlt, List.dropWhile_cons_of_pos (by simpa using hc),
      List.takeWhile_cons_of_pos (by simpa using hc)]
    refine ⟨hdrop, herror, hstring, hscan.trans ?_⟩
    simp only [next, addFormat, read, String.push_eq_append, String.append_assoc, ← String.ofList_cons]
  | case2 l hlt hc =>
    rw [drop_of_lt past hlt, List.dropWhile_cons_of_neg (by simpa using hc),
      List.takeWhile_cons_of_neg (by simpa using hc)]
    refine ⟨drop_of_lt past hlt, rfl, rfl, ?_⟩
    simp [read]
  | case3 l hge =>
    rw [List.drop_eq_nil_of_le (not_lt.mp hge)]
    refine ⟨rfl, rfl, rfl, ?_⟩
    simp

/-- At the end of the pattern stands no brace. -/
theorem charAt_end {i : Nat} (hle : i ≤ m_pattern.length) (h : m_pattern.drop i = []) :
    charAt m_pattern past i = '\x00' := by
  rw [charAt, if_pos (hle.antisymm (List.drop_eq_nil_iff.mp h))]

/-! ## The turns -/

theorem turn_percent (h : m_pattern.drop l.i = '%' :: rest) (hstring : l.parsing_string = true) :
    turn m_pattern past l = l.read.leaveText.next := by
  rw [turn, (charAt_of_drop past h).1, if_pos rfl, if_pos hstring]

theorem turn_char (h : m_pattern.drop l.i = c :: rest) (hc : c ≠ '%') (hstring : l.parsing_string = true) :
    turn m_pattern past l = (l.read.addText c).next := by
  rw [turn, (charAt_of_drop past h).1, if_neg hc, if_pos hstring]

theorem turn_letter (h : m_pattern.drop l.i = c :: rest) (hc : c ≠ 'd') (hstring : l.parsing_string = false) :
    turn m_pattern past l = (l.read.addLetter c).next := by
  have hf : ¬ l.parsing_string = true := by simp [hstring]
  rw [turn, (charAt_of_drop past h).1, if_neg hf, if_neg hf, if_pos hc, ite_self]

theorem turn_date (h : m_pattern.drop l.i = 'd' :: rest) (hstring : l.parsing_string = false) :
    turn m_pattern past l = date m_pattern past (l.read.addLetter 'd').next := by
  have hf : ¬ l.parsing_string = true := by simp [hstring]
  rw [turn, (charAt_of_drop past h).1, if_neg (by decide), if_neg hf, if_neg (not_not.mpr rfl)]

/-- Something other than a brace follows. -/
theorem date_other (h : m_pattern.drop l.i = c :: rest) (hc : c ≠ '{') : date m_pattern past l = l.look m_pattern := by
  rw [date, (charAt_of_drop past h).1, if_pos ⟨lt_of_drop h, hc⟩]

/-- A brace follows, or nothing does. -/
theorem date_open (h : (m_pattern.drop l.i).head? = some '{' ∨ m_pattern.drop l.i = []) :
    date m_pattern past l = close m_pattern past (takeFormat m_pattern past (l.look m_pattern).next) := by
  rw [date, if_neg]
  rintro ⟨hlt, hc⟩
  rw [drop_of_lt past hlt, List.head?_cons, Option.some_inj] at h
  exact h.elim hc (List.cons_ne_nil _ _)

/-- The end of the pattern comes right after `d`: the index skips it, and `past` is read. -/
theorem date_end (h : m_pattern.length ≤ l.i) :
    date m_pattern past l = close m_pattern past l.next := by
  have hlook : l.look m_pattern = l := if_neg (not_lt.mpr h)
  have hnext : ¬ l.next.i < m_pattern.length := not_lt.mpr (h.trans (Nat.le_succ l.i))
  have hformat : takeFormat m_pattern past l.next = l.next := by
    rw [takeFormat, if_neg hnext]
  rw [date_open (.inr (List.drop_eq_nil_of_le h)), hlook, hformat]

theorem close_past (h : m_pattern.length < l.i) :
    close m_pattern past l = if past = '}' then l.read.next else { l.read with error := true } := by
  have hpast : charAt m_pattern past l.i = past := by
    rw [charAt, if_neg h.ne', List.getD, List.getElem?_eq_none h.le, Option.getD_none]
  rw [close, hpast]
  by_cases hc : past = '}'
  · rw [if_neg (not_not.mpr hc), if_pos hc]
  · rw [if_pos hc, if_neg hc]

theorem turn_bare (h : m_pattern.drop l.i = ['d']) (hstring : l.parsing_string = false) :
    turn m_pattern past l =
      if past = '}' then (l.read.addLetter 'd').next.next.read.next
      else { (l.read.addLetter 'd').next.next.read with error := true } := by
  have hend : m_pattern.length ≤ l.i + 1 := List.drop_eq_nil_iff.mp (charAt_of_drop past h).2
  have hlt : m_pattern.length < (l.read.addLetter 'd').next.next.i := Nat.lt_succ_of_le hend
  rw [turn_date h hstring, date_end hend, close_past hlt]

theorem turn_bare_end (past : Char) (h : m_pattern.drop l.i = ['d']) (hstring : l.parsing_string = false) :
    m_pattern.length < (turn m_pattern past l).i := by
  have hend : m_pattern.length ≤ l.i + 1 := List.drop_eq_nil_iff.mp (charAt_of_drop past h).2
  rw [turn_bare h hstring]
  split
  · exact (Nat.lt_succ_of_le hend).trans (Nat.lt_succ_self _)
  · exact Nat.lt_succ_of_le hend

/-! ## What stays inside the pattern -/

/-- The index and the positions read are inside the pattern; each position before the
index was passed once, in order. -/
structure Kept (m_pattern : List Char) (l : Loop) : Prop where
  le : l.i ≤ m_pattern.length
  inside : ∀ i ∈ l.reads, i ≤ m_pattern.length
  once : l.passed = List.range l.i

namespace Kept

theorem read (h : Kept m_pattern l) : Kept m_pattern l.read where
  le := h.le
  inside := List.forall_mem_append.mpr ⟨h.inside, List.forall_mem_singleton.mpr h.le⟩
  once := h.once

theorem next (h : Kept m_pattern l) (hlt : l.i < m_pattern.length) : Kept m_pattern l.next where
  le := hlt
  inside := h.inside
  once := by
    rw [Loop.next, List.range_succ, h.once]

theorem leaveText (h : Kept m_pattern l) : Kept m_pattern l.leaveText := ⟨h.le, h.inside, h.once⟩

theorem addText (h : Kept m_pattern l) (c : Char) : Kept m_pattern (l.addText c) := ⟨h.le, h.inside, h.once⟩

theorem addLetter (h : Kept m_pattern l) (c : Char) : Kept m_pattern (l.addLetter c) := ⟨h.le, h.inside, h.once⟩

theorem addFormat (h : Kept m_pattern l) (c : Char) : Kept m_pattern (l.addFormat c) := ⟨h.le, h.inside, h.once⟩

theorem look (h : Kept m_pattern l) : Kept m_pattern (l.look m_pattern) := by
  unfold Loop.look
  split
  · exact h.read
  · exact h

theorem takeFormat (h : Kept m_pattern l) : Kept m_pattern (takeFormat m_pattern past l) := by
  fun_induction Loop.takeFormat m_pattern past l with
  | case1 l hlt _ ih => exact ih ((h.read.read.addFormat _).next hlt)
  | case2 => exact h.read
  | case3 => exact h

theorem close (h : Kept m_pattern l) : Kept m_pattern (close m_pattern past l) := by
  unfold Loop.close
  split
  · exact ⟨h.read.le, h.read.inside, h.read.once⟩
  · next hbrace =>
    -- The position of size holds '\0', so a brace is before it.
    refine h.read.next (h.le.lt_of_ne fun hend => hbrace ?_)
    change l.i = m_pattern.length at hend
    rw [charAt, if_pos hend]
    decide

end Kept

/-- A brace follows the `d`. -/
theorem date_brace (past : Char) {fmt : List Char} (hl : Kept m_pattern l) (h : m_pattern.drop l.i = '{' :: fmt) :
    ∃ l', Kept m_pattern l' ∧ date m_pattern past l = close m_pattern past l' ∧
      m_pattern.drop l'.i = fmt.dropWhile (· ≠ '}') ∧ l'.error = l.error ∧
      l'.parsing_string = l.parsing_string ∧
      l'.scan = { l.scan with dateFormat := l.scan.dateFormat ++ String.ofList (fmt.takeWhile (· ≠ '}')) } := by
  have hlt := lt_of_drop h
  have hlook : l.look m_pattern = l.read := if_pos hlt
  have hdrop : m_pattern.drop l.read.next.i = fmt := (charAt_of_drop past h).2
  obtain ⟨htail, herror, hstring, hscan⟩ := takeFormat_drop m_pattern past l.read.next
  rw [hdrop] at htail hscan
  refine ⟨takeFormat m_pattern past l.read.next, (hl.read.next hlt).takeFormat, ?_, htail, herror, hstring, hscan⟩
  rw [date_open (.inl (by rw [h]; rfl)), hlook]

/-! ## What a turn does -/

/-- One turn, by what is ahead. -/
inductive Turned (m_pattern : List Char) (past : Char) (l : Loop) : Loop → Prop
  | percent {rest : List Char} : m_pattern.drop l.i = '%' :: rest → l.parsing_string = true →
      Turned m_pattern past l l.read.leaveText.next
  | char {c : Char} {rest : List Char} : m_pattern.drop l.i = c :: rest → c ≠ '%' → l.parsing_string = true →
      Turned m_pattern past l (l.read.addText c).next
  | letter {c : Char} {rest : List Char} : m_pattern.drop l.i = c :: rest → c ≠ 'd' → l.parsing_string = false →
      Turned m_pattern past l (l.read.addLetter c).next
  | date {b : Char} {rest : List Char} : m_pattern.drop l.i = 'd' :: b :: rest → b ≠ '{' →
      l.parsing_string = false → Turned m_pattern past l (l.read.addLetter 'd').next.read
  /-- `l'` stands at the closing brace. -/
  | dateWith {fmt rest : List Char} {l' : Loop} : m_pattern.drop l.i = 'd' :: '{' :: (fmt ++ '}' :: rest) →
      '}' ∉ fmt → l.parsing_string = false → m_pattern.drop l'.i = '}' :: rest → Kept m_pattern l' →
      l'.error = false → l'.parsing_string = true →
      l'.scan = { l.scan with
        patterns := l.scan.patterns ++ [(1, "d")], dateFormat := l.scan.dateFormat ++ String.ofList fmt } →
      Turned m_pattern past l l'.read.next
  | unclosed {fmt : List Char} {l' : Loop} : m_pattern.drop l.i = 'd' :: '{' :: fmt → '}' ∉ fmt →
      l.parsing_string = false → Kept m_pattern l' → l'.error = true → Turned m_pattern past l l'
  /-- The pattern ends in a bare %d. -/
  | bare : m_pattern.drop l.i = ['d'] → l.parsing_string = false →
      Turned m_pattern past l
        (if past = '}' then (l.read.addLetter 'd').next.next.read.next
          else { (l.read.addLetter 'd').next.next.read with error := true })

theorem turned_brace {fmt : List Char} (hl : Kept m_pattern l) (herror : l.error = false)
    (hstring : l.parsing_string = false) (h : m_pattern.drop l.i = 'd' :: '{' :: fmt) :
    Turned m_pattern past l (turn m_pattern past l) := by
  have hnext : Kept m_pattern (l.read.addLetter 'd').next := (hl.read.addLetter 'd').next (lt_of_drop h)
  have hdrop : m_pattern.drop (l.read.addLetter 'd').next.i = '{' :: fmt := (charAt_of_drop past h).2
  obtain ⟨l', hl', hdate, htail, herror', hstring', hscan⟩ := date_brace past hnext hdrop
  rw [turn_date h hstring, hdate]
  by_cases hin : '}' ∈ fmt
  · obtain ⟨text, rest, rfl, hno⟩ := List.eq_append_cons_of_mem hin
    obtain ⟨htake, htail'⟩ := takeWhile_fmt rest hno
    rw [htail'] at htail
    rw [htake] at hscan
    have hclose : close m_pattern past l' = l'.read.next := by
      rw [close, (charAt_of_drop past htail).1, if_neg (not_not.mpr rfl)]
    rw [hclose]
    exact .dateWith h hno hstring htail hl' (herror'.trans herror) hstring' hscan
  · have hnil := List.dropWhile_eq_nil_iff.mpr fun c hc => decide_eq_true (ne_of_mem_of_not_mem hc hin)
    have hclose : close m_pattern past l' = { l'.read with error := true } := by
      rw [close, charAt_end hl'.le (htail.trans hnil), if_pos (by decide)]
    rw [hclose]
    exact .unclosed h hin hstring ⟨hl'.read.le, hl'.read.inside, hl'.read.once⟩ rfl

/-- Every turn is one of these. -/
theorem turned (past : Char) (hl : Kept m_pattern l) (herror : l.error = false) (hlt : l.i < m_pattern.length) :
    Turned m_pattern past l (turn m_pattern past l) := by
  obtain ⟨c, rest, h⟩ : ∃ c rest, m_pattern.drop l.i = c :: rest := ⟨_, _, drop_of_lt past hlt⟩
  cases hstring : l.parsing_string with
  | true =>
    by_cases hc : c = '%'
    · subst hc
      rw [turn_percent h hstring]
      exact .percent h hstring
    · rw [turn_char h hc hstring]
      exact .char h hc hstring
  | false =>
    by_cases hc : c = 'd'
    · subst hc
      have hdrop : m_pattern.drop (l.read.addLetter 'd').next.i = rest := (charAt_of_drop past h).2
      cases rest with
      | nil =>
        rw [turn_bare h hstring]
        exact .bare h hstring
      | cons b rest =>
        by_cases hb : b = '{'
        · subst hb
          exact turned_brace hl herror hstring h
        · have hlook : (l.read.addLetter 'd').next.look m_pattern = (l.read.addLetter 'd').next.read :=
            if_pos (lt_of_drop hdrop)
          rw [turn_date h hstring, date_other hdrop hb, hlook]
          exact .date h hb hstring
    · rw [turn_letter h hc hstring]
      exact .letter h hc hstring

theorem Turned.kept {l' : Loop} (h : Turned m_pattern past l l') (hl : Kept m_pattern l)
    (hbare : m_pattern.drop l.i = ['d'] → l.parsing_string = true) : Kept m_pattern l' := by
  cases h with
  | percent h _ => exact hl.read.leaveText.next (lt_of_drop h)
  | char h _ _ => exact (hl.read.addText _).next (lt_of_drop h)
  | letter h _ _ => exact (hl.read.addLetter _).next (lt_of_drop h)
  | date h _ _ => exact ((hl.read.addLetter 'd').next (lt_of_drop h)).read
  | dateWith _ _ _ htail hl' _ _ _ => exact hl'.read.next (lt_of_drop htail)
  | unclosed _ _ _ hl' _ => exact hl'
  | bare h hstring =>
    rw [hbare h] at hstring
    cases hstring

/-! ## The loop and `scan` -/

/-- What `scan` says of the locals: nothing once the error is set. -/
def verdict (m_pattern : List Char) (past : Char) (l : Loop) : Option Scan :=
  if l.error then none else Log.scan past (m_pattern.drop l.i) l.parsing_string l.scan

theorem verdict_ok {parsing_string : Bool} (herror : l.error = false) (hdrop : m_pattern.drop l.i = rest)
    (hstring : l.parsing_string = parsing_string) :
    verdict m_pattern past l = Log.scan past rest parsing_string l.scan := by
  rw [verdict, herror, hdrop, hstring]
  rfl

/-- A turn is one step of `scan`. -/
theorem Turned.verdict_eq {l' : Loop} (h : Turned m_pattern past l l') (herror : l.error = false) :
    verdict m_pattern past l = verdict m_pattern past l' := by
  cases h with
  | percent h hstring =>
    rw [verdict_ok herror h hstring, scan_percent]
    exact (verdict_ok (l := l.read.leaveText.next) herror (charAt_of_drop past h).2 rfl).symm
  | char h hc hstring =>
    rw [verdict_ok herror h hstring, scan_char hc]
    exact (verdict_ok (l := (l.read.addText _).next) herror (charAt_of_drop past h).2 hstring).symm
  | letter h hc hstring =>
    rw [verdict_ok herror h hstring, scan_letter hc]
    exact (verdict_ok (l := (l.read.addLetter _).next) herror (charAt_of_drop past h).2 rfl).symm
  | date h hb hstring =>
    rw [verdict_ok herror h hstring, scan_date hb]
    exact (verdict_ok (l := (l.read.addLetter 'd').next.read) herror (charAt_of_drop past h).2 rfl).symm
  | dateWith h hfmt hstring htail _ herror' hstring' hscan =>
    rw [verdict_ok herror h hstring, scan_dateWith hfmt, ← hscan]
    exact (verdict_ok (l := Loop.next _) herror' (charAt_of_drop past htail).2 hstring').symm
  | unclosed h hfmt hstring _ herror' =>
    have hbrace := List.dropWhile_eq_nil_iff.mpr fun c hc => decide_eq_true (ne_of_mem_of_not_mem hc hfmt)
    rw [verdict_ok herror h hstring, scan_unclosed hbrace, verdict, if_pos herror']
  | bare h hstring =>
    have hend : m_pattern.length ≤ l.i + 1 := List.drop_eq_nil_iff.mp (charAt_of_drop past h).2
    have hnil : m_pattern.drop (l.read.addLetter 'd').next.next.read.next.i = [] :=
      List.drop_eq_nil_of_le (hend.trans (Nat.le_add_right _ 2))
    rw [verdict_ok herror h hstring, scan_lastDate]
    by_cases hpast : past = '}'
    · rw [if_pos hpast, if_pos hpast, verdict_ok (l := (l.read.addLetter 'd').next.next.read.next) herror hnil rfl,
        scan_nil]
      rfl
    · rw [if_neg hpast, if_neg hpast]
      rfl

/-- The loop computes what `scan` does from there on. -/
theorem verdict_run (hl : l.i < m_pattern.length → Kept m_pattern l) (herror : l.error = false) :
    verdict m_pattern past l =
      if (run m_pattern past l).error then none else some (run m_pattern past l).scan := by
  fun_induction run m_pattern past l with
  | case1 l hlt hbreak =>
    rw [(turned past (hl hlt) herror hlt).verdict_eq herror, verdict, if_pos hbreak, if_pos hbreak]
  | case2 l hlt hbreak ih =>
    have hturn := turned past (hl hlt) herror hlt
    rw [hturn.verdict_eq herror]
    refine ih (fun hlt' => ?_) (by simpa using hbreak)
    refine hturn.kept (hl hlt) fun hd => ?_
    by_contra hstring
    exact absurd (turn_bare_end past hd (by simpa using hstring)) hlt'.not_gt
  | case3 l hge =>
    rw [verdict_ok herror (List.drop_eq_nil_of_le (not_lt.mp hge)) rfl, scan_nil, herror]
    rfl

/-! ## Patterns that end in a bare %d -/

/-- Parts, their letters known or not, and then a bare %d. -/
inductive BareDate : List Char → Prop
  | done : BareDate ['%', 'd']
  | char {c : Char} {rest : List Char} : c ≠ '%' → BareDate rest → BareDate (c :: rest)
  | letter {c : Char} {rest : List Char} : c ≠ 'd' → BareDate rest → BareDate ('%' :: c :: rest)
  | date {b : Char} {rest : List Char} : b ≠ '{' → BareDate (b :: rest) → BareDate ('%' :: 'd' :: b :: rest)
  | dateWith {fmt rest : List Char} : '}' ∉ fmt → BareDate rest →
      BareDate ('%' :: 'd' :: '{' :: (fmt ++ '}' :: rest))

theorem bareDate_char (hc : c ≠ '%') : BareDate (c :: rest) ↔ BareDate rest := by
  refine ⟨fun h => ?_, .char hc⟩
  cases h with
  | char _ h => exact h
  | done => exact absurd rfl hc
  | letter => exact absurd rfl hc
  | date => exact absurd rfl hc
  | dateWith => exact absurd rfl hc

theorem bareDate_letter (hc : c ≠ 'd') : BareDate ('%' :: c :: rest) ↔ BareDate rest := by
  refine ⟨fun h => ?_, .letter hc⟩
  cases h with
  | char hne => exact absurd rfl hne
  | done => exact absurd rfl hc
  | letter _ h => exact h
  | date => exact absurd rfl hc
  | dateWith => exact absurd rfl hc

theorem bareDate_date {b : Char} (hb : b ≠ '{') : BareDate ('%' :: 'd' :: b :: rest) ↔ BareDate (b :: rest) := by
  refine ⟨fun h => ?_, .date hb⟩
  cases h with
  | char hne => exact absurd rfl hne
  | letter hne => exact absurd rfl hne
  | date _ h => exact h
  | dateWith => exact absurd rfl hb

/-- What follows `%d{` has a closing brace, and the rest follows the first one. -/
theorem bareDate_brace {fmt : List Char} :
    BareDate ('%' :: 'd' :: '{' :: fmt) ↔ ∃ text rest, fmt = text ++ '}' :: rest ∧ '}' ∉ text ∧ BareDate rest := by
  constructor
  · intro h
    cases h with
    | char hne => exact absurd rfl hne
    | letter hne => exact absurd rfl hne
    | date hne => exact absurd rfl hne
    | dateWith hfmt h => exact ⟨_, _, rfl, hfmt, h⟩
  · rintro ⟨text, rest, rfl, htext, h⟩
    exact .dateWith htext h

theorem bareDate_dateWith {fmt : List Char} (hfmt : '}' ∉ fmt) :
    BareDate ('%' :: 'd' :: '{' :: (fmt ++ '}' :: rest)) ↔ BareDate rest := by
  refine ⟨fun h => ?_, .dateWith hfmt⟩
  obtain ⟨text, rest', heq, htext, h⟩ := bareDate_brace.mp h
  have hdrop := (takeWhile_fmt rest hfmt).2
  rw [heq, (takeWhile_fmt rest' htext).2] at hdrop
  exact (List.cons.inj hdrop).2 ▸ h

/-- What is ahead of the index, the % that was just read among it. -/
def ahead (m_pattern : List Char) (l : Loop) : List Char :=
  if l.parsing_string then m_pattern.drop l.i else '%' :: m_pattern.drop l.i

theorem ahead_text (hstring : l.parsing_string = true) : ahead m_pattern l = m_pattern.drop l.i := if_pos hstring

theorem ahead_letter (hstring : l.parsing_string = false) : ahead m_pattern l = '%' :: m_pattern.drop l.i :=
  if_neg (by simp [hstring])

/-- A turn that reports no error leaves the question as it was; one that does answers it. -/
theorem Turned.bareDate {l' : Loop} (h : Turned m_pattern past l l') (herror : l.error = false)
    (hbare : m_pattern.drop l.i = ['d'] → l.parsing_string = true) :
    BareDate (ahead m_pattern l) ↔ l'.error = false ∧ BareDate (ahead m_pattern l') := by
  have hnext : ∀ l' : Loop, l'.error = false → (BareDate (ahead m_pattern l) ↔ BareDate (ahead m_pattern l')) →
      (BareDate (ahead m_pattern l) ↔ l'.error = false ∧ BareDate (ahead m_pattern l')) := fun l' hok h => by
    rw [h, and_iff_right hok]
  cases h with
  | percent h hstring =>
    refine hnext _ herror ?_
    rw [ahead_text hstring, h, ahead_letter (l := l.read.leaveText.next) rfl]
    exact iff_of_eq (congrArg (fun rest => BareDate ('%' :: rest)) (charAt_of_drop past h).2.symm)
  | char h hc hstring =>
    refine hnext _ herror ?_
    rw [ahead_text hstring, h, bareDate_char hc, ahead_text (l := (l.read.addText _).next) hstring]
    exact iff_of_eq (congrArg BareDate (charAt_of_drop past h).2.symm)
  | letter h hc hstring =>
    refine hnext _ herror ?_
    rw [ahead_letter hstring, h, bareDate_letter hc, ahead_text (l := (l.read.addLetter _).next) rfl]
    exact iff_of_eq (congrArg BareDate (charAt_of_drop past h).2.symm)
  | date h hb hstring =>
    refine hnext _ herror ?_
    rw [ahead_letter hstring, h, bareDate_date hb, ahead_text (l := (l.read.addLetter 'd').next.read) rfl]
    exact iff_of_eq (congrArg BareDate (charAt_of_drop past h).2.symm)
  | @dateWith _ _ l' h hfmt hstring htail _ herror' hstring' _ =>
    refine hnext _ herror' ?_
    rw [ahead_letter hstring, h, bareDate_dateWith hfmt, ahead_text (l := l'.read.next) hstring']
    exact iff_of_eq (congrArg BareDate (charAt_of_drop past htail).2.symm)
  | unclosed h hfmt hstring _ herror' =>
    rw [ahead_letter hstring, h, herror']
    refine ⟨fun hdate => ?_, fun hdate => Bool.noConfusion hdate.1⟩
    obtain ⟨text, rest, rfl, -, -⟩ := bareDate_brace.mp hdate
    exact absurd (List.mem_append_right _ (.head _)) hfmt
  | bare h hstring =>
    rw [hbare h] at hstring
    cases hstring

theorem bareDate_end (h : m_pattern.length ≤ l.i) : ¬ BareDate (ahead m_pattern l) := by
  intro hdate
  have hnil := List.drop_eq_nil_of_le h
  cases hstring : l.parsing_string with
  | true =>
    rw [ahead_text hstring, hnil] at hdate
    cases hdate
  | false =>
    rw [ahead_letter hstring, hnil] at hdate
    cases hdate with
    | char hne => exact hne rfl

/-- At the letter of a last bare %d. -/
theorem bareDate_last (h : m_pattern.drop l.i = ['d']) (hstring : l.parsing_string = false) :
    BareDate (ahead m_pattern l) := by
  rw [ahead_letter hstring, h]
  exact .done

theorem run_kept (hl : Kept m_pattern l) (herror : l.error = false) (hdate : ¬ BareDate (ahead m_pattern l)) :
    Kept m_pattern (run m_pattern past l) := by
  have hbare : ∀ l : Loop, ¬ BareDate (ahead m_pattern l) → m_pattern.drop l.i = ['d'] → l.parsing_string = true := by
    intro l hdate h
    by_contra hstring
    exact hdate (bareDate_last h (by simpa using hstring))
  fun_induction run m_pattern past l with
  | case1 l hlt _ => exact (turned past hl herror hlt).kept hl (hbare l hdate)
  | case2 l hlt hbreak ih =>
    have hturn := turned past hl herror hlt
    have hok : (turn m_pattern past l).error = false := by simpa using hbreak
    refine ih (hturn.kept hl (hbare l hdate)) hok fun hnext => hdate ?_
    exact (hturn.bareDate herror (hbare l hdate)).mpr ⟨hok, hnext⟩
  | case3 => exact hl

theorem reads_turn_bare (h : m_pattern.drop l.i = ['d']) (hstring : l.parsing_string = false) :
    m_pattern.length + 1 ∈ (turn m_pattern past l).reads := by
  have hlen : (l.read.addLetter 'd').next.next.i = m_pattern.length + 1 := by
    have hlt := lt_of_drop h
    have hend := List.drop_eq_nil_iff.mp (charAt_of_drop past h).2
    change l.i + 1 + 1 = _
    omega
  have hread : m_pattern.length + 1 ∈ (l.read.addLetter 'd').next.next.read.reads :=
    List.mem_append_right _ (List.mem_singleton.mpr hlen.symm)
  rw [turn_bare h hstring]
  split
  · exact hread
  · exact hread

theorem run_bare (hl : Kept m_pattern l) (herror : l.error = false) (hdate : BareDate (ahead m_pattern l)) :
    m_pattern.length + 1 ∈ (run m_pattern past l).reads := by
  fun_induction run m_pattern past l with
  | case1 l hlt hbreak =>
    by_cases hbare : m_pattern.drop l.i = ['d'] → l.parsing_string = true
    · have hok := (((turned past hl herror hlt).bareDate herror hbare).mp hdate).1
      exact absurd hbreak (by simp [hok])
    · obtain ⟨h, hstring⟩ := Classical.not_imp.mp hbare
      exact reads_turn_bare h (by simpa using hstring)
  | case2 l hlt hbreak ih =>
    have hturn := turned past hl herror hlt
    by_cases hbare : m_pattern.drop l.i = ['d'] → l.parsing_string = true
    · obtain ⟨hok, hnext⟩ := (hturn.bareDate herror hbare).mp hdate
      exact ih (hturn.kept hl hbare) hok hnext
    · obtain ⟨h, hstring⟩ := Classical.not_imp.mp hbare
      have hstring : l.parsing_string = false := by simpa using hstring
      rw [run, if_neg (turn_bare_end past h hstring).not_gt]
      exact reads_turn_bare h hstring
  | case3 l hge => exact absurd hdate (bareDate_end (not_lt.mp hge))

theorem run_exit : (run m_pattern past l).error = true ∨ m_pattern.length ≤ (run m_pattern past l).i := by
  fun_induction run m_pattern past l with
  | case1 l _ hbreak => exact .inl hbreak
  | case2 _ _ _ ih => exact ih
  | case3 l hge => exact .inr (not_lt.mp hge)

end

/-- What `init` starts the loop from. -/
theorem kept_start (m_pattern : List Char) : Kept m_pattern {} := ⟨Nat.zero_le _, nofun, rfl⟩

end Loop

/-! ## The whole scan -/

/-- The scan loop, from the locals that `init` starts with. -/
def scanLoop (m_pattern : String) (past : Char) : Loop := Loop.run m_pattern.toList past {}

theorem scan_scanLoop (m_pattern : String) (past : Char) :
    scan past m_pattern.toList true {} =
      if (scanLoop m_pattern past).error then none else some (scanLoop m_pattern past).scan :=
  Loop.verdict_run (l := {}) (fun _ => Loop.kept_start _) rfl

/-- The scan reads no position past size, every turn moves the index up, and every character
is passed once, in order, or an open brace is reported. -/
structure Sound (m_pattern : String) (past : Char) : Prop where
  inside : ∀ i ∈ (scanLoop m_pattern past).reads, i ≤ m_pattern.length
  advances : ∀ l : Loop, l.i < (l.turn m_pattern.toList past).i
  once : (scanLoop m_pattern past).error = true ∨
    (scanLoop m_pattern past).passed = List.range m_pattern.length

theorem not_sound_of_bareDate {m_pattern : String} (past : Char) (h : Loop.BareDate m_pattern.toList) :
    ¬ Sound m_pattern past := by
  intro hsound
  have hread := hsound.inside _ (Loop.run_bare (l := {}) (Loop.kept_start _) rfl h)
  rw [String.length_toList] at hread
  omega

theorem sound_iff (m_pattern : String) (past : Char) :
    Sound m_pattern past ↔ ¬ Loop.BareDate m_pattern.toList := by
  refine ⟨fun hsound h => not_sound_of_bareDate past h hsound, fun h => ?_⟩
  have hkept : Loop.Kept m_pattern.toList (scanLoop m_pattern past) := Loop.run_kept (Loop.kept_start _) rfl h
  refine ⟨fun i hi => ?_, fun _ => Loop.lt_turn, ?_⟩
  · rw [← String.length_toList]
    exact hkept.inside i hi
  · refine Loop.run_exit.imp_right fun hexit => ?_
    rw [hkept.once, ← String.length_toList]
    exact congrArg List.range (hkept.le.antisymm hexit)

/-- The patterns of the grammar with a bare %d after them are such patterns. -/
theorem bareDate_of_parts {m_pattern : List Char} (h : PartsThen ['%', 'd'] m_pattern) : Loop.BareDate m_pattern := by
  induction h with
  | done => exact .done
  | char hc _ ih => exact .char hc ih
  | percent _ ih => exact .letter (by decide) ih
  | item letter _ ih => exact .letter letter.char_ne ih
  | @date rest hhead _ ih =>
    cases rest with
    | nil => cases ih
    | cons b rest => exact .date (by simpa using hhead) ih
  | dateWith hfmt _ ih => exact .dateWith hfmt ih

theorem bare_date_reads_past : ¬ Sound "%d" '\x00' := not_sound_of_bareDate '\x00' .done

end Sylar.Log
