/-
  Sylar.Log.Acceptance — which patterns LogFormatter takes (LogFormatter::init,
  sylar/log.cpp lines 208-323), against the grammar of patterns.

  `PartsThen tail` are the patterns that are parts and then `tail`; the grammar is
  `PartsThen []`. `ending` reads a pattern by its parts and says how it ends: the scan and
  the item table of `Sylar.Log.Formatter` refuse by it (`error_iff`), and it agrees with the
  grammar (`grammar_iff`).

  Proved: isError() is false exactly for the patterns of the grammar, apart from those that
  are parts and an unfinished %, which are taken, and those that are parts and a bare %d,
  which are refused unless the byte out of range that `init` reads there is a closing
  brace (`accepts_iff`).
-/

import Sylar.Log.Formatter
import Mathlib.Data.List.TakeWhile

namespace Sylar.Log

/-! ## The grammar -/

/-- Parts, and then `tail`. -/
inductive PartsThen (tail : List Char) : List Char → Prop
  | done : PartsThen tail tail
  | char {c : Char} {rest : List Char} : c ≠ '%' → PartsThen tail rest → PartsThen tail (c :: rest)
  | percent {rest : List Char} : PartsThen tail rest → PartsThen tail ('%' :: '%' :: rest)
  | item (letter : Letter) {rest : List Char} : PartsThen tail rest → PartsThen tail ('%' :: letter.char :: rest)
  | date {rest : List Char} : rest.head? ≠ some '{' → PartsThen tail rest → PartsThen tail ('%' :: 'd' :: rest)
  | dateWith {fmt rest : List Char} : '}' ∉ fmt → PartsThen tail rest →
      PartsThen tail ('%' :: 'd' :: '{' :: (fmt ++ '}' :: rest))

def InGrammar (pattern : String) : Prop := PartsThen [] pattern.toList

/-- Parts and an unfinished %. -/
def Unfinished (pattern : String) : Prop := PartsThen ['%'] pattern.toList

/-- Parts and a bare %d. -/
def EndsInDate (pattern : String) : Prop := PartsThen ['%', 'd'] pattern.toList

/-! ## How a pattern ends -/

inductive Ending where
  | whole
  | bareDate
  | unfinished
  | broken
  deriving DecidableEq, Repr

/-- The letters that have an item, but for `d`. -/
def letters : List Char := ['m', 'p', 'c', 'r', 'f', 'l', 't', 'F', 'N', 'T', 'n', '%']

def ending : List Char → Ending
  | [] => .whole
  | c :: rest =>
    if c ≠ '%' then ending rest
    else
      match rest with
      | [] => .unfinished
      | c :: rest =>
        if c ∈ letters then ending rest
        else if c ≠ 'd' then .broken
        else
          match rest with
          | [] => .bareDate
          | b :: fmt =>
            if b ≠ '{' then ending (b :: fmt)
            else
              match _h : fmt.dropWhile (· ≠ '}') with
              | [] => .broken
              | _ :: rest => ending rest
termination_by pattern => pattern.length
decreasing_by
  all_goals simp only [List.length_cons]
  any_goals omega
  have := congrArg List.length _h
  have := (List.dropWhile_suffix (l := fmt) (· ≠ '}')).length_le
  simp only [List.length_cons] at *
  omega

/-- What is left after the last part. -/
def Ending.tail : Ending → List Char
  | .unfinished => ['%']
  | .bareDate => ['%', 'd']
  | _ => []

theorem ending_char {c : Char} {rest : List Char} (h : c ≠ '%') : ending (c :: rest) = ending rest := by
  rw [ending.eq_def]
  simp [h]

theorem ending_letter {c : Char} {rest : List Char} (h : c ∈ letters) : ending ('%' :: c :: rest) = ending rest := by
  rw [ending.eq_def]
  simp [h]

theorem ending_date {b : Char} {rest : List Char} (h : b ≠ '{') :
    ending ('%' :: 'd' :: b :: rest) = ending (b :: rest) := by
  have hd : 'd' ∉ letters := by decide
  rw [ending]
  simp [h, hd]

theorem ending_dateWith {fmt rest : List Char} (h : '}' ∉ fmt) :
    ending ('%' :: 'd' :: '{' :: (fmt ++ '}' :: rest)) = ending rest := by
  obtain ⟨-, hdrop⟩ := takeWhile_fmt rest h
  have hd : 'd' ∉ letters := by decide
  rw [ending]
  simp only [ne_eq, not_true_eq_false, ↓reduceIte, hd]
  split
  · rename_i hnil
    rw [hdrop] at hnil
    cases hnil
  · rename_i hcons
    rw [hdrop] at hcons
    cases hcons
    rfl

theorem letter_mem (letter : Letter) : letter.char ∈ letters := by
  cases letter <;> decide

theorem mem_letters {c : Char} (h : c ∈ letters) : c = '%' ∨ ∃ letter : Letter, letter.char = c := by
  simp only [letters, List.mem_cons, List.not_mem_nil, or_false] at h
  rcases h with rfl | rfl | rfl | rfl | rfl | rfl | rfl | rfl | rfl | rfl | rfl | rfl
  · exact .inr ⟨.m, rfl⟩
  · exact .inr ⟨.p, rfl⟩
  · exact .inr ⟨.c, rfl⟩
  · exact .inr ⟨.r, rfl⟩
  · exact .inr ⟨.f, rfl⟩
  · exact .inr ⟨.l, rfl⟩
  · exact .inr ⟨.t, rfl⟩
  · exact .inr ⟨.F, rfl⟩
  · exact .inr ⟨.N, rfl⟩
  · exact .inr ⟨.T, rfl⟩
  · exact .inr ⟨.n, rfl⟩
  · exact .inl rfl

/-- A text with a closing brace is what is before it, the brace and the rest. -/
theorem dropWhile_fmt {fmt rest : List Char} {c : Char} (h : fmt.dropWhile (· ≠ '}') = c :: rest) :
    fmt = fmt.takeWhile (· ≠ '}') ++ '}' :: rest ∧ '}' ∉ fmt.takeWhile (· ≠ '}') := by
  have hc : c = '}' := by
    have hhead := List.head?_dropWhile_not (fun c => decide (c ≠ '}')) fmt
    rw [h] at hhead
    simpa using hhead
  constructor
  · have hsplit := List.takeWhile_append_dropWhile (p := fun c => decide (c ≠ '}')) (l := fmt)
    rw [h, hc] at hsplit
    exact hsplit.symm
  · intro hin
    have hne := List.mem_takeWhile_imp hin
    simp at hne

/-- A pattern is parts and the tail of its ending. -/
theorem ending_sound (pattern : List Char) (h : ending pattern ≠ .broken) :
    PartsThen (ending pattern).tail pattern := by
  fun_induction ending pattern with
  | case1 => exact .done
  | case2 c rest hc ih => exact .char hc (ih h)
  | case3 c hc =>
    rw [not_not.mp hc]
    exact .done
  | case4 c hc c' rest hmem ih =>
    rw [not_not.mp hc]
    rcases mem_letters hmem with rfl | ⟨letter, rfl⟩
    · exact .percent (ih h)
    · exact .item letter (ih h)
  | case5 => exact absurd rfl h
  | case6 c hc c' hmem hd =>
    rw [not_not.mp hc, not_not.mp hd]
    exact .done
  | case7 c hc c' hmem hd b fmt hb ih =>
    rw [not_not.mp hc, not_not.mp hd]
    exact .date (by simpa using hb) (ih h)
  | case8 => exact absurd rfl h
  | case9 c hc c' hmem hd b fmt hb c'' rest hdrop ih =>
    obtain ⟨hfmt, hno⟩ := dropWhile_fmt hdrop
    rw [not_not.mp hc, not_not.mp hd, not_not.mp hb, hfmt]
    exact .dateWith hno (ih h)

theorem ending_bareDate : ending ['%', 'd'] = .bareDate := by
  have hd : 'd' ∉ letters := by decide
  rw [ending]
  simp [hd]

theorem ending_unfinished : ending ['%'] = .unfinished := by
  rw [ending]
  simp

/-- Parts do not change the ending, but that a bare %d may be the last of them. -/
theorem ending_complete {tail pattern : List Char} (h : PartsThen tail pattern) :
    ending pattern = ending tail ∨ tail = [] ∧ ending pattern = .bareDate := by
  induction h with
  | done => exact .inl rfl
  | char hc _ ih => rwa [ending_char hc]
  | percent _ ih => rwa [ending_letter (by decide)]
  | item letter _ ih => rwa [ending_letter (letter_mem letter)]
  | @date rest hhead hrest ih =>
    cases rest with
    | nil =>
      cases hrest
      exact .inr ⟨rfl, ending_bareDate⟩
    | cons b rest => rwa [ending_date (by simpa using hhead)]
  | dateWith hfmt _ ih => rwa [ending_dateWith hfmt]

/-! ## What the code refuses -/

/-- `error` after the scan and the item table, from these locals on. -/
def refused (past : Char) (pattern : List Char) (s : Scan) : Bool :=
  match scan past pattern true s with
  | none => true
  | some s => (buildItems s.dateFormat s.flush).2

theorem init_refused (past : Char) (pattern : String) :
    (LogFormatter.init past pattern).m_error = refused past pattern.toList {} := by
  unfold LogFormatter.init refused
  cases scan past pattern.toList true {} <;> rfl

theorem mem_flush {s : Scan} {entry : Nat × String} (h : entry ∈ s.patterns) : entry ∈ s.flush := by
  unfold Scan.flush
  split
  · exact h
  · exact List.mem_append_left _ h

/-- An entry stays to the end of the scan. -/
theorem scan_mem {past : Char} {rest : List Char} {parsing_string : Bool} {s s' : Scan} {entry : Nat × String}
    (hin : entry ∈ s.patterns) (h : scan past rest parsing_string s = some s') : entry ∈ s'.patterns := by
  fun_induction scan past rest parsing_string s with
  | case1 =>
    cases h
    exact hin
  | case2 s rest ih => exact ih (mem_flush hin) h
  | case3 _ s rest _ ih => exact ih (List.mem_append_left _ hin) h
  | case4 s c rest _ ih => exact ih hin h
  | case5 _ s c rest _ _ s1 _ ih => exact ih (List.mem_append_left _ hin) h
  | case6 _ s c _ _ s1 _ _ =>
    rw [← Option.some_inj.mp h]
    exact List.mem_append_left _ hin
  | case7 => cases h
  | case8 _ s c _ _ s1 _ b fmt _ ih => exact ih (List.mem_append_left _ hin) h
  | case9 => cases h
  | case10 _ s c _ _ s1 _ b fmt _ s2 _ rest _ ih => exact ih (List.mem_append_left _ hin) h

theorem buildItems_unknown {dateFormat : String} {patterns : List (Nat × String)} {entry : Nat × String}
    (hin : entry ∈ patterns) (h : itemOf dateFormat entry = none) : (buildItems dateFormat patterns).2 = true := by
  induction patterns with
  | nil => cases hin
  | cons first patterns ih =>
    cases hf : itemOf dateFormat first with
    | none => simp only [buildItems, hf]
    | some item =>
      rcases List.mem_cons.mp hin with rfl | hin
      · rw [h] at hf
        cases hf
      · simp only [buildItems, hf, ih hin]

theorem itemOf_unknown {c : Char} (hmem : c ∉ letters) (hd : c ≠ 'd') (dateFormat : String) :
    itemOf dateFormat (1, c.toString) = none := by
  have hkeys : ∀ key ∈ s_format_items.map Prod.fst, key = "d" ∨ key ∈ letters.map Char.toString := by
    decide
  have hinj : ∀ c' : Char, c.toString = c'.toString → c = c' := by
    intro c' he
    have hl := congrArg String.toList he
    simpa [Char.toString] using hl
  have hne : c.toString ≠ "d" := fun he => hd (hinj 'd' he)
  have hnone : s_format_items.lookup c.toString = none := by
    rw [List.lookup_eq_none_iff]
    intro entry hentry
    rw [bne_iff_ne]
    intro he
    rcases hkeys entry.1 (List.mem_map.mpr ⟨entry, hentry, rfl⟩) with hk | hk
    · exact hne (he.trans hk)
    · obtain ⟨c', hc', hk⟩ := List.mem_map.mp hk
      exact hmem (hinj c' (he.trans hk.symm) ▸ hc')
  rw [itemOf, if_neg Nat.one_ne_zero, if_neg hne, hnone]
  rfl

theorem scan_unclosed {past : Char} {fmt : List Char} {s : Scan} (h : fmt.dropWhile (· ≠ '}') = []) :
    scan past ('d' :: '{' :: fmt) false s = none := by
  rw [scan]
  simp only [Char.reduceEq, ↓reduceIte, ne_eq, not_true_eq_false, Bool.false_eq_true]
  split
  · rfl
  · rename_i hcons
    rw [h] at hcons
    cases hcons

theorem refused_scan {past : Char} {pattern rest : List Char} {s s' : Scan}
    (h : scan past pattern true s = scan past rest true s') : refused past pattern s = refused past rest s' := by
  unfold refused
  rw [h]

theorem refused_none {past : Char} {pattern : List Char} {s : Scan} (h : scan past pattern true s = none) :
    refused past pattern s = true := by
  unfold refused
  rw [h]

theorem refused_known {past : Char} {pattern : List Char} {s s' : Scan} (h : scan past pattern true s = some s')
    (hs : Known s'.patterns) : refused past pattern s = false := by
  unfold refused
  rw [h]
  dsimp only
  rw [buildItems_known _ (Scan.known_flush hs)]

/-- An unknown letter is refused, whatever comes after it. -/
theorem refused_unknown {past : Char} {c : Char} {rest : List Char} {s : Scan} (hmem : c ∉ letters) (hd : c ≠ 'd') :
    refused past ('%' :: c :: rest) s = true := by
  cases hscan : scan past ('%' :: c :: rest) true s with
  | none => exact refused_none hscan
  | some s' =>
    have hin : (1, c.toString) ∈ s'.patterns := by
      rw [scan_percent, scan_letter hd] at hscan
      exact scan_mem (List.mem_append_right _ (List.mem_singleton.mpr rfl)) hscan
    unfold refused
    rw [hscan]
    exact buildItems_unknown (mem_flush hin) (itemOf_unknown hmem hd _)

theorem refused_iff {past : Char} {pattern : List Char} {s : Scan} (hs : Known s.patterns) :
    refused past pattern s = true ↔ ending pattern = .broken ∨ ending pattern = .bareDate ∧ past ≠ '}' := by
  fun_induction ending pattern generalizing s with
  | case1 => simp [refused_known (scan_nil true) hs]
  | case2 c rest hc ih =>
    rw [refused_scan (scan_char (by simpa using hc))]
    exact ih hs
  | case3 c hc =>
    rw [not_not.mp hc, refused_known (scan_percent.trans (scan_nil false)) (Scan.known_flush hs)]
    simp
  | case4 c hc c' rest hmem ih =>
    have hd : c' ≠ 'd' := by
      rintro rfl
      exact absurd hmem (by decide)
    rw [not_not.mp hc, refused_scan (scan_percent.trans (scan_letter hd))]
    refine ih ((Scan.known_flush hs).append (known_one fun d => ?_))
    rcases mem_letters hmem with rfl | ⟨letter, rfl⟩
    · rfl
    · obtain ⟨item, hitem, -⟩ := itemOf_letter d letter
      rw [hitem]
      rfl
  | case5 c hc c' rest hmem hd =>
    rw [not_not.mp hc, refused_unknown hmem hd]
    simp
  | case6 c hc c' hmem hd =>
    rw [not_not.mp hc, not_not.mp hd]
    have hscan : scan past ['%', 'd'] true s = scan past ['d'] false { s with patterns := s.flush, tmp := "" } :=
      scan_percent
    by_cases hp : past = '}'
    · rw [scan_lastDate, if_pos hp] at hscan
      rw [refused_known hscan ((Scan.known_flush hs).append (known_one fun _ => rfl))]
      simp [hp]
    · rw [scan_lastDate, if_neg hp] at hscan
      rw [refused_none hscan]
      simp [hp]
  | case7 c hc c' hmem hd b fmt hb ih =>
    rw [not_not.mp hc, not_not.mp hd, refused_scan (scan_percent.trans (scan_date hb))]
    exact ih ((Scan.known_flush hs).append (known_one fun _ => rfl))
  | case8 c hc c' hmem hd b fmt hb hdrop =>
    rw [not_not.mp hc, not_not.mp hd, not_not.mp hb, refused_none (scan_percent.trans (scan_unclosed hdrop))]
    simp
  | case9 c hc c' hmem hd b fmt hb c'' rest hdrop ih =>
    obtain ⟨hfmt, hno⟩ := dropWhile_fmt hdrop
    rw [not_not.mp hc, not_not.mp hd, not_not.mp hb, hfmt, refused_scan (scan_percent.trans (scan_dateWith hno))]
    exact ih ((Scan.known_flush hs).append (known_one fun _ => rfl))

/-! ## The code and the grammar -/

theorem PartsThen.trans {tail tail' pattern : List Char} (h : PartsThen tail pattern) (h' : PartsThen tail' tail) :
    PartsThen tail' pattern := by
  induction h with
  | done => exact h'
  | char hc _ ih => exact .char hc ih
  | percent _ ih => exact .percent ih
  | item letter _ ih => exact .item letter ih
  | date hhead _ ih => exact .date hhead ih
  | dateWith hfmt _ ih => exact .dateWith hfmt ih

theorem inGrammar_iff (pattern : String) :
    InGrammar pattern ↔ ending pattern.toList = .whole ∨ ending pattern.toList = .bareDate := by
  constructor
  · intro h
    rcases ending_complete h with he | ⟨-, he⟩
    · exact .inl (he.trans (by rw [ending]))
    · exact .inr he
  · have hdate : PartsThen [] ['%', 'd'] := .date nofun .done
    rintro (he | he)
    · have h := ending_sound pattern.toList (by rw [he]; nofun)
      rwa [he] at h
    · have h := ending_sound pattern.toList (by rw [he]; nofun)
      rw [he] at h
      exact h.trans hdate

theorem unfinished_iff (pattern : String) : Unfinished pattern ↔ ending pattern.toList = .unfinished := by
  constructor
  · intro h
    rcases ending_complete h with he | ⟨he, -⟩
    · exact he.trans ending_unfinished
    · cases he
  · intro he
    have h := ending_sound pattern.toList (by rw [he]; nofun)
    rwa [he] at h

theorem endsInDate_iff (pattern : String) : EndsInDate pattern ↔ ending pattern.toList = .bareDate := by
  constructor
  · intro h
    rcases ending_complete h with he | ⟨-, he⟩
    · exact he.trans ending_bareDate
    · exact he
  · intro he
    have h := ending_sound pattern.toList (by rw [he]; nofun)
    rwa [he] at h

theorem init_error_iff (past : Char) (pattern : String) : (LogFormatter.init past pattern).m_error = true ↔
    ending pattern.toList = .broken ∨ ending pattern.toList = .bareDate ∧ past ≠ '}' := by
  rw [init_refused]
  exact refused_iff fun _ h => nomatch h

theorem accepts_iff (past : Char) (pattern : String) :
    ((LogFormatter.init past pattern).m_error = false ↔ InGrammar pattern) ↔
      ¬Unfinished pattern ∧ ¬(EndsInDate pattern ∧ past ≠ '}') := by
  rw [inGrammar_iff, unfinished_iff, endsInDate_iff, ← Bool.not_eq_true, init_error_iff]
  cases ending pattern.toList <;> simp

/-- "%" is taken, and "%d" refused, with a null byte past it. -/
theorem unfinished_taken :
    ((LogFormatter.init (Char.ofNat 0) "%").m_error = false ∧ ¬InGrammar "%") ∧
      (LogFormatter.init (Char.ofNat 0) "%d").m_error = true ∧ InGrammar "%d" := by
  have hpercent : ending "%".toList = .unfinished := ending_unfinished
  have hdate : ending "%d".toList = .bareDate := ending_bareDate
  rw [← Bool.not_eq_true, init_error_iff, init_error_iff, inGrammar_iff, inGrammar_iff, hpercent, hdate]
  decide

end Sylar.Log
