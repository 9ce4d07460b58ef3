/-
  Sylar.Log.Formatter — LogFormatter (sylar/log.cpp): the scanner of `init` with its two
  buffers, the items it builds, and `format`.

  What localtime_r and strftime leave in the buffer of a date item is a parameter, a
  function of the format and the time. `past` is the byte that `init` reads when a bare
  %d ends the pattern: m_pattern[size + 1], out of range.

  A pattern is written as a list of `Part`s.

  Proved:
  - `init_error`: a well-formed list is refused exactly when it ends in a bare %d and the
    byte past the pattern does not close it.
  - `init_items`: the items print the parts in order, but every date item has the one
    format that all the %d{fmt} of the pattern make together.
  - `compositional_iff`: so a pattern prints as its parts do, each date with its own
    format, exactly when each of these formats prints as the joined one.
  - `oneFormat_iff`: whatever strftime does, that is when at most one format is named, and
    it stands alone or is the default.
  - `dates_run_together`: %d{%Y}%d{%m} does not.
-/

import Sylar.Log.Define
import Mathlib.Data.String.Basic

namespace Sylar.Log

def LogLevel.ToString : LogLevel → String
  | .FATAL => "FATAL"
  | .ALERT => "ALERT"
  | .CRIT => "CRIT"
  | .ERROR => "ERROR"
  | .WARN => "WARN"
  | .NOTICE => "NOTICE"
  | .INFO => "INFO"
  | .DEBUG => "DEBUG"
  | .NOTSET => "NOTSET"

structure LogEvent where
  m_level : LogLevel
  m_ss : String
  m_file : String
  m_line : Int
  m_elapse : Int
  m_threadId : Nat
  m_fiberId : Nat
  m_time : Int
  m_threadName : String
  m_loggerName : String
  deriving DecidableEq, Repr

/-! ## Items -/

inductive FormatItem where
  | Message
  | Level
  | Elapse
  | LoggerName
  | ThreadId
  | FiberId
  | ThreadName
  | DateTime (m_format : String)
  | FileName
  | Line
  | NewLine
  | Str (m_string : String)
  | Tab
  | PercentSign
  deriving DecidableEq, Repr

def DateTimeFormatItem (str : String) : FormatItem :=
  .DateTime (if str = "" then "%Y-%m-%d %H:%M:%S" else str)

def FormatItem.format (strftime : String → Int → String) (event : LogEvent) : FormatItem → String
  | .Message => event.m_ss
  | .Level => event.m_level.ToString
  | .Elapse => toString event.m_elapse
  | .LoggerName => event.m_loggerName
  | .ThreadId => toString event.m_threadId
  | .FiberId => toString event.m_fiberId
  | .ThreadName => event.m_threadName
  | .DateTime m_format => strftime m_format event.m_time
  | .FileName => event.m_file
  | .Line => toString event.m_line
  | .NewLine => "\n"
  | .Str m_string => m_string
  | .Tab => "\t"
  | .PercentSign => "%"

/-- The map from letters to factories. -/
def s_format_items : List (String × (String → FormatItem)) :=
  [("m", fun _ => .Message), ("p", fun _ => .Level), ("c", fun _ => .LoggerName),
   ("d", DateTimeFormatItem), ("r", fun _ => .Elapse), ("f", fun _ => .FileName),
   ("l", fun _ => .Line), ("t", fun _ => .ThreadId), ("F", fun _ => .FiberId),
   ("N", fun _ => .ThreadName), ("%", fun _ => .PercentSign), ("T", fun _ => .Tab),
   ("n", fun _ => .NewLine)]

/-! ## init -/

/-- The locals of the scanner. An entry of `patterns` is (0, literal text) or (1, letter). -/
structure Scan where
  patterns : List (Nat × String) := []
  tmp : String := ""
  dateFormat : String := ""

/-- Pushes the literal text collected so far, if there is any. -/
def Scan.flush (s : Scan) : List (Nat × String) :=
  if s.tmp = "" then s.patterns else s.patterns ++ [(0, s.tmp)]

/-- The while loop, with what is left of m_pattern; `none` where it breaks with an error. -/
def scan (past : Char) (rest : List Char) (parsing_string : Bool) (s : Scan) : Option Scan :=
  match rest with
  | [] => some s
  | c :: rest =>
    if c = '%' then
      if parsing_string then scan past rest false { s with patterns := s.flush, tmp := "" }
      else scan past rest true { s with patterns := s.patterns ++ [(1, c.toString)] }
    else if parsing_string then scan past rest true { s with tmp := s.tmp.push c }
    else
      let s := { s with patterns := s.patterns ++ [(1, c.toString)] }
      if c ≠ 'd' then scan past rest true s
      else
        match rest with
        | [] => if past = '}' then some s else none
        | b :: fmt =>
          if b ≠ '{' then scan past (b :: fmt) true s
          else
            let s := { s with dateFormat := s.dateFormat ++ String.ofList (fmt.takeWhile (· ≠ '}')) }
            match _h : fmt.dropWhile (· ≠ '}') with
            | [] => none
            | _ :: rest => scan past rest true s
termination_by rest.length
decreasing_by
  all_goals simp only [List.length_cons]
  any_goals omega
  have := congrArg List.length _h
  have := (List.dropWhile_suffix (l := fmt) (· ≠ '}')).length_le
  simp only [List.length_cons] at *
  omega

/-- The item of one entry; `none` where its letter is unknown. -/
def itemOf (dateFormat : String) : Nat × String → Option FormatItem
  | (patternType, patternStr) =>
    if patternType = 0 then some (.Str patternStr)
    else if patternStr = "d" then some (DateTimeFormatItem dateFormat)
    else (s_format_items.lookup patternStr).map (· patternStr)

/-- The items up to the first unknown letter, and whether there was one. -/
def buildItems (dateFormat : String) : List (Nat × String) → List FormatItem × Bool
  | [] => ([], false)
  | pattern :: patterns =>
    match itemOf dateFormat pattern with
    | some item => (item :: (buildItems dateFormat patterns).1, (buildItems dateFormat patterns).2)
    | none => ([], true)

structure LogFormatter where
  m_pattern : String
  m_items : List FormatItem
  m_error : Bool
  deriving DecidableEq, Repr

def LogFormatter.init (past : Char) (m_pattern : String) : LogFormatter :=
  match scan past m_pattern.toList true {} with
  | none => { m_pattern, m_items := [], m_error := true }
  | some s =>
    { m_pattern, m_items := (buildItems s.dateFormat s.flush).1, m_error := (buildItems s.dateFormat s.flush).2 }

def LogFormatter.format (strftime : String → Int → String) (self : LogFormatter) (event : LogEvent) : String :=
  self.m_items.foldl (fun ss formatItem => ss ++ formatItem.format strftime event) ""

/-! ## Patterns by parts -/

/-- The letters that stand for themselves alone. -/
inductive Letter where
  | m | p | c | r | f | l | t | F | N | T | n
  deriving DecidableEq, Repr

def Letter.char : Letter → Char
  | .m => 'm'
  | .p => 'p'
  | .c => 'c'
  | .r => 'r'
  | .f => 'f'
  | .l => 'l'
  | .t => 't'
  | .F => 'F'
  | .N => 'N'
  | .T => 'T'
  | .n => 'n'

def Letter.output (event : LogEvent) : Letter → String
  | .m => event.m_ss
  | .p => event.m_level.ToString
  | .c => event.m_loggerName
  | .r => toString event.m_elapse
  | .f => event.m_file
  | .l => toString event.m_line
  | .t => toString event.m_threadId
  | .F => toString event.m_fiberId
  | .N => event.m_threadName
  | .T => "\t"
  | .n => "\n"

inductive Part where
  | text (s : String)
  /-- `%%`. -/
  | percent
  | item (letter : Letter)
  /-- `%d`. -/
  | date
  /-- `%d{fmt}`. -/
  | dateWith (fmt : String)
  deriving DecidableEq, Repr

namespace Part

def write : Part → List Char
  | text s => s.toList
  | percent => ['%', '%']
  | item letter => ['%', letter.char]
  | date => ['%', 'd']
  | dateWith fmt => '%' :: 'd' :: '{' :: (fmt.toList ++ ['}'])

/-- What a date part has between its braces. -/
def fmt? : Part → Option String
  | date => some ""
  | dateWith fmt => some fmt
  | _ => none

/-- The format a date is printed with, given what stands between its braces. -/
def effective (fmt : String) : String := if fmt = "" then "%Y-%m-%d %H:%M:%S" else fmt

/-- What the part prints when a date between braces `fmt` is printed with `format fmt`. -/
def shown (strftime : String → Int → String) (event : LogEvent) (format : String → String) : Part → String
  | text s => s
  | percent => "%"
  | item letter => letter.output event
  | date => strftime (format "") event.m_time
  | dateWith fmt => strftime (format fmt) event.m_time

/-- What the part prints by itself. -/
def output (strftime : String → Int → String) (event : LogEvent) (part : Part) : String :=
  part.shown strftime event effective

def WellFormed : Part → Prop
  | text s => s ≠ "" ∧ '%' ∉ s.toList
  | dateWith fmt => '}' ∉ fmt.toList
  | _ => True

end Part

namespace Parts

/-- The formats of the date parts, in order. -/
def fmts (parts : List Part) : List String := parts.filterMap Part.fmt?

def write (parts : List Part) : List Char := parts.flatMap Part.write

def pattern (parts : List Part) : String := String.ofList (write parts)

/-- Every part is well formed and no bare %d has a brace after it. -/
def WellFormed : List Part → Prop
  | [] => True
  | part :: rest => part.WellFormed ∧ (part = .date → (write rest).head? ≠ some '{') ∧ WellFormed rest

/-- The format that `init` leaves in its one buffer. -/
def joined (parts : List Part) : String := Part.effective (String.join (fmts parts))

end Parts

/-! ## The scanner, part by part -/

/-- The locals once a part has been scanned. -/
def Scan.read (s : Scan) : Part → Scan
  | .text t => { s with tmp := s.tmp ++ t }
  | .percent => { s with patterns := s.flush ++ [(1, "%")], tmp := "" }
  | .item letter => { s with patterns := s.flush ++ [(1, letter.char.toString)], tmp := "" }
  | .date => { s with patterns := s.flush ++ [(1, "d")], tmp := "" }
  | .dateWith fmt => { patterns := s.flush ++ [(1, "d")], tmp := "", dateFormat := s.dateFormat ++ fmt }

variable {past : Char} {s : Scan} {rest : List Char} {parts : List Part}

theorem scan_nil (p : Bool) : scan past [] p s = some s := by
  rw [scan]

theorem scan_percent :
    scan past ('%' :: rest) true s = scan past rest false { s with patterns := s.flush, tmp := "" } := by
  rw [scan]
  simp

theorem scan_char {c : Char} (h : c ≠ '%') :
    scan past (c :: rest) true s = scan past rest true { s with tmp := s.tmp.push c } := by
  rw [scan]
  simp [h]

/-- A letter other than `d`, `%` among them. -/
theorem scan_letter {c : Char} (h : c ≠ 'd') :
    scan past (c :: rest) false s = scan past rest true { s with patterns := s.patterns ++ [(1, c.toString)] } := by
  rw [scan]
  by_cases hc : c = '%'
  · simp [hc]
  · simp [hc, h]

/-- Literal text goes to `tmp`. -/
theorem scan_chars {t : List Char} (h : '%' ∉ t) :
    scan past (t ++ rest) true s = scan past rest true { s with tmp := s.tmp ++ String.ofList t } := by
  induction t generalizing s with
  | nil => simp
  | cons c t ih =>
    rw [List.cons_append, scan_char (List.ne_of_not_mem_cons h).symm, ih (List.not_mem_of_not_mem_cons h)]
    simp only [String.push_eq_append, String.append_assoc, ← String.ofList_cons]

theorem takeWhile_fmt {fmt : List Char} (rest : List Char) (h : '}' ∉ fmt) :
    (fmt ++ '}' :: rest).takeWhile (· ≠ '}') = fmt ∧ (fmt ++ '}' :: rest).dropWhile (· ≠ '}') = '}' :: rest := by
  have hall : ∀ c ∈ fmt, decide (c ≠ '}') = true := by
    intro c hc
    have hne : c ≠ '}' := fun e => h (e ▸ hc)
    simpa using hne
  rw [List.takeWhile_append_of_pos hall, List.dropWhile_append_of_pos hall]
  simp

theorem scan_dateWith {fmt : List Char} (h : '}' ∉ fmt) :
    scan past ('d' :: '{' :: (fmt ++ '}' :: rest)) false s = scan past rest true
      { s with patterns := s.patterns ++ [(1, "d")], dateFormat := s.dateFormat ++ String.ofList fmt } := by
  obtain ⟨ht, hd⟩ := takeWhile_fmt rest h
  rw [scan]
  simp only [Char.reduceEq, ↓reduceIte, ne_eq, not_true_eq_false, Bool.false_eq_true]
  split
  · rename_i hnil
    rw [hd] at hnil
    cases hnil
  · rename_i hcons
    rw [hd] at hcons
    cases hcons
    rw [ht]
    rfl

/-- A bare %d with something after it that is no brace. -/
theorem scan_date {b : Char} (h : b ≠ '{') :
    scan past ('d' :: b :: rest) false s =
      scan past (b :: rest) true { s with patterns := s.patterns ++ [(1, "d")] } := by
  rw [scan]
  simp [h]

theorem scan_lastDate : scan past ['d'] false s =
    if past = '}' then some { s with patterns := s.patterns ++ [(1, "d")] } else none := by
  rw [scan]
  simp

theorem Letter.char_ne (letter : Letter) : letter.char ≠ 'd' := by
  cases letter <;> decide

theorem scan_part (part : Part) (hwf : part.WellFormed)
    (hdate : part = .date → rest ≠ [] ∧ rest.head? ≠ some '{') :
    scan past (part.write ++ rest) true s = scan past rest true (s.read part) := by
  cases part with
  | text t => rw [Part.write, scan_chars hwf.2, Scan.read, String.ofList_toList]
  | percent =>
    rw [Part.write, List.cons_append, scan_percent, List.cons_append, scan_letter (by decide)]
    rfl
  | item letter =>
    rw [Part.write, List.cons_append, scan_percent, List.cons_append, scan_letter letter.char_ne]
    rfl
  | date =>
    obtain ⟨hne, hhead⟩ := hdate rfl
    obtain ⟨b, rest, rfl⟩ := List.exists_cons_of_ne_nil hne
    rw [Part.write, List.cons_append, scan_percent, List.cons_append, List.nil_append,
      scan_date (by simpa using hhead)]
    rfl
  | dateWith fmt =>
    have hw : Part.write (.dateWith fmt) ++ rest = '%' :: 'd' :: '{' :: (fmt.toList ++ '}' :: rest) := by
      simp [Part.write]
    rw [hw, scan_percent, scan_dateWith hwf, String.ofList_toList]
    rfl

theorem Parts.write_ne_nil {part : Part} (hwf : part.WellFormed) : part.write ≠ [] := by
  cases part with
  | text t => exact fun h => hwf.1 (String.toList_eq_nil_iff.mp h)
  | percent => exact List.cons_ne_nil _ _
  | item => exact List.cons_ne_nil _ _
  | date => exact List.cons_ne_nil _ _
  | dateWith => exact List.cons_ne_nil _ _

/-- What the loop does with a well-formed pattern. -/
theorem scan_parts (past : Char) (s : Scan) (hwf : Parts.WellFormed parts) :
    scan past (Parts.write parts) true s =
      if parts.getLast? = some .date ∧ past ≠ '}' then none else some (parts.foldl Scan.read s) := by
  induction parts generalizing s with
  | nil => exact scan_nil true
  | cons part rest ih =>
    obtain ⟨hpart, hnext, hrest⟩ := hwf
    have hw : Parts.write (part :: rest) = part.write ++ Parts.write rest := List.flatMap_cons
    rw [hw, List.foldl_cons]
    cases rest with
    | nil =>
      by_cases hd : part = .date
      · subst hd
        have hlast : Part.write .date ++ Parts.write [] = ['%', 'd'] := rfl
        rw [hlast, scan_percent, scan_lastDate]
        by_cases hp : past = '}'
        · simp [hp, Scan.read]
        · simp [hp]
      · rw [scan_part part hpart (fun h => absurd h hd), ih _ hrest]
        simp [hd]
    | cons next rest =>
      have hne : Parts.write (next :: rest) ≠ [] := by
        rw [Parts.write, List.flatMap_cons]
        exact List.append_ne_nil_of_left_ne_nil (Parts.write_ne_nil hrest.1) _
      rw [scan_part part hpart (fun h => ⟨hne, hnext h⟩), ih _ hrest, List.getLast?_cons_cons]

/-! ## The items -/

/-- Entries that `init` has an item for, whatever the date format. -/
def Known (patterns : List (Nat × String)) : Prop :=
  ∀ pattern ∈ patterns, ∀ dateFormat, (itemOf dateFormat pattern).isSome

def itemsOf (dateFormat : String) (patterns : List (Nat × String)) : List FormatItem :=
  patterns.filterMap (itemOf dateFormat)

/-- The format of a date item. -/
def FormatItem.date? : FormatItem → Option String
  | .DateTime m_format => some m_format
  | _ => none

theorem buildItems_known {patterns : List (Nat × String)} (dateFormat : String) (h : Known patterns) :
    buildItems dateFormat patterns = (itemsOf dateFormat patterns, false) := by
  induction patterns with
  | nil => rfl
  | cons pattern patterns ih =>
    obtain ⟨item, hitem⟩ := Option.isSome_iff_exists.mp (h pattern (.head _) dateFormat)
    have ih' := ih (fun p hp => h p (.tail _ hp))
    simp only [buildItems, hitem, ih', itemsOf, List.filterMap_cons]

theorem Known.append {patterns patterns' : List (Nat × String)} (h : Known patterns) (h' : Known patterns') :
    Known (patterns ++ patterns') := by
  intro pattern hp
  rcases List.mem_append.mp hp with hp | hp
  · exact h pattern hp
  · exact h' pattern hp

theorem known_one {pattern : Nat × String} (h : ∀ d, (itemOf d pattern).isSome) : Known [pattern] := by
  intro p hp
  rw [List.mem_singleton.mp hp]
  exact h

theorem itemOf_letter (d : String) (letter : Letter) :
    ∃ item, itemOf d (1, letter.char.toString) = some item ∧ item.date? = none ∧
      ∀ strftime event, item.format strftime event = letter.output event := by
  cases letter <;> exact ⟨_, rfl, rfl, fun _ _ => rfl⟩

theorem itemOf_percent (d : String) : itemOf d (1, "%") = some .PercentSign := rfl

theorem itemOf_date (d : String) : itemOf d (1, "d") = some (.DateTime (Part.effective d)) := rfl

theorem Scan.known_flush (h : Known s.patterns) : Known s.flush := by
  unfold Scan.flush
  split
  · exact h
  · exact h.append (known_one fun _ => rfl)

theorem Scan.known_read (part : Part) (h : Known s.patterns) : Known (s.read part).patterns := by
  cases part with
  | text => exact h
  | percent => exact (known_flush h).append (known_one fun _ => rfl)
  | item letter =>
    refine (known_flush h).append (known_one fun d => ?_)
    obtain ⟨item, hitem, -⟩ := itemOf_letter d letter
    rw [hitem]
    rfl
  | date => exact (known_flush h).append (known_one fun _ => rfl)
  | dateWith => exact (known_flush h).append (known_one fun _ => rfl)

section Printed

variable (strftime : String → Int → String) (event : LogEvent) (d : String)

def printed (items : List FormatItem) : String := String.join (items.map (·.format strftime event))

theorem LogFormatter.format_eq (self : LogFormatter) :
    self.format strftime event = printed strftime event self.m_items := by
  rw [LogFormatter.format, printed, String.join_eq_foldl, List.foldl_map]

theorem printed_append (items items' : List FormatItem) :
    printed strftime event (items ++ items') = printed strftime event items ++ printed strftime event items' := by
  simp only [printed, List.map_append, String.join_append]

/-- What is printed of a scan that stops here, pending text included. -/
theorem printed_flush :
    printed strftime event (itemsOf d s.flush) = printed strftime event (itemsOf d s.patterns) ++ s.tmp := by
  unfold Scan.flush
  split
  · rename_i h
    rw [h, String.append_empty]
  · have htmp : itemsOf d [(0, s.tmp)] = [.Str s.tmp] := rfl
    rw [itemsOf, List.filterMap_append, printed_append]
    change _ ++ printed strftime event (itemsOf d [(0, s.tmp)]) = _
    rw [htmp]
    simp [printed, FormatItem.format, itemsOf]

/-- One entry more, after a flush. -/
theorem printed_push {pattern : Nat × String} {item : FormatItem} (h : itemOf d pattern = some item) :
    printed strftime event (itemsOf d (s.flush ++ [pattern])) =
      printed strftime event (itemsOf d s.flush) ++ item.format strftime event := by
  rw [itemsOf, List.filterMap_append, printed_append]
  simp [itemsOf, h, printed]

theorem printed_read (part : Part) :
    printed strftime event (itemsOf d (s.read part).flush) =
      printed strftime event (itemsOf d s.flush) ++ part.shown strftime event fun _ => Part.effective d := by
  cases part with
  | text t =>
    rw [printed_flush, printed_flush]
    simp only [Scan.read, Part.shown, String.append_assoc]
  | percent => exact printed_push strftime event d (itemOf_percent d)
  | item letter =>
    obtain ⟨item, hitem, -, hout⟩ := itemOf_letter d letter
    rw [Part.shown, ← hout strftime event]
    exact printed_push strftime event d hitem
  | date => exact printed_push strftime event d (itemOf_date d)
  | dateWith => exact printed_push strftime event d (itemOf_date d)

end Printed

/-- The formats of the date items. -/
def dateFormats (items : List FormatItem) : List String := items.filterMap FormatItem.date?

theorem dateFormats_flush (d : String) :
    dateFormats (itemsOf d s.flush) = dateFormats (itemsOf d s.patterns) := by
  unfold Scan.flush
  split
  · rfl
  · simp [itemsOf, dateFormats, itemOf, FormatItem.date?]

theorem dateFormats_push (d : String) {pattern : Nat × String} {item : FormatItem} (h : itemOf d pattern = some item) :
    dateFormats (itemsOf d (s.flush ++ [pattern])) = dateFormats (itemsOf d s.flush) ++ item.date?.toList := by
  simp only [itemsOf, List.filterMap_append, dateFormats, List.filterMap_cons, h, List.filterMap_nil]
  cases item.date? <;> rfl

theorem dateFormats_read (d : String) (part : Part) :
    dateFormats (itemsOf d (s.read part).flush) =
      dateFormats (itemsOf d s.flush) ++ part.fmt?.toList.map fun _ => Part.effective d := by
  cases part with
  | text t =>
    rw [dateFormats_flush, dateFormats_flush]
    exact (List.append_nil _).symm
  | percent => exact dateFormats_push d (itemOf_percent d)
  | item letter =>
    obtain ⟨item, hitem, hdate, -⟩ := itemOf_letter d letter
    have hpush := dateFormats_push (s := s) d hitem
    rw [hdate] at hpush
    exact hpush
  | date => exact dateFormats_push d (itemOf_date d)
  | dateWith => exact dateFormats_push d (itemOf_date d)

theorem Scan.dateFormat_read (part : Part) :
    (s.read part).dateFormat = s.dateFormat ++ String.join part.fmt?.toList := by
  cases part <;> simp [Scan.read, Part.fmt?]

/-! ## Whole patterns -/

theorem read_all (s : Scan) (hs : Known s.patterns) (parts : List Part) :
    Known (parts.foldl Scan.read s).patterns ∧
      (parts.foldl Scan.read s).dateFormat = s.dateFormat ++ String.join (Parts.fmts parts) ∧
      ∀ d, (∀ strftime event, printed strftime event (itemsOf d (parts.foldl Scan.read s).flush) =
          printed strftime event (itemsOf d s.flush) ++
            String.join (parts.map fun part => part.shown strftime event fun _ => Part.effective d)) ∧
        dateFormats (itemsOf d (parts.foldl Scan.read s).flush) =
          dateFormats (itemsOf d s.flush) ++ (Parts.fmts parts).map fun _ => Part.effective d := by
  induction parts generalizing s with
  | nil => simp [hs, Parts.fmts]
  | cons part rest ih =>
    obtain ⟨hknown, hformat, hitems⟩ := ih (s.read part) (Scan.known_read part hs)
    have hfmts : Parts.fmts (part :: rest) = part.fmt?.toList ++ Parts.fmts rest := by
      unfold Parts.fmts
      rw [List.filterMap_cons]
      cases part.fmt? <;> rfl
    refine ⟨hknown, ?_, fun d => ⟨fun strftime event => ?_, ?_⟩⟩
    · rw [List.foldl_cons, hformat, Scan.dateFormat_read, hfmts, String.join_append, String.append_assoc]
    · rw [List.foldl_cons, (hitems d).1, printed_read, List.map_cons, String.join_cons, String.append_assoc]
    · rw [List.foldl_cons, (hitems d).2, dateFormats_read, hfmts, List.map_append, List.append_assoc]

/-- What `init` makes of a well-formed pattern that it does not refuse. -/
theorem init_parts (past : Char) (hwf : Parts.WellFormed parts) (h : ¬(parts.getLast? = some .date ∧ past ≠ '}')) :
    LogFormatter.init past (Parts.pattern parts) =
      { m_pattern := Parts.pattern parts
        m_items := itemsOf (String.join (Parts.fmts parts)) (parts.foldl Scan.read {}).flush
        m_error := false } := by
  obtain ⟨hknown, hformat, -⟩ := read_all {} (fun _ h => (nomatch h)) parts
  have hscan := scan_parts past {} hwf
  rw [if_neg h] at hscan
  rw [LogFormatter.init, Parts.pattern, String.toList_ofList, hscan]
  simp only [buildItems_known _ (Scan.known_flush hknown), hformat, String.empty_append]

/-- The one kind of well-formed pattern that is refused: its last read is out of range. -/
theorem init_error (hwf : Parts.WellFormed parts) :
    (LogFormatter.init past (Parts.pattern parts)).m_error = true ↔ parts.getLast? = some .date ∧ past ≠ '}' := by
  constructor
  · intro herr
    by_contra h
    rw [init_parts past hwf h] at herr
    cases herr
  · intro h
    have hscan := scan_parts past {} hwf
    rw [if_pos h] at hscan
    rw [LogFormatter.init, Parts.pattern, String.toList_ofList, hscan]

/-- The parts are printed in order, every date with the joined format. -/
theorem init_items (hwf : Parts.WellFormed parts)
    (hacc : (LogFormatter.init past (Parts.pattern parts)).m_error = false) :
    (∀ strftime event, (LogFormatter.init past (Parts.pattern parts)).format strftime event =
        String.join (parts.map fun part => part.shown strftime event fun _ => Parts.joined parts)) ∧
      dateFormats (LogFormatter.init past (Parts.pattern parts)).m_items =
        (Parts.fmts parts).map fun _ => Parts.joined parts := by
  have hlast : ¬(parts.getLast? = some .date ∧ past ≠ '}') := by
    intro h
    rw [(init_error hwf).mpr h] at hacc
    cases hacc
  obtain ⟨-, -, hitems⟩ := read_all {} (fun _ h => (nomatch h)) parts
  obtain ⟨hprinted, hdates⟩ := hitems (String.join (Parts.fmts parts))
  rw [init_parts past hwf hlast]
  constructor
  · intro strftime event
    rw [LogFormatter.format_eq, hprinted]
    exact String.empty_append
  · rw [hdates]
    rfl

/-- What a formatter prints for its dates, in order. -/
def LogFormatter.dates (strftime : String → Int → String) (self : LogFormatter) (event : LogEvent) : List String :=
  (dateFormats self.m_items).map (strftime · event.m_time)

/-- The format prints at the event's time as the one joined from all the parts. -/
def PrintsAsJoined (strftime : String → Int → String) (event : LogEvent) (parts : List Part) (fmt : String) : Prop :=
  strftime (Part.effective fmt) event.m_time = strftime (Parts.joined parts) event.m_time

/-- Only the dates are printed with a format. -/
theorem shown_congr {strftime : String → Int → String} {event : LogEvent} {f g : String → String} {part : Part}
    (h : ∀ fmt ∈ part.fmt?, strftime (f fmt) event.m_time = strftime (g fmt) event.m_time) :
    part.shown strftime event f = part.shown strftime event g := by
  cases part with
  | text => rfl
  | percent => rfl
  | item => rfl
  | date => exact h "" rfl
  | dateWith fmt => exact h fmt rfl

/-- A pattern prints as its parts do, each date with its own format or with the default,
    exactly when every one of these formats prints as the joined one. -/
theorem compositional_iff (past : Char) (strftime : String → Int → String) (event : LogEvent) (parts : List Part)
    (hwf : Parts.WellFormed parts) (hacc : (LogFormatter.init past (Parts.pattern parts)).m_error = false) :
    (let self := LogFormatter.init past (Parts.pattern parts)
     self.format strftime event = String.join (parts.map (·.output strftime event)) ∧
       self.dates strftime event =
         (Parts.fmts parts).map fun fmt => strftime (Part.effective fmt) event.m_time) ↔
      ∀ fmt ∈ Parts.fmts parts, PrintsAsJoined strftime event parts fmt := by
  obtain ⟨hformat, hdates⟩ := init_items hwf hacc
  simp only [hformat, LogFormatter.dates, hdates, List.map_map]
  constructor
  · intro h fmt hfmt
    exact (List.map_inj_left.mp h.2 fmt hfmt).symm
  · intro h
    refine ⟨?_, List.map_congr_left fun fmt hfmt => (h fmt hfmt).symm⟩
    refine congrArg String.join (List.map_congr_left fun part hpart => shown_congr fun fmt hfmt => ?_)
    exact (h fmt (List.mem_filterMap.mpr ⟨part, hpart, hfmt⟩)).symm

/-! ## When the formats agree -/

theorem join_named (fmts : List String) : String.join (fmts.filter (· ≠ "")) = String.join fmts := by
  induction fmts with
  | nil => rfl
  | cons fmt fmts ih =>
    by_cases h : fmt = ""
    · subst h
      simpa using ih
    · rw [List.filter_cons_of_pos (by simpa using h), String.join_cons, String.join_cons, ih]

/-- No format is named, or one is and it stands alone or is the default. -/
def OneFormat (fmts : List String) : Prop :=
  fmts.filter (· ≠ "") = [] ∨
    ∃ fmt, fmts.filter (· ≠ "") = [fmt] ∧ (fmts = [fmt] ∨ fmt = Part.effective "")

theorem oneFormat_of_joined {fmts : List String}
    (h : ∀ fmt ∈ fmts, Part.effective fmt = Part.effective (String.join fmts)) : OneFormat fmts := by
  rcases hnamed : fmts.filter (· ≠ "") with _ | ⟨fmt, rest⟩
  · exact .inl hnamed
  · have hnonempty : ∀ a ∈ fmt :: rest, a ∈ fmts ∧ a ≠ "" := by
      intro a ha
      rw [← hnamed] at ha
      simpa using ha
    obtain ⟨hin, hne⟩ := hnonempty fmt (.head _)
    have hjoin : fmt ++ String.join rest = String.join fmts := by
      rw [← join_named fmts, hnamed, String.join_cons]
    have hjne : String.join fmts ≠ "" := fun e => hne (String.append_eq_empty_iff.mp (hjoin.trans e)).1
    have hfmt : fmt = String.join fmts := by
      have hself := h fmt hin
      rwa [Part.effective, if_neg hne, Part.effective, if_neg hjne] at hself
    -- the formats after the first would have to be empty
    have hrest : rest = [] := by
      rcases rest with _ | ⟨next, rest⟩
      · rfl
      · have hnil : next ++ String.join rest = "" := by simpa [← hfmt] using hjoin
        exact absurd (String.append_eq_empty_iff.mp hnil).1 (hnonempty next (.tail _ (.head _))).2
    subst hrest
    refine .inr ⟨fmt, hnamed, ?_⟩
    by_cases hempty : "" ∈ fmts
    · right
      rw [h "" hempty, ← hfmt, Part.effective, if_neg hne]
    · left
      rw [← hnamed, eq_comm, List.filter_eq_self]
      intro a ha
      have hane : a ≠ "" := fun e => hempty (e ▸ ha)
      simpa using hane

theorem joined_of_oneFormat {fmts : List String} (h : OneFormat fmts) :
    ∀ fmt ∈ fmts, Part.effective fmt = Part.effective (String.join fmts) := by
  intro a ha
  have hmem : a ≠ "" → a ∈ fmts.filter (· ≠ "") := by
    intro hne
    simp [ha, hne]
  rcases h with hnone | ⟨fmt, hone, halone | hdefault⟩
  · have hempty : a = "" := by
      by_contra hne
      rw [hnone] at hmem
      cases hmem hne
    rw [← join_named fmts, hnone, hempty]
    rfl
  · rw [halone] at ha ⊢
    rw [List.mem_singleton.mp ha, String.join_cons, String.join_nil, String.append_empty]
  · rw [← join_named fmts, hone, String.join_cons, String.join_nil, String.append_empty]
    by_cases hempty : a = ""
    · rw [hempty, hdefault]
      rfl
    · rw [hone] at hmem
      rw [List.mem_singleton.mp (hmem hempty)]

/-- Every date has the joined format, whatever strftime does with it. -/
theorem oneFormat_iff : OneFormat (Parts.fmts parts) ↔
    ∀ fmt ∈ Parts.fmts parts, Part.effective fmt = Parts.joined parts :=
  ⟨joined_of_oneFormat, oneFormat_of_joined⟩

/-! ## The test's pattern, and one with two dates -/

/-- strftime at 1970-01-01 00:00:00, for the conversions in use here. -/
def epochChars : List Char → List Char
  | '%' :: 'Y' :: fmt => '1' :: '9' :: '7' :: '0' :: epochChars fmt
  | '%' :: 'm' :: fmt => '0' :: '1' :: epochChars fmt
  | '%' :: 'd' :: fmt => '0' :: '1' :: epochChars fmt
  | '%' :: 'H' :: fmt => '0' :: '0' :: epochChars fmt
  | '%' :: 'M' :: fmt => '0' :: '0' :: epochChars fmt
  | '%' :: 'S' :: fmt => '0' :: '0' :: epochChars fmt
  | c :: fmt => c :: epochChars fmt
  | [] => []

def epochStrftime (fmt : String) (_ : Int) : String := String.ofList (epochChars fmt.toList)

def epochEvent : LogEvent where
  m_level := .ERROR
  m_ss := "err msg"
  m_file := "test_log.cpp"
  m_line := 50
  m_elapse := 3
  m_threadId := 1
  m_fiberId := 0
  m_time := 0
  m_threadName := "main"
  m_loggerName := "test_logger"

/-- `%d:%rms%T%p%T%c%T%f:%l %m%n`. -/
def testParts : List Part :=
  [.date, .text ":", .item .r, .text "ms", .item .T, .item .p, .item .T, .item .c, .item .T, .item .f,
   .text ":", .item .l, .text " ", .item .m, .item .n]

theorem testParts_wellFormed : Parts.WellFormed testParts := by
  simp [Parts.WellFormed, testParts, Part.WellFormed, Parts.write, Part.write]

theorem compositional_testParts :
    let self := LogFormatter.init ' ' (Parts.pattern testParts)
    self.format epochStrftime epochEvent = String.join (testParts.map (·.output epochStrftime epochEvent)) ∧
      self.dates epochStrftime epochEvent = ["1970-01-01 00:00:00"] := by
  have hacc : (LogFormatter.init ' ' (Parts.pattern testParts)).m_error = false := by
    rw [init_parts ' ' testParts_wellFormed (by decide)]
  have hone : OneFormat (Parts.fmts testParts) := .inl (by decide)
  refine (compositional_iff ' ' epochStrftime epochEvent testParts testParts_wellFormed hacc).mpr ?_
  intro fmt hfmt
  rw [PrintsAsJoined, oneFormat_iff.mp hone fmt hfmt]

/-- `%d{%Y}%d{%m}` prints `197001197001` in place of `197001`. -/
theorem dates_run_together :
    let parts := [Part.dateWith "%Y", Part.dateWith "%m"]
    let self := LogFormatter.init ' ' (Parts.pattern parts)
    Parts.WellFormed parts ∧ self.m_pattern = "%d\x7b%Y\x7d%d\x7b%m\x7d" ∧ self.m_error = false ∧
      self.format epochStrftime epochEvent = "197001197001" ∧
      String.join (parts.map (·.output epochStrftime epochEvent)) = "197001" := by
  have hwf : Parts.WellFormed [.dateWith "%Y", .dateWith "%m"] := by
    simp [Parts.WellFormed, Part.WellFormed]
  have hinit := init_parts ' ' hwf (by decide)
  simp only [hinit]
  refine ⟨hwf, ?_, ?_, ?_, ?_⟩
  · decide
  · trivial
  · decide
  · decide

end Sylar.Log
